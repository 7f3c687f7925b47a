import CommandShell.Numeral
import CommandShell.Script.Input

/-!
# Reading scripts

Tokens and commands are read by one family of functions, since a word may hold commands and a
command is made of words. Each function takes a number of steps that bounds its recursion;
`Input.stepBound` is enough of them unless the text of an alias starts the alias again in an input
of its own, and the entry points at the end use it.

The bodies of here-documents are read when the line of their operator ends. Until then the
trees hold tickets; `parseCommand` fills in the bodies before it returns.
-/

namespace CommandShell.Script

open Reader

/-- What surrounds the parts of a word. -/
inductive WordContext where
  /-- A word of a command. -/
  | base
  /-- The word after an operator in `${…}`, inside double quotes or not. -/
  | paramArg (inQuotes : Bool)
  /-- The body of a here-document. -/
  | hereDoc
  deriving DecidableEq, Repr

namespace WordContext

/-- Whether the context quotes like double quotes. -/
def inQuotes : WordContext → Bool
  | base => false
  | paramArg q => q
  | hereDoc => true

/-- Whether the context is the body of a here-document. -/
def isHereDoc : WordContext → Bool
  | hereDoc => true
  | _ => false

/-- Whether the context is the word of a parameter. -/
def isParamArg : WordContext → Bool
  | paramArg _ => true
  | _ => false

end WordContext

/-- The characters that end an unquoted word. -/
def isWordBreak (c : Char) : Bool :=
  (" \t\n;&|<>()" : Text).contains c

/-- The parameters with a special character for a name. -/
def isSpecialParam (c : Char) : Bool := ("@*#?-$!" : Text).contains c

/-- Parts read so far, last first, with their literal and escaped texts in reverse. -/
abbrev PartsSoFar := List Part

namespace PartsSoFar

/-- Adds a literal character. -/
def literal (c : Char) : PartsSoFar → PartsSoFar
  | .literal t :: ps => .literal (c :: t) :: ps
  | ps => .literal [c] :: ps

/-- Adds an escaped character. -/
def escaped (c : Char) : PartsSoFar → PartsSoFar
  | .escaped t :: ps => .escaped (c :: t) :: ps
  | ps => .escaped [c] :: ps

/-- The parts in order. -/
def sealed (ps : PartsSoFar) : List Part :=
  ps.reverse.map fun
    | .literal t => .literal t.reverse
    | .escaped t => .escaped t.reverse
    | p => p

end PartsSoFar

/-- The fault of a token that does not fit. -/
def unexpectedMessage (tk : Token) (expecting : Option Text) : Text :=
  "unexpected " ++ tk.kind.describe ++
    match expecting with
    | some kw => " (expecting \"" ++ kw ++ "\")"
    | none => []

/-- Fails because of a token that does not fit. -/
def unexpected {α : Type} (tk : Token) (expecting : Option Text := none) : Reader α :=
  failAt tk.line (.malformed (unexpectedMessage tk expecting))

/-- Fails because of a malformed `${…}`. -/
def badSubstitution {α : Type} : Reader α := fail (.malformed "bad substitution")

/-- The next character, which a `${…}` cannot do without. -/
def nextOfParam : Reader Char := do
  match ← next with
  | some c => return c
  | none => badSubstitution

/-- Reading went on for longer than any input allows. -/
def outOfSteps {α : Type} : Reader α := fail (.internal "reader did not finish")

/-- Takes characters while they satisfy `p`; they are added to `acc`, which is in reverse. -/
def takeWhile (p : Char → Bool) : Nat → Text → Reader Text
  | 0, _ => outOfSteps
  | n + 1, acc => do
    match ← peek with
    | some c =>
      if p c then
        let _ ← next
        takeWhile p n (c :: acc)
      else return acc.reverse
    | none => return acc.reverse

/-- Skips a comment. -/
def skipComment : Nat → Reader Unit
  | 0 => outOfSteps
  | n + 1 => do
    match ← peek with
    | some c =>
      if c = '\n' then return
      let _ ← next
      skipComment n
    | none => return

/-- Skips blanks, comments and continued lines before a token. -/
def skipBlanks : Nat → Reader Unit
  | 0 => outOfSteps
  | n + 1 => do
    match ← peek with
    | some ' ' | some '\t' =>
      let _ ← next
      skipBlanks n
    | some '#' =>
      skipComment n
      skipBlanks n
    | some '\\' =>
      let _ ← next
      if (← peek) = some '\n' then
        let _ ← next
        skipBlanks n
      else putBack '\\'
    | _ => return

/-- Reads up to the closing single quote. -/
def readSingleQuoted (start : Nat) : Nat → Text → Reader Text
  | 0, _ => outOfSteps
  | n + 1, acc => do
    match ← next with
    | some '\'' => return acc.reverse
    | some c => readSingleQuoted start n (c :: acc)
    | none => unterminated "quoted string" start

/-- Reads the text of a back-quoted command. A backslash goes before `$`, a back-quote and
itself, inside double quotes also before `"`, and with the newline after it. -/
def readBackQuotedText (inQuotes : Bool) (start : Nat) : Nat → Text → Reader Text
  | 0, _ => outOfSteps
  | n + 1, acc => do
    match ← next with
    | some '\x60' => return acc.reverse
    | some '\\' =>
      match ← next with
      | some '\n' => readBackQuotedText inQuotes start n acc
      | some c =>
        if c = '$' || c = '\x60' || c = '\\' || (inQuotes && c = '"') then
          readBackQuotedText inQuotes start n (c :: acc)
        else readBackQuotedText inQuotes start n (c :: '\\' :: acc)
      | none => unterminated "back-quoted command" start
    | some c => readBackQuotedText inQuotes start n (c :: acc)
    | none => unterminated "back-quoted command" start

/-- Reads one raw line with its newline; none at the end of the input. -/
def readRawLine : Nat → Text → Reader (Option Text)
  | 0, _ => outOfSteps
  | n + 1, acc => do
    match ← next with
    | some '\n' => return some ('\n' :: acc).reverse
    | some c => readRawLine n (c :: acc)
    | none => return if acc.isEmpty then none else some acc.reverse

/-- Reads the lines of a here-document up to its delimiter or the end of the input. The lines so
far are in reverse order. -/
def readHereDocLines (req : HereDocRequest) : Nat → List Text → Reader Text
  | 0, _ => outOfSteps
  | n + 1, acc => do
    match ← readRawLine n [] with
    | none => return acc.reverse.flatten
    | some l =>
      let l := if req.stripTabs then l.dropWhile (· == '\t') else l
      let bare := if l.getLast? = some '\n' then l.dropLast else l
      if bare = req.delimiter then return acc.reverse.flatten
      else readHereDocLines req n (l :: acc)

/-- Reads a redirection operator. -/
def readRedirectOp (fd : Option Nat) : Reader TokenKind := do
  let op : RedirectOp ← do
    match ← next with
    | some '<' =>
      match ← peek with
      | some '<' =>
        let _ ← next
        if (← peek) = some '-' then
          let _ ← next
          pure .hereDocStrip
        else pure .hereDoc
      | some '&' => let _ ← next; pure .dupIn
      | some '>' => let _ ← next; pure .readWrite
      | _ => pure .input
    | some '>' =>
      match ← peek with
      | some '>' => let _ ← next; pure .append
      | some '&' => let _ ← next; pure .dupOut
      | some '|' => let _ ← next; pure .clobber
      | _ => pure .output
    | _ => fail (.internal "redirection operator expected")
  return .redirect fd op

/-- Reads an operator of one character, or of two when `second` follows. -/
def readOperator (second : Char) (one two : TokenKind) : Reader TokenKind := do
  let _ ← next
  if (← peek) = some second then
    let _ ← next
    return two
  else return one

/-- The operator of a `${…}` from its first character. -/
def readParamOp (c : Char) : Reader ParamOp := do
  match c with
  | '-' => return .default
  | '=' => return .assign
  | '?' => return .error
  | '+' => return .alternative
  | '%' =>
    if (← peek) = some '%' then
      let _ ← next
      return .trimSuffixLong
    else return .trimSuffix
  | '#' =>
    if (← peek) = some '#' then
      let _ ← next
      return .trimPrefixLong
    else return .trimPrefix
  | _ => badSubstitution

/-- The rest of a parameter's name after its first character. -/
def readParamName (n : Nat) (first : Char) : Reader Text := do
  if Text.isNameStart first then return first :: (← takeWhile Text.isNameChar n [])
  else if Text.isDigit first then return first :: (← takeWhile Text.isDigit n [])
  else if isSpecialParam first then return [first]
  else badSubstitution

/-- A number that fits a descriptor, when the word is one. -/
def descriptorNumber? (w : Word) : Option Nat :=
  w.literal?.bind fun t =>
    if Text.isDigits t then (Numeral.unsigned? 10 t).filter (· < 0x80000000) else none

/-- Runs a reader on an input of its own. A failure there is a failure here, and what was expanded
there counts here. -/
def withInput {α : Type} (i : Input) (r : Reader α) : Reader (α × Input) := fun s =>
  match r.run i with
  | (.ok a, i') => (.ok (a, i'), { s with expanded := i'.expanded })
  | (.error e, i') => (.error e, { s with expanded := i'.expanded })

/-- What the reader finds where a command may start at the top level. -/
inductive Parsed where
  /-- A command. -/
  | command (n : Node)
  /-- A blank line. -/
  | empty
  /-- The end of the input. -/
  | done

mutual

/-- Reads the parts of a word up to the end that its context sets. `start` is the line of the
word, and `depth` counts the open braces in the word of a parameter. -/
def readParts (ctx : WordContext) (start : Nat) : Nat → Nat → PartsSoFar → Reader (List Part)
  | 0, _, _ => outOfSteps
  | n + 1, depth, ps => do
    let q := ctx.inQuotes
    match ← peek with
    | none =>
      if ctx.isParamArg then unterminated "parameter expansion" start else return ps.sealed
    | some c =>
      if ctx = .base && isWordBreak c then return ps.sealed
      let _ ← next
      if ctx.isParamArg && c = '\x7d' then
        match depth with
        | 0 => return ps.sealed
        | depth + 1 => readParts ctx start n depth (ps.literal c)
      else if ctx.isParamArg && c = '\x7b' then
        readParts ctx start n (depth + 1) (ps.literal c)
      else if c = '\\' then
        match ← next with
        | some '\n' => readParts ctx start n depth ps
        | some d =>
          if !q || d = '$' || d = '\x60' || d = '\\'
              || (!ctx.isHereDoc && (d = '"' || d = '\x7d')) then
            readParts ctx start n depth (ps.escaped d)
          else readParts ctx start n depth ((ps.literal '\\').literal d)
        | none => readParts ctx start n depth (ps.literal '\\')
      else if c = '\'' && !q then
        let t ← readSingleQuoted start n []
        readParts ctx start n depth (.singleQuoted t :: ps)
      else if c = '"' && !ctx.isHereDoc then
        let inner ← readDoubleQuoted start n []
        readParts ctx start n depth (.doubleQuoted inner :: ps)
      else if c = '$' then
        match ← readDollar n q with
        | some p => readParts ctx start n depth (p :: ps)
        | none => readParts ctx start n depth (ps.literal '$')
      else if c = '\x60' then
        let p ← readBackQuoted n q start
        readParts ctx start n depth (p :: ps)
      else readParts ctx start n depth (ps.literal c)
termination_by structural n => n

/-- Reads up to the closing double quote. -/
def readDoubleQuoted (start : Nat) : Nat → PartsSoFar → Reader (List Part)
  | 0, _ => outOfSteps
  | n + 1, ps => do
    match ← next with
    | none => unterminated "quoted string" start
    | some '"' => return ps.sealed
    | some '\\' =>
      match ← next with
      | some '\n' => readDoubleQuoted start n ps
      | some c =>
        if c = '$' || c = '\x60' || c = '"' || c = '\\' then readDoubleQuoted start n (ps.literal c)
        else readDoubleQuoted start n ((ps.literal '\\').literal c)
      | none => unterminated "quoted string" start
    | some '$' =>
      match ← readDollar n true with
      | some p => readDoubleQuoted start n (p :: ps)
      | none => readDoubleQuoted start n (ps.literal '$')
    | some '\x60' =>
      let p ← readBackQuoted n true start
      readDoubleQuoted start n (p :: ps)
    | some c => readDoubleQuoted start n (ps.literal c)
termination_by structural n => n

/-- Reads what follows a `$`; none when the `$` stands for itself. -/
def readDollar : Nat → Bool → Reader (Option Part)
  | 0, _ => outOfSteps
  | n + 1, q => do
    match ← peek with
    | none => return none
    | some c =>
      if c = '\x7b' then
        let _ ← next
        return some (← readBracedParam n q)
      else if c = '(' then
        let _ ← next
        if (← peek) = some '(' then
          let _ ← next
          return some (.arithmetic (← readArithmetic (← line) n 0 []))
        else return some (.command (← parseSubstitution n))
      else if Text.isNameStart c then
        return some (.param (← takeWhile Text.isNameChar n []) .plain false [] q)
      else if Text.isDigit c || isSpecialParam c then
        let _ ← next
        return some (.param [c] .plain false [] q)
      else return none
termination_by structural n => n

/-- Reads what follows `${`. -/
def readBracedParam : Nat → Bool → Reader Part
  | 0, _ => outOfSteps
  | n + 1, q => do
    let first ← nextOfParam
    let isLength ← if first = '#' then pure ((← peek) != some '\x7d') else pure false
    let first ← if isLength then nextOfParam else pure first
    let name ← readParamName n first
    let c ← nextOfParam
    if c = '\x7d' then
      return .param name (if isLength then .length else .plain) false [] q
    if isLength then badSubstitution
    let colon := c = ':'
    let c ← if colon then nextOfParam else pure c
    if colon && !("-=?+" : Text).contains c then badSubstitution
    let op ← readParamOp c
    let arg ← readParts (.paramArg q) (← line) n 0 []
    return .param name op colon arg q
termination_by structural n => n

/-- Reads what follows `$((`. -/
def readArithmetic (start : Nat) : Nat → Nat → PartsSoFar → Reader (List Part)
  | 0, _, _ => outOfSteps
  | n + 1, depth, ps => do
    match ← next with
    | none => unterminated "arithmetic expression" start
    | some '(' => readArithmetic start n (depth + 1) (ps.literal '(')
    | some ')' =>
      match depth with
      | depth + 1 => readArithmetic start n depth (ps.literal ')')
      | 0 =>
        if (← next) = some ')' then return ps.sealed
        else fail (.malformed "missing '))'")
    | some '$' =>
      match ← readDollar n true with
      | some p => readArithmetic start n depth (p :: ps)
      | none => readArithmetic start n depth (ps.literal '$')
    | some '\x60' =>
      let p ← readBackQuoted n true start
      readArithmetic start n depth (p :: ps)
    | some '\\' =>
      match ← next with
      | some '\n' | none => readArithmetic start n depth ps
      | some c => readArithmetic start n depth (ps.escaped c)
    | some '\'' =>
      let t ← readSingleQuoted start n []
      readArithmetic start n depth (.singleQuoted t :: ps)
    | some '"' =>
      let inner ← readDoubleQuoted start n []
      readArithmetic start n depth (.doubleQuoted inner :: ps)
    | some c => readArithmetic start n depth (ps.literal c)
termination_by structural n => n

/-- Reads what follows a back-quote: the text up to the next one is a script of its own. -/
def readBackQuoted : Nat → Bool → Nat → Reader Part
  | 0, _, _ => outOfSteps
  | n + 1, q, start => do
    let line ← line
    let within := (← get).inUse
    let t ← readBackQuotedText q start n []
    let i ← get
    let (nodes, _) ← withInput (i.nested within t line) (parseAllFrom n [])
    return .command (Node.ofList nodes)
termination_by structural n => n

/-- Reads the bodies of the given here-documents. -/
def readHereDocs : Nat → List HereDocRequest → Reader Unit
  | 0, _ => outOfSteps
  | _ + 1, [] => return
  | n + 1, req :: reqs => do
    let start ← line
    let within := (← get).inUse
    let raw ← readHereDocLines req n []
    let i ← get
    let parts ←
      if req.quoted then pure [.singleQuoted raw]
      else do
        let (parts, sub) ← withInput (i.nested within raw start) (readParts .hereDoc start n 0 [])
        pure (Part.fillAll sub.bodies parts)
    modify fun i => { i with bodies := (req.ticket, .mk raw parts start) :: i.bodies }
    readHereDocs n reqs
termination_by structural n => n

/-- Reads the bodies of all here-documents that wait for the end of the line. -/
def readPending : Nat → Reader Unit
  | 0 => outOfSteps
  | n + 1 => do
    let i ← get
    set { i with pending := [] }
    readHereDocs n i.pending
termination_by structural n => n

/-- Reads a token. -/
def nextToken : Nat → Reader Token
  | 0 => outOfSteps
  | n + 1 => do
    let i ← get
    if let some tk := i.pushback then
      set { i with pushback := none }
      return tk
    skipBlanks n
    let line ← line
    let kind : TokenKind ← do
      match ← peek with
      | none =>
        readPending n
        pure .endOfInput
      | some '\n' =>
        let _ ← next
        readPending n
        pure .newline
      | some ';' => readOperator ';' .semi .doubleSemi
      | some '&' => readOperator '&' .amp .andIf
      | some '|' => readOperator '|' .pipe .orIf
      | some '(' => let _ ← next; pure .leftParen
      | some ')' => let _ ← next; pure .rightParen
      | some '<' | some '>' => readRedirectOp none
      | some _ =>
        startCapture
        let parts ← readParts .base line n 0 []
        let w := Word.mk (← endCapture) parts line
        match descriptorNumber? w with
        | some fd =>
          match ← peek with
          | some '<' | some '>' => readRedirectOp (some fd)
          | _ => pure (.word w)
        | none => pure (.word w)
    return ⟨kind, line⟩
termination_by structural n => n

/-- The next token, left in place. -/
def peekToken : Nat → Reader Token
  | 0 => outOfSteps
  | n + 1 => do
    let tk ← nextToken n
    pushToken tk
    return tk
termination_by structural n => n

/-- Takes the token, which must be the given keyword. -/
def expectKeyword (kw : Text) : Nat → Reader Unit
  | 0 => outOfSteps
  | n + 1 => do
    let tk ← nextToken n
    if tk.isKeyword kw then return
    unexpected tk (some kw)
termination_by structural n => n

/-- Skips newlines. -/
def skipNewlines : Nat → Reader Unit
  | 0 => outOfSteps
  | n + 1 => do
    if (← peekToken n).isNewline then
      let _ ← nextToken n
      skipNewlines n
termination_by structural n => n

/-- Replaces a token that names an alias by the first token of its text, again and again. -/
def expandAlias : Nat → Token → Reader Token
  | 0, _ => outOfSteps
  | n + 1, tk => do
    match tk.literal?.filter fun name => !keywords.contains name with
    | none => return tk
    | some name =>
      match ← aliasText? name with
      | none => return tk
      | some text =>
        pushAlias name text
        expandAlias n (← nextToken n)
termination_by structural n => n

/-- Reads a token where a command may start. -/
def commandToken : Nat → Reader Token
  | 0 => outOfSteps
  | n + 1 => do
    let _ ← takeAliasBlank
    expandAlias n (← nextToken n)
termination_by structural n => n

/-- Reads one command line at the top level. -/
def parseTop : Nat → Reader Parsed
  | 0 => outOfSteps
  | n + 1 => do
    modify fun i => { i with primary := true }
    let tk ← nextToken n
    match tk.kind with
    | .endOfInput => return .done
    | .newline => return .empty
    | _ =>
      pushToken tk
      let node ← parseList true n []
      return .command (node.fill (← get).bodies)
termination_by structural n => n

/-- Reads commands up to the end of the input; those so far are in reverse order. -/
def parseAllFrom : Nat → List Node → Reader (List Node)
  | 0, _ => outOfSteps
  | n + 1, acc => do
    match ← parseTop n with
    | .done => return acc.reverse
    | .empty => parseAllFrom n acc
    | .command node => parseAllFrom n (node :: acc)
termination_by structural n => n

/-- Reads the rest of `$(…)`. -/
def parseSubstitution : Nat → Reader (Option Node)
  | 0 => outOfSteps
  | n + 1 => do
    skipNewlines n
    if (← peekToken n).isRightParen then
      let _ ← nextToken n
      return none
    let node ← parseInner n
    let tk ← nextToken n
    if tk.isRightParen then return some node
    unexpected tk (some ")")
termination_by structural n => n

/-- Reads a list of commands inside a compound command. -/
def parseInner : Nat → Reader Node
  | 0 => outOfSteps
  | n + 1 => do
    skipNewlines n
    parseList false n []
termination_by structural n => n

/-- Reads the commands of a list; those so far are in reverse order. At the top level the list
ends with its line, elsewhere before a token that closes it. -/
def parseList (top : Bool) : Nat → List Node → Reader Node
  | 0, _ => outOfSteps
  | n + 1, acc => do
    let node ← parseAndOr n
    let tk ← nextToken n
    let finish (node : Node) : Reader Node :=
      match Node.ofList (node :: acc).reverse with
      | some list => return list
      | none => fail (.internal "empty command list")
    let goOn (node : Node) : Reader Node := do
      if top then
        let tk ← peekToken n
        match tk.kind with
        | .newline =>
          let _ ← nextToken n
          finish node
        | .endOfInput => finish node
        | _ => parseList top n (node :: acc)
      else
        skipNewlines n
        if (← peekToken n).endsList then finish node else parseList top n (node :: acc)
    match tk.kind with
    | .amp => goOn (.mk (.background node) node.line)
    | .semi => goOn node
    | .newline => if top then finish node else goOn node
    | .endOfInput =>
      pushToken tk
      finish node
    | _ =>
      if top then unexpected tk
      else
        pushToken tk
        finish node
termination_by structural n => n

/-- Reads pipelines joined by `&&` and `||`. -/
def parseAndOr : Nat → Reader Node
  | 0 => outOfSteps
  | n + 1 => do
    let first ← parsePipeline n
    parseAndOrRest n first
termination_by structural n => n

/-- Reads further pipelines after `&&` and `||`. -/
def parseAndOrRest : Nat → Node → Reader Node
  | 0, _ => outOfSteps
  | n + 1, left => do
    let tk ← nextToken n
    match tk.kind with
    | .andIf =>
      skipNewlines n
      let right ← parsePipeline n
      parseAndOrRest n (.mk (.and left right) left.line)
    | .orIf =>
      skipNewlines n
      let right ← parsePipeline n
      parseAndOrRest n (.mk (.or left right) left.line)
    | _ =>
      pushToken tk
      return left
termination_by structural n => n

/-- Reads a pipeline, with `!` before it or not. -/
def parsePipeline : Nat → Reader Node
  | 0 => outOfSteps
  | n + 1 => do
    let first ← commandToken n
    let line := first.line
    let negated := first.isKeyword "!"
    let tk ← if negated then commandToken n else pure first
    let stage ← parseCommandAt n tk
    let stages ← parseStages n [stage]
    let node := match stages with
      | [single] => single
      | stages => .mk (.pipeline stages) line
    return if negated then .mk (.not node) line else node
termination_by structural n => n

/-- Reads further stages after `|`; those so far are in reverse order. -/
def parseStages : Nat → List Node → Reader (List Node)
  | 0, _ => outOfSteps
  | n + 1, acc => do
    let tk ← nextToken n
    match tk.kind with
    | .pipe =>
      skipNewlines n
      let tk ← commandToken n
      let stage ← parseCommandAt n tk
      parseStages n (stage :: acc)
    | _ =>
      pushToken tk
      return acc.reverse
termination_by structural n => n

/-- Reads the command that starts with a token. -/
def parseCommandAt : Nat → Token → Reader Node
  | 0, _ => outOfSteps
  | n + 1, first => do
    let line := first.line
    match first.kind with
    | .leftParen =>
      let body ← parseInner n
      let tk ← nextToken n
      if !tk.isRightParen then unexpected tk (some ")")
      let redirects ← parseRedirects n []
      return .mk (.subshell body redirects) line
    | .redirect .. => parseSimple n line [] [] [] first
    | .word w =>
      match w.literal? with
      | none => parseSimple n line [] [] [] first
      | some kw =>
        if kw = "if" then closeCompound n line (← parseIf n line)
        else if kw = "while" then closeCompound n line (← parseLoop n true line)
        else if kw = "until" then closeCompound n line (← parseLoop n false line)
        else if kw = "for" then closeCompound n line (← parseFor n line)
        else if kw = "case" then closeCompound n line (← parseCase n line)
        else if kw = "\x7b" then
          let body ← parseInner n
          expectKeyword "\x7d" n
          closeCompound n line (.mk (.brace body) line)
        else if listEnders.contains kw then unexpected first
        else parseSimple n line [] [] [] first
    | _ => unexpected first
termination_by structural n => n

/-- Reads the redirections after a compound command. -/
def closeCompound : Nat → Nat → Node → Reader Node
  | 0, _, _ => outOfSteps
  | n + 1, line, body => do
    match ← parseRedirects n [] with
    | [] => return body
    | redirects => return .mk (.redirected body redirects) line
termination_by structural n => n

/-- Reads the rest of a simple command. Its assignments, words and redirections so far are in
reverse order. -/
def parseSimple : Nat → Nat → List Word → List Word → List Redirect → Token → Reader Node
  | 0, _, _, _, _, _ => outOfSteps
  | n + 1, line, assigns, argv, redirects, tk => do
    let goOn (assigns argv : List Word) (redirects : List Redirect) : Reader Node := do
      let tk ← nextToken n
      if ← takeAliasBlank then
        let tk ← expandAlias n tk
        parseSimple n line assigns argv redirects tk
      else parseSimple n line assigns argv redirects tk
    match tk.kind with
    | .redirect fd op =>
      let r ← parseRedirect n fd op
      goOn assigns argv (r :: redirects)
    | .word w =>
      if argv.isEmpty && w.isAssignment then goOn (w :: assigns) argv redirects
      else if argv.isEmpty && assigns.isEmpty && redirects.isEmpty then
        if (← peekToken n).isLeftParen then parseFunction n w line
        else goOn assigns [w] redirects
      else goOn assigns (w :: argv) redirects
    | _ =>
      pushToken tk
      return .mk (.simple assigns.reverse argv.reverse redirects.reverse) line
termination_by structural n => n

/-- Reads the rest of a function definition after its name. -/
def parseFunction : Nat → Word → Nat → Reader Node
  | 0, _, _ => outOfSteps
  | n + 1, name, line => do
    let _ ← nextToken n
    let tk ← nextToken n
    if !tk.isRightParen then unexpected tk (some ")")
    match name.literal?.filter Text.isName with
    | none => failAt line (.malformed ("bad function name \"" ++ name.text ++ "\""))
    | some fname =>
      skipNewlines n
      let tk ← commandToken n
      let starts : List Text := ["\x7b", "if", "while", "until", "for", "case"]
      if tk.isLeftParen || tk.literal?.any starts.contains then
        let body ← parseCommandAt n tk
        return .mk (.function fname body) line
      else unexpected tk
termination_by structural n => n

/-- Reads the word after a redirection operator. -/
def parseRedirect : Nat → Option Nat → RedirectOp → Reader Redirect
  | 0, _, _ => outOfSteps
  | n + 1, fd, op => do
    let tk ← nextToken n
    match tk.kind with
    | .word w =>
      let fd := fd.getD op.defaultFd
      match op with
      | .hereDoc | .hereDocStrip =>
        let ticket ← requestHereDoc w.unquoted (op = .hereDocStrip) w.isQuoted
        return .hereDoc fd op (.pending ticket)
      | _ => return .word fd op w
    | _ => unexpected tk
termination_by structural n => n

/-- Reads redirections; those so far are in reverse order. -/
def parseRedirects : Nat → List Redirect → Reader (List Redirect)
  | 0, _ => outOfSteps
  | n + 1, acc => do
    let tk ← nextToken n
    match tk.kind with
    | .redirect fd op =>
      let r ← parseRedirect n fd op
      parseRedirects n (r :: acc)
    | _ =>
      pushToken tk
      return acc.reverse
termination_by structural n => n

/-- Reads what follows `if` or `elif`, up to `fi`. -/
def parseIf : Nat → Nat → Reader Node
  | 0, _ => outOfSteps
  | n + 1, line => do
    let cond ← parseInner n
    expectKeyword "then" n
    let thenBody ← parseInner n
    let tk ← nextToken n
    if tk.isKeyword "elif" then
      let rest ← parseIf n tk.line
      return .mk (.ifThen cond thenBody (some rest)) line
    else if tk.isKeyword "else" then
      let body ← parseInner n
      expectKeyword "fi" n
      return .mk (.ifThen cond thenBody (some body)) line
    else if tk.isKeyword "fi" then return .mk (.ifThen cond thenBody none) line
    else unexpected tk (some "fi")
termination_by structural n => n

/-- Reads what follows `while` or `until`, up to `done`. -/
def parseLoop : Nat → Bool → Nat → Reader Node
  | 0, _, _ => outOfSteps
  | n + 1, isWhile, line => do
    let cond ← parseInner n
    expectKeyword "do" n
    let body ← parseInner n
    expectKeyword "done" n
    return .mk (if isWhile then .whileDo cond body else .untilDo cond body) line
termination_by structural n => n

/-- Reads what follows `for`, up to `done`. -/
def parseFor : Nat → Nat → Reader Node
  | 0, _ => outOfSteps
  | n + 1, line => do
    let tk ← nextToken n
    match tk.literal?.filter Text.isName with
    | none => failAt tk.line (.malformed ("bad for loop variable " ++ tk.kind.describe))
    | some var =>
      skipNewlines n
      let tk ← nextToken n
      let items ←
        if tk.isKeyword "in" then pure (some (← parseItems n []))
        else do
          match tk.kind with
          | .semi => pure none
          | _ =>
            pushToken tk
            pure none
      skipNewlines n
      expectKeyword "do" n
      let body ← parseInner n
      expectKeyword "done" n
      return .mk (.forIn var items body) line
termination_by structural n => n

/-- Reads the words after `in`; those so far are in reverse order. -/
def parseItems : Nat → List Word → Reader (List Word)
  | 0, _ => outOfSteps
  | n + 1, acc => do
    let tk ← nextToken n
    match tk.kind with
    | .word w => parseItems n (w :: acc)
    | .semi | .newline => return acc.reverse
    | _ => unexpected tk (some "do")
termination_by structural n => n

/-- Reads what follows `case`, up to `esac`. -/
def parseCase : Nat → Nat → Reader Node
  | 0, _ => outOfSteps
  | n + 1, line => do
    let tk ← nextToken n
    match tk.kind with
    | .word subject =>
      skipNewlines n
      expectKeyword "in" n
      let arms ← parseArms n []
      return .mk (.caseOf subject arms) line
    | _ => unexpected tk
termination_by structural n => n

/-- Reads the arms of a `case`; those so far are in reverse order. -/
def parseArms : Nat → List CaseArm → Reader (List CaseArm)
  | 0, _ => outOfSteps
  | n + 1, acc => do
    skipNewlines n
    let tk ← nextToken n
    if tk.isKeyword "esac" then return acc.reverse
    let tk ← if tk.isLeftParen then nextToken n else pure tk
    let patterns ← parsePatterns n [] tk
    skipNewlines n
    let peeked ← peekToken n
    let body ← do
      match peeked.kind with
      | .doubleSemi => pure none
      | _ => if peeked.isKeyword "esac" then pure none else pure (some (← parseInner n))
    let arm := CaseArm.mk patterns body
    let tk ← nextToken n
    if tk.isKeyword "esac" then return (arm :: acc).reverse
    match tk.kind with
    | .doubleSemi => parseArms n (arm :: acc)
    | _ => unexpected tk (some ";;")
termination_by structural n => n

/-- Reads the patterns of an arm, the first of which starts with a token. -/
def parsePatterns : Nat → List Word → Token → Reader (List Word)
  | 0, _, _ => outOfSteps
  | n + 1, acc, tk => do
    match tk.kind with
    | .word w =>
      let separator ← nextToken n
      match separator.kind with
      | .pipe => parsePatterns n (w :: acc) (← nextToken n)
      | .rightParen => return (w :: acc).reverse
      | _ => unexpected separator (some ")")
    | _ => unexpected tk
termination_by structural n => n

end

/-- Reads a token. -/
def readToken : Reader Token := do nextToken (← get).stepBound

/-- Reads one command line at the top level. -/
def parseCommand : Reader Parsed := do parseTop (← get).stepBound

/-- Reads a whole input as one list of commands; none when there is only blank space. -/
def parseAll : Reader (Option Node) := do
  return Node.ofList (← parseAllFrom (← get).stepBound [])

end CommandShell.Script
