import CommandShell.Text.Name

/-!
# Scripts as trees

What a script is once it has been read: commands made of words and redirections. A word keeps
the text it was written as next to the parts that expansion works on, so that a tree can be
printed again as it was written. Every word and command knows the line it starts on.

The body of a here-document is read after the command it belongs to. Until then the redirection
holds a ticket for it.
-/

namespace CommandShell.Script

/-- What `${name…}` does with the parameter. -/
inductive ParamOp where
  /-- Its value. -/
  | plain
  /-- `#name`: the length of its value. -/
  | length
  /-- `-`: other text when it is unset. -/
  | default
  /-- `=`: the same, and assigns the text. -/
  | assign
  /-- `?`: an error when it is unset. -/
  | error
  /-- `+`: other text when it is set. -/
  | alternative
  | trimSuffix | trimSuffixLong | trimPrefix | trimPrefixLong
  deriving DecidableEq, Repr

/-- The operators of redirections. -/
inductive RedirectOp where
  | input | output | append | clobber | readWrite | dupIn | dupOut | hereDoc | hereDocStrip
  deriving DecidableEq, Repr

namespace RedirectOp

/-- The descriptor that is redirected when none is written. -/
def defaultFd : RedirectOp → Nat
  | input | readWrite | dupIn | hereDoc | hereDocStrip => 0
  | output | append | clobber | dupOut => 1

/-- The operator as it is written. -/
def text : RedirectOp → Text
  | input => "<" | output => ">" | append => ">>" | clobber => ">|" | readWrite => "<>"
  | dupIn => "<&" | dupOut => ">&" | hereDoc => "<<" | hereDocStrip => "<<-"

end RedirectOp

mutual

/-- A part of a word. How it was quoted shows in its kind. -/
inductive Part where
  /-- Unquoted text, or plain text inside double quotes. -/
  | literal (t : Text)
  /-- Characters after backslashes. -/
  | escaped (t : Text)
  /-- Text in single quotes. -/
  | singleQuoted (t : Text)
  /-- The parts between double quotes. -/
  | doubleQuoted (ps : List Part)
  /-- A parameter: its name, what is done with it, whether `:` stands before the operator, the
  word after the operator, and whether it stands inside double quotes. -/
  | param (name : Text) (op : ParamOp) (colon : Bool) (arg : List Part) (inQuotes : Bool)
  /-- A command whose output is inserted; none when there is only blank space. -/
  | command (body : Option Node)
  /-- An arithmetic expression. -/
  | arithmetic (ps : List Part)

/-- A word: the text it was written as, its parts, and its line. -/
inductive Word where
  | mk (text : Text) (parts : List Part) (line : Nat)

/-- The body of a here-document: still to be read, or read. -/
inductive HereDoc where
  | pending (ticket : Nat)
  | body (w : Word)

/-- A redirection of a descriptor to what a word names, or from a here-document. -/
inductive Redirect where
  | word (fd : Nat) (op : RedirectOp) (target : Word)
  | hereDoc (fd : Nat) (op : RedirectOp) (doc : HereDoc)

/-- One arm of a `case`: the patterns, and the commands if there are any. -/
inductive CaseArm where
  | mk (patterns : List Word) (body : Option Node)

/-- A command and the line it starts on. -/
inductive Node where
  | mk (command : Command) (line : Nat)

/-- The kinds of commands. -/
inductive Command where
  | simple (assigns argv : List Word) (redirects : List Redirect)
  | pipeline (stages : List Node)
  | not (body : Node)
  | and (left right : Node)
  | or (left right : Node)
  | list (left right : Node)
  | background (body : Node)
  | ifThen (cond thenBody : Node) (elseBody : Option Node)
  | whileDo (cond body : Node)
  | untilDo (cond body : Node)
  | forIn (var : Text) (items : Option (List Word)) (body : Node)
  | caseOf (subject : Word) (arms : List CaseArm)
  | subshell (body : Node) (redirects : List Redirect)
  | brace (body : Node)
  /-- A compound command with redirections after it. -/
  | redirected (body : Node) (redirects : List Redirect)
  | function (name : Text) (body : Node)

end

instance : Inhabited Part := ⟨.literal []⟩
instance : Inhabited Word := ⟨.mk [] [] 0⟩
instance : Inhabited Node := ⟨.mk (.simple [] [] []) 0⟩

namespace Word

/-- The text as written. -/
def text : Word → Text
  | mk t _ _ => t

/-- The parts that expansion works on. -/
def parts : Word → List Part
  | mk _ ps _ => ps

/-- The line the word starts on. -/
def line : Word → Nat
  | mk _ _ l => l

/-- Whether any part of the word is quoted. -/
def isQuoted (w : Word) : Bool :=
  w.parts.any fun
    | .escaped _ | .singleQuoted _ | .doubleQuoted _ => true
    | _ => false

/-- The text of a word that is one run of unquoted characters. -/
def literal? (w : Word) : Option Text :=
  match w.parts with
  | [.literal t] => some t
  | _ => none

/-- Whether the word is the given keyword, unquoted. -/
def isKeyword (w : Word) (kw : Text) : Bool := w.literal? == some kw

/-- Whether the word has the form of an assignment. -/
def isAssignment (w : Word) : Bool :=
  match w.parts with
  | .literal t :: _ => (Text.splitAssignment? t).isSome
  | _ => false

/-- Where the removal of quotes stands in a text. -/
inductive QuoteState where
  | bare | single | double
  deriving DecidableEq, Repr

/-- The text without its quoting characters. Inside double quotes a backslash goes only before
`$`, a back-quote, `"` and itself; one at the very end goes everywhere. -/
def unquoteFrom : QuoteState → Text → Text
  | _, [] => []
  | .bare, ['\\'] => []
  | .bare, '\\' :: c :: r => c :: unquoteFrom .bare r
  | .bare, c :: r =>
    if c = '\'' then unquoteFrom .single r
    else if c = '"' then unquoteFrom .double r
    else c :: unquoteFrom .bare r
  | .single, c :: r => if c = '\'' then unquoteFrom .bare r else c :: unquoteFrom .single r
  | .double, ['\\'] => []
  | .double, '\\' :: c :: r =>
    if c = '$' || c = '\x60' || c = '"' || c = '\\' then c :: unquoteFrom .double r
    else '\\' :: c :: unquoteFrom .double r
  | .double, c :: r => if c = '"' then unquoteFrom .bare r else c :: unquoteFrom .double r

/-- The word as written, less its quoting characters: the delimiter of a here-document. -/
def unquoted (w : Word) : Text := unquoteFrom .bare w.text

end Word

namespace Redirect

/-- The descriptor that is redirected. -/
def fd : Redirect → Nat
  | word fd .. | hereDoc fd .. => fd

/-- The operator. -/
def op : Redirect → RedirectOp
  | word _ op _ | hereDoc _ op _ => op

end Redirect

namespace Node

/-- The kind of command. -/
def command : Node → Command
  | mk c _ => c

/-- The line the command starts on. -/
def line : Node → Nat
  | mk _ l => l

/-- Whether a failure of the command itself counts for `set -e`. Other commands leave that to
what they contain. -/
def isSimple (n : Node) : Bool :=
  match n.command with
  | .simple .. | .pipeline _ | .subshell .. => true
  | _ => false

/-- Commands in a row as one list that leans to the left, on the line of the first. -/
def ofList : List Node → Option Node
  | [] => none
  | n :: ns => some (ns.foldl (fun left right => mk (.list left right) left.line) n)

end Node

/-! ## Filling in here-documents -/

/-- Bodies of here-documents by ticket. -/
abbrev Bodies := List (Nat × Word)

mutual

/-- The part with every ticket replaced by its body. -/
def Part.fill (bs : Bodies) : Part → Part
  | .doubleQuoted ps => .doubleQuoted (Part.fillAll bs ps)
  | .param name op colon arg q => .param name op colon (Part.fillAll bs arg) q
  | .command (some n) => .command (some (n.fill bs))
  | .arithmetic ps => .arithmetic (Part.fillAll bs ps)
  | p => p

/-- The parts with every ticket replaced by its body. -/
def Part.fillAll (bs : Bodies) : List Part → List Part
  | [] => []
  | p :: ps => p.fill bs :: Part.fillAll bs ps

/-- The word with every ticket replaced by its body. -/
def Word.fill (bs : Bodies) : Word → Word
  | .mk t ps l => .mk t (Part.fillAll bs ps) l

/-- The words with every ticket replaced by its body. -/
def Word.fillAll (bs : Bodies) : List Word → List Word
  | [] => []
  | w :: ws => w.fill bs :: Word.fillAll bs ws

/-- The redirections with every ticket replaced by its body. Bodies are complete themselves. -/
def Redirect.fillAll (bs : Bodies) : List Redirect → List Redirect
  | [] => []
  | .word fd op w :: rs => .word fd op (w.fill bs) :: Redirect.fillAll bs rs
  | .hereDoc fd op (.pending k) :: rs =>
    .hereDoc fd op (match bs.lookup k with
      | some w => .body w
      | none => .pending k) :: Redirect.fillAll bs rs
  | .hereDoc fd op (.body w) :: rs => .hereDoc fd op (.body w) :: Redirect.fillAll bs rs

/-- The arms with every ticket replaced by its body. -/
def CaseArm.fillAll (bs : Bodies) : List CaseArm → List CaseArm
  | [] => []
  | .mk ps none :: as => .mk (Word.fillAll bs ps) none :: CaseArm.fillAll bs as
  | .mk ps (some n) :: as => .mk (Word.fillAll bs ps) (some (n.fill bs)) :: CaseArm.fillAll bs as

/-- The command with every ticket replaced by its body. -/
def Node.fill (bs : Bodies) : Node → Node
  | .mk c l => .mk (c.fill bs) l

/-- The commands with every ticket replaced by its body. -/
def Node.fillAll (bs : Bodies) : List Node → List Node
  | [] => []
  | n :: ns => n.fill bs :: Node.fillAll bs ns

/-- The kind of command with every ticket in it replaced by its body. -/
def Command.fill (bs : Bodies) : Command → Command
  | .simple as ws rs => .simple (Word.fillAll bs as) (Word.fillAll bs ws) (Redirect.fillAll bs rs)
  | .pipeline ns => .pipeline (Node.fillAll bs ns)
  | .not n => .not (n.fill bs)
  | .and l r => .and (l.fill bs) (r.fill bs)
  | .or l r => .or (l.fill bs) (r.fill bs)
  | .list l r => .list (l.fill bs) (r.fill bs)
  | .background n => .background (n.fill bs)
  | .ifThen c t none => .ifThen (c.fill bs) (t.fill bs) none
  | .ifThen c t (some e) => .ifThen (c.fill bs) (t.fill bs) (some (e.fill bs))
  | .whileDo c b => .whileDo (c.fill bs) (b.fill bs)
  | .untilDo c b => .untilDo (c.fill bs) (b.fill bs)
  | .forIn v none b => .forIn v none (b.fill bs)
  | .forIn v (some ws) b => .forIn v (some (Word.fillAll bs ws)) (b.fill bs)
  | .caseOf w as => .caseOf (w.fill bs) (CaseArm.fillAll bs as)
  | .subshell b rs => .subshell (b.fill bs) (Redirect.fillAll bs rs)
  | .brace b => .brace (b.fill bs)
  | .redirected b rs => .redirected (b.fill bs) (Redirect.fillAll bs rs)
  | .function name b => .function name (b.fill bs)

end

end CommandShell.Script
