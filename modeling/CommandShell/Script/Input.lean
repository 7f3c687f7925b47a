import CommandShell.Fault
import CommandShell.Table
import CommandShell.Script.Token

/-!
# Input of the reader

The reader takes characters from the current line, from the texts of the aliases being expanded,
and from characters that were put back. Lines come from a queue. When it is empty the input has
ended, or, if more lines may follow, reading stops with `Halt.needLine` so that the caller can
supply one and start over.

The text of an alias reads as if a blank followed it. The alias counts as being expanded until
that blank has been taken, and no alias is expanded inside its own text, as far as one input goes:
scripts that are read from an input of their own know nothing of the aliases around them. What was
expanded, and in the text of which aliases it stood, is kept as a trace.
-/

namespace CommandShell.Script

/-- The text of an alias that is being read. -/
structure AliasFrame where
  /-- The name of the alias. -/
  name : Text
  /-- What is left of its text. -/
  rest : Text
  /-- Whether its text ends in a blank. -/
  endsBlank : Bool
  /-- Whether the blank after the text has been taken. -/
  spent : Bool

/-- That an alias was expanded. -/
structure AliasUse where
  name : Text
  /-- The aliases in whose text it stood, innermost first. -/
  within : List Text
  deriving DecidableEq, Repr

/-- A here-document whose body comes after the current line. -/
structure HereDocRequest where
  delimiter : Text
  stripTabs : Bool
  quoted : Bool
  ticket : Nat

/-- The state of reading. -/
structure Input where
  /-- Aliases being expanded, innermost first. -/
  frames : List AliasFrame := []
  /-- What is left of the current line. -/
  current : Text := []
  /-- Lines that follow. -/
  queue : List Text := []
  /-- Whether no further line can be supplied. -/
  closed : Bool := true
  /-- Whether the end of the input was met. -/
  atEnd : Bool := false
  /-- Characters put back, the next one first. -/
  unread : Text := []
  /-- The number of the current line. -/
  line : Nat := 1
  /-- A token put back. -/
  pushback : Option Token := none
  /-- Here-documents to be read after this line. -/
  pending : List HereDocRequest := []
  /-- Bodies read so far. -/
  bodies : Bodies := []
  /-- The next ticket. -/
  nextTicket : Nat := 0
  /-- The aliases that may be expanded. -/
  aliases : Table Text := .empty
  /-- The texts of the words being read, innermost first, each in reverse. -/
  captures : List Text := []
  /-- Whether the next line gets the primary prompt. -/
  primary : Bool := true
  /-- Whether lines are shown as they are taken. -/
  verbose : Bool := false
  /-- Lines to be shown, last first. -/
  shown : List Text := []
  /-- Whether an alias that ends in a blank was just read to its end. -/
  aliasBlank : Bool := false
  /-- The aliases in whose text the whole input stood. -/
  within : List Text := []
  /-- What was expanded so far, last first. -/
  expanded : List AliasUse := []

/-- Why reading stopped. -/
inductive Halt where
  | stop (s : Stop)
  /-- The next line is needed. -/
  | needLine

/-- A step of the reader. Its input stays as it is when the step fails. -/
abbrev Reader := ExceptT Halt (StateM Input)

namespace Input

/-- The input that consists of a text. -/
def ofText (t : Text) (line : Nat := 1) (aliases : Table Text := .empty) : Input :=
  { queue := t.lines, line, aliases }

/-- The aliases in whose text the next character stands. -/
def inUse (i : Input) : List Text := i.frames.map (·.name) ++ i.within

/-- The input for a text that was found in another one, in the text of the given aliases. -/
def nested (i : Input) (within : List Text) (t : Text) (line : Nat) : Input :=
  { ofText t line i.aliases with within, expanded := i.expanded }

/-- Drops the aliases that have been read to the end. -/
def dropSpent (aliasBlank : Bool) : List AliasFrame → List AliasFrame × Bool
  | [] => ([], aliasBlank)
  | f :: fs =>
    if f.rest.isEmpty && f.spent then dropSpent f.endsBlank fs else (f :: fs, aliasBlank)

/-- Forgets everything up to the end of the current line. -/
def discardLine (i : Input) : Input :=
  { i with pushback := none, pending := [], unread := [], captures := [], frames := [],
           current := [] }

/-- A bound on the number of steps that reading can take: every character of the lines and of
the aliases expanded in them, with the blanks after these, and every here-document, some steps for
each. -/
def stepBound (i : Input) : Nat :=
  let chars := i.current.length + i.unread.length + i.queue.flatten.length
    + (i.frames.map fun f => f.rest.length + 1).foldr (· + ·) 0 + i.pending.length
  let longest := (i.aliases.toList.map fun b => b.2.length).foldl Nat.max 0
  20 * ((chars + 2) * (longest + 2).pow i.aliases.toList.length) + 100

end Input

namespace Reader

/-- Fails with a fault that no line is blamed for. -/
def fail {α : Type} (f : Fault) : Reader α := throw (.stop (.ofFault f))

/-- Fails with a fault on a line. -/
def failAt {α : Type} (line : Nat) (f : Fault) : Reader α := throw (.stop (.fault f (some line)))

/-- Fails because a construct that started on `line` is not closed. -/
def unterminated {α : Type} (what : Text) (line : Nat) : Reader α :=
  failAt line (.malformed ("unterminated " ++ what))

/-- Takes the next line if the current one is used up and no alias is being read. -/
def fillLine : Reader Unit := do
  let i ← get
  if !i.frames.isEmpty || !i.current.isEmpty || i.atEnd then return
  match i.queue with
  | l :: ls =>
    set { i with
      current := l, queue := ls, primary := false
      shown := if i.verbose then l :: i.shown else i.shown }
  | [] => if i.closed then set { i with atEnd := true, primary := false } else throw .needLine

/-- Makes the next character available. -/
def fill : Reader Unit := do
  modify fun i =>
    let (frames, aliasBlank) := Input.dropSpent i.aliasBlank i.frames
    { i with frames, aliasBlank }
  fillLine

/-- The next character, left in place; none at the end of the input. -/
def peek : Reader (Option Char) := do
  if let c :: _ := (← get).unread then return some c
  fill
  let i ← get
  match i.frames with
  | f :: _ => return some (f.rest.headD ' ')
  | [] => return i.current.head?

/-- Notes a character as read: the line counter and every word being read follow. -/
def note (c : Char) : Reader Unit :=
  modify fun i => { i with
    line := if c = '\n' then i.line + 1 else i.line
    captures := i.captures.map (c :: ·) }

/-- Takes the next character; none at the end of the input. -/
def next : Reader (Option Char) := do
  let i ← get
  if let c :: r := i.unread then
    set { i with unread := r }
    note c
    return some c
  fill
  let i ← get
  match i.frames with
  | f :: fs =>
    match f.rest with
    | c :: r =>
      set { i with frames := { f with rest := r } :: fs }
      note c
      return some c
    | [] =>
      set { i with frames := { f with spent := true } :: fs }
      note ' '
      return some ' '
  | [] =>
    match i.current with
    | c :: r =>
      set { i with current := r }
      note c
      return some c
    | [] => return none

/-- Puts a character back. -/
def putBack (c : Char) : Reader Unit :=
  modify fun i => { i with
    line := if c = '\n' then i.line - 1 else i.line
    captures := i.captures.map (List.drop 1)
    unread := c :: i.unread }

/-- The current line number. -/
def line : Reader Nat := do return (← get).line

/-- Puts a token back. -/
def pushToken (tk : Token) : Reader Unit := modify fun i => { i with pushback := some tk }

/-- The text of an alias that may be expanded here. -/
def aliasText? (name : Text) : Reader (Option Text) := do
  let i ← get
  if i.frames.any fun f => f.name == name then return none
  return i.aliases.get? name

/-- Starts reading the text of an alias. -/
def pushAlias (name text : Text) : Reader Unit :=
  modify fun i => { i with
    expanded := { name, within := i.inUse } :: i.expanded
    frames := {
      name := name
      rest := text
      endsBlank := text.getLast?.any fun c => c == ' ' || c == '\t'
      spent := false } :: i.frames }

/-- Whether an alias that ends in a blank was just read to its end; asking clears the mark. -/
def takeAliasBlank : Reader Bool := do
  let i ← get
  set { i with aliasBlank := false }
  return i.aliasBlank

/-- Queues a here-document and gives the redirection its ticket. -/
def requestHereDoc (delimiter : Text) (stripTabs quoted : Bool) : Reader Nat := do
  let i ← get
  let req : HereDocRequest := { delimiter, stripTabs, quoted, ticket := i.nextTicket }
  set { i with
    pending := i.pending ++ [req]
    nextTicket := i.nextTicket + 1 }
  return i.nextTicket

/-- Starts recording the text of a word. -/
def startCapture : Reader Unit := modify fun i => { i with captures := [] :: i.captures }

/-- Ends recording the text of a word. -/
def endCapture : Reader Text := do
  let i ← get
  match i.captures with
  | c :: cs =>
    set { i with captures := cs }
    return c.reverse
  | [] => return []

end Reader

end CommandShell.Script
