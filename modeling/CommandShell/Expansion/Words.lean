import CommandShell.Script.Tree
import CommandShell.Shell.State
import CommandShell.Execution.Child
import CommandShell.Arith.Parser
import CommandShell.Expansion.Parameter
import CommandShell.Expansion.Pathname

/-!
# Expansion

The parts of a word that the system has to be asked about, home directories and the output of
commands, and then the stages in which words are expanded.
-/

/-!
## Tildes

`~` and `~user` stand for home directories: at the start of a word, and in the value of an
assignment also after each unquoted colon. The name after the tilde ends at a slash, and nothing
of it may be quoted. A user whom nobody knows leaves the text as it is.
-/

namespace CommandShell.Expansion

open Script (Part)

/-- A character of a user name. -/
def isUserChar (c : Char) : Bool :=
  Text.isLetter c || Text.isDigit c || c == '.' || c == '_' || c == '-'

open Shell in
/-- The home directory of a user, or the shell's own for no name. -/
def homeOf? (user : Text) : ShellM (Option Text) := do
  if user.isEmpty then
    match (← get).value? "HOME" with
    | some home => return some home
    | none => return (← ask (.homeDirectory none)).map Text.decode
  else if user.all isUserChar then
    return (← ask (.homeDirectory (some (Text.encode user)))).map Text.decode
  else return none

/-- A text without the tilde at its start, cut before the first slash. -/
def tildePrefix? : Text → Option (Text × Text)
  | '~' :: r => some (r.takeWhile (· != '/'), r.dropWhile (· != '/'))
  | _ => none

/-- The home directory that the start of a word stands for, and the parts that follow it. -/
def wordTilde (parts : List Part) : ShellM (Option (Text × List Part)) := do
  match parts with
  | .literal first :: rest =>
    match tildePrefix? first with
    | none => return none
    | some (user, remainder) =>
      if remainder.isEmpty && !rest.isEmpty then return none
      match ← homeOf? user with
      | none => return none
      | some home =>
        return some (home, if remainder.isEmpty then rest else .literal remainder :: rest)
  | _ => return none

/-- A segment of an assigned value with its tilde replaced. A segment that runs into a quoted
part has none. -/
def segmentTilde (segment : Text) (runsOn : Bool) : ShellM Text := do
  match tildePrefix? segment with
  | none => return segment
  | some (user, remainder) =>
    if remainder.isEmpty && runsOn then return segment
    match ← homeOf? user with
    | some home => return home ++ remainder
    | none => return segment

/-- Segments between colons with their tildes replaced; the first one only if `eligible` says so.
`last` tells whether nothing of the word follows them. -/
def segmentTildes (eligible last : Bool) : List Text → ShellM (List Text)
  | [] => return []
  | segment :: rest => do
    let runsOn := rest.isEmpty && !last
    let first ← if eligible then segmentTilde segment runsOn else pure segment
    return first :: (← segmentTildes true last rest)

/-- The text of an assigned value with its tildes replaced. `atStart` tells whether it starts a
segment, and `last` whether nothing of the word follows it. -/
def assignedTildes (text : Text) (atStart last : Bool) : ShellM Text := do
  return Text.join ":" (← segmentTildes atStart last (Text.splitAt ':' text))

end CommandShell.Expansion

/-!
## Command substitution

The commands run in a forked child whose output goes into a pipe. What the child wrote, less the
newlines at its end, is the result, and the shell keeps the child's status.
-/

namespace CommandShell.Expansion

open Shell

/-- What the child of a command substitution does: its output goes to the pipe. -/
def substitutionChild (ev : Evaluator) (readEnd writeEnd : Nat) (body : Script.Node) :
    ShellM Text := do
  let _ ← ask (.close readEnd)
  becomeSubshell false
  match ← duplicateOnto writeEnd 1 with
  | .error e => exitChild ev (.error (.ofFault (.inputOutput e)))
  | .ok () => pure ()
  let _ ← ask (.close writeEnd)
  exitChild ev (← attempt (ev.node body { isLast := true }))

/-- Waits for the child of a command substitution to end. -/
def substitutionStatus (child : ProcessId) : ShellM Int :=
  iterate (fun (_ : Unit) => do
    match ← ask (.wait (some child) false false) with
    | .ok (some (_, status)) => return .inr status.code
    | .ok none => return .inr 0
    | .error e => if e = .interrupted then return .inl () else return .inr 1) ()

/-- The output of a command substitution. -/
def substitute (ev : Evaluator) (body : Option Script.Node) : ShellM Text := do
  match body with
  | none =>
    modify fun sh => { sh with substitutionStatus := some 0 }
    return []
  | some body =>
    match ← ask .pipe with
    | .error e => fail (.inputOutput e)
    | .ok (readEnd, writeEnd) =>
      match ← ask .fork with
      | .error e =>
        fail (.fatal ("cannot fork: " ++ e.description))
      | .ok .child => substitutionChild ev readEnd writeEnd body
      | .ok (.parent child) =>
        closeOrFail writeEnd
        let output ← readAll readEnd
        closeOrFail readEnd
        let status ← substitutionStatus child
        modify fun sh => { sh with substitutionStatus := some status }
        match output with
        | .error e => fail (.inputOutput e)
        | .ok data => return Text.trimEnd (· == '\n') (Text.decode data)

end CommandShell.Expansion

/-!
## Expansion of words

A word is expanded in stages. Substitution turns its parts into pieces: tildes, parameters, the
output of commands, the values of arithmetic expressions. The arguments of a command are then cut
into fields, and fields that are patterns become the paths they match. In other places the pieces
are joined to one text, or made a pattern.
-/

namespace CommandShell.Expansion

open Script (Part Word)
open Shell

/-- Whether some part is `$@`, so that double quotes around it make no field of their own. -/
def hasAt (ps : List Part) : Bool :=
  ps.any fun
    | .param name .. => name == ['@']
    | _ => false

/-- Variables as arithmetic expressions read and write them. -/
def arithmeticAccess : Arith.Access Shell where
  read sh name := sh.value? name
  write sh name value := sh.assign name value

/-- The value of an arithmetic expression. -/
def arithmetic (text : Text) : ShellM Arith.Value := do
  ofExcept (← modifyGet (Arith.evalText arithmeticAccess text).run.run)

mutual

/-- The pieces of one part. -/
def partPieces (ev : Evaluator) (q : Quoting) : Part → ShellM (List Piece)
  | .literal t => return [.text t (q == .quoted) (q == .splitting)]
  | .escaped t => return [.quoted t]
  | .singleQuoted t => return [.quoted t]
  | .doubleQuoted ps => do
    let inside ← pieces ev .quoted ps
    return if hasAt ps then inside else .quoted [] :: inside
  | .param name op colon arg inQuotes =>
    expandParameter name op colon (q == .quoted || inQuotes) (!arg.isEmpty)
      fun q => pieces ev q arg
  | .command body => return [.substituted (← substitute ev body) (q == .quoted)]
  | .arithmetic ps => do
    let text := Piece.joined (← pieces ev .quoted ps)
    return [.substituted (Text.ofInt (← arithmetic text).toInt) (q == .quoted)]

/-- The pieces of parts in a row. -/
def pieces (ev : Evaluator) (q : Quoting) : List Part → ShellM (List Piece)
  | [] => return []
  | p :: ps => do
    let first ← partPieces ev q p
    return first ++ (← pieces ev q ps)

end

/-- The pieces of a word with a tilde at its start replaced. -/
def wordPieces (ev : Evaluator) (w : Word) : ShellM (List Piece) := do
  match ← wordTilde w.parts with
  | some (home, rest) => return .quoted home :: (← pieces ev .bare rest)
  | none => pieces ev .bare w.parts

/-- The text of parts inside double quotes. -/
def quotedText (ev : Evaluator) (ps : List Part) : ShellM Text := do
  return Piece.joined (← pieces ev .quoted ps)

/-- The text of a word that is not cut into fields. -/
def wordText (ev : Evaluator) (w : Word) : ShellM Text := do
  return Piece.joined (← wordPieces ev w)

/-- A word as a pattern. -/
def wordPattern (ev : Evaluator) (w : Word) : ShellM Text := do
  return Piece.toPattern (← wordPieces ev w)

/-- The body of a here-document. One with a quoted delimiter is taken as it stands. -/
def hereDocText (ev : Evaluator) (w : Word) : ShellM Text :=
  match w.parts with
  | [.singleQuoted t] => return t
  | ps => quotedText ev ps

/-- The paths that a field matches, or the field itself. -/
def fieldArguments (f : Field) : ShellM (List Text) := do
  if (← get).has .noglob || !f.magic then return [f.text]
  match ← pathnames f.pattern with
  | some paths => return paths
  | none => return [f.text]

/-- The arguments that fields stand for. -/
def fieldsArguments : List Field → ShellM (List Text)
  | [] => return []
  | f :: fs => do
    let first ← fieldArguments f
    return first ++ (← fieldsArguments fs)

/-- The arguments that words stand for. -/
def arguments (ev : Evaluator) : List Word → ShellM (List Text)
  | [] => return []
  | w :: ws => do
    let ps ← wordPieces ev w
    let first ← fieldsArguments (splitFields (fieldSeparators (← get)) ps)
    return first ++ (← arguments ev ws)

/-- The value of an assignment from the parts after `=`, and the text before them. -/
def assignedValue (ev : Evaluator) (first : Bool) (done : Text) : List Part → ShellM Text
  | [] => return done
  | p :: ps => do
    let next ← match p with
      | .literal t => assignedTildes t (first || done.getLast? == some ':') ps.isEmpty
      | p => quotedText ev [p]
    assignedValue ev false (done ++ next) ps

/-- The name and the value of an assignment. -/
def assignment (ev : Evaluator) (w : Word) : ShellM (Text × Text) := do
  let malformed : Fault := .internal "assignment without a name"
  match w.parts with
  | .literal t :: rest =>
    match Text.splitAssignment? t with
    | none => fail malformed
    | some (name, start) =>
      let parts := if start.isEmpty then rest else .literal start :: rest
      return (name, ← assignedValue ev true [] parts)
  | _ => fail malformed

/-- The names and values of assignments, each seeing nothing of the others. -/
def assignments (ev : Evaluator) : List Word → ShellM (List (Text × Text))
  | [] => return []
  | w :: ws => do
    let first ← assignment ev w
    return first :: (← assignments ev ws)

end CommandShell.Expansion
