import CommandShell.Builtin
import CommandShell.Execution.Arrived
import CommandShell.Expansion.InputFields

/-!
# The read command

`read` takes one line from standard input, byte by byte so that nothing after it is used up, and
cuts it into fields for the named variables. A backslash protects the byte after it and continues
the line at its end, unless `-r` is given.
-/

namespace CommandShell.Commands

open Shell
open Expansion (InputByte splitLine)

/-- How the reading of a line ended. -/
inductive LineEnd where
  | newline
  | endOfInput
  /-- A signal arrived that the shell has to see to. -/
  | interrupted
  deriving DecidableEq, Repr

/-- A line that is being read. -/
structure PartialLine where
  /-- Its bytes, last first. -/
  bytes : List InputByte := []
  /-- Whether a backslash protects the next byte. -/
  escaped : Bool := false

/-- The line after one more byte, or the line as it ends there. -/
def PartialLine.add (raw : Bool) (l : PartialLine) (b : Byte) :
    PartialLine ⊕ (List InputByte × LineEnd) :=
  if l.escaped then
    .inl { bytes := if b = 0x0A then l.bytes else { byte := b, escaped := true } :: l.bytes }
  else if b = 0x0A then .inr (l.bytes.reverse, .newline)
  else if b = 0x5C && !raw then .inl { l with escaped := true }
  else .inl { l with bytes := { byte := b } :: l.bytes }

/-- Reads a line from standard input. -/
def readLine (raw : Bool) : ShellM (List InputByte × LineEnd) :=
  iterate (fun (l : PartialLine) => do
    match ← ask (.read 0 1) with
    | .ok (b :: _) => return l.add raw b
    | .ok [] => return .inr (l.bytes.reverse, .endOfInput)
    | .error e =>
      if e = .interrupted then
        if (← peekPending?).isSome then return .inr ([], .interrupted) else return .inl l
      else fail (.system e)) {}

/-- The options of `read`: whether backslashes are ordinary, the prompt, and the names. Words
after a `-p` at the end of a cluster are searched for options again. -/
def readOptions (raw : Bool) (prompt : Option Text) :
    Nat → List Text → Except Fault (Bool × Option Text × List Text)
  | 0, args => .ok (raw, prompt, args)
  | n + 1, args => do
    let (opts, rest) ← Builtin.takeOptions "rp" args
    let raw := raw || opts.contains 'r'
    if opts.getLast? == some 'p' then
      match rest with
      | [] => throw (.usage "-p: option requires an argument")
      | text :: rest => readOptions raw (some text) n rest
    else return (raw, prompt, rest)

/-- Gives each variable its field; those without one become empty. -/
def assignFields : List Text → List Text → ShellM Unit
  | [], _ => return
  | name :: names, fields => do
    assignVariable name (fields.headD [])
    assignFields names fields.tail

/-- `read [-r] [-p prompt] [name…]` -/
def runRead (args : List Text) : ShellM Unit := do
  let (raw, prompt, operands) ← ofExcept (readOptions false none (args.length + 1) args)
  let names : List Text := if operands.isEmpty then ["REPLY"] else operands
  match names.find? fun name => !Text.isName name with
  | some bad => fail (.execution (bad ++ ": bad variable name"))
  | none => pure ()
  match prompt with
  | some text => if ← ask (.isTerminal 0) then writeErr text
  | none => pure ()
  match ← readLine raw with
  | (_, .interrupted) =>
    setStatus (128 + (((← peekPending?).getD .int).number : Int))
  | (line, lineEnd) =>
    let ifs := Text.utf8 (((← get).value? "IFS").getD " \t\n")
    assignFields names (splitLine ifs names.length line)
    setStatus (if lineEnd = .endOfInput then 1 else 0)

end CommandShell.Commands
