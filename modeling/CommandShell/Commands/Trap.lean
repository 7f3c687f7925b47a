import CommandShell.Shell.State

/-!
# The trap command

`trap` sets what the shell does when a signal arrives or when it ends, and lists the traps in a
form that the shell can read back. A lone condition, or a number in the place of the action,
resets the conditions.
-/

namespace CommandShell.Commands

open Shell

/-- A trap as a listing shows it. -/
def trapLine (number : Nat) (action : TrapAction) : Text :=
  let command : Text := match action with
    | .ignore => []
    | .command t => t
  ("trap -- " : Text) ++ Text.quote command ++ " " ++ Signal.nameOf number ++ "\n"

/-- The action that operands ask for, and the conditions. -/
def trapOperands (args : List Text) : Option TrapAction × List Text :=
  match args with
  | action :: c :: cs =>
    if Text.isDigits action then (none, args)
    else if action = ['-'] then (none, c :: cs)
    else if action.isEmpty then (some .ignore, c :: cs)
    else (some (.command action), c :: cs)
  | args => (none, args)

/-- Sets the trap for a signal number and what the system does with the signal. A signal that was
ignored from the start is left alone. -/
def setTrap (number : Nat) (action : Option TrapAction) : ShellM Unit := do
  if (← get).traps.isLocked number then return
  modify fun sh => { sh with traps := sh.traps.set number action }
  match Signal.ofNumber? number with
  | some s =>
    let sh ← get
    setDispositions [(s, sh.traps.disposition sh.signalMode s)]
  | none => return

/-- Sets the traps for conditions. The result is the status. -/
def setTraps (action : Option TrapAction) (status : Int) : List Text → ShellM Int
  | [] => return status
  | condition :: rest => do
    match Signal.numberOf? condition with
    | none =>
      report ("trap: " ++ condition ++ ": bad trap")
      setTraps action 1 rest
    | some number =>
      setTrap number action
      setTraps action status rest

/-- `trap [action] condition…` -/
def runTrapCommand (args : List Text) : ShellM Unit := do
  let args := match args with
    | ['-', '-'] :: rest => rest
    | args => args
  if args.isEmpty then
    writeOut ((← get).traps.actions.flatMap fun (number, action) => trapLine number action)
    setStatus 0
  else
    let (action, conditions) := trapOperands args
    setStatus (← setTraps action 0 conditions)

end CommandShell.Commands
