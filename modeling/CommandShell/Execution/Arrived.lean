import CommandShell.Execution.Evaluator

/-!
# Running traps

Signals that were caught are only marked when they arrive. Between commands the shell looks at
the marks and runs the trap of each signal that arrived, lowest number first. No trap starts
inside another one, and `$?` is after a trap what it was before. A trap that jumps out leaves the
signals after it for the next time.
-/

namespace CommandShell.Shell

/-- Whether any of the given signals waits to be handled. -/
def anyPending : List Signal → ShellM Bool
  | [] => return false
  | s :: rest => do if ← ask (.isPending s) then return true else anyPending rest

/-- The first of the given signals that waits to be handled. -/
def firstPending? : List Signal → ShellM (Option Signal)
  | [] => return none
  | s :: rest => do if ← ask (.isPending s) then return some s else firstPending? rest

/-- The lowest signal that waits to be handled; it stays so. -/
def peekPending? : ShellM (Option Signal) := do
  if ← ask .anyArrived then firstPending? Signal.all else return none

/-- Runs the command of a trap. The signals in `later` have still to be handled. -/
def runTrap (ev : Evaluator) (later : List Signal) (command : Text) : ShellM Unit := do
  let status := (← get).status
  modify fun sh => { sh with inTrap := true }
  let result ← attempt (ev.source command)
  modify fun sh => { sh with inTrap := false }
  match result with
  | .error s =>
    if s.isJump then
      if ← anyPending later then ask .markArrived
      throw s
    reportStop s
  | .ok () => pure ()
  setStatus status

/-- Handles the given signals as far as they arrived. The result tells whether an interrupt was
among them that an interactive shell has no trap for. -/
def handleArrived (ev : Evaluator) : List Signal → ShellM Bool
  | [] => return false
  | s :: later => do
    if !(← ask (.takePending s)) then handleArrived ev later
    else
      let sh ← get
      match sh.traps.get? s.number with
      | some (.command t) =>
        runTrap ev later t
        handleArrived ev later
      | some .ignore => handleArrived ev later
      | none =>
        let interrupt := s == .int && sh.isInteractive
        let rest ← handleArrived ev later
        return interrupt || rest

/-- Runs the traps of the signals that arrived since this was last done. -/
def runTraps (ev : Evaluator) : ShellM Unit := do
  if (← get).inTrap then return
  if !(← ask .takeArrived) then return
  if ← handleArrived ev Signal.all then jump .interrupted

end CommandShell.Shell
