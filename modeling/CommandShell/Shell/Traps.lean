import CommandShell.Host.Call

/-!
# Traps

Which signals the shell was told to ignore or to answer with a command, and what the system has
to do with a signal for that. Number 0 stands for the end of the shell. Signals that were
ignored when a shell started which is not interactive stay ignored for good.
-/

namespace CommandShell

open Host (Disposition)

/-- What a trap does. -/
inductive TrapAction where
  | ignore
  | command (text : Text)
  deriving DecidableEq, Repr

/-- The traps of a shell. -/
structure Traps where
  /-- Actions by signal number, in the order of the numbers. -/
  actions : List (Nat × TrapAction) := []
  /-- Signals that were ignored from the start. -/
  locked : List Signal := []
  deriving Repr

instance : Inhabited Traps := ⟨{}⟩

/-- The two options that decide what a shell does with signals that have no trap. -/
structure SignalMode where
  interactive : Bool
  monitor : Bool
  deriving DecidableEq, Repr

namespace Traps

/-- The action for a signal number. -/
def get? (ts : Traps) (n : Nat) : Option TrapAction := ts.actions.lookup n

/-- Whether a signal was ignored from the start. -/
def isLocked (ts : Traps) (n : Nat) : Bool := ts.locked.any fun s => s.number == n

/-- Puts an action in its place among those in number order. -/
def insertAction (n : Nat) (a : TrapAction) : List (Nat × TrapAction) → List (Nat × TrapAction)
  | [] => [(n, a)]
  | (k, b) :: r => if n ≤ k then (n, a) :: (k, b) :: r else (k, b) :: insertAction n a r

/-- Sets or clears the action for a signal number. -/
def set (ts : Traps) (n : Nat) (action : Option TrapAction) : Traps :=
  let rest := ts.actions.filter fun a => a.1 ≠ n
  { ts with actions := match action with
      | some a => insertAction n a rest
      | none => rest }

/-- The command to be run when the shell ends. -/
def exitCommand? (ts : Traps) : Option Text :=
  match ts.get? 0 with
  | some (.command t) => some t
  | _ => none

/-- What a subshell keeps: the signals that are ignored. -/
def inSubshell (ts : Traps) : Traps :=
  { ts with actions := ts.actions.filter fun a => a.2 == .ignore }

/-- Signals that a shell treats in a way that depends on how it runs. -/
def managed : List Signal := [.int, .quit, .term, .tstp, .ttin, .ttou]

/-- What a shell does with a signal that has no trap. -/
def untrapped (mode : SignalMode) (s : Signal) : Disposition :=
  match s with
  | .int => if mode.interactive then .caught else .default
  | .quit | .term => if mode.interactive then .ignore else .default
  | .tstp | .ttin | .ttou => if mode.monitor then .ignore else .default
  | _ => .default

/-- What a shell does with a signal. -/
def disposition (ts : Traps) (mode : SignalMode) (s : Signal) : Disposition :=
  match ts.get? s.number with
  | some .ignore => .ignore
  | some (.command _) => .caught
  | none => untrapped mode s

/-- The dispositions that a shell sets when its options change. -/
def shellDispositions (ts : Traps) (mode : SignalMode) : List (Signal × Disposition) :=
  (managed.filter fun s => !ts.isLocked s.number).map fun s => (s, ts.disposition mode s)

/-- What a forked child does with a managed signal: it ignores what the shell was told to
ignore, and in the background without job control also what the keyboard sends. -/
def childDisposition (ts : Traps) (background : Bool) (s : Signal) : Disposition :=
  if ts.isLocked s.number || ts.get? s.number == some .ignore
      || (background && (s == .int || s == .quit))
    then .ignore else .default

/-- The dispositions that a forked child sets. -/
def childDispositions (ts : Traps) (background : Bool) : List (Signal × Disposition) :=
  (managed.map fun s => (s, ts.childDisposition background s))
    ++ ts.actions.filterMap fun (n, action) =>
      match action, Signal.ofNumber? n with
      | .command _, some s => some (s, .default)
      | _, _ => none

end Traps

end CommandShell
