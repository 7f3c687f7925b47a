import CommandShell.Host.Machine

/-!
# Running a machine

Processes take turns in the order in which they were made. A turn is a bounded number of calls
and ends early when a call has to wait. The machine stops as soon as its first process has a
result or has ended, or when no process can go on.
-/

namespace CommandShell.Host

/-- How the run of the first process ended. -/
inductive Outcome (ρ : Type) where
  | returned (result : ρ)
  | ended (status : ProcessStatus)
  /-- Nobody can go on, or the steps have run out. -/
  | stuck

namespace Machine

variable {ρ : Type}

/-- The machine after a reply to the call of a process. -/
def continueWith (m : Machine ρ) (pid : ProcessId) (program : Program ρ) : Machine ρ :=
  m.modify pid fun p => { p with program, waiting := false, interrupted := false }

/-- Copies a process; the copy is the child. -/
def forkProcess (m : Machine ρ) (p : Process ρ) (next : Except Errno Fork → Program ρ) :
    Machine ρ :=
  let child : Process ρ := { p with
    pid := m.nextPid, parent := p.pid, program := next (.ok .child)
    held := [], waiting := false, interrupted := false }
  let m := m.continueWith p.pid (next (.ok (.parent m.nextPid)))
  { m with processes := m.processes ++ [child], nextPid := m.nextPid + 1 }

/-- One call of a process, if it runs and its call need not wait. -/
def step? (m : Machine ρ) (pid : ProcessId) : Option (Machine ρ) :=
  match m.process? pid with
  | none => none
  | some p =>
    if p.state ≠ .running then none
    else match p.program with
      | .done _ => none
      | .call .fork next => some (m.forkProcess p next)
      | .call c next =>
        match m.perform p c with
        | .now m r => some (m.continueWith pid (next r))
        | .never m => some m
        | .wait =>
          match p.interrupted, interruptedReply? c with
          | true, some r => some (m.continueWith pid (next r))
          | _, _ => none

/-- Up to `n` calls of a process. The result tells whether there was any. -/
def turn : Nat → Machine ρ → ProcessId → Machine ρ × Bool
  | 0, m, _ => (m, false)
  | n + 1, m, pid =>
    match m.step? pid with
    | some m => ((turn n m pid).1, true)
    | none => (m.modify pid fun p => { p with waiting := true }, false)

/-- Number of calls in a turn. -/
def turnLength : Nat := 64

/-- The outcome of the first process, once there is one. -/
def outcome? (m : Machine ρ) : Option (Outcome ρ) :=
  match m.process? m.root with
  | none => some .stuck
  | some p =>
    match p.state, p.program with
    | .ended status, _ => some (.ended status)
    | .running, .done a => some (.returned a)
    | _, _ => none

/-- A turn for each of the given processes. The result tells whether any could go on. -/
def round : Machine ρ → List ProcessId → Machine ρ × Bool
  | m, [] => (m, false)
  | m, pid :: rest =>
    if m.outcome?.isSome then (m, true)
    else
      let (m, moved) := turn turnLength m pid
      let (m, movedLater) := m.round rest
      (m, moved || movedLater)

/-- Up to `n` rounds, until there is an outcome. -/
def runFor : Nat → Machine ρ → Machine ρ × Outcome ρ
  | 0, m => (m, .stuck)
  | n + 1, m =>
    match m.outcome? with
    | some o => (m, o)
    | none =>
      match m.round (m.processes.map (·.pid)) with
      | (m, true) => runFor n m
      | (m, false) => (m, m.outcome?.getD .stuck)

/-- Number of rounds after which a run is given up. -/
def roundLimit : Nat := 1000000000

/-- Runs the machine until there is an outcome. -/
def run (m : Machine ρ) : Machine ρ × Outcome ρ := runFor roundLimit m

/-- Gives the first process a new program and runs the machine. -/
def runProgram (m : Machine ρ) (program : Program ρ) : Machine ρ × Outcome ρ :=
  (m.continueWith m.root program).run

end Machine

end CommandShell.Host
