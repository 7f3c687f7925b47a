import CommandShell.Builtin
import CommandShell.Execution.Arrived
import CommandShell.Execution.Foreground

/-!
# Job commands

`jobs` lists jobs, `fg` and `bg` let stopped ones go on, `wait` waits for jobs, and `kill` sends
signals to jobs and processes.
-/

namespace CommandShell.Commands

open Shell

/-- The error of a job that there is not. -/
def noSuchJob (arg : Text) : Fault := .execution (arg ++ ": no such job")

/-- The number of the job that an operand names: a specification, or the number alone. -/
def jobOperand (arg : Text) : ShellM Nat := do
  match (← get).jobs.resolve? (if Text.isDigits arg then '%' :: arg else arg) with
  | some n => return n
  | none => fail (noSuchJob arg)

/-- The numbers of the jobs that operands name. -/
def jobOperands : List Text → ShellM (List Nat)
  | [] => return []
  | arg :: rest => do
    let n ← jobOperand arg
    return n :: (← jobOperands rest)

/-- A job as `jobs` shows it. -/
def jobListing (opts : List Char) (marker : Char) (j : Job) : Text :=
  if opts.contains 'p' then Text.ofInt j.group
  else if opts.contains 'l' then j.longLines marker
  else j.line marker

/-- `jobs [-lp] [job…]`. Finished jobs that were listed are gone afterwards. -/
def runJobs (args : List Text) : ShellM Unit := do
  let (opts, specs) ← ofExcept (Builtin.takeOptions "lp" args)
  reap ((← get).has .monitor)
  let js := (← get).jobs
  let numbers ← if specs.isEmpty then pure (js.toList.filterMap (·.id)) else jobOperands specs
  writeOut (numbers.flatMap fun n =>
    match js.get? n with
    | some j => jobListing opts (js.marker n) j ++ "\n"
    | none => [])
  modifyJobs fun js => numbers.foldl (fun js n =>
    if (js.get? n).any fun j => !j.isAlive then (js.remove n).1 else js) js
  setStatus 0

/-- Sends a signal to each of the given processes. -/
def signalEach (s : Signal) : List ProcessId → ShellM Unit
  | [] => return
  | pid :: rest => do
    match ← ask (.kill pid (some s)) with
    | .ok () => signalEach s rest
    | .error e => fail (.system e)

/-- Sends a signal to a job: to its group, or to its processes that have not ended. -/
def signalJob (j : Job) (s : Signal) : ShellM Unit :=
  if j.ownGroup then signalEach s [-j.group]
  else signalEach s ((j.processes.filter fun p => !p.status.isDone).map (·.pid))

/-- The error of a command that needs job control. -/
def noJobControl : Fault := .execution "job control not enabled"

/-- `fg [job]` -/
def runFg (args : List Text) : ShellM Unit := do
  if !(← get).has .monitor then fail noJobControl
  let spec : Text := args.headD "%%"
  let n ← jobOperand spec
  let (js, found) := (← get).jobs.remove n
  modifyJobs fun _ => js
  match found with
  | none => fail (noSuchJob spec)
  | some job =>
    writeOut (job.command ++ "\n")
    signalJob job .cont
    runForeground job.markContinued

/-- Lets one job go on in the background. -/
def backgroundOperand (spec : Text) : ShellM Unit := do
  let n ← jobOperand spec
  match (← get).jobs.get? n with
  | none => return
  | some job =>
    signalJob job .cont
    modifyJobs fun js => (js.modify n Job.markContinued).makeCurrent n
    writeOut ('[' :: Text.ofNat n ++ "] " ++ job.command ++ " &\n")

/-- `bg [job…]` -/
def runBg (args : List Text) : ShellM Unit := do
  if !(← get).has .monitor then fail noJobControl
  (if args.isEmpty then ["%%"] else args : List Text).forM backgroundOperand
  setStatus 0

/-- Waits until no process of a job runs. The result is the status of a wait that a signal cut
short. -/
def waitJob (n : Nat) : ShellM (Option Int) :=
  iterate (fun (_ : Unit) => do
    match ((← get).jobs.get? n).bind runningProcess? with
    | none => return .inr none
    | some pid =>
      match ← waitFor (some pid) false false with
      | .ok (some _) => return .inl ()
      | .ok none => return .inr none
      | .error e =>
        if e = .interrupted then
          match ← peekPending? with
          | some s => return .inr (some (128 + (s.number : Int)))
          | none => return .inl ()
        else fail (.system e)) ()

/-- Waits for jobs in turn. The result is the status of a wait that a signal cut short. -/
def waitJobs : List Nat → ShellM (Option Int)
  | [] => return none
  | n :: rest => do
    match ← waitJob n with
    | some status => return some status
    | none => waitJobs rest

/-- The job that an operand of `wait` names, by specification or process number. -/
def waitOperand (arg : Text) : ShellM (Option Nat) := do
  let js := (← get).jobs
  if arg.head? == some '%' then return js.resolve? arg
  match Numeral.int32? arg with
  | some pid => return (js.ofPid? pid).bind (·.id)
  | none => fail (.usage ("Illegal number: " ++ arg))

/-- Waits for the jobs that operands name, and takes the status of the last one. -/
def waitOperands (status : Int) : List Text → ShellM Unit
  | [] => setStatus status
  | arg :: rest => do
    match ← waitOperand arg with
    | none => waitOperands 127 rest
    | some n =>
      match ← waitJob n with
      | some interrupted => setStatus interrupted
      | none =>
        match (← get).jobs.get? n with
        | none => waitOperands status rest
        | some job =>
          if !job.isAlive then modifyJobs fun js => (js.remove n).1
          waitOperands job.status rest

/-- `wait [process|job…]` -/
def runWait (args : List Text) : ShellM Unit := do
  if args.isEmpty then
    match ← waitJobs ((← get).jobs.toList.filterMap (·.id)) with
    | some status => setStatus status
    | none =>
      modifyJobs fun js => js.takeDone.1
      setStatus 0
  else waitOperands 0 args

/-- What `kill -l` shows for a number or an exit status. -/
def signalListing (args : List Text) : Except Fault Text :=
  match args with
  | [] => .ok (Signal.all.flatMap fun s => s.name ++ "\n")
  | arg :: _ =>
    match Numeral.int32? arg with
    | none => .error (.usage ("Illegal number: " ++ arg))
    | some n => .ok (Signal.nameOf (if 128 < n then n - 128 else n) ++ "\n")

/-- Sends a signal to what one operand names: a job or a process. -/
def killOperand (signal : Option Signal) (target : Text) : ShellM Unit := do
  if target.head? == some '%' then
    let n ← jobOperand target
    match (← get).jobs.get? n, signal with
    | some job, some s => signalJob job s
    | some _, none => return
    | none, _ => fail (noSuchJob target)
  else match Numeral.int32? target with
    | none => fail (.usage ("Illegal number: " ++ target))
    | some pid =>
      match ← ask (.kill pid signal) with
      | .ok () => return
      | .error e => fail (.execution (target ++ ": " ++ e.description))

/-- Sends a signal to what each operand names, and sets the status that tells whether all
worked. -/
def killOperands (signal : Option Signal) (status : Int) : List Text → ShellM Unit
  | [] => setStatus status
  | target :: rest => do
    match ← attempt (killOperand signal target) with
    | .ok () => killOperands signal status rest
    | .error s =>
      report ("kill: " ++ s.message)
      killOperands signal 1 rest

/-- The signal number that the options of `kill` name, and the operands. -/
def killOptions (args : List Text) : Except Fault (Option Nat × List Text) :=
  let named (rest : List Text) : Except Fault (Option Nat × List Text) := match rest with
    | [] => .error (.usage "option requires an argument")
    | name :: rest => .ok (Signal.numberOf? name, rest)
  match args with
  | ['-', 's'] :: rest => named rest
  | ['-', 'n'] :: rest => named rest
  | ['-', '-'] :: rest => .ok (some Signal.term.number, rest)
  | ('-' :: c :: cs) :: rest =>
    if c = '-' then .ok (some Signal.term.number, ('-' :: c :: cs) :: rest)
    else .ok (Signal.numberOf? (c :: cs), rest)
  | rest => .ok (some Signal.term.number, rest)

/-- What `kill` says when nothing is to be killed. -/
def killUsage : Text :=
  "usage: kill [-s sigspec | -signum | -sigspec] [pid | job]... or kill -l [exitstatus]"

/-- `kill [-s signal | -n number | -signal] target…` and `kill -l [status]` -/
def runKill (args : List Text) : ShellM Unit := do
  match args with
  | ['-', 'l'] :: rest | ['-', 'L'] :: rest =>
    writeOut (← ofExcept (signalListing rest))
    setStatus 0
  | args =>
    let (number, operands) ← ofExcept (killOptions args)
    match number with
    | none => fail (.usage "invalid signal")
    | some number =>
      if operands.isEmpty then fail (.usage killUsage)
      killOperands (Signal.ofNumber? number) 0 operands

end CommandShell.Commands
