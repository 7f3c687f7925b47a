import CommandShell.Execution.Evaluator

/-!
# Waiting for jobs

The shell learns what became of its children by waiting: for one process, or for any without
blocking. Each report is recorded in the job that has the process. A job in the foreground is
waited for until none of its processes runs.
-/

namespace CommandShell.Shell

/-- Waits for a change of state and records it. The result is the process that changed; none
when nothing changed or there is no such child. -/
def waitFor (target : Option ProcessId) (noHang untraced : Bool) :
    ShellM (Except Errno (Option ProcessId)) := do
  match ← ask (.wait target noHang untraced) with
  | .ok (some (pid, status)) =>
    modifyJobs fun js => (js.record pid status).1
    return .ok (some pid)
  | .ok none => return .ok none
  | .error e => if e = .noChild then return .ok none else return .error e

/-- Records every change of state that is ready. -/
def reap (untraced : Bool) : ShellM Unit :=
  iterate (fun (_ : Unit) => do
    match ← waitFor none true untraced with
    | .ok (some _) => return .inl ()
    | .ok none => return .inr ()
    | .error e => fail (.system e)) ()

/-- The first process of a job that runs, as far as is known. -/
def runningProcess? (j : Job) : Option ProcessId :=
  (j.processes.find? fun p => p.status.isRunning).map (·.pid)

/-- Waits until no process of the foreground job runs. -/
def waitForeground (untraced : Bool) : ShellM (Except Stop Unit) :=
  iterate (fun (_ : Unit) => do
    match (← get).jobs.foreground.bind runningProcess? with
    | none => return .inr (.ok ())
    | some pid =>
      match ← waitFor (some pid) false untraced with
      | .ok (some _) => return .inl ()
      | .ok none => return .inr (.ok ())
      | .error e =>
        if e = .interrupted then return .inl () else return .inr (.error (.ofFault (.system e)))) ()

/-- Moves a stopped foreground job into the table and tells about it. -/
def tellStopped (job : Job) : ShellM Unit := do
  let (jobs, n) := (← get).jobs.insert job
  modifyJobs fun _ => jobs
  match jobs.get? n with
  | some j => quietly (writeErr ("\n" ++ j.line (jobs.marker n) ++ "\n"))
  | none => pure ()
  setStatus (128 + ((job.stopSignal?.getD .tstp).number : Int))

/-- What is said when the last process of a foreground job was killed. An interrupt ends the
line of an interactive shell, and a broken pipe is passed over. -/
def deathNotice (interactive : Bool) : ProcessStatus → Text
  | .killed .int _ => if interactive then "\n" else []
  | .killed .pipe _ => []
  | .killed s core => s.description ++ (if core then " (core dumped)" else "" : Text) ++ "\n"
  | _ => []

/-- Runs a job in the foreground: waits until it ends or stops, and takes its status. -/
def runForeground (job : Job) : ShellM Unit := do
  let untraced := (← get).has .monitor
  modifyJobs fun js => { js with foreground := some job }
  let waited ← waitForeground untraced
  match (← get).jobs.foreground with
  | none => resume waited
  | some job =>
    modifyJobs fun js => { js with foreground := none }
    resume waited
    if job.state = .stopped then tellStopped job
    else
      match job.processes.getLast? with
      | some p => quietly (writeErr (deathNotice (← get).isInteractive p.status))
      | none => pure ()
      setStatus job.status

end CommandShell.Shell
