import CommandShell.Execution.Evaluator

/-!
# The ends of processes

How a shell ends, what a forked child of it does from its beginning to its end, and what becomes of a
process that is replaced by a program.
-/

/-!
## Leaving the shell, and forked children

A shell that ends runs the command of its `EXIT` trap once, and nothing that command does changes
the status it ends with. A forked child is set up as a subshell with its own dispositions, runs
its part, and ends with the status that its part came to.
-/

namespace CommandShell.Shell

/-- Ends the process. -/
def leave {α : Type} (code : Int) : ShellM α := do
  let never ← ask (.exit code)
  nomatch never

/-- Takes the command of the `EXIT` trap, once; from then on the shell is ending. -/
def takeExitCommand (sh : Shell) : Option Text × Shell :=
  if sh.isExiting then (none, sh)
  else (sh.traps.exitCommand?, { sh with isExiting := true, traps := sh.traps.set 0 none })

/-- Runs the command of the `EXIT` trap, unless that was begun before. -/
def runExitTrap (ev : Evaluator) (code : Int) : ShellM Unit := do
  match ← modifyGet takeExitCommand with
  | none => return
  | some command =>
    setStatus code
    match ← attempt (ev.source command) with
    | .ok () => return
    | .error s => reportStop s

/-- Ends the shell. -/
def exitShell {α : Type} (ev : Evaluator) (code : Int) : ShellM α := do
  runExitTrap ev code
  leave code

/-- The status with which a forked child ends after what it ran. An error is reported. -/
def childStatus (result : Except Stop Unit) : ShellM Int := do
  match result with
  | .ok () => return (← get).status
  | .error (.jump (.exit code)) => return code
  | .error (.jump _) => return (← get).status
  | .error s =>
    reportStop s
    return s.status

/-- Ends a forked child after what it ran. -/
def exitChild {α : Type} (ev : Evaluator) (result : Except Stop Unit) : ShellM α := do
  exitShell ev (← childStatus result)

/-- Makes the shell a subshell and gives signals the dispositions of a child. -/
def becomeSubshell (background : Bool) : ShellM Unit := do
  modify Shell.asSubshell
  setDispositions ((← get).traps.childDispositions background)

/-- Reads nothing from standard input. -/
def detachInput : ShellM Unit := do
  match ← ask (.openFile (Text.encode "/dev/null") { reads := true }) with
  | .error _ => return
  | .ok fd =>
    let _ ← duplicateOnto fd 0
    let _ ← ask (.close fd)

/-- Sets up a forked child: its process group with job control, its dispositions, and its input
when it runs in the background without job control. -/
def prepareChild (group : Option ProcessId) (background : Bool) : ShellM Unit := do
  let monitor := (← get).has .monitor
  if monitor then
    let pid ← ask .processId
    let _ ← ask (.setGroup pid (group.getD pid))
  becomeSubshell (background && !monitor)
  if background && !monitor then detachInput

/-- The error of a fork that failed. -/
def cannotFork (e : Errno) : Fault := .execution ("cannot fork: " ++ e.description)

/-- Forks a child that runs `body`, as a job of its own. -/
def forkJob (ev : Evaluator) (text : Text) (body : ShellM Unit) : ShellM Job := do
  let monitor := (← get).has .monitor
  match ← ask .fork with
  | .error e => fail (cannotFork e)
  | .ok .child =>
    prepareChild none false
    exitChild ev (← attempt body)
  | .ok (.parent child) =>
    if monitor then
      let _ ← ask (.setGroup child child)
    return Job.ofProcesses [{ pid := child, command := text }] (some child) monitor (some text)

end CommandShell.Shell

/-!
## Replacing the shell by a program

An external command runs in place of the shell that starts it. A file that the system cannot run
by itself is taken for a script and handed to a fresh copy of this shell. If neither works the
process ends with a message, and no trap is run.
-/

namespace CommandShell.Shell

/-- The environment of a command as the system takes it. -/
def environmentBytes (vs : Variables) : List Host.Bytes :=
  vs.environment.map fun (name, value) => Text.encodeString (name ++ "=" ++ value)

/-- Ends the process because a program could not be started. -/
def leaveUnstarted (command reason : Text) (code : Int) : ShellM Unit := do
  report (command ++ ": " ++ reason)
  leave code

/-- Replaces the shell by a program with the given arguments, the first of which is its name. -/
def executeProgram (path : Text) (args : List Text) : ShellM Unit := do
  let sh ← get
  let environment := environmentBytes sh.variables
  let command := args.headD []
  let e ← ask (.execute ((pathBytes? path).getD []) (args.map Text.encodeString) environment)
  if e = .notExecutable then
    let script := sh.name :: path :: args.drop 1
    let _ ← ask (.executeSelf (script.map Text.encodeString) environment)
    leaveUnstarted command "cannot execute" 126
  else if e = .noEntry || e = .notDirectory then leaveUnstarted command "not found" 127
  else if e = .access then leaveUnstarted command "Permission denied" 126
  else leaveUnstarted command e.description 126

/-- Exports assignments written before a command. -/
def exportAll : List (Text × Text) → ShellM Unit
  | [] => return
  | (name, value) :: rest => do
    updateVariables (·.exportValue name value)
    exportAll rest

end CommandShell.Shell
