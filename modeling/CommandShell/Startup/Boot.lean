import CommandShell.Shell.State
import CommandShell.Commands.Settings
import CommandShell.Execution.Evaluate
import CommandShell.Startup.CommandLine

/-!
# From start to end

A shell that was just started knows little. It is set up from the arguments and the environment of its
process, and then it runs commands until it ends.
-/

/-!
## A fresh shell

What a shell knows when it starts: the variables of its environment, those that every shell has,
and the signals that it finds ignored.
-/

namespace CommandShell.Startup

open Shell

/-- The pair that an entry of an environment spells; none when it has no equals sign. -/
def environmentPair? (entry : Host.Bytes) : Option (Text × Text) :=
  Text.cut? '=' (Text.decode entry)

/-- Where commands are searched for when the environment does not say so. -/
def defaultPath : Text := "/usr/local/sbin:/usr/local/bin:/usr/sbin:/usr/bin:/sbin:/bin"

/-- Assigns to a variable of a fresh shell. -/
def setDefault (name value : Text) : ShellM Unit := updateVariables (·.assign name value)

/-- Assigns to a variable that the environment left without a value. -/
def setMissing (name value : Text) : ShellM Unit := do
  if ((← get).value? name).isNone then setDefault name value

/-- Whether the `PWD` of the environment names the working directory. -/
def inheritedDirectoryHolds (directory : Host.Bytes) : ShellM Bool := do
  match (← get).value? "PWD" with
  | some ('/' :: rest) =>
    match ← ask (.realPath ((pathBytes? ('/' :: rest)).getD [])) with
    | .ok real => return real == directory
    | .error _ => return false
  | _ => return false

/-- Sets `PWD`, unless the environment has it right. -/
def setUpDirectory : ShellM Unit := do
  match ← ask .currentDirectory with
  | .error _ => return
  | .ok directory =>
    if !(← inheritedDirectoryHolds directory) then
      updateVariables (·.exportValue "PWD" (Text.decode directory))

/-- Sets the variables that every shell has. Field separators and prompts are never taken from
the environment. -/
def setUpVariables (environment : List Host.Bytes) : ShellM Unit := do
  modifyVariables fun _ => .ofEnvironment (environment.filterMap environmentPair?)
  let isRoot := (← ask .userName) == some (Text.encode "root")
  setDefault "IFS" " \t\n"
  setDefault "PS1" (if isRoot then "# " else "$ ")
  setDefault "PS2" "> "
  setDefault "PS4" "+ "
  setMissing "OPTIND" "1"
  setMissing "PATH" defaultPath
  setDefault "PPID" (Text.ofInt (← ask .parentId))
  setUpDirectory

/-- Makes the shell a fresh one with the variables of an environment. -/
def setUp (environment : List Host.Bytes) : ShellM Unit := do
  set ({ pid := ← ask .processId } : Shell)
  setUpVariables environment

/-- Signals that a shell leaves alone if it finds them ignored. -/
def lockable : List Signal := [.int, .quit, .term, .hup]

/-- The signals among those given that are ignored. -/
def ignoredAmong : List Signal → ShellM (List Signal)
  | [] => return []
  | s :: rest => do
    let old ← ask (.setDisposition s .default)
    let _ ← ask (.setDisposition s old)
    let more ← ignoredAmong rest
    return if old = .ignore then s :: more else more

/-- Remembers which signals came in ignored, so that no trap is set for them. -/
def lockIgnored : ShellM Unit := do
  let ignored ← ignoredAmong lockable
  modify fun sh => { sh with traps := { sh.traps with locked := sh.traps.locked ++ ignored } }

end CommandShell.Startup

/-!
## The program of the shell

From the arguments and the environment of a process to its end: the shell is set up, startup files
are sourced, commands are run, and the process ends with the status of the last one.
-/

namespace CommandShell.Startup

open Shell

/-- Ends the process before the shell runs. -/
def refuse {α : Type} (message : Text) (code : Int) : ShellM α := do
  quietly (writeErr (programName ++ ": " ++ message ++ "\n"))
  leave code

/-- Runs a startup file, if it is there. An `exit` in it ends the shell. -/
def sourceStartup (ev : Evaluator) (path : Text) : ShellM Unit := do
  match ← readFile path with
  | .error _ => return
  | .ok data =>
    match ← attempt (ev.source (Text.decode data)) with
    | .error (.jump (.exit code)) => exitShell ev code
    | .error (.jump (.returning code)) => setStatus code
    | .error s => reportStop s
    | .ok () => return

/-- The startup file that `ENV` names; parameters in its value are expanded. -/
def environmentFile? (ev : Evaluator) : ShellM (Option Text) := do
  match (← get).value? "ENV" with
  | none => return none
  | some raw =>
    match (Script.readToken.run.run (.ofText raw)).1 with
    | .error _ => return none
    | .ok tk =>
      match tk.word? with
      | none => return none
      | some w =>
        match ← attempt (Expansion.wordText ev w) with
        | .error _ => return none
        | .ok path => return if path.isEmpty then none else some path

/-- Sources the startup files that the kind of shell asks for. -/
def sourceStartupFiles (ev : Evaluator) (login : Bool) : ShellM Unit := do
  if login then
    sourceStartup ev "/etc/profile"
    match (← get).value? "HOME" with
    | some home => sourceStartup ev (home ++ "/.profile")
    | none => pure ()
  if (← get).isInteractive then
    match ← environmentFile? ev with
    | some path => sourceStartup ev path
    | none => pure ()

/-- Opens a script, on a descriptor out of the way of those that scripts redirect. -/
def openScript (path : Text) : ShellM Nat := do
  match ← openFile path { reads := true } with
  | .error e => refuse ("0: cannot open " ++ path ++ ": " ++ e.description) 127
  | .ok fd =>
    match ← ask (.duplicate fd saveFloor) with
    | .error e => refuse (Fault.inputOutput e).message 2
    | .ok high =>
      let _ ← ask (.close fd)
      return high

/-- The commands to be run. Interactive shells prompt for those on standard input. -/
def openSource (source : CommandSource) : ShellM ScriptSource := do
  match source with
  | .text t => return .ofText t
  | .file path => return .ofDescriptor (← openScript path) false
  | .standardInput => return .ofDescriptor 0 false

/-- Whether a shell that takes commands from the given source talks to a person. -/
def isConversation (source : CommandSource) : ShellM Bool := do
  if source = .standardInput then
    if ← ask (.isTerminal 0) then ask (.isTerminal 2) else return false
  else return false

/-- The options that a shell starts with. An interactive shell has job control unless the command
line decides that. -/
def startOptions (line : CommandLine) (conversation : Bool) : CommandShell.Options :=
  let options := if line.interactive || conversation then line.options.set .interactive true
    else line.options
  if options.has .interactive && !line.decidesMonitor then options.set .monitor true else options

/-- Ends the shell with what its main loop came to. -/
def finish {α : Type} (ev : Evaluator) (result : Except Stop Unit) : ShellM α := do
  match result with
  | .ok () => exitShell ev (← get).status
  | .error (.jump (.exit code)) => exitShell ev code
  | .error (.jump (.returning code)) => exitShell ev code
  | .error (.jump _) => exitShell ev (← get).status
  | .error s =>
    reportStop s
    exitShell ev s.status

/-- Gives a fresh shell the options, the name and the parameters that it was started with. -/
def configure (name : Text) (line : CommandLine) : ShellM Unit := do
  let options := startOptions line (← isConversation line.source)
  modify fun sh => { sh with
    options
    name := line.name.getD name
    «variables» := sh.variables.withParams line.params }
  if !options.has .interactive then lockIgnored
  if options.has .monitor then Commands.setUpJobControl
  refreshSignals

/-- Runs the shell that a command line asks for. -/
def runCommandLine {α : Type} (ev : Evaluator) (name : Text) (line : CommandLine) :
    ShellM α := do
  let source ← openSource line.source
  configure name line
  sourceStartupFiles ev (line.login || name.head? == some '-')
  let prompts := (← get).isInteractive && line.source == .standardInput
  finish ev (← attempt (runSource ev true { source with prompts }))

/-- Runs a shell from its arguments and environment. -/
def runShell {α : Type} (argv environment : List Host.Bytes) : ShellM α := do
  let words := argv.map Text.decode
  setUp environment
  match CommandLine.read (words.drop 1) with
  | .error e => refuse e.message 2
  | .ok line => runCommandLine evaluator (words.headD programName) line

/-- The program of the shell. It never comes to a result: the process ends. -/
def program {ρ : Type} (argv environment : List Host.Bytes) : Host.Program ρ := do
  match ← (runShell (α := Empty) argv environment).run.run {} with
  | (.ok never, _) => nomatch never
  | (.error s, _) =>
    let never ← Host.Program.request (.exit s.status)
    nomatch never

end CommandShell.Startup
