import CommandShell.Execution.Arrived
import CommandShell.Execution.Foreground
import CommandShell.Expansion.Prompt
import CommandShell.Script.Grammar

/-!
# Running scripts

A script is read and run one command line at a time, since what a command does can change how the
rest is read. A script that comes from a descriptor is read no further than the line that its
commands need, so that programs started by the shell find the input after it.

The main loop of the shell also looks after jobs and prompts between commands. Errors end there:
they are reported, and the next command runs, unless the error is one that ends the shell.
-/

namespace CommandShell.Shell

open Script (Input Parsed Node)

/-- A script, as far as it has not been run. -/
structure ScriptSource where
  /-- What has been read of it. -/
  input : Input
  /-- The descriptor that further lines come from. -/
  descriptor : Option Nat := none
  /-- Whether a prompt is shown before each line is read. -/
  prompts : Bool := false

namespace ScriptSource

/-- A text as a script. -/
def ofText (t : Text) : ScriptSource := { input := .ofText t }

/-- The script that is read from a descriptor. -/
def ofDescriptor (fd : Nat) (prompts : Bool) : ScriptSource :=
  { input := { closed := false }, descriptor := some fd, prompts }

end ScriptSource

/-! ## Reading -/

/-- Reads a line byte by byte; none at the end of the input. -/
def readLine (fd : Nat) : ShellM (Option Text) :=
  iterate (fun (line : Host.Bytes) => do
    let finish := if line.isEmpty then none else some (Text.decode line.reverse)
    match ← readSome fd 1 with
    | .error e => fail (.inputOutput e)
    | .ok [] => return .inr finish
    | .ok (b :: _) =>
      return if b = 0x0A then .inr (some (Text.decode (b :: line).reverse)) else .inl (b :: line)) []

/-- The prompt for the first line of a command, or for one that goes on with it. -/
def promptFor (first : Bool) : ShellM Text := do
  let sh ← get
  if first then Expansion.prompt ((sh.value? "PS1").getD []) else return (sh.value? "PS2").getD []

/-- The next line of a script; none when there is none. -/
def nextLine (src : ScriptSource) (first : Bool) : ShellM (Option Text) := do
  match src.descriptor with
  | none => return none
  | some fd =>
    if src.prompts then writeErr (← promptFor first)
    let line ← readLine fd
    if (← get).has .verbose then quietly (writeErr (line.getD []))
    return line

/-- Reads a command line, with as many lines of input as it takes. -/
def readCommand (src : ScriptSource) : ShellM (Except Stop Parsed × Input) :=
  iterate (fun (input : Input) => do
    match Script.parseCommand.run.run input with
    | (.ok parsed, rest) => return .inr (.ok parsed, rest)
    | (.error (.stop s), rest) => return .inr (.error s, rest)
    | (.error .needLine, rest) =>
      match ← attempt (nextLine src rest.primary) with
      | .error s => return .inr (.error s, rest)
      | .ok none => return .inl { input with closed := true }
      | .ok (some line) => return .inl { input with queue := input.queue ++ [line] }) src.input

/-- Gives the reader the aliases and options that hold now. Lines of a text are shown by the
reader, other lines when they arrive. -/
def refreshSource (sh : Shell) (src : ScriptSource) : ScriptSource :=
  { src with input := { src.input with
      aliases := sh.definitions.aliases
      verbose := sh.has .verbose && src.descriptor.isNone } }

/-- Shows the lines that the reader took. -/
def showLines (input : Input) : ShellM Input := do
  input.shown.reverse.forM fun line => quietly (writeErr line)
  return { input with shown := [] }

/-! ## Between commands -/

/-- The lines that tell about stopped jobs. -/
def stoppedLines (js : Jobs) (ns : List Nat) : Text :=
  ns.flatMap fun n => match js.get? n with
    | some j => if j.state = .stopped then (j.line (js.marker n) ++ "\n" : Text) else []
    | none => []

/-- Tells about jobs that stopped or ended in the background. -/
def notifyJobs : ShellM Unit := do
  let (jobs, changed) := (← get).jobs.takeChanged
  let stopped := stoppedLines jobs changed
  let (jobs, ended) := jobs.takeDone
  modifyJobs fun _ => jobs
  writeErr (stopped ++ ended.flatMap fun (j, marker) => (j.line marker ++ "\n" : Text))

/-- The finished jobs that nobody can ask for any more: all but the one of the last background
process. -/
def forgettable (js : Jobs) (last : Option ProcessId) : List Nat :=
  (js.toList.filter fun j =>
    j.state == .done && !(last.any fun pid => j.hasPid pid)).filterMap (·.id)

/-- Takes jobs out of a table. -/
def removeJobs (js : Jobs) (ns : List Nat) : Jobs := ns.foldl (fun js n => (js.remove n).1) js

/-- Forgets finished jobs that nobody can ask for. -/
def forgetDoneJobs : ShellM Unit :=
  modify fun sh => { sh with jobs := removeJobs sh.jobs (forgettable sh.jobs sh.lastBackground) }

/-- What the main loop does before each command. -/
def checkpoint (ev : Evaluator) : ShellM Unit := do
  quietly (reap ((← get).has .monitor))
  if (← get).isInteractive then notifyJobs else forgetDoneJobs
  runTraps ev

/-- What becomes of a command that stopped short. The script goes on unless this stops too. -/
def takeStop (top : Bool) (s : Stop) : ShellM Unit := do
  reportStop s
  match s.stopClass with
  | .jump => if top && s == .jump .interrupted then setStatus 130 else throw s
  | .malformed =>
    setStatus 2
    if !(← get).isInteractive then jump (.exit 2)
  | .fatal => jump (.exit s.status)
  | .expansion | .execution => setStatus s.status

/-! ## The loop -/

/-- Runs a command that was read, unless commands are only checked. -/
def runRead (ev : Evaluator) (top : Bool) (node : Node) : ShellM Unit := do
  let sh ← get
  if sh.has .noexec && !sh.isInteractive then return
  match ← attempt (ev.node node {}) with
  | .ok () => return
  | .error s => takeStop top s

/-- Reads and runs one command line of a script. -/
def sourceStep (ev : Evaluator) (top : Bool) (src : ScriptSource) :
    ShellM (ScriptSource ⊕ Unit) := do
  if top then checkpoint ev
  let src := refreshSource (← get) src
  let (result, input) ← readCommand src
  let input ← showLines input
  match result with
  | .ok .done => return .inr ()
  | .ok .empty => return .inl { src with input }
  | .ok (.command node) =>
    runRead ev top node
    return .inl { src with input }
  | .error s =>
    takeStop top s
    return if top then .inl { src with input := input.discardLine } else .inr ()

/-- Runs a script. `top` tells whether this is the main loop of the shell. A text has no more commands
than lines, so that no text is too long. -/
def runSource (ev : Evaluator) (top : Bool) (src : ScriptSource) : ShellM Unit :=
  iterateFor (sourceStep ev top) (roundLimit + src.input.queue.length) src

/-- Runs a text as a script in the current shell. -/
def runText (ev : Evaluator) (t : Text) : ShellM Unit := do
  let line := (← get).line
  let result ← attempt (runSource ev false (.ofText t))
  modify fun sh => { sh with line }
  resume result

end CommandShell.Shell
