import CommandShell.Definitions
import CommandShell.Options
import CommandShell.Shell.Traps
import CommandShell.Host.Call
import CommandShell.Variables

/-!
# The state of a shell

Everything that a running shell knows, and the computations that work on it. A computation reads
and changes the state, makes calls to the system, and may stop short; what it changed before it
stopped stays changed.

Loops whose end depends on replies of the system are written with `Shell.iterate`, which bounds
the number of rounds.
-/

namespace CommandShell

open Host (Call Reply Program)

/-- A descriptor that a redirection put aside. -/
structure SavedDescriptor where
  /-- The descriptor that was redirected. -/
  fd : Nat
  /-- The copy of what it stood for; none when it was closed. -/
  copy : Option Nat
  deriving DecidableEq, Repr

/-- The name of this shell. -/
def programName : Text := "rash"

/-- The state of a shell. -/
structure Shell where
  «variables» : Variables := {}
  definitions : Definitions := {}
  jobs : Jobs := {}
  options : CommandShell.Options := .none
  traps : Traps := {}
  /-- `$0` -/
  name : Text := programName
  /-- `$$`, which subshells share. -/
  pid : ProcessId := 0
  /-- `$!` -/
  lastBackground : Option ProcessId := none
  /-- `$?` -/
  status : Int := 0
  /-- The line of the command that runs. -/
  line : Nat := 0
  loopDepth : Nat := 0
  functionDepth : Nat := 0
  /-- Number of sourced files being run. -/
  sourceDepth : Nat := 0
  /-- The status of the last command substitution in the current command. -/
  substitutionStatus : Option Int := none
  inTrap : Bool := false
  isSubshell : Bool := false
  /-- The descriptor of the terminal that job control uses. -/
  terminal : Option Nat := none
  /-- Whether the command for the end of the shell has been taken. -/
  isExiting : Bool := false
  /-- Descriptors put aside by the redirections in effect, newest first. -/
  saved : List (List SavedDescriptor) := []

instance : Inhabited Shell := ⟨{}⟩

/-- A computation of a shell. -/
abbrev ShellM := ExceptT Stop (StateT Shell Program)

namespace Shell

/-- Whether an option is on. -/
def has (sh : Shell) (o : ShellOption) : Bool := sh.options.has o

/-- Whether the shell is interactive. -/
def isInteractive (sh : Shell) : Bool := sh.has .interactive

/-- The options that decide how signals are treated. -/
def signalMode (sh : Shell) : SignalMode :=
  { interactive := sh.isInteractive, monitor := sh.has .monitor }

/-- The value of a variable. -/
def value? (sh : Shell) (name : Text) : Option Text := sh.variables.value? name

/-- The start of every message: the name of the shell and the line. -/
def blame (sh : Shell) : Text := sh.name ++ ": " ++ Text.ofNat sh.line

/-- What a forked copy of a shell keeps: no jobs, no job control, no prompts, and only the traps
that ignore. -/
def asSubshell (sh : Shell) : Shell :=
  { sh with
    isSubshell := true
    traps := sh.traps.inSubshell
    options := (sh.options.set .monitor false).set .interactive false
    terminal := none
    isExiting := false
    jobs := {} }

/-- An assignment as the language has it: it exports if that option is on, and a new search path
makes remembered paths worthless. -/
def assign (sh : Shell) (name value : Text) : Except Fault Shell :=
  (sh.variables.assignWith name (some value) (sh.has .allexport) false).map fun vs =>
    { sh with
      «variables» := vs
      definitions := if name = "PATH" then sh.definitions.forgetAll else sh.definitions }

/-- Removes a variable. -/
def unset (sh : Shell) (name : Text) : Except Fault Shell :=
  (sh.variables.unset name).map fun vs =>
    { sh with
      «variables» := vs
      definitions := if name = "PATH" then sh.definitions.forgetAll else sh.definitions }

/-! ## Computations -/

/-- Makes a call. -/
def ask (c : Call) : ShellM (Reply c) := liftM (Program.request c)

/-- Stops with an error. -/
def fail {α : Type} (f : Fault) : ShellM α := throw (.ofFault f)

/-- Stops for a change of control. -/
def jump {α : Type} (j : Jump) : ShellM α := throw (.jump j)

/-- The value of a result, or its error. -/
def ofExcept {α : Type} : Except Fault α → ShellM α
  | .ok a => pure a
  | .error f => fail f

/-- The outcome of a computation, as a value. -/
def attempt {α : Type} (x : ShellM α) : ShellM (Except Stop α) :=
  ExceptT.mk ((fun r => .ok r) <$> x.run)

/-- Stops or goes on as an outcome says. -/
def resume {α : Type} : Except Stop α → ShellM α
  | .ok a => pure a
  | .error s => throw s

/-- Runs a computation and forgets whether it failed. -/
def quietly (x : ShellM Unit) : ShellM Unit := do
  let _ ← attempt x

/-- The number of rounds after which a loop is given up. -/
def roundLimit : Nat := 1000000000

/-- Repeats a step on a value until it gives a result, `n` times at most. -/
def iterateFor {σ α : Type} (step : σ → ShellM (σ ⊕ α)) : Nat → σ → ShellM α
  | 0, _ => fail (.internal "out of steps")
  | n + 1, s => do
    match ← step s with
    | .inl s => iterateFor step n s
    | .inr a => return a

/-- Repeats a step on a value until it gives a result. -/
def iterate {σ α : Type} (step : σ → ShellM (σ ⊕ α)) (s : σ) : ShellM α :=
  iterateFor step roundLimit s

/-- Sets `$?`. -/
def setStatus (code : Int) : ShellM Unit := modify fun sh => { sh with status := code }

/-- Changes the variables. -/
def modifyVariables (f : Variables → Variables) : ShellM Unit :=
  modify fun sh => { sh with «variables» := f sh.variables }

/-- Changes the variables, if that is not refused. -/
def updateVariables (f : Variables → Except Fault Variables) : ShellM Unit := do
  let vs ← ofExcept (f (← get).variables)
  modify fun sh => { sh with «variables» := vs }

/-- Changes functions, aliases and remembered paths. -/
def modifyDefinitions (f : Definitions → Definitions) : ShellM Unit :=
  modify fun sh => { sh with definitions := f sh.definitions }

/-- Changes the jobs. -/
def modifyJobs (f : Jobs → Jobs) : ShellM Unit :=
  modify fun sh => { sh with jobs := f sh.jobs }

/-- Assigns to a variable. -/
def assignVariable (name value : Text) : ShellM Unit := do
  set (← ofExcept ((← get).assign name value))

/-- Removes a variable. -/
def unsetVariable (name : Text) : ShellM Unit := do
  set (← ofExcept ((← get).unset name))

/-- Sets what is done with signals. -/
def setDispositions (ds : List (Signal × Host.Disposition)) : ShellM Unit :=
  ds.forM fun (s, d) => do
    let _ ← ask (.setDisposition s d)

/-- Sets what is done with signals as options and traps have it. -/
def refreshSignals : ShellM Unit := do
  let sh ← get
  setDispositions (sh.traps.shellDispositions sh.signalMode)

/-! ## Writing -/

/-- Writes bytes to a descriptor until all are written. -/
def writeBytes (fd : Nat) (data : Host.Bytes) : ShellM Unit :=
  iterate (fun (rest : Host.Bytes) => do
    if rest.isEmpty then return .inr ()
    match ← ask (.write fd rest) with
    | .ok n => return .inl (rest.drop n)
    | .error e => if e = .interrupted then return .inl rest else fail (.inputOutput e)) data

/-- Writes a text to a descriptor. -/
def write (fd : Nat) (t : Text) : ShellM Unit := writeBytes fd (Text.encode t)

/-- Writes to standard output. -/
def writeOut (t : Text) : ShellM Unit := write 1 t

/-- Writes to standard error. -/
def writeErr (t : Text) : ShellM Unit := write 2 t

/-- Writes a message that starts with the name of the shell and the line. -/
def report (message : Text) : ShellM Unit := do
  quietly (writeErr ((← get).blame ++ ": " ++ message ++ "\n"))

/-- Writes the message of an error; jumps have none. -/
def reportStop (s : Stop) : ShellM Unit := do
  if s.isJump then return
  let sh ← get
  let line := s.line?.getD sh.line
  quietly (writeErr (sh.name ++ ": " ++ Text.ofNat line ++ ": " ++ s.message ++ "\n"))

/-! ## Reading -/

/-- Number of bytes asked for at once. -/
def chunkSize : Nat := 65536

/-- Reads from a descriptor; a signal does not end the attempt. -/
def readSome (fd count : Nat) : ShellM (Except Errno Host.Bytes) :=
  iterate (fun (_ : Unit) => do
    match ← ask (.read fd count) with
    | .error e => if e = .interrupted then return .inl () else return .inr (.error e)
    | .ok bs => return .inr (.ok bs)) ()

/-- Reads all that is left on a descriptor. -/
def readAll (fd : Nat) : ShellM (Except Errno Host.Bytes) :=
  iterate (fun (chunks : List Host.Bytes) => do
    match ← readSome fd chunkSize with
    | .error e => return .inr (.error e)
    | .ok [] => return .inr (.ok chunks.reverse.flatten)
    | .ok bs => return .inl (bs :: chunks)) []

/-! ## Descriptors -/

/-- Copies a descriptor to a given number, where it may be already. -/
def duplicateOnto (fd target : Nat) : ShellM (Except Errno Unit) := do
  if fd = target then return .ok () else ask (.duplicateOnto fd target)

/-- Closes a descriptor. -/
def closeOrFail (fd : Nat) : ShellM Unit := do
  match ← ask (.close fd) with
  | .ok () => return
  | .error e => fail (.inputOutput e)

/-! ## Files -/

/-- The bytes of a path; none when it holds a zero byte, which no path does. -/
def pathBytes? (path : Text) : Option Host.Bytes :=
  let bs := Text.encode path
  if bs.contains 0 then none else some bs

/-- The bytes of a path whose characters are all written out, those that stand for single bytes
too; none when it holds a zero byte. -/
def plainPathBytes? (path : Text) : Option Host.Bytes :=
  let bs := Text.utf8 path
  if bs.contains 0 then none else some bs

/-- Opens a file. -/
def openFile (path : Text) (flags : Host.OpenFlags) : ShellM (Except Errno Nat) :=
  match pathBytes? path with
  | some p => ask (.openFile p flags)
  | none => return .error .unknown

/-- What is known of the file at the bytes of a path, if these are a path. -/
def statusAt (path? : Option Host.Bytes) (follow : Bool) : ShellM (Except Errno Host.FileStatus) :=
  match path? with
  | some p => ask (.fileStatus p follow)
  | none => return .error .unknown

/-- What is known of a file. -/
def fileStatus (path : Text) (follow : Bool) : ShellM (Except Errno Host.FileStatus) :=
  statusAt (pathBytes? path) follow

/-- Whether a file may be used so. -/
def canAccess (path : Text) (permission : Host.Permission) : ShellM Bool :=
  match pathBytes? path with
  | some p => return (← ask (.access p permission)).isOk
  | none => return false

/-- Whether a path leads to a regular file. -/
def isRegularFile (path : Text) : ShellM Bool := do
  match ← fileStatus path true with
  | .ok st => return st.kind == .regular
  | .error _ => return false

/-- Whether a path leads to a directory. -/
def isDirectory (path : Text) : ShellM Bool := do
  match ← fileStatus path true with
  | .ok st => return st.kind == .directory
  | .error _ => return false

/-- Whether a path leads to a regular file that may be executed. -/
def isExecutable (path : Text) : ShellM Bool := do
  if ← isRegularFile path then canAccess path .execute else return false

/-- The working directory. -/
def currentDirectory : ShellM (Except Errno Text) := do
  return (← ask .currentDirectory).map Text.decode

/-- The contents of a file. -/
def readFile (path : Text) : ShellM (Except Errno Host.Bytes) := do
  match ← openFile path { reads := true } with
  | .error e => return .error e
  | .ok fd =>
    let data ← readAll fd
    let _ ← ask (.close fd)
    return data

end Shell

end CommandShell
