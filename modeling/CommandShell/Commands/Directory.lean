import CommandShell.Builtin
import CommandShell.Shell.State

/-!
# The working directory

`cd` changes the working directory. It thinks of paths as texts: `..` takes away the name before
it, whatever that name leads to, and `PWD` holds the result. With `-P` the path goes to the system
as it is, and `PWD` gets the path that the system knows. A relative operand is looked for below
the directories of `CDPATH` first.
-/

namespace CommandShell.Commands

open Shell

/-- The names of a path after one more name. -/
def pushName (names : List Text) (name : Text) : List Text :=
  if name.isEmpty || name = ['.'] then names
  else if name = ['.', '.'] then names.dropLast
  else names ++ [name]

/-- An absolute path without dots and empty names. -/
def logicalPath (path : Text) : Text :=
  '/' :: Text.join "/" ((Text.splitAt '/' path).foldl pushName [])

/-- Whether an operand names a directory without help of `CDPATH`. -/
def isExplicit (dir : Text) : Bool :=
  dir.head? == some '/' || dir = ['.'] || dir = ['.', '.']
    || (Text.dropPrefix? "./" dir).isSome || (Text.dropPrefix? "../" dir).isSome

/-- The paths to be tried for an operand, each with whether it comes from `CDPATH`. -/
def directoryCandidates (searchPath : Option Text) (dir : Text) : List (Text × Bool) :=
  let below := match searchPath with
    | some path =>
      if isExplicit dir then []
      else (((Text.splitAt ':' path).filter (!·.isEmpty)).map fun above =>
        (Text.trimEnd (· == '/') above ++ "/" ++ dir, true))
    | none => []
  below ++ [(dir, false)]

/-- The directory that `cd` is told to go to, and whether it shows where that is. -/
def directoryOperand (args : List Text) : ShellM (Text × Bool) := do
  let sh ← get
  match args with
  | [] =>
    match sh.value? "HOME" with
    | some (c :: home) => return (c :: home, false)
    | _ => fail (.execution "HOME not set")
  | ['-'] :: _ =>
    match sh.value? "OLDPWD" with
    | some old => return (old, true)
    | none => fail (.execution "OLDPWD not set")
  | dir :: _ => return (dir, false)

/-- Makes a path the working directory. -/
def changeDirectory (path : Text) : ShellM (Except Errno Unit) :=
  match pathBytes? path with
  | some p => ask (.changeDirectory p)
  | none => return .error .unknown

/-- Tries paths until one can be made the working directory. The result is its logical form and
whether it came from `CDPATH`, or the last error. -/
def tryDirectories (physical : Bool) (here : Text) (last : Errno) :
    List (Text × Bool) → ShellM (Except Errno (Text × Bool))
  | [] => return .error last
  | (path, fromSearch) :: rest => do
    let logical := logicalPath (if path.head? == some '/' then path else here ++ "/" ++ path)
    match ← changeDirectory (if physical then path else logical) with
    | .ok () => return .ok (logical, fromSearch)
    | .error e => tryDirectories physical here e rest

/-- The working directory as the system knows it. -/
def physicalDirectory : ShellM Text := do
  match ← currentDirectory with
  | .ok dir => return dir
  | .error e => fail (.inputOutput e)

/-- Where the shell thinks it is. -/
def logicalDirectory : ShellM Text := do
  match (← get).value? "PWD" with
  | some pwd => return pwd
  | none => return ((← currentDirectory).toOption).getD "/"

/-- `cd [-L|-P] [directory|-]` -/
def runCd (args : List Text) : ShellM Unit := do
  let (opts, operands) ← ofExcept (Builtin.takeOptions "LP" args)
  let physical := opts.getLast? == some 'P'
  let (target, shows) ← directoryOperand operands
  let here ← logicalDirectory
  let searchPath := (← get).value? "CDPATH"
  match ← tryDirectories physical here .unknown (directoryCandidates searchPath target) with
  | .error e =>
    let reason := if e = .unknown then Errno.noEntry.description else e.description
    fail (.execution ("can't cd to " ++ target ++ ": " ++ reason))
  | .ok (logical, fromSearch) =>
    let pwd ← if physical then physicalDirectory else pure logical
    updateVariables (·.exportValue "OLDPWD" here)
    updateVariables (·.exportValue "PWD" pwd)
    modifyDefinitions (·.forgetRelative)
    if shows || fromSearch then writeOut (pwd ++ "\n")
    setStatus 0

/-- `pwd [-L|-P]` -/
def runPwd (args : List Text) : ShellM Unit := do
  let (opts, _) ← ofExcept (Builtin.takeOptions "LP" args)
  let logical := ((← get).value? "PWD").filter fun pwd =>
    opts.getLast? != some 'P' && pwd.head? == some '/'
  let dir ← match logical with
    | some dir => pure dir
    | none => physicalDirectory
  writeOut (dir ++ "\n")
  setStatus 0

end CommandShell.Commands
