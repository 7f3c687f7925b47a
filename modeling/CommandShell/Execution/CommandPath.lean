import CommandShell.Shell.State

/-!
# Finding commands

A command name without a slash is searched for in the directories of `PATH`. A path that was
found is remembered until the search path changes, the file can no longer be executed, or, for a
relative path, the working directory changes.
-/

namespace CommandShell.Shell

/-- What a search for a command comes to. -/
inductive PathSearch where
  | found (path : Text)
  | notExecutable (path : Text)
  | notFound
  deriving DecidableEq, Repr

/-- The path of a name in a directory. -/
def joinPath (dir name : Text) : Text :=
  if name.head? == some '/' then name
  else if dir.getLast? == some '/' then dir ++ name
  else dir ++ "/" ++ name

/-- The paths that a name can have according to a search path. An empty entry stands for the
working directory. -/
def candidates (name searchPath : Text) : List Text :=
  (Text.splitAt ':' searchPath).map fun dir => joinPath (if dir.isEmpty then "." else dir) name

/-- Searches among paths for a file that may be executed. `fallback` is the first regular file
that may not. -/
def searchAmong (fallback : Option Text) : List Text → ShellM PathSearch
  | [] => return match fallback with
    | some path => .notExecutable path
    | none => .notFound
  | path :: rest => do
    if ← isExecutable path then return .found path
    let fallback ← if fallback.isNone && (← isRegularFile path) then pure (some path)
      else pure fallback
    searchAmong fallback rest

/-- Searches for a command in the directories of a search path. -/
def findInPath (name searchPath : Text) : ShellM PathSearch :=
  searchAmong none (candidates name searchPath)

/-- Searches `PATH` for a command and remembers what was found. -/
def searchPath (name : Text) : ShellM Text := do
  match ← findInPath name (((← get).value? "PATH").getD []) with
  | .found path =>
    modifyDefinitions (·.remember name path)
    return path
  | .notExecutable _ => fail (.permissionDenied name)
  | .notFound => fail (.commandNotFound name)

/-- The path of an external command. -/
def resolvePath (name : Text) : ShellM Text := do
  if name.contains '/' then return name
  match (← get).definitions.paths.get? name with
  | some path => if ← isExecutable path then return path else searchPath name
  | none => searchPath name

end CommandShell.Shell
