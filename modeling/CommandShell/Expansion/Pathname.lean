import CommandShell.Pattern
import CommandShell.Shell.State

/-!
# Pathname expansion

A pattern is matched against the tree of files component by component. A component without
special characters is taken as it is; another one is matched against the names in each directory
found so far. A component that starts with a dot finds the names that do, and then the directory itself
and the one above count as names too; so does one that starts with `*.`, among the names that are there.
-/

namespace CommandShell.Expansion

open Shell

/-- A path below a directory; no directory at all stands for the working directory. -/
def pathBelow (dir name : Text) : Text :=
  if dir.isEmpty || dir.getLast? == some '/' then dir ++ name else dir ++ "/" ++ name

/-- The names in a directory, with those of itself and the one above if `dotted` says so; none when it
cannot be read. -/
def directoryNames (dotted : Bool) (dir : Text) : ShellM (List Text) := do
  match pathBytes? (if dir.isEmpty then "." else dir) with
  | none => return []
  | some p =>
    match ← ask (.listDirectory p) with
    | .ok names => return names.map Text.decode ++ if dotted then [['.'], ['.', '.']] else []
    | .error _ => return []

/-- The paths in a directory whose last name fits a component. -/
def pathsIn (component : List PatternItem) (dotted : Bool) (dir : Text) : ShellM (List Text) := do
  let names ← directoryNames dotted dir
  return (names.filter (Pattern.matchesWith Pattern.pathname component)).map (pathBelow dir)

/-- The paths in each of the directories. -/
def pathsInAll (component : List PatternItem) (dotted : Bool) : List Text → ShellM (List Text)
  | [] => return []
  | dir :: rest => do
    let here ← pathsIn component dotted dir
    return here ++ (← pathsInAll component dotted rest)

/-- The paths that components lead to from the given directories; none when a component is no
valid pattern or fits nothing. -/
def follow : List Text → List Text → ShellM (Option (List Text))
  | paths, [] => return some paths
  | paths, component :: rest => do
    if !component.any Pattern.isMagic then
      follow (paths.map fun p => pathBelow p component) rest
    else match Pattern.compile? component with
      | none => return none
      | some items =>
        let found ← pathsInAll items (component.head? == some '.') paths
        if found.isEmpty then return none else follow found rest

/-- Whether a path leads to a file, or to a directory if only those count. -/
def pathExists (directoriesOnly : Bool) (path : Text) : ShellM Bool := do
  if !(← fileStatus path false).isOk then return false
  if directoriesOnly then isDirectory path else return true

/-- The paths that lead to files. -/
def existing (directoriesOnly : Bool) : List Text → ShellM (List Text)
  | [] => return []
  | p :: rest => do
    let here ← pathExists directoriesOnly p
    let others ← existing directoriesOnly rest
    return if here then p :: others else others

/-- The paths that a pattern matches, in order; none when it matches nothing. -/
def pathnames (pattern : Text) : ShellM (Option (List Text)) := do
  let start : Text := if pattern.head? == some '/' then "/" else []
  let directoriesOnly := pattern.getLast? == some '/'
  let components := (Text.splitAt '/' pattern).filter (!·.isEmpty)
  match ← follow [start] components with
  | none => return none
  | some paths =>
    let found ← existing directoriesOnly paths
    if found.isEmpty then return none
    return some (Text.sort (if directoriesOnly then found.map (· ++ "/") else found))

end CommandShell.Expansion
