import CommandShell.Commands.Exec
import CommandShell.Execution.Call
import CommandShell.Execution.Foreground

/-!
# Simple commands

A simple command is made of assignments, words and redirections. Its words are expanded first. If
none is left the assignments are made in the shell itself. Otherwise the first word names a
function, a built-in command or an external program, in this order, and the assignments are made
for that alone, unless the command is a special built-in one.
-/

namespace CommandShell.Shell

open Script (Word Redirect)
open Expansion (arguments assignment assignments)
open Commands (runExec assignAll)

/-- What `set -x` shows of a command. -/
def traceLine (ps4 : Text) (assigned : List (Text × Text)) (args : List Text) : Text :=
  ps4 ++ Text.join " " ((assigned.map fun (name, value) => name ++ "=" ++ Text.quote value)
    ++ args.map Text.quote) ++ "\n"

/-- Shows a command before it runs, if that is asked for. -/
def trace (assigned : List (Text × Text)) (args : List Text) : ShellM Unit := do
  let sh ← get
  if sh.has .xtrace then
    quietly (writeErr (traceLine ((sh.value? "PS4").getD "+ ") assigned args))

/-- Makes assignments in the shell, each seeing those before it. -/
def assignWords (ev : Evaluator) : List Word → ShellM Unit
  | [] => return
  | w :: ws => do
    let (name, value) ← assignment ev w
    trace [(name, value)] []
    assignVariable name value
    assignWords ev ws

/-- Runs a command without words. Its status is that of the last command substitution in it. -/
def runAssignments (ev : Evaluator) (words : List Word) (redirects : List Redirect) :
    ShellM Unit := do
  assignWords ev words
  let status := (← get).substitutionStatus.getD 0
  withRedirects ev redirects (setStatus status)

/-- Calls a built-in command by its name. -/
def callBuiltin (ev : Evaluator) (b : Builtin) (name : Text) (args : List Text)
    (assigned : List (Text × Text)) (redirects : List Redirect) : ShellM Unit := do
  if b = .exec then runExec ev args assigned redirects
  else
    let body := withRedirects ev redirects (ev.builtin b name args)
    if b.isSpecial then
      assignAll assigned
      body
    else if assigned.isEmpty then body
    else resume (← withFrame assigned body)

/-- Runs an external program, in place of the shell if nothing is left to do after it. -/
def runExternal (ev : Evaluator) (args : List Text) (assigned : List (Text × Text))
    (redirects : List Redirect) (place : Place) : ShellM Unit := do
  match ← attempt (resolvePath (args.headD [])) with
  | .error s =>
    withRedirects ev redirects do
      reportStop s
      setStatus s.status
  | .ok path =>
    let launch : ShellM Unit := do
      applyRedirects ev false redirects
      exportAll assigned
      executeProgram path args
    if place.isLast && ((← get).traps.get? 0).isNone then launch
    else runForeground (← forkJob ev (Text.join " " args) launch)

/-- Runs the command that words name, given the functions that count. -/
def runArguments (ev : Evaluator) (functions : Table Script.Node) (args : List Text)
    (assigned : List (Text × Text)) (redirects : List Redirect) (place : Place) :
    ShellM Unit := do
  match args with
  | [] => return
  | name :: operands =>
    if name.contains '/' then runExternal ev args assigned redirects place
    else
      match functions.get? name with
      | some body => callFunction ev body operands assigned redirects place
      | none =>
        match Builtin.ofName? name with
        | some b => callBuiltin ev b name operands assigned redirects
        | none => runExternal ev args assigned redirects place

/-- Runs a simple command. -/
def runSimple (ev : Evaluator) (assigns words : List Word) (redirects : List Redirect)
    (place : Place) : ShellM Unit := do
  modify fun sh => { sh with substitutionStatus := none }
  let args ← arguments ev words
  if args.isEmpty then runAssignments ev assigns redirects
  else
    let assigned ← assignments ev assigns
    trace assigned args
    runArguments ev (← get).definitions.functions args assigned redirects place

end CommandShell.Shell
