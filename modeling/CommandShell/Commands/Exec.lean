import CommandShell.Execution.CommandPath
import CommandShell.Execution.Child
import CommandShell.Execution.Redirection

/-!
# The exec command

Without a command, `exec` makes redirections last for the rest of the shell's life. With one, the
command takes the place of the shell. It is the only built-in command that looks at its own
redirections: none of them is undone.
-/

namespace CommandShell.Commands

open Shell

/-- Reports what is wrong with an `exec`; a shell that is not interactive ends. -/
def failExec (s : Stop) (code : Int) : ShellM Unit := do
  report ("exec: " ++ s.message)
  setStatus code
  if !(← get).isInteractive then jump (.exit code)

/-- Assigns to variables one after the other. -/
def assignAll : List (Text × Text) → ShellM Unit
  | [] => return
  | (name, value) :: rest => do
    assignVariable name value
    assignAll rest

/-- `exec [command [argument…]]`, with the assignments before it and its redirections. -/
def runExec (ev : Evaluator) (args : List Text) (assigned : List (Text × Text))
    (redirects : List Script.Redirect) : ShellM Unit := do
  match args with
  | [] =>
    match ← attempt (applyRedirects ev false redirects) with
    | .error s => failExec s 1
    | .ok () =>
      assignAll assigned
      setStatus 0
  | command :: _ =>
    match ← attempt (resolvePath command) with
    | .error s => failExec s s.status
    | .ok path =>
      match ← attempt (applyRedirects ev false redirects) with
      | .error s => failExec s 1
      | .ok () =>
        exportAll assigned
        executeProgram path args

end CommandShell.Commands
