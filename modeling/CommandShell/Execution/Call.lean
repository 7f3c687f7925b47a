import CommandShell.Execution.Redirection

/-!
# Function calls

A function runs in the shell that calls it, with parameters of its own and outside of the loops
around the call. Names that it declares local, and those assigned to before the call, have their
old bindings back when it ends, however it ends. `return` ends it with a status.
-/

namespace CommandShell.Shell

/-- Gives names new exported values until the newest frame of variables closes. -/
def shadowAll : List (Text × Text) → ShellM Unit
  | [] => return
  | (name, value) :: rest => do
    updateVariables (·.shadow name)
    updateVariables (·.exportValue name value)
    shadowAll rest

/-- Runs a computation with assignments that hold no longer than it runs. -/
def withFrame (assigned : List (Text × Text)) (body : ShellM Unit) :
    ShellM (Except Stop Unit) := do
  modifyVariables Variables.openFrame
  let result ← attempt do
    shadowAll assigned
    body
  modifyVariables Variables.closeFrame
  return result

/-- The outcome of a function or sourced file: `return` ends here. -/
def takeReturn : Except Stop Unit → ShellM Unit
  | .error (.jump (.returning code)) => setStatus code
  | result => resume result

/-- Runs a computation as the body of a function. -/
def withinFunction (params : List Text) (assigned : List (Text × Text)) (body : ShellM Unit) :
    ShellM Unit := do
  let sh ← get
  modify fun sh => { sh with
    «variables» := sh.variables.withParams params
    loopDepth := 0
    functionDepth := sh.functionDepth + 1 }
  let result ← withFrame assigned body
  modify fun now => { now with
    «variables» := now.variables.withParams sh.variables.params
    loopDepth := sh.loopDepth
    functionDepth := now.functionDepth - 1 }
  takeReturn result

/-- Calls a function. A call whose status is asked for keeps `set -e` off in the body. -/
def callFunction (ev : Evaluator) (body : Script.Node) (params : List Text)
    (assigned : List (Text × Text)) (redirects : List Script.Redirect) (place : Place) :
    ShellM Unit :=
  withRedirects ev redirects <|
    withinFunction params assigned (ev.node body { isTested := place.isTested })

end CommandShell.Shell
