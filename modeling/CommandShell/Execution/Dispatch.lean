import CommandShell.Execution.Evaluator
import CommandShell.Execution.Arrived
import CommandShell.Execution.Pipeline
import CommandShell.Execution.Simple
import CommandShell.Pattern

/-!
# Commands and loops

What the kinds of commands do, given an evaluator for the commands inside them.
-/

/-!
## Loops

`while`, `until` and `for`. A `break` or `continue` meant for a loop ends there; one that counts
further loops goes on outwards with its count lowered. The status of a loop is that of the last
command of its body, or zero when the body did not run.
-/

namespace CommandShell.Shell

open Script (Node)

/-- Where a loop goes after one of its lists. -/
inductive LoopFlow where
  | next | leave | again
  deriving DecidableEq, Repr

/-- Where a loop goes after one of its lists ended so. Stops that are not for it pass through. -/
def loopFlow : Except Stop Unit → ShellM LoopFlow
  | .ok () => return .next
  | .error (.jump (.breaking n)) => if 1 < n then jump (.breaking (n - 1)) else return .leave
  | .error (.jump (.continuing n)) => if 1 < n then jump (.continuing (n - 1)) else return .again
  | .error s => throw s

/-- Runs a computation one loop further in. Its result is the status of the loop. -/
def withinLoop (body : ShellM Int) : ShellM Unit := do
  modify fun sh => { sh with loopDepth := sh.loopDepth + 1 }
  let result ← attempt do
    setStatus (← body)
  modify fun sh => { sh with loopDepth := sh.loopDepth - 1 }
  resume result

/-- One round of a `while` or `until` loop, with the status so far. -/
def loopRound (ev : Evaluator) (cond body : Node) (untilZero : Bool) (place : Place)
    (status : Int) : ShellM (Int ⊕ Int) := do
  match ← loopFlow (← attempt (ev.node cond place.tested)) with
  | .leave => return .inr status
  | .again => return .inl status
  | .next =>
    if ((← get).status == 0) == untilZero then return .inr status
    let flow ← loopFlow (← attempt (ev.node body place.notLast))
    let status := (← get).status
    return if flow = .leave then .inr status else .inl status

/-- Runs a loop for as long as its condition holds, or until it does. -/
def runLoop (ev : Evaluator) (cond body : Node) (untilZero : Bool) (place : Place) :
    ShellM Unit :=
  withinLoop (iterate (loopRound ev cond body untilZero place) 0)

/-- Runs the body of a `for` loop for each of the items, with the status so far. -/
def forItems (ev : Evaluator) (var : Text) (body : Node) (place : Place) (status : Int) :
    List Text → ShellM Int
  | [] => return status
  | item :: rest => do
    assignVariable var item
    let flow ← loopFlow (← attempt (ev.node body place.notLast))
    let status := (← get).status
    if flow = .leave then return status else forItems ev var body place status rest

/-- Runs a `for` loop over items. -/
def runFor (ev : Evaluator) (var : Text) (items : List Text) (body : Node) (place : Place) :
    ShellM Unit :=
  withinLoop (forItems ev var body place 0 items)

end CommandShell.Shell

/-!
## Running commands

What each kind of command does, given how to run the commands inside it. After a simple command
the traps of signals that arrived are run. With `set -e` the shell ends after a simple command, a
pipeline or a subshell that failed, unless its status is asked for.
-/

namespace CommandShell.Shell

open Script (Word Node Command CaseArm)
open Expansion (arguments wordText wordPattern)

/-- Whether a subject fits one of the patterns. Patterns after the first that fits are not
expanded. -/
def fitsAny (ev : Evaluator) (subject : Text) : List Word → ShellM Bool
  | [] => return false
  | w :: ws => do
    if Pattern.accepts (← wordPattern ev w) subject then return true else fitsAny ev subject ws

/-- Runs the first arm that a subject fits. -/
def runArms (ev : Evaluator) (subject : Text) (place : Place) : List CaseArm → ShellM Unit
  | [] => setStatus 0
  | .mk patterns body :: rest => do
    if ← fitsAny ev subject patterns then
      match body with
      | some body => ev.node body place
      | none => setStatus 0
    else runArms ev subject place rest

/-- Runs an `if` command. -/
def runIf (ev : Evaluator) (cond thenBody : Node) (elseBody : Option Node) (place : Place) :
    ShellM Unit := do
  ev.node cond place.tested
  if (← get).status = 0 then ev.node thenBody place
  else
    match elseBody with
    | some body => ev.node body place
    | none => setStatus 0

/-- The items of a `for` loop: what its words stand for, or the positional parameters. -/
def loopItems (ev : Evaluator) : Option (List Word) → ShellM (List Text)
  | some words => arguments ev words
  | none => return (← get).variables.params

/-- Runs a kind of command. -/
def runKind (ev : Evaluator) (place : Place) : Command → ShellM Unit
  | .simple assigns words redirects => do
    runSimple ev assigns words redirects place
    runTraps ev
  | .pipeline stages => runPipeline ev stages place
  | .not body => do
    ev.node body place.tested
    setStatus (if (← get).status = 0 then 1 else 0)
  | .and left right => do
    ev.node left place.tested
    if (← get).status = 0 then ev.node right place
  | .or left right => do
    ev.node left place.tested
    if (← get).status ≠ 0 then ev.node right place
  | .list left right => do
    ev.node left place.notLast
    ev.node right place
  | .background body => runBackground ev body
  | .ifThen cond thenBody elseBody => runIf ev cond thenBody elseBody place
  | .whileDo cond body => runLoop ev cond body false place
  | .untilDo cond body => runLoop ev cond body true place
  | .forIn var items body => do runFor ev var (← loopItems ev items) body place
  | .caseOf subject arms => do runArms ev (← wordText ev subject) place arms
  | .subshell body redirects => runSubshell ev body redirects place
  | .brace body => ev.node body place
  | .redirected body redirects => withRedirects ev redirects (ev.node body place.notLast)
  | .function name body => do
    modifyDefinitions (·.setFunction name body)
    setStatus 0

/-- Ends the shell after a command that failed, if that is asked for. -/
def checkErrexit (node : Node) (place : Place) : ShellM Unit := do
  let sh ← get
  if sh.status ≠ 0 && node.isSimple && !place.isTested && sh.has .errexit then
    jump (.exit sh.status)

/-- Runs a command. -/
def runNode (ev : Evaluator) (node : Node) (place : Place) : ShellM Unit := do
  modify fun sh => { sh with line := node.line }
  runKind ev place node.command
  checkErrexit node place

end CommandShell.Shell
