import CommandShell.Execution.Foreground
import CommandShell.Execution.Redirection
import CommandShell.Script.Printer

/-!
# Pipelines, background jobs and subshells

Every stage of a pipeline is a forked child, with its output connected to the input of the next
one. All pipes are made before the first fork, so that each child can close the ends that it does
not use. The stages form one job. In the background the shell only enters the job in its table.

A subshell is a forked child too, unless the process is one already that has nothing else to do.
-/

namespace CommandShell.Shell

open Script (Node Redirect)

/-- Closes both ends of pipes. -/
def closePipes (pipes : List (Nat × Nat)) : ShellM Unit :=
  pipes.forM fun (readEnd, writeEnd) => do
    let _ ← ask (.close readEnd)
    let _ ← ask (.close writeEnd)

/-- Makes `n` pipes. If that fails, those made before are closed. -/
def makePipes : Nat → List (Nat × Nat) → ShellM (List (Nat × Nat))
  | 0, made => return made.reverse
  | n + 1, made => do
    match ← ask .pipe with
    | .ok ends => makePipes n (ends :: made)
    | .error e =>
      closePipes made.reverse
      fail (.inputOutput e)

/-- Makes a descriptor a copy of the end of a pipe, if there is one. -/
def connect (source : Option Nat) (fd : Nat) : ShellM Unit := do
  match source with
  | none => return
  | some source =>
    match ← duplicateOnto source fd with
    | .ok () => return
    | .error e => fail (.inputOutput e)

/-- What the child of a stage does. -/
def stageChild {α : Type} (ev : Evaluator) (pipes : List (Nat × Nat)) (input output : Option Nat)
    (group : Option ProcessId) (background : Bool) (stage : Node) : ShellM α := do
  prepareChild group background
  let wired ← attempt do
    connect input 0
    connect output 1
  closePipes pipes
  match wired with
  | .error s => exitChild ev (.error s)
  | .ok () => exitChild ev (← attempt (ev.node stage { isLast := true }))

/-- Forks the children of stages. `input` is the pipe end that the first of them reads from, and
`ahead` are the pipes after it. -/
def forkStages (ev : Evaluator) (pipes : List (Nat × Nat)) (background : Bool)
    (input : Option Nat) (ahead : List (Nat × Nat)) (started : List JobProcess) :
    List Node → ShellM (List JobProcess)
  | [] => return started.reverse
  | stage :: rest => do
    let group := started.getLast?.map (·.pid)
    match ← ask .fork with
    | .error e =>
      closePipes pipes
      fail (cannotFork e)
    | .ok .child => stageChild ev pipes input (ahead.head?.map (·.2)) group background stage
    | .ok (.parent child) =>
      if (← get).has .monitor then
        let _ ← ask (.setGroup child (group.getD child))
      forkStages ev pipes background (ahead.head?.map (·.1)) ahead.tail
        ({ pid := child, command := stage.source } :: started) rest

/-- Starts the stages of a pipeline as a job. -/
def launchStages (ev : Evaluator) (stages : List Node) (background : Bool) : ShellM Job := do
  let monitor := (← get).has .monitor
  let pipes ← makePipes (stages.length - 1) []
  let processes ← forkStages ev pipes background none pipes [] stages
  closePipes pipes
  return Job.ofProcesses processes (some ((processes.head?.map (·.pid)).getD 0)) monitor none

/-- Runs a pipeline. -/
def runPipeline (ev : Evaluator) (stages : List Node) (place : Place) : ShellM Unit := do
  match stages with
  | [stage] => ev.node stage place
  | stages => runForeground (← launchStages ev stages false)

/-- Runs a command in the background. -/
def runBackground (ev : Evaluator) (body : Node) : ShellM Unit := do
  let stages := match body.command with
    | .pipeline stages => stages
    | _ => [body]
  let job ← launchStages ev stages true
  let last := job.lastPid?
  let (jobs, n) := (← get).jobs.insert job
  modify fun sh => { sh with jobs, lastBackground := last }
  if (← get).isInteractive then
    let pid : Text := match last with
      | some pid => Text.ofInt pid
      | none => []
    quietly (writeErr ("[" ++ Text.ofNat n ++ "] " ++ pid ++ "\n"))
  setStatus 0

/-- Runs a subshell. -/
def runSubshell (ev : Evaluator) (body : Node) (redirects : List Redirect) (place : Place) :
    ShellM Unit := do
  let run : ShellM Unit := do
    applyRedirects ev false redirects
    ev.node body { isLast := true }
  if place.isLast && ((← get).traps.get? 0).isNone then
    modify asSubshell
    run
  else runForeground (← forkJob ev ("(" ++ body.source ++ ")") run)

end CommandShell.Shell
