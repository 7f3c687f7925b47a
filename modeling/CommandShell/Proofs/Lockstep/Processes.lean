import CommandShell.Execution.Arrived
import CommandShell.Execution.Foreground
import CommandShell.Execution.Child
import CommandShell.Proofs.Lockstep.State

/-!
# Lockstep of processes, traps and jobs

Evaluators are alike when what they run is. Everything below takes two evaluators that are.
-/

namespace CommandShell.Shell

open Host.Program (Follows)

/-- Two evaluators that run alike what they are given. -/
class EvaluatorsAlike (L : Likeness) (ev ev' : Evaluator) : Prop where
  node : ∀ n place, Alike L (ev.node n place) (ev'.node n place)
  source : ∀ t, Alike L (ev.source t) (ev'.source t)
  command : ∀ args, Alike L (ev.command args) (ev'.command args)
  builtin : ∀ b name args, Alike L (ev.builtin b name args) (ev'.builtin b name args)

attribute [instance] EvaluatorsAlike.node EvaluatorsAlike.source EvaluatorsAlike.command
  EvaluatorsAlike.builtin

variable {L : Likeness} {ev ev' : Evaluator} {α : Type}

/-! ## Jobs -/

instance alike_waitFor (target : Option ProcessId) (noHang untraced : Bool) :
    Steady L (waitFor target noHang untraced) := by
  refine .bind inferInstance fun r => ?_
  rcases r with e | _ | ⟨pid, status⟩
  · infer_instance
  · infer_instance
  · infer_instance

instance alike_reap (untraced : Bool) : Steady L (reap untraced) := by
  refine .iterate (fun _ => .bind inferInstance fun r => ?_) _
  rcases r with e | _ | pid
  · infer_instance
  · infer_instance
  · infer_instance

instance alike_waitForeground (untraced : Bool) : Steady L (waitForeground untraced) := by
  refine .iterate (fun _ => .get_bind (fun _ _ => rfl) fun s => ?_) _
  cases s.jobs.foreground.bind runningProcess? with
  | none => infer_instance
  | some pid =>
      refine .bind inferInstance fun r => ?_
      rcases r with e | _ | pid
      · infer_instance
      · infer_instance
      · infer_instance

instance alike_tellStopped (job : Job) : Steady L (tellStopped job) := by
  refine .get_bind (fun _ _ => rfl) fun s => .bind inferInstance fun _ => ?_
  dsimp only
  split
  · infer_instance
  · infer_instance

instance alike_runForeground (job : Job) : Steady L (runForeground job) := by
  refine .get_bind (fun _ _ => rfl) fun s => .bind inferInstance fun _ => .bind inferInstance
    fun waited => .get_bind (fun _ _ => rfl) fun s => ?_
  cases s.jobs.foreground with
  | none => infer_instance
  | some job =>
      refine .bind inferInstance fun _ => .bind inferInstance fun _ => .ite inferInstance ?_
      cases job.processes.getLast? with
      | some p => exact .get_bind (fun _ _ => rfl) fun _ => inferInstance
      | none => infer_instance

/-! ## Leaving the shell -/

instance alike_leave (code : Int) : Alike L (leave code : ShellM α) (leave code) :=
  .bind inferInstance fun never => nomatch never

theorem takeExitCommand_withErrexit (s : Shell) (on : Bool) :
    takeExitCommand (s.withErrexit on)
      = ((takeExitCommand s).1, (takeExitCommand s).2.withErrexit on) := by
  unfold takeExitCommand
  show (if s.isExiting then _ else _) = _
  split
  · rfl
  · rfl

instance alike_takeExitCommand : Steady L (modifyGet takeExitCommand) := by
  refine .modifyGet takeExitCommand_withErrexit fun s hs => ?_
  unfold takeExitCommand
  split
  · exact hs
  · exact hs

instance alike_runExitTrap [EvaluatorsAlike L ev ev'] (code : Int) :
    Alike L (runExitTrap ev code) (runExitTrap ev' code) := by
  refine .bind inferInstance fun r => ?_
  cases r with
  | none => infer_instance
  | some command =>
      refine .bind inferInstance fun _ => .bind inferInstance fun r => ?_
      cases r with
      | ok u => infer_instance
      | error e => infer_instance

instance alike_exitShell [EvaluatorsAlike L ev ev'] (code : Int) :
    Alike L (exitShell ev code : ShellM α) (exitShell ev' code) := alike_bind

instance alike_childStatus (result : Except Stop Unit) : Steady L (childStatus result) := by
  unfold childStatus
  split
  · exact .get_bind (fun _ _ => rfl) fun _ => inferInstance
  · infer_instance
  · exact .get_bind (fun _ _ => rfl) fun _ => inferInstance
  · infer_instance

instance alike_exitChild [EvaluatorsAlike L ev ev'] (result : Except Stop Unit) :
    Alike L (exitChild ev result : ShellM α) (exitChild ev' result) := alike_bind

theorem asSubshell_withErrexit (s : Shell) (on : Bool) :
    (s.withErrexit on).asSubshell = s.asSubshell.withErrexit on := by
  have h : ((s.options.set .errexit on).set .monitor false).set .interactive false
      = ((s.options.set .monitor false).set .interactive false).set .errexit on := by
    rw [s.options.set_comm (by decide), Options.set_comm _ (by decide)]
  exact congrArg (fun os => { s.asSubshell with options := os }) h

instance alike_asSubshell : Steady L (modify Shell.asSubshell) :=
  .modify asSubshell_withErrexit fun _ h => h

instance alike_becomeSubshell (background : Bool) : Steady L (becomeSubshell background) :=
  .bind inferInstance fun _ => .get_bind (fun _ _ => rfl) fun _ => inferInstance

instance alike_detachInput : Steady L detachInput := by
  refine .bind inferInstance fun r => ?_
  cases r with
  | ok fd => infer_instance
  | error e => infer_instance

instance alike_prepareChild (group : Option ProcessId) (background : Bool) :
    Steady L (prepareChild group background) :=
  .get_bind (fun _ _ => rfl) fun _ => inferInstance

instance alike_forkJob [EvaluatorsAlike L ev ev'] (text : Text) {body body' : ShellM Unit}
    [Alike L body body'] : Alike L (forkJob ev text body) (forkJob ev' text body') := by
  refine .get_bind (fun _ _ => rfl) fun s => .bind inferInstance fun r => ?_
  rcases r with e | _ | child
  · infer_instance
  · infer_instance
  · infer_instance

/-! ## Programs in place of the shell -/

instance alike_leaveUnstarted (command reason : Text) (code : Int) :
    Steady L (leaveUnstarted command reason code) := alike_bind

instance alike_executeProgram (path : Text) (args : List Text) :
    Steady L (executeProgram path args) :=
  .get_bind (fun _ _ => rfl) fun _ => inferInstance

theorem alike_exportAll [L.Kept] {assigned : List (Text × Text)}
    (h : ∀ a ∈ assigned, L.permits a.1) : Steady L (exportAll assigned) := by
  induction assigned with
  | nil => exact alike_pure ()
  | cons a rest ih =>
      have hrest := ih fun b hb => h b (List.mem_cons_of_mem _ hb)
      exact .bind (alike_exportValue a.2 (h a List.mem_cons_self)) fun _ => hrest

/-! ## Traps -/

instance alike_anyPending (ss : List Signal) : Steady L (anyPending ss) := by
  induction ss with
  | nil => exact alike_pure _
  | cons s ss ih => exact alike_bind

instance alike_firstPending? (ss : List Signal) : Steady L (firstPending? ss) := by
  induction ss with
  | nil => exact alike_pure _
  | cons s ss ih => exact alike_bind

instance alike_peekPending? : Steady L peekPending? := alike_bind

instance alike_runTrap [EvaluatorsAlike L ev ev'] (later : List Signal) (command : Text) :
    Alike L (runTrap ev later command) (runTrap ev' later command) := by
  refine .get_bind (fun _ _ => rfl) fun s => .bind (.modify (fun _ _ => rfl) fun _ h => h)
    fun _ => .bind inferInstance fun r => .bind (.modify (fun _ _ => rfl) fun _ h => h) fun _ => ?_
  cases r with
  | ok u => infer_instance
  | error e => infer_instance

instance alike_handleArrived [EvaluatorsAlike L ev ev'] (ss : List Signal) :
    Alike L (handleArrived ev ss) (handleArrived ev' ss) := by
  induction ss with
  | nil => exact alike_pure _
  | cons s ss ih =>
      refine .bind inferInstance fun taken => .ite inferInstance ?_
      refine .get_bind (fun _ _ => rfl) fun sh => ?_
      rcases sh.traps.get? s.number with _ | action
      · infer_instance
      · cases action with
        | ignore => infer_instance
        | command t => infer_instance

instance alike_runTraps [EvaluatorsAlike L ev ev'] : Alike L (runTraps ev) (runTraps ev') :=
  .get_bind (fun _ _ => rfl) fun _ => inferInstance

end CommandShell.Shell
