import CommandShell.Proofs.Procedures.Constructs

/-!
# What a shell is made of

The computations of the evaluator are put together from few kinds of parts: steps that make no call,
single calls, signals that are set as the shell orders, commands that an evaluator runs, and drains, which
run the traps of the signals that arrived. `Routine` says so of a computation. In it no part but a drain
takes a signal for handled, clears or sets the mark for signals that arrived, or changes whether the shell
is in a trap (`Alters`). So what holds of the parts, and of parts put together, holds of all that a shell
does.

A procedure is a routine (`Procedure.routine`): the parts of a loop, of a function and of the end of the
shell are written out here, and what a procedure knows of states and stops is left out.
-/

namespace CommandShell

open Host (Call Reply Program)

/-- Calls after which the marks of signals are as before. -/
@[reducible] def Host.Call.leavesMarks : Call → Bool
  | .takeArrived | .markArrived | .takePending _ => false
  | _ => true

theorem Host.Call.leavesMarks_of_isPlain {c : Call} (h : c.isPlain = true) : c.leavesMarks = true := by
  cases c with
  | takeArrived => cases h
  | markArrived => cases h
  | takePending s => cases h
  | _ => rfl

namespace Shell

variable {ev : Evaluator} {σ α β : Type}

/-- What becomes of a state without a call: acts lead to the other one, which is in a trap if this one is. -/
structure Alters (s t : Shell) : Prop where
  trail : ∃ as, Trail s as t ∧ events as = []
  inTrap : t.inTrap = s.inTrap

namespace Alters

variable {s t : Shell}

theorem refl (s : Shell) : Alters s s := ⟨⟨[], .nil s, rfl⟩, rfl⟩

theorem of_moves (h : Moves s t) : Alters s t := ⟨h.trail, h.inTrap⟩

/-- Something that the acts are not about. -/
theorem works (hvariables : t.variables = s.variables) (hoptions : t.options = s.options)
    (htraps : t.traps = s.traps) (hexiting : t.isExiting = s.isExiting) (hinTrap : t.inTrap = s.inTrap) :
    Alters s t :=
  ⟨⟨[.works], (Acts.works hvariables hoptions htraps hexiting).trail, rfl⟩, hinTrap⟩

/-- The variables change, and something that the acts are not about. -/
theorem changes {c : Variables.Change} (hc : s.variables.change c = .ok t.variables) (htries : s.Tries c)
    (hoptions : t.options = s.options) (htraps : t.traps = s.traps) (hexiting : t.isExiting = s.isExiting)
    (hinTrap : t.inTrap = s.inTrap) : Alters s t := by
  have hworks : Acts { s with «variables» := t.variables } .works t := .works rfl hoptions htraps hexiting
  exact ⟨⟨[.changes c, .works], .cons (.changes hc htries s.definitions) hworks.trail, rfl⟩, hinTrap⟩

/-- The command for the end of the shell is taken. -/
theorem ends (s : Shell) : Alters s (takeExitCommand s).2 := by
  refine ⟨⟨[.ends], (Acts.ends s).trail, rfl⟩, ?_⟩
  unfold takeExitCommand
  split
  · rfl
  · rfl

end Alters

/-- A computation that is put together from parts of the evaluator. -/
class inductive Routine (ev : Evaluator) : {α : Type} → ShellM α → Prop where
  /-- No call is made. -/
  | silent {α : Type} {x : ShellM α} (h : ∀ s, ∃ r t, x.startedIn s = .done (r, t) ∧ Alters s t) :
      Routine ev x
  | ask (c : Call) (h : c.isPlain = true) : Routine ev (ask c)
  /-- Signals are set as the shell orders. -/
  | orders {f : Shell → List (Signal × Host.Disposition) × Shell} (halters : ∀ s, Alters s (f s).2)
      (h : ∀ s, ∀ sd ∈ (f s).1, (f s).2.Orders sd.1 sd.2) :
      Routine ev (do setDispositions (← modifyGet f))
  | sequence {α β : Type} {x : ShellM α} {f : α → ShellM β} (hx : Routine ev x)
      (hf : ∀ a, Routine ev (f a)) : Routine ev (x >>= f)
  | attempt {α : Type} {x : ShellM α} (hx : Routine ev x) : Routine ev (attempt x)
  | node (node : Script.Node) (place : Place) : Routine ev (ev.node node place)
  | source (t : Text) : Routine ev (ev.source t)
  | command (args : List Text) : Routine ev (ev.command args)
  | builtin (b : Builtin) (name : Text) (args : List Text) : Routine ev (ev.builtin b name args)
  | drain : Routine ev (runTraps ev)

attribute [instance] Routine.node Routine.source Routine.command Routine.builtin Routine.drain

/-! ## Rules -/

instance routine_pure (a : α) : Routine ev (pure a : ShellM α) :=
  .silent fun s => ⟨.ok a, s, rfl, .refl s⟩

instance routine_throw (e : Stop) : Routine ev (throw e : ShellM α) :=
  .silent fun s => ⟨.error e, s, rfl, .refl s⟩

instance routine_fail (f : Fault) : Routine ev (fail f : ShellM α) := routine_throw _

instance routine_get : Routine ev (get : ShellM Shell) := .silent fun s => ⟨.ok s, s, rfl, .refl s⟩

instance routine_ask (c : Call) [h : Evident c.isPlain] :
    @Routine ev (no_index (Reply c)) (ask c) := .ask c h.holds

protected theorem Routine.bind {x : ShellM α} {f : α → ShellM β} [hx : Routine ev x]
    (hf : ∀ a, Routine ev (f a)) : Routine ev (x >>= f) := .sequence hx hf

instance routine_bind {x : ShellM α} {f : α → ShellM β} [Routine ev x]
    [hf : ∀ a, Routine ev (f a)] : Routine ev (x >>= f) := .bind hf

protected theorem Routine.ite {c : Prop} [Decidable c] {x y : ShellM α} (hx : Routine ev x)
    (hy : Routine ev y) : Routine ev (if c then x else y) := by
  split
  · exact hx
  · exact hy

instance routine_ite {c : Prop} [Decidable c] {x y : ShellM α} [hx : Routine ev x]
    [hy : Routine ev y] : Routine ev (if c then x else y) := hx.ite hy

instance routine_attempt {x : ShellM α} [hx : Routine ev x] : Routine ev (attempt x) := .attempt hx

instance routine_resume (r : Except Stop α) : Routine ev (resume r) := by
  cases r with
  | ok a => exact routine_pure a
  | error e => exact routine_throw e

/-- Every round of a loop is a routine, so the loop is. -/
protected theorem Routine.iterateFor {step : σ → ShellM (σ ⊕ α)} (h : ∀ a, Routine ev (step a))
    (n : Nat) (a : σ) : Routine ev (iterateFor step n a) := by
  induction n generalizing a with
  | zero => exact routine_fail _
  | succ n ih =>
      refine .sequence (h a) fun r => ?_
      cases r with
      | inl a' => exact ih a'
      | inr b => exact routine_pure b

protected theorem Routine.iterate {step : σ → ShellM (σ ⊕ α)} (h : ∀ a, Routine ev (step a)) (a : σ) :
    Routine ev (iterate step a) := .iterateFor h roundLimit a

/-! ## Changes of the state -/

protected theorem Routine.modifyGet {f : Shell → α × Shell} (h : ∀ s, Alters s (f s).2) :
    Routine ev (modifyGet f : ShellM α) := .silent fun s => ⟨.ok (f s).1, (f s).2, rfl, h s⟩

protected theorem Routine.modify {f : Shell → Shell} (h : ∀ s, Alters s (f s)) :
    Routine ev (modify f : ShellM Unit) := .modifyGet h

instance routine_setStatus (code : Int) : Routine ev (setStatus code) :=
  .modify fun _ => .works rfl rfl rfl rfl rfl

/-! ## Input and output -/

instance routine_writeBytes (fd : Nat) (data : Host.Bytes) : Routine ev (writeBytes fd data) := by
  refine .iterate (fun rest => .ite inferInstance (.bind fun r => ?_)) data
  cases r with
  | ok n => infer_instance
  | error e => infer_instance

instance routine_reportStop (s : Stop) : Routine ev (reportStop s) := by
  have hwrite : ∀ t, Routine ev (quietly (writeErr t)) :=
    fun t => .sequence (.attempt (routine_writeBytes 2 _)) fun _ => routine_pure ()
  exact routine_ite

/-! ## Leaving the shell -/

instance routine_leave (code : Int) : Routine ev (leave code : ShellM α) :=
  .bind fun never => nomatch never

instance routine_runExitTrap (code : Int) : Routine ev (runExitTrap ev code) := by
  have htake : Routine ev (modifyGet takeExitCommand) := .modifyGet .ends
  refine .bind fun r => ?_
  cases r with
  | none => infer_instance
  | some command =>
      refine .bind fun _ => .bind fun r => ?_
      cases r with
      | ok u => infer_instance
      | error e => infer_instance

instance routine_exitShell (code : Int) : Routine ev (exitShell ev code : ShellM α) := routine_bind

/-! ## Loops and functions -/

instance routine_withinLoop (body : ShellM Int) [Routine ev body] : Routine ev (withinLoop body) := by
  have hcount : ∀ f : Nat → Nat,
      Routine ev (modify fun sh => { sh with loopDepth := f sh.loopDepth } : ShellM Unit) :=
    fun _ => .modify fun _ => .works rfl rfl rfl rfl rfl
  have hin := hcount (· + 1)
  have hout := hcount (· - 1)
  exact routine_bind

theorem routine_withinFunction (params : List Text) (assigned : List (Text × Text)) {body : ShellM Unit}
    (h : Routine ev (do shadowAll assigned; body)) :
    Routine ev (withinFunction params assigned body) := by
  have hreturn : ∀ r, Routine ev (takeReturn r) := by
    intro r
    unfold takeReturn
    split
    · infer_instance
    · infer_instance
  unfold withinFunction withFrame
  simp only [bind_assoc, pure_bind]
  refine .bind fun s => .sequence (.modify fun _ => ?enter) fun _ => .sequence (.modify fun _ => ?opened)
    fun _ => .sequence (.attempt h) fun r => .sequence (.modify fun _ => ?closed) fun _ =>
      .sequence (.modify fun _ => ?leave) fun _ => hreturn r
  case enter => exact .changes (c := .params params) rfl trivial rfl rfl rfl rfl
  case opened => exact .changes (c := .binding .openFrame) rfl trivial rfl rfl rfl rfl
  case closed => exact .changes (c := .binding .closeFrame) rfl trivial rfl rfl rfl rfl
  case leave => exact .changes (c := .params s.variables.params) rfl trivial rfl rfl rfl rfl

/-! ## Procedures -/

open Classical in
protected theorem Procedure.routine {E : Exits} {x : ShellM α} (h : Procedure ev E x) : Routine ev x := by
  induction h with
  | silent h =>
      refine .silent fun s => ?_
      obtain ⟨r, t, hx, hmoves, -⟩ := h s
      exact ⟨r, t, hx, .of_moves hmoves⟩
  | ask c h => exact .ask c h
  | orders hmoves h => exact .orders (fun s => .of_moves (hmoves s)) h
  | @sequence _ _ _ P x f _ hP _ ihx ihf =>
      -- a routine goes on from every value, so those that do not occur are made to fail
      have hcongr : x >>= f = x >>= fun a => if P a then f a else fail (.internal "") :=
        hP.bind_congr fun a ha => (if_pos ha).symm
      rw [hcongr]
      refine .sequence ihx fun a => ?_
      by_cases ha : P a
      · rw [if_pos ha]
        exact ihf a ha
      · rw [if_neg ha]
        infer_instance
  | caught _ _ ihx ihf => exact .sequence (.attempt ihx) ihf
  | loop _ _ ih => exact routine_withinLoop _
  | function params assigned _ ih => exact routine_withinFunction params assigned ih
  | exit code => infer_instance
  | node _ node place => exact .node node place
  | source _ t => exact .source t
  | command _ args => exact .command args
  | builtin _ b name args => exact .builtin b name args
  | drain _ => exact .drain

theorem routine_runNode (node : Script.Node) (place : Place) : Routine ev (runNode ev node place) :=
  (procedure_runNode (E := .within) node place).routine

theorem routine_runText (t : Text) : Routine ev (runText ev t) :=
  (procedure_runText (E := .within) t).routine

theorem routine_runArguments (functions : Table Script.Node) (args : List Text)
    (assigned : List (Text × Text)) (redirects : List Script.Redirect) (place : Place) :
    Routine ev (runArguments ev functions args assigned redirects place) :=
  (procedure_runArguments (E := .within) functions args assigned redirects place).routine

theorem routine_runBuiltin (b : Builtin) (name : Text) (args : List Text) :
    Routine ev (Commands.runBuiltin ev b name args) :=
  (procedure_runBuiltin (E := .within) b name args).routine

end Shell

end CommandShell
