import CommandShell.Commands.Trap
import CommandShell.Execution.Call
import CommandShell.Execution.Dispatch
import CommandShell.Proofs.Acts
import CommandShell.Proofs.Dispositions
import CommandShell.Proofs.Scopes

/-!
# What a shell is made of, in detail

`Procedure` says of a computation that it is put together from parts of the evaluator, and tells of each
part what becomes of the state: moves without a call, calls that are not about signals, signals that are
set as the shell orders, loops, functions, the end of the shell, commands that an evaluator runs, and
drains. It also tells with which stops the computation may end. These depend on the number of loops
around it, so they are an index of the predicate (`Exits`): a `break` or a `continue` goes out of one
loop at least, and out of those around it at most. What is caught may be handed on (`Exits.handed`).

The modules beside this one go through the evaluator, forked children included. Functions below stand
in the order in which the shell defines them. What holds of the parts, and of parts put together, holds
of all that a shell does.
-/

namespace CommandShell

open Host (Call Reply Program)

/-! ## Stops -/

/-- The number of loops that a stop goes out of; none if it is not for loops. -/
def Stop.levels? : Stop → Option Nat
  | .jump (.breaking n) => some n
  | .jump (.continuing n) => some n
  | _ => none

/-- A stop that goes out of one loop at least and out of no more than there are, if it is for loops. -/
def Stop.StaysWithin (depth : Nat) (e : Stop) : Prop := ∀ n, e.levels? = some n → 1 ≤ n ∧ n ≤ depth

theorem Stop.staysWithin_of_none {e : Stop} (h : e.levels? = none) (depth : Nat) :
    e.StaysWithin depth := fun _ hn => nomatch h.symm.trans hn

theorem Stop.StaysWithin.levels? {e : Stop} (h : e.StaysWithin 0) : e.levels? = none := by
  cases hn : e.levels? with
  | none => rfl
  | some n =>
      obtain ⟨hpos, hle⟩ := h n hn
      omega

theorem Stop.levels?_of_isJump {e : Stop} (h : e.isJump = false) : e.levels? = none := by
  cases e with
  | fault f line => rfl
  | jump j => cases h

/-- The stops that a computation may end with, by the number of loops around it. Those that are not
for loops are among them. -/
structure Exits where
  allows : Nat → Stop → Prop
  others : ∀ depth {e : Stop}, e.levels? = none → allows depth e

namespace Exits

variable {α : Type} {E E' F : Exits}

instance : LE Exits := ⟨fun E E' => ∀ {depth e}, E.allows depth e → E'.allows depth e⟩

/-- All stops. -/
def any : Exits := ⟨fun _ _ => True, fun _ _ _ => trivial⟩

/-- The stops of a command: they stay within the loops around it. -/
def within : Exits :=
  ⟨fun depth e => e.StaysWithin depth, fun depth _ h => Stop.staysWithin_of_none h depth⟩

/-- The stops of the rounds of a loop, which is one of the loops around them: they are for loops further
out. -/
def lowered : Exits :=
  ⟨fun depth e => e.StaysWithin (depth - 1), fun depth _ h => Stop.staysWithin_of_none h (depth - 1)⟩

/-- No stops for loops. -/
def outside : Exits := ⟨fun _ e => e.levels? = none, fun _ _ h => h⟩

/-- The stops of `E`, when an outcome is at hand that is known to be one of `F`. -/
def handed (F : Exits) (r : Except Stop α) (E : Exits) : Exits :=
  ⟨fun depth e => (∀ e', r = .error e' → F.allows depth e') → E.allows depth e,
    fun depth _ h _ => E.others depth h⟩

/-- All stops of commands are among those that are allowed. -/
class Open (E : Exits) : Prop where
  le : within ≤ E

instance open_any : Open any := ⟨fun _ => trivial⟩

instance open_within : Open within := ⟨id⟩

theorem le_handed (r : Except Stop α) : E ≤ handed F r E := fun h _ => h

theorem handed_mono (r : Except Stop α) (h : E ≤ E') : handed F r E ≤ handed F r E' :=
  fun he hr => h (he hr)

theorem Open.mono (hE : Open E) (h : E ≤ E') : Open E' := ⟨fun he => h (hE.le he)⟩

instance open_handed [hE : Open E] (r : Except Stop α) : Open (handed F r E) :=
  hE.mono (le_handed r)

end Exits

/-- Calls that are about files and processes, and not about signals of the process itself. -/
@[reducible] def Host.Call.isPlain : Call → Bool
  | .takeArrived | .markArrived | .takePending _ | .setDisposition .. => false
  | _ => true

/-- A condition that is seen to hold by evaluation. -/
class Evident (b : Bool) : Prop where
  holds : b = true

instance evident_true : Evident true := ⟨rfl⟩

namespace Shell

variable {ev : Evaluator} {E F : Exits} {σ α β : Type}

theorem issues_of_isPlain {c : Call} (h : c.isPlain = true) (s : Shell) : s.Issues c := by
  cases c with
  | setDisposition => cases h
  | _ => trivial

/-- A computation that is put together from parts of the evaluator. -/
class inductive Procedure (ev : Evaluator) : Exits → {α : Type} → ShellM α → Prop where
  /-- No call is made. -/
  | silent {E : Exits} {α : Type} {x : ShellM α}
      (h : ∀ s, ∃ r t, x.startedIn s = .done (r, t) ∧ Moves s t ∧
        ∀ e, r = .error e → E.allows s.loopDepth e) : Procedure ev E x
  | ask {E : Exits} (c : Call) (h : c.isPlain = true) : Procedure ev E (ask c)
  /-- Signals are set as the shell orders. -/
  | orders {E : Exits} {f : Shell → List (Signal × Host.Disposition) × Shell}
      (hmoves : ∀ s, Moves s (f s).2) (h : ∀ s, ∀ sd ∈ (f s).1, (f s).2.Orders sd.1 sd.2) :
      Procedure ev E (do setDispositions (← modifyGet f))
  /-- A sequence, with what is known of the values of its first part. -/
  | sequence {E : Exits} {α β : Type} {P : α → Prop} {x : ShellM α} {f : α → ShellM β}
      (hx : Procedure ev E x) (hP : Yields P x) (hf : ∀ a, P a → Procedure ev E (f a)) :
      Procedure ev E (x >>= f)
  /-- The outcome of the first part may be handed on. -/
  | caught {E F : Exits} {α β : Type} {x : ShellM α} {f : Except Stop α → ShellM β}
      (hx : Procedure ev F x) (hf : ∀ r, Procedure ev (.handed F r E) (f r)) :
      Procedure ev E (attempt x >>= f)
  | loop {E : Exits} (hE : E.Open) {body : ShellM Int} (h : Procedure ev .lowered body) :
      Procedure ev E (withinLoop body)
  /-- The loops around a call are not those around the body. -/
  | function {E : Exits} (params : List Text) (assigned : List (Text × Text)) {body : ShellM Unit}
      (h : Procedure ev .within (do shadowAll assigned; body)) :
      Procedure ev E (withinFunction params assigned body)
  /-- The end of the shell. -/
  | exit {E : Exits} {α : Type} (code : Int) : Procedure ev E (exitShell ev code : ShellM α)
  | node {E : Exits} (hE : E.Open) (node : Script.Node) (place : Place) :
      Procedure ev E (ev.node node place)
  | source {E : Exits} (hE : E.Open) (t : Text) : Procedure ev E (ev.source t)
  | command {E : Exits} (hE : E.Open) (args : List Text) : Procedure ev E (ev.command args)
  | builtin {E : Exits} (hE : E.Open) (b : Builtin) (name : Text) (args : List Text) :
      Procedure ev E (ev.builtin b name args)
  | drain {E : Exits} (hE : E.Open) : Procedure ev E (runTraps ev)

/-- A procedure may be taken to end with more stops than it does. -/
protected theorem Procedure.mono {E E' : Exits} {x : ShellM α} (h : Procedure ev E x) (hE : E ≤ E') :
    Procedure ev E' x := by
  induction h generalizing E' with
  | silent h =>
      refine .silent fun s => ?_
      obtain ⟨r, t, hx, ht, hr⟩ := h s
      exact ⟨r, t, hx, ht, fun e he => hE (hr e he)⟩
  | ask c h => exact .ask c h
  | orders hmoves h => exact .orders hmoves h
  | sequence _ hP _ ihx ihf => exact .sequence (ihx hE) hP fun a ha => ihf a ha hE
  | caught hx _ _ ihf => exact .caught hx fun r => ihf r (Exits.handed_mono r hE)
  | loop h hbody _ => exact .loop (h.mono hE) hbody
  | function params assigned h _ => exact .function params assigned h
  | exit code => exact .exit code
  | node h node place => exact .node (h.mono hE) node place
  | source h t => exact .source (h.mono hE) t
  | command h args => exact .command (h.mono hE) args
  | builtin h b name args => exact .builtin (h.mono hE) b name args
  | drain h => exact .drain (h.mono hE)

section

variable [hE : E.Open]

instance procedure_node (node : Script.Node) (place : Place) : Procedure ev E (ev.node node place) :=
  .node hE node place

instance procedure_source (t : Text) : Procedure ev E (ev.source t) := .source hE t

instance procedure_command (args : List Text) : Procedure ev E (ev.command args) := .command hE args

instance procedure_builtin (b : Builtin) (name : Text) (args : List Text) :
    Procedure ev E (ev.builtin b name args) := .builtin hE b name args

instance procedure_runTraps : Procedure ev E (runTraps ev) := .drain hE

end

instance procedure_exitShell (code : Int) : Procedure ev E (exitShell ev code : ShellM α) := .exit code

/-! ## Rules -/

/-- A computation that makes no call, leaves the state alone, and does not stop for loops. -/
protected theorem Procedure.still {x : ShellM α} {r : Except Stop α}
    (hx : ∀ s, x.startedIn s = .done (r, s)) (hr : ∀ e, r = .error e → e.levels? = none) :
    Procedure ev E x :=
  .silent fun s => ⟨r, s, hx s, .refl s, fun e he => E.others s.loopDepth (hr e he)⟩

instance procedure_pure (a : α) : Procedure ev E (pure a : ShellM α) :=
  .still (fun _ => rfl) fun _ he => nomatch he

protected theorem Procedure.throw {e : Stop} (h : e.levels? = none) :
    Procedure ev E (throw e : ShellM α) := by
  refine .still (r := .error e) (fun _ => rfl) fun e' he => ?_
  cases he
  exact h

instance procedure_fail (f : Fault) : Procedure ev E (fail f : ShellM α) := .throw rfl

instance procedure_exitJump (code : Int) : Procedure ev E (jump (.exit code) : ShellM α) := .throw rfl

instance procedure_returnJump (code : Int) : Procedure ev E (jump (.returning code) : ShellM α) :=
  .throw rfl

instance procedure_get : Procedure ev E (get : ShellM Shell) :=
  .silent fun s => ⟨.ok s, s, rfl, .refl s, fun _ he => nomatch he⟩

instance procedure_ask (c : Call) [h : Evident c.isPlain] :
    @Procedure ev E (no_index (Reply c)) (ask c) := .ask c h.holds

protected theorem Procedure.bind {x : ShellM α} {f : α → ShellM β} [hx : Procedure ev E x]
    (hf : ∀ a, Procedure ev E (f a)) : Procedure ev E (x >>= f) :=
  .sequence (P := fun _ => True) hx
    (fun _ => Host.Program.always_of (fun _ _ _ => trivial) _) fun a _ => hf a

instance procedure_bind {x : ShellM α} {f : α → ShellM β} [Procedure ev E x]
    [hf : ∀ a, Procedure ev E (f a)] : Procedure ev E (x >>= f) := .bind hf

/-- Nothing comes after a failure. -/
instance procedure_fail_bind (e : Fault) (f : α → ShellM β) : Procedure ev E (fail e >>= f) :=
  .still (r := .error (.ofFault e)) (fun _ => rfl) fun e' he => by
    cases he
    rfl

instance procedure_map {f : α → β} {x : ShellM α} [Procedure ev E x] : Procedure ev E (f <$> x) := by
  rw [map_eq_pure_bind]
  infer_instance

protected theorem Procedure.ite {c : Prop} [Decidable c] {x y : ShellM α} (hx : Procedure ev E x)
    (hy : Procedure ev E y) : Procedure ev E (if c then x else y) := by
  split
  · exact hx
  · exact hy

instance procedure_ite {c : Prop} [Decidable c] {x y : ShellM α} [hx : Procedure ev E x]
    [hy : Procedure ev E y] : Procedure ev E (if c then x else y) := hx.ite hy

/-- An outcome that is not for loops is nothing to hand on. -/
theorem Procedure.of_handed {r : Except Stop β} {x : ShellM α} (h : Procedure ev (.handed F r E) x)
    (hr : ∀ e, r = .error e → e.levels? = none) : Procedure ev E x :=
  h.mono fun he => he fun e' he' => F.others _ (hr e' he')

/-- An outcome as a value may be anything. -/
instance procedure_attempt {x : ShellM α} [hx : Procedure ev .any x] : Procedure ev E (attempt x) := by
  rw [← bind_pure (attempt x)]
  exact .caught hx fun r => procedure_pure r

instance procedure_ofExcept (r : Except Fault α) : Procedure ev E (ofExcept r) := by
  cases r with
  | ok a => exact procedure_pure a
  | error f => exact procedure_fail f

/-- The outcome at hand may be handed on. -/
instance procedure_throw_handed (e : Stop) :
    Procedure ev (.handed E (.error e : Except Stop β) E) (throw e : ShellM α) := by
  refine .silent fun s => ⟨.error e, s, rfl, .refl s, fun e' he hr => ?_⟩
  cases he
  exact hr e rfl

instance procedure_resume_handed (r : Except Stop α) : Procedure ev (.handed E r E) (resume r) := by
  cases r with
  | ok a => exact procedure_pure a
  | error e => exact procedure_throw_handed e

instance procedure_quietly {x : ShellM Unit} [Procedure ev .any x] : Procedure ev E (quietly x) :=
  procedure_bind

/-- Every round of a loop is a procedure, so the loop is. -/
protected theorem Procedure.iterateFor {step : σ → ShellM (σ ⊕ α)} (h : ∀ a, Procedure ev E (step a))
    (n : Nat) (a : σ) : Procedure ev E (iterateFor step n a) := by
  induction n generalizing a with
  | zero => exact procedure_fail _
  | succ n ih =>
      have hstep := h a
      refine .bind fun r => ?_
      cases r with
      | inl a' => exact ih a'
      | inr b => exact procedure_pure b

protected theorem Procedure.iterate {step : σ → ShellM (σ ⊕ α)} (h : ∀ a, Procedure ev E (step a))
    (a : σ) : Procedure ev E (iterate step a) := .iterateFor h roundLimit a

instance procedure_forM {f : β → ShellM Unit} [∀ b, Procedure ev E (f b)] (bs : List β) :
    Procedure ev E (bs.forM f) := by
  induction bs with
  | nil => exact procedure_pure ()
  | cons b bs ih => exact procedure_bind

/-! ## Changes of the state -/

protected theorem Procedure.modifyGet {f : Shell → α × Shell} (h : ∀ s, Moves s (f s).2) :
    Procedure ev E (modifyGet f : ShellM α) :=
  .silent fun s => ⟨.ok (f s).1, (f s).2, rfl, h s, fun _ he => nomatch he⟩

protected theorem Procedure.modify {f : Shell → Shell} (h : ∀ s, Moves s (f s)) :
    Procedure ev E (modify f : ShellM Unit) := .modifyGet h

/-- A change of the state that may be refused. -/
protected theorem Procedure.update {f : Shell → Except Fault Shell}
    (h : ∀ s t, f s = .ok t → Moves s t) : Procedure ev E (do set (← ofExcept (f (← get)))) := by
  refine .silent fun s => ?_
  show ∃ r t, (ofExcept (f s) >>= fun t => set t : ShellM Unit).startedIn s = _ ∧ _
  cases hf : f s with
  | ok t => exact ⟨.ok (), t, rfl, h s t hf, fun _ he => nomatch he⟩
  | error e =>
      refine ⟨.error (.ofFault e), s, rfl, .refl s, fun e' he => ?_⟩
      cases he
      exact E.others _ rfl

instance procedure_setStatus (code : Int) : Procedure ev E (setStatus code) :=
  .modify fun _ => .works rfl rfl rfl rfl rfl rfl

/-- A change of the variables that may be refused. -/
protected theorem Procedure.updateVariables {f : Variables → Except Fault Variables}
    (c : Variables.Change) (hf : ∀ vs, f vs = vs.change c) (hc : ∀ s : Shell, s.Tries c) :
    Procedure ev E (updateVariables f) := by
  refine .silent fun s => ?_
  show ∃ r t, (do
    let vs ← ofExcept (f s.variables)
    modify fun sh => { sh with «variables» := vs } : ShellM Unit).startedIn s = _ ∧ _
  rw [hf]
  cases hvs : s.variables.change c with
  | ok vs => exact ⟨.ok (), _, rfl, .changes hvs (hc s) s.definitions, fun _ he => nomatch he⟩
  | error e =>
      refine ⟨.error (.ofFault e), s, rfl, .refl s, fun e' he => ?_⟩
      cases he
      exact E.others _ rfl

instance procedure_updateExportValue (name value : Text) :
    Procedure ev E (updateVariables (·.exportValue name value)) :=
  .updateVariables (.binding (.give name (some value) true false)) (fun _ => rfl) fun _ => .exported

instance procedure_updateShadow (name : Text) : Procedure ev E (updateVariables (·.shadow name)) :=
  .updateVariables (.binding (.shadow name)) (fun _ => rfl) fun _ => trivial

/-- A change of the variables that is never refused. -/
protected theorem Procedure.modifyVariables {f : Variables → Variables} (c : Variables.Change)
    (hf : ∀ vs : Variables, vs.change c = .ok (f vs)) (hc : ∀ s : Shell, s.Tries c) :
    Procedure ev E (modifyVariables f) :=
  .modify fun s => .changes (hf s.variables) (hc s) s.definitions

instance procedure_openFrame : Procedure ev E (modifyVariables Variables.openFrame) :=
  .modifyVariables (.binding .openFrame) (fun _ => rfl) fun _ => trivial

instance procedure_closeFrame : Procedure ev E (modifyVariables Variables.closeFrame) :=
  .modifyVariables (.binding .closeFrame) (fun _ => rfl) fun _ => trivial

instance procedure_setParams (ps : List Text) : Procedure ev E (modifyVariables (·.withParams ps)) :=
  .modifyVariables (.params ps) (fun _ => rfl) fun _ => trivial

instance procedure_modifyDefinitions (f : Definitions → Definitions) :
    Procedure ev E (modifyDefinitions f) := .modify fun _ => .works rfl rfl rfl rfl rfl rfl

instance procedure_modifyJobs (f : Jobs → Jobs) : Procedure ev E (modifyJobs f) :=
  .modify fun _ => .works rfl rfl rfl rfl rfl rfl

instance procedure_assignVariable (name value : Text) : Procedure ev E (assignVariable name value) :=
  .update fun _ _ h => .assign h

instance procedure_unsetVariable (name : Text) : Procedure ev E (unsetVariable name) :=
  .update fun _ _ h => .unset h

/-! ## Signals -/

theorem orders_of_mem_shellDispositions {s : Shell} {sd : Signal × Host.Disposition}
    (h : sd ∈ s.traps.shellDispositions s.signalMode) : s.Orders sd.1 sd.2 := by
  obtain ⟨sig, hsig, rfl⟩ := List.mem_map.mp h
  exact .own (by simpa using (List.mem_filter.mp hsig).2)

instance procedure_refreshSignals : Procedure ev E refreshSignals :=
  .orders (f := fun s => (s.traps.shellDispositions s.signalMode, s)) (fun s => .refl s)
    fun _ _ h => orders_of_mem_shellDispositions h

instance procedure_becomeSubshell (background : Bool) : Procedure ev E (becomeSubshell background) :=
  .orders (f := fun s => (s.asSubshell.traps.childDispositions background, s.asSubshell)) .parts
    fun _ _ h => .child background h

/-- What `trap` sets, with the state after it. -/
def trapped (number : Nat) (action : Option TrapAction) (s : Shell) :
    List (Signal × Host.Disposition) × Shell :=
  if s.traps.isLocked number then ([], s)
  else
    let t := { s with traps := s.traps.set number action }
    ((Signal.ofNumber? number).toList.map fun sig => (sig, t.traps.disposition t.signalMode sig), t)

theorem setTrap_eq (number : Nat) (action : Option TrapAction) :
    Commands.setTrap number action = (do setDispositions (← modifyGet (trapped number action))) := by
  funext s
  show ((if s.traps.isLocked number = true then _ else _ : ShellM Unit) s) =
    ((setDispositions (trapped number action s).1 : ShellM Unit) (trapped number action s).2)
  unfold trapped
  split
  · rfl
  · cases Signal.ofNumber? number with
    | none => rfl
    | some sig => rfl

instance procedure_setTrap (number : Nat) (action : Option TrapAction) :
    Procedure ev E (Commands.setTrap number action) := by
  rw [setTrap_eq]
  refine .orders (fun s => ?_) fun s sd hsd => ?_
  · unfold trapped
    split
    · exact .refl s
    · exact .traps (Bool.eq_false_iff.mpr ‹_›) action
  · unfold trapped at hsd ⊢
    split at hsd
    · cases hsd
    · rename_i hfree
      obtain ⟨sig, hsig, rfl⟩ := List.mem_map.mp hsd
      obtain rfl := Signal.number_of_ofNumber? (Option.mem_toList.mp hsig)
      rw [if_neg hfree]
      exact .own (Bool.eq_false_iff.mpr hfree)

/-! ## Input and output -/

instance procedure_writeBytes (fd : Nat) (data : Host.Bytes) : Procedure ev E (writeBytes fd data) := by
  refine .iterate (fun rest => .ite inferInstance (.bind fun r => ?_)) data
  cases r with
  | ok n => infer_instance
  | error e => infer_instance

instance procedure_write (fd : Nat) (t : Text) : Procedure ev E (write fd t) := procedure_writeBytes fd _

instance procedure_writeOut (t : Text) : Procedure ev E (writeOut t) := procedure_write 1 t

instance procedure_writeErr (t : Text) : Procedure ev E (writeErr t) := procedure_write 2 t

instance procedure_report (message : Text) : Procedure ev E (report message) := procedure_bind

instance procedure_reportStop (s : Stop) : Procedure ev E (reportStop s) := procedure_ite

instance procedure_readSome (fd count : Nat) : Procedure ev E (readSome fd count) := by
  refine .iterate (fun _ => .bind fun r => ?_) ()
  cases r with
  | ok bs => infer_instance
  | error e => infer_instance

instance procedure_readAll (fd : Nat) : Procedure ev E (readAll fd) := by
  refine .iterate (fun chunks => .bind fun r => ?_) []
  split
  · infer_instance
  · infer_instance
  · infer_instance

instance procedure_duplicateOnto (fd target : Nat) : Procedure ev E (duplicateOnto fd target) := procedure_ite

instance procedure_closeOrFail (fd : Nat) : Procedure ev E (closeOrFail fd) := by
  refine .bind fun r => ?_
  cases r with
  | ok u => infer_instance
  | error e => infer_instance

instance procedure_openFile (path : Text) (flags : Host.OpenFlags) :
    Procedure ev E (openFile path flags) := by
  unfold openFile
  cases pathBytes? path with
  | some p => infer_instance
  | none => infer_instance

instance procedure_statusAt (path? : Option Host.Bytes) (follow : Bool) :
    Procedure ev E (statusAt path? follow) := by
  unfold statusAt
  cases path? with
  | some p => infer_instance
  | none => infer_instance

instance procedure_fileStatus (path : Text) (follow : Bool) :
    Procedure ev E (fileStatus path follow) :=
  procedure_statusAt _ follow

instance procedure_canAccess (path : Text) (permission : Host.Permission) :
    Procedure ev E (canAccess path permission) := by
  unfold canAccess
  cases pathBytes? path with
  | some p => infer_instance
  | none => infer_instance

instance procedure_isRegularFile (path : Text) : Procedure ev E (isRegularFile path) := by
  refine .bind fun r => ?_
  cases r with
  | ok st => infer_instance
  | error e => infer_instance

instance procedure_isDirectory (path : Text) : Procedure ev E (isDirectory path) := by
  refine .bind fun r => ?_
  cases r with
  | ok st => infer_instance
  | error e => infer_instance

instance procedure_isExecutable (path : Text) : Procedure ev E (isExecutable path) := procedure_bind

instance procedure_currentDirectory : Procedure ev E currentDirectory := procedure_bind

instance procedure_readFile (path : Text) : Procedure ev E (readFile path) := by
  refine .bind fun r => ?_
  cases r with
  | ok fd => infer_instance
  | error e => infer_instance

instance procedure_findInPath (name path : Text) : Procedure ev E (findInPath name path) := by
  have h : ∀ paths fallback, Procedure ev E (searchAmong fallback paths) := by
    intro paths
    induction paths with
    | nil => exact fun _ => procedure_pure _
    | cons p paths ih => exact fun _ => procedure_bind
  exact h _ none

/-! ## Leaving the shell -/

instance procedure_leave (code : Int) : Procedure ev E (leave code : ShellM α) :=
  .bind fun never => nomatch never

instance procedure_childStatus (result : Except Stop Unit) : Procedure ev E (childStatus result) := by
  unfold childStatus
  split
  · infer_instance
  · infer_instance
  · infer_instance
  · infer_instance

instance procedure_exitChild (result : Except Stop Unit) :
    Procedure ev E (exitChild ev result : ShellM α) := procedure_bind

/-! ## Processes -/

instance procedure_asSubshell : Procedure ev E (modify Shell.asSubshell) := .modify .parts

instance procedure_detachInput : Procedure ev E detachInput := by
  refine .bind fun r => ?_
  cases r with
  | ok fd => infer_instance
  | error e => infer_instance

instance procedure_prepareChild (group : Option ProcessId) (background : Bool) :
    Procedure ev E (prepareChild group background) := procedure_bind

/-- Both processes after a fork go on as the procedure does. -/
instance procedure_forkJob (text : Text) (body : ShellM Unit) [Procedure ev .any body] :
    Procedure ev E (forkJob ev text body) := by
  refine .bind fun s => .bind fun r => ?_
  rcases r with e | _ | child
  · infer_instance
  · infer_instance
  · infer_instance

instance procedure_leaveUnstarted (command reason : Text) (code : Int) :
    Procedure ev E (leaveUnstarted command reason code) := procedure_bind

instance procedure_executeProgram (path : Text) (args : List Text) :
    Procedure ev E (executeProgram path args) := procedure_bind

instance procedure_exportAll (assigned : List (Text × Text)) : Procedure ev E (exportAll assigned) := by
  induction assigned with
  | nil => exact procedure_pure ()
  | cons a rest ih => exact procedure_bind

instance procedure_resolvePath (name : Text) : Procedure ev E (resolvePath name) := by
  have hsearch : Procedure ev E (searchPath name) := by
    refine .bind fun s => .bind fun found => ?_
    cases found with
    | found path => infer_instance
    | notExecutable path => infer_instance
    | notFound => infer_instance
  refine .ite inferInstance (.bind fun s => ?_)
  cases s.definitions.paths.get? name with
  | some path => infer_instance
  | none => infer_instance

instance procedure_peekPending? : Procedure ev E peekPending? := by
  have h : ∀ ss, Procedure ev E (firstPending? ss) := by
    intro ss
    induction ss with
    | nil => exact procedure_pure _
    | cons s ss ih => exact procedure_bind
  exact procedure_bind

/-! ## Jobs -/

instance procedure_waitFor (target : Option ProcessId) (noHang untraced : Bool) :
    Procedure ev E (waitFor target noHang untraced) := by
  refine .bind fun r => ?_
  rcases r with e | _ | ⟨pid, status⟩
  · infer_instance
  · infer_instance
  · infer_instance

instance procedure_reap (untraced : Bool) : Procedure ev E (reap untraced) := by
  refine .iterate (fun _ => .bind fun r => ?_) ()
  rcases r with e | _ | pid
  · infer_instance
  · infer_instance
  · infer_instance

instance procedure_waitForeground (untraced : Bool) : Procedure ev E (waitForeground untraced) := by
  refine .iterate (fun _ => .bind fun s => ?_) ()
  cases s.jobs.foreground.bind runningProcess? with
  | none => infer_instance
  | some pid =>
      refine .bind fun r => ?_
      rcases r with e | _ | pid
      · infer_instance
      · infer_instance
      · infer_instance

instance procedure_tellStopped (job : Job) : Procedure ev E (tellStopped job) := by
  refine .bind fun s => .bind fun _ => ?_
  dsimp only
  split
  · infer_instance
  · infer_instance

/-- Nothing that goes wrong with waiting is for loops. -/
theorem yields_waitForeground (untraced : Bool) :
    Yields (fun r => ∀ e, r = .error e → e.levels? = none) (waitForeground untraced) := by
  refine yields_iterate (I := fun _ => True) (fun _ _ => .bind fun s => ?_) trivial
  cases s.jobs.foreground.bind runningProcess? with
  | none => exact .pure ⟨nofun, by rintro _ ⟨⟩; exact nofun⟩
  | some pid =>
      refine .bind fun r => ?_
      rcases r with e | _ | pid
      · dsimp only
        split
        · exact .pure ⟨fun _ _ => trivial, nofun⟩
        · exact .pure ⟨nofun, by rintro _ ⟨⟩ _ ⟨⟩; rfl⟩
      · exact .pure ⟨nofun, by rintro _ ⟨⟩; exact nofun⟩
      · exact .pure ⟨fun _ _ => trivial, nofun⟩

theorem procedure_resume {r : Except Stop α} (h : ∀ e, r = .error e → e.levels? = none) :
    Procedure ev E (resume r) := by
  cases r with
  | ok a => exact procedure_pure a
  | error e => exact .throw (h e rfl)

instance procedure_runForeground (job : Job) : Procedure ev E (runForeground job) := by
  refine .bind fun s => .bind fun _ => .sequence (procedure_waitForeground _)
    (yields_waitForeground _) fun waited hwaited => .bind fun s => ?_
  have hresume : Procedure ev E (resume waited) := procedure_resume hwaited
  cases s.jobs.foreground with
  | none => infer_instance
  | some job =>
      refine .bind fun _ => .bind fun _ => .ite inferInstance ?_
      cases job.processes.getLast? with
      | some p => infer_instance
      | none => infer_instance

end Shell

end CommandShell
