import Mathlib.Logic.Function.Basic
import CommandShell.Commands.Trap
import CommandShell.Proofs.ChildStatus

/-!
# The dispositions of a child

A forked child starts with what its parent does with each signal and sets some of it anew. What the
system does with signals after a run is settled by the calls of the run (`Dispositions.after`), and
`Dispositions.Obeys` says that it is what the traps of the shell ask for; `trap` and a change of
options keep it so.

`dispositions_of_child` says what is left of that in a child of any kind. A signal that the shell
manages is at its default, or ignored where it should be. Any other signal is as it was in the parent,
for the commands of the traps are forgotten before they are looked through
(`childDispositions_inSubshell`). So nothing is caught in the child exactly if the parent caught no
signal but those it manages, and the child of a shell with a command for `USR1` goes on catching it
(`not_dispositions_of_child`).
-/

namespace CommandShell

open Host (Call Disposition Event Program Reply)
open Host.Program (Comes)

/-! ## Traps by number -/

theorem Signal.ofNumber?_number (s : Signal) : Signal.ofNumber? s.number = some s := by
  cases s <;> rfl

theorem Signal.number_injective : Function.Injective Signal.number := by
  intro s s' h
  have hs := Signal.ofNumber?_number s
  rw [h, Signal.ofNumber?_number] at hs
  exact (Option.some.inj hs).symm

theorem Signal.number_of_ofNumber? {n : Nat} {s : Signal} (h : Signal.ofNumber? n = some s) :
    s.number = n := by
  have hn := List.find?_some h
  exact Int.ofNat.inj (eq_of_beq hn)

namespace Traps

theorem lookup_cons_eq_ite (n m : Nat) (a : TrapAction) (actions : List (Nat × TrapAction)) :
    List.lookup m ((n, a) :: actions) = if m = n then some a else actions.lookup m := by
  rw [List.lookup_cons]
  by_cases h : m = n
  · rw [h, beq_self_eq_true, if_pos rfl]
  · rw [beq_false_of_ne h, if_neg h]

theorem lookup_insertAction {n m : Nat} {a : TrapAction} {actions : List (Nat × TrapAction)}
    (h : n ∉ actions.map Prod.fst) :
    (insertAction n a actions).lookup m = if m = n then some a else actions.lookup m := by
  induction actions with
  | nil => exact lookup_cons_eq_ite n m a []
  | cons entry rest ih =>
      obtain ⟨k, b⟩ := entry
      rw [List.map_cons, List.mem_cons, not_or] at h
      unfold insertAction
      split
      · exact lookup_cons_eq_ite n m a _
      · rw [lookup_cons_eq_ite, lookup_cons_eq_ite, ih h.2]
        by_cases hk : m = k
        · have hm : m ≠ n := fun hmn => h.1 (hmn.symm.trans hk)
          rw [if_pos hk, if_pos hk, if_neg hm]
        · rw [if_neg hk, if_neg hk]

theorem mem_map_insertAction {n m : Nat} {a : TrapAction} {actions : List (Nat × TrapAction)} :
    m ∈ (insertAction n a actions).map Prod.fst ↔ m = n ∨ m ∈ actions.map Prod.fst := by
  induction actions with
  | nil => simp [insertAction]
  | cons entry rest ih =>
      obtain ⟨k, b⟩ := entry
      unfold insertAction
      split
      · rw [List.map_cons, List.mem_cons]
      · rw [List.map_cons, List.mem_cons, ih, List.map_cons, List.mem_cons, or_left_comm]

theorem nodup_insertAction {n : Nat} {a : TrapAction} {actions : List (Nat × TrapAction)}
    (hn : n ∉ actions.map Prod.fst) (h : (actions.map Prod.fst).Nodup) :
    ((insertAction n a actions).map Prod.fst).Nodup := by
  induction actions with
  | nil => exact List.pairwise_singleton _ n
  | cons entry rest ih =>
      obtain ⟨k, b⟩ := entry
      unfold insertAction
      split
      · exact List.nodup_cons.mpr ⟨hn, h⟩
      · rw [List.map_cons, List.mem_cons, not_or] at hn
        rw [List.map_cons, List.nodup_cons] at h
        rw [List.map_cons, List.nodup_cons, mem_map_insertAction, not_or]
        exact ⟨⟨Ne.symm hn.1, h.1⟩, ih hn.2 h.2⟩

theorem not_mem_map_filter_ne (n : Nat) (actions : List (Nat × TrapAction)) :
    n ∉ (actions.filter fun a => a.1 ≠ n).map Prod.fst := by
  intro h
  obtain ⟨a, ha, rfl⟩ := List.mem_map.mp h
  exact (of_decide_eq_true (List.mem_filter.mp ha).2) rfl

theorem lookup_filter_ne (n m : Nat) (actions : List (Nat × TrapAction)) :
    (actions.filter fun a => a.1 ≠ n).lookup m = if m = n then none else actions.lookup m := by
  induction actions with
  | nil => split <;> rfl
  | cons entry rest ih =>
      obtain ⟨k, b⟩ := entry
      rw [List.filter_cons, lookup_cons_eq_ite]
      by_cases hk : k = n
      · rw [if_neg (by simpa using hk), ih, hk]
        split <;> rfl
      · rw [if_pos (by simpa using hk), lookup_cons_eq_ite, ih]
        by_cases hm : m = n
        · rw [if_pos hm, if_pos hm, if_neg (hm ▸ Ne.symm hk)]
        · rw [if_neg hm, if_neg hm]

theorem get?_set (ts : Traps) (n m : Nat) (action : Option TrapAction) :
    (ts.set n action).get? m = if m = n then action else ts.get? m := by
  cases action with
  | none => exact lookup_filter_ne n m ts.actions
  | some a =>
      refine (lookup_insertAction (not_mem_map_filter_ne n ts.actions)).trans ?_
      rw [lookup_filter_ne]
      by_cases hm : m = n
      · rw [if_pos hm, if_pos hm]
      · rw [if_neg hm, if_neg hm, if_neg hm]
        rfl

theorem nodup_set {ts : Traps} (h : (ts.actions.map Prod.fst).Nodup) (n : Nat)
    (action : Option TrapAction) : ((ts.set n action).actions.map Prod.fst).Nodup := by
  have hrest : ((ts.actions.filter fun a => a.1 ≠ n).map Prod.fst).Nodup :=
    h.sublist (List.filter_sublist.map _)
  cases action with
  | none => exact hrest
  | some a => exact nodup_insertAction (not_mem_map_filter_ne n ts.actions) hrest

theorem lookup_filter_ignore {actions : List (Nat × TrapAction)}
    (h : (actions.map Prod.fst).Nodup) (n : Nat) :
    (actions.filter fun a => a.2 == .ignore).lookup n = some .ignore ↔
      actions.lookup n = some .ignore := by
  induction actions with
  | nil => rfl
  | cons entry rest ih =>
      obtain ⟨k, action⟩ := entry
      rw [List.map_cons, List.nodup_cons] at h
      rw [List.filter_cons, lookup_cons_eq_ite]
      cases action with
      | ignore =>
          show ((k, TrapAction.ignore) :: _).lookup n = _ ↔ _
          rw [lookup_cons_eq_ite]
          split
          · rfl
          · exact ih h.2
      | command text =>
          refine (ih h.2).trans ?_
          by_cases hn : n = k
          · have hrest : rest.lookup n = none := by
              rw [List.lookup_eq_none_iff]
              rintro entry he
              exact bne_iff_ne.mpr fun hk => h.1 (List.mem_map.mpr ⟨entry, he, hk ▸ hn⟩)
            rw [hrest, if_pos hn]
            simp
          · rw [if_neg hn]

/-- A subshell is told to ignore what the shell was told to ignore. -/
theorem inSubshell_ignores_iff {ts : Traps} (h : (ts.actions.map Prod.fst).Nodup) (n : Nat) :
    ts.inSubshell.get? n = some .ignore ↔ ts.get? n = some .ignore :=
  lookup_filter_ignore h n

theorem get?_inSubshell_ne_command (ts : Traps) (n : Nat) (text : Text) :
    ts.inSubshell.get? n ≠ some (.command text) := by
  intro h
  obtain ⟨before, after, hsplit, -⟩ := List.lookup_eq_some_iff.mp h
  have hmem : (n, TrapAction.command text) ∈ ts.inSubshell.actions := by
    rw [hsplit]
    simp
  have hkind := (List.mem_filter.mp hmem).2
  cases hkind

theorem childDisposition_inSubshell {ts : Traps} (h : (ts.actions.map Prod.fst).Nodup)
    (quiet : Bool) (s : Signal) :
    ts.inSubshell.childDisposition quiet s = ts.childDisposition quiet s := by
  have hget : (ts.inSubshell.get? s.number == some .ignore) = (ts.get? s.number == some .ignore) :=
    Bool.eq_iff_iff.mpr (by simpa using inSubshell_ignores_iff h s.number)
  unfold childDisposition
  rw [hget]
  rfl

theorem catchable_of_mem_managed {s : Signal} (h : s ∈ managed) : s.uncatchable = false :=
  (by decide : ∀ s ∈ managed, s.uncatchable = false) s h

/-- A subshell has no command left in its traps, so that it sets the managed signals and no other. -/
theorem childDispositions_inSubshell (ts : Traps) (quiet : Bool) :
    ts.inSubshell.childDispositions quiet =
      managed.map fun s => (s, ts.inSubshell.childDisposition quiet s) := by
  refine (congrArg _ (List.filterMap_eq_nil_iff.mpr ?_)).trans (List.append_nil _)
  rintro ⟨n, action⟩ h
  obtain rfl : action = .ignore := eq_of_beq (List.mem_filter.mp h).2
  rfl

end Traps

/-! ## What the system does with signals -/

/-- What the system does with each signal that arrives at a process. -/
abbrev Dispositions := Signal → Disposition

namespace Dispositions

/-- What is done with signals once one of them was set. Those that cannot be caught stay as they
are. -/
def set (D : Dispositions) (s : Signal) (d : Disposition) : Dispositions :=
  if s.uncatchable then D else Function.update D s d

/-- What is done with signals after a call. A fork hands it to the child as it is. -/
def afterCall (D : Dispositions) : Event → Dispositions
  | ⟨.setDisposition s d, _⟩ => D.set s d
  | _ => D

/-- What is done with signals after calls. -/
def after (D : Dispositions) (es : List Event) : Dispositions := es.foldl afterCall D

/-- What is done with signals once each of some is set. -/
def setAll (D : Dispositions) (ds : List (Signal × Disposition)) : Dispositions :=
  ds.foldl (fun D sd => D.set sd.1 sd.2) D

/-- The traps of a shell are in force: what is done with a signal that has one is what the trap asks
for, and nothing is done to a signal that was ignored from the start. -/
structure Obeys (D : Dispositions) (ts : Traps) : Prop where
  distinct : (ts.actions.map Prod.fst).Nodup
  uncatchable : ∀ s, s.uncatchable → D s = .default
  locked : ∀ s, ts.isLocked s.number → D s = .ignore
  ignored : ∀ s, s.uncatchable = false → ts.get? s.number = some .ignore → D s = .ignore
  commanded : ∀ s text, s.uncatchable = false → ts.isLocked s.number = false →
    ts.get? s.number = some (.command text) → D s = .caught

/-- What is done with signals is what a child should do that took over the given traps. `quiet` says
that it runs in the background without job control. -/
structure ReadyFor (D : Dispositions) (ts : Traps) (quiet : Bool) : Prop where
  commanded : ∀ s text, ts.get? s.number = some (.command text) → D s =
    if ts.isLocked s.number || (quiet && (s == .int || s == .quit)) then .ignore else .default
  ignored : ∀ s, s.uncatchable = false → ts.get? s.number = some .ignore → D s = .ignore
  uncaught : ∀ s, D s ≠ .caught

/-- What is done with signals in a child that took over the given traps: the shell sets the signals
that it manages, and no other. -/
def inChild (D : Dispositions) (ts : Traps) (quiet : Bool) : Dispositions := fun s =>
  if s ∈ Traps.managed then ts.childDisposition quiet s else D s

variable {D : Dispositions} {ts : Traps} {s s' : Signal} {quiet : Bool}

theorem set_self (h : s.uncatchable = false) (D : Dispositions) (d : Disposition) :
    D.set s d s = d := by
  unfold set
  rw [h, if_neg Bool.false_ne_true]
  exact Function.update_self s d D

theorem set_of_ne (h : s' ≠ s) (D : Dispositions) (d : Disposition) : D.set s d s' = D s' := by
  unfold set
  split
  · rfl
  · exact Function.update_of_ne h d D

theorem set_of_uncatchable (h : s'.uncatchable) (D : Dispositions) (s : Signal) (d : Disposition) :
    D.set s d s' = D s' := by
  by_cases hs : s' = s
  · unfold set
    rw [← hs, if_pos h]
  · exact set_of_ne hs D d

theorem setAll_map {signals : List Signal} (h : signals.Nodup)
    (hcatch : ∀ s ∈ signals, s.uncatchable = false) (f : Signal → Disposition) (D : Dispositions)
    (s : Signal) :
    D.setAll (signals.map fun s => (s, f s)) s = if s ∈ signals then f s else D s := by
  induction signals generalizing D with
  | nil => rfl
  | cons first rest ih =>
      rw [List.nodup_cons] at h
      refine (ih h.2 (fun s hs => hcatch s (List.mem_cons_of_mem _ hs)) _).trans ?_
      by_cases hs : s = first
      · subst hs
        rw [if_neg h.1, if_pos List.mem_cons_self]
        exact set_self (hcatch s List.mem_cons_self) D _
      · simp only [List.mem_cons, hs, false_or]
        split
        · rfl
        · exact set_of_ne hs D _

theorem after_append (D : Dispositions) (es es' : List Event) :
    D.after (es ++ es') = (D.after es).after es' := List.foldl_append

theorem setAll_childDispositions (h : (ts.actions.map Prod.fst).Nodup) (D : Dispositions) :
    D.setAll (ts.inSubshell.childDispositions quiet) = D.inChild ts quiet := by
  funext s
  rw [Traps.childDispositions_inSubshell]
  refine (setAll_map (by decide) (fun s => Traps.catchable_of_mem_managed) _ D s).trans ?_
  rw [Traps.childDisposition_inSubshell h]
  rfl

theorem get?_set_number (ts : Traps) (s s' : Signal) (action : Option TrapAction) :
    (ts.set s.number action).get? s'.number = if s' = s then action else ts.get? s'.number := by
  rw [Traps.get?_set]
  by_cases h : s' = s
  · rw [if_pos h, if_pos (congrArg Signal.number h)]
  · rw [if_neg h, if_neg (mt (fun hn => Signal.number_injective hn) h)]

/-- A trap for a signal is in force once the signal is set as the trap asks for. -/
theorem Obeys.set (h : D.Obeys ts) (hs : ts.isLocked s.number = false)
    (action : Option TrapAction) (mode : SignalMode) :
    (D.set s ((ts.set s.number action).disposition mode s)).Obeys (ts.set s.number action) := by
  refine ⟨Traps.nodup_set h.distinct _ _, fun s' hs' => ?_, fun s' hs' => ?_,
    fun s' hcatch hget => ?_, fun s' text hcatch hlocked hget => ?_⟩
  · exact (set_of_uncatchable hs' D s _).trans (h.uncatchable s' hs')
  · have hne : s' ≠ s := by
      rintro rfl
      exact Bool.false_ne_true (hs.symm.trans hs')
    exact (set_of_ne hne D _).trans (h.locked s' hs')
  · by_cases hne : s' = s
    · subst hne
      rw [set_self hcatch]
      unfold Traps.disposition
      rw [hget]
    · rw [get?_set_number, if_neg hne] at hget
      exact (set_of_ne hne D _).trans (h.ignored s' hcatch hget)
  · by_cases hne : s' = s
    · subst hne
      rw [set_self hcatch]
      unfold Traps.disposition
      rw [hget]
    · rw [get?_set_number, if_neg hne] at hget
      exact (set_of_ne hne D _).trans (h.commanded s' text hcatch hlocked hget)

/-- A trap for the end of the shell, or for no signal, is none of the system's business. -/
theorem Obeys.of_get?_eq {ts' : Traps} (h : D.Obeys ts)
    (hdistinct : (ts'.actions.map Prod.fst).Nodup) (hlocked : ts'.locked = ts.locked)
    (hget : ∀ s : Signal, ts'.get? s.number = ts.get? s.number) : D.Obeys ts' := by
  have hsame : ∀ n, ts'.isLocked n = ts.isLocked n := by
    intro n
    unfold Traps.isLocked
    rw [hlocked]
  exact ⟨hdistinct, h.uncatchable, fun s hs => h.locked s (hsame _ ▸ hs),
    fun s hcatch hs => h.ignored s hcatch (hget s ▸ hs),
    fun s text hcatch hs htext => h.commanded s text hcatch (hsame _ ▸ hs) (hget s ▸ htext)⟩

/-- The shell sets the signals that it manages as the traps ask for. -/
theorem Obeys.setAll_shellDispositions (h : D.Obeys ts) (mode : SignalMode) :
    (D.setAll (ts.shellDispositions mode)).Obeys ts := by
  have hset : ∀ s, D.setAll (ts.shellDispositions mode) s =
      if s ∈ Traps.managed.filter (fun s => !ts.isLocked s.number)
        then ts.disposition mode s else D s :=
    setAll_map ((by decide : Traps.managed.Nodup).filter _)
      (fun s hs => Traps.catchable_of_mem_managed (List.mem_filter.mp hs).1) _ D
  refine ⟨h.distinct, fun s hs => ?_, fun s hs => ?_, fun s hcatch hget => ?_,
    fun s text hcatch hlocked hget => ?_⟩
  · rw [hset, if_neg]
    · exact h.uncatchable s hs
    · intro hmem
      have hcatch := Traps.catchable_of_mem_managed (List.mem_filter.mp hmem).1
      exact Bool.false_ne_true (hcatch.symm.trans hs)
  · rw [hset, if_neg]
    · exact h.locked s hs
    · intro hmem
      have hfree := (List.mem_filter.mp hmem).2
      simp [hs] at hfree
  · rw [hset]
    split
    · unfold Traps.disposition
      rw [hget]
    · exact h.ignored s hcatch hget
  · rw [hset]
    split
    · unfold Traps.disposition
      rw [hget]
    · exact h.commanded s text hcatch hlocked hget

end Dispositions

namespace Shell

variable {α β : Type}

/-- A computation that always comes to a value, in a given state, and sets signals in a given way. -/
def Settles (x : ShellM α) (s t : Shell) (f : Dispositions → Dispositions) : Prop :=
  ∀ es r u, (x.startedIn s).Comes es (.done (r, u)) →
    (∃ a, r = .ok a) ∧ u = t ∧ ∀ D, Dispositions.after D es = f D

section

variable {s t u : Shell} {f g : Dispositions → Dispositions}

theorem Settles.pure (a : α) (s : Shell) : Settles (pure a) s s id := by
  intro es r u h
  cases h
  exact ⟨⟨a, rfl⟩, rfl, fun D => rfl⟩

theorem Settles.modify (f : Shell → Shell) (s : Shell) : Settles (modify f) s (f s) id := by
  intro es r u h
  cases h
  exact ⟨⟨(), rfl⟩, rfl, fun D => rfl⟩

/-- A call sets what it sets whatever the answer to it. -/
theorem Settles.ask {c : Call} (h : ∀ (D : Dispositions) (r : Reply c), D.afterCall ⟨c, r⟩ = f D)
    (s : Shell) : Settles (ask c) s s f := by
  intro es r u hc
  cases hc with
  | step hc =>
      cases hc
      exact ⟨⟨_, rfl⟩, rfl, fun D => h D _⟩

theorem Settles.bind {x : ShellM α} {k : α → ShellM β} (hx : Settles x s t f)
    (hk : ∀ a, Settles (k a) t u g) : Settles (x >>= k) s u (g ∘ f) := by
  intro es r v h
  obtain ⟨es₁, es₂, ⟨r₁, t₁⟩, rfl, h₁, h₂⟩ := Comes.of_bind h
  obtain ⟨⟨a, rfl⟩, rfl, hf⟩ := hx _ _ _ h₁
  obtain ⟨hr, hv, hg⟩ := hk a _ _ _ h₂
  refine ⟨hr, hv, fun D => ?_⟩
  rw [Dispositions.after_append, hf, hg]
  rfl

/-- A first part that sets nothing. -/
theorem Settles.after {x : ShellM α} {k : α → ShellM β} (hx : Settles x s t id)
    (hk : ∀ a, Settles (k a) t u g) : Settles (x >>= k) s u g := hx.bind hk

/-- A second part that sets nothing. -/
theorem Settles.before {x : ShellM α} {k : α → ShellM β} (hx : Settles x s t f)
    (hk : ∀ a, Settles (k a) t u id) : Settles (x >>= k) s u f := hx.bind hk

theorem Settles.get_bind {k : Shell → ShellM β} (h : Settles (k s) s t f) :
    Settles (MonadState.get >>= k) s t f := h

end

theorem settles_setDispositions (ds : List (Signal × Disposition)) (s : Shell) :
    Settles (setDispositions ds) s s (fun D => D.setAll ds) := by
  induction ds with
  | nil => exact Settles.pure () s
  | cons sd rest ih =>
      have hset : Settles (do let _ ← Shell.ask (.setDisposition sd.1 sd.2)) s s
          (fun D => D.set sd.1 sd.2) :=
        (Settles.ask (fun _ _ => rfl) s).before fun _ => Settles.pure () s
      exact hset.bind fun _ => ih

theorem settles_becomeSubshell (quiet : Bool) (s : Shell) :
    Settles (becomeSubshell quiet) s s.asSubshell
      fun D => D.setAll (s.traps.inSubshell.childDispositions quiet) := by
  refine (Settles.modify asSubshell s).after fun _ => Settles.get_bind ?_
  exact settles_setDispositions _ s.asSubshell

theorem settles_duplicateOnto (fd target : Nat) (s : Shell) :
    Settles (duplicateOnto fd target) s s id := by
  unfold duplicateOnto
  split
  · exact Settles.pure _ s
  · exact Settles.ask (fun _ _ => rfl) s

theorem settles_detachInput (s : Shell) : Settles detachInput s s id := by
  refine (Settles.ask (fun _ _ => rfl) s).after fun opened => ?_
  cases opened with
  | error e => exact Settles.pure () s
  | ok fd =>
      refine (settles_duplicateOnto fd 0 s).after fun _ => ?_
      exact (Settles.ask (fun _ _ => rfl) s).after fun _ => Settles.pure () s

theorem settles_prepareChild (group : Option ProcessId) (background : Bool) (s : Shell) :
    Settles (prepareChild group background) s s.asSubshell fun D =>
      D.setAll (s.traps.inSubshell.childDispositions (background && !s.has .monitor)) := by
  have hrest : Settles (do
      becomeSubshell (background && !s.has .monitor)
      if (background && !s.has .monitor) = true then detachInput else pure ()) s s.asSubshell
      fun D => D.setAll (s.traps.inSubshell.childDispositions (background && !s.has .monitor)) := by
    refine (settles_becomeSubshell _ s).before fun _ => ?_
    split
    · exact settles_detachInput _
    · exact Settles.pure () _
  refine Settles.get_bind ?_
  dsimp only
  split
  · refine (Settles.ask (fun _ _ => rfl) s).after fun pid => ?_
    exact (Settles.ask (fun _ _ => rfl) s).after fun _ => hrest
  · exact hrest

/-- A forked child and what is set up for it. `background` says that it runs in the background. -/
inductive SetsUp (ev : Evaluator) : {α : Type} → ShellM α → ShellM Unit → Bool → Prop where
  /-- The child of a subshell, or of an external program. -/
  | job (list : ShellM Unit) : SetsUp ev (jobChild ev list) (prepareChild none false) false
  /-- The child of a stage of a pipeline or of a background job. -/
  | stage {α : Type} (pipes : List (Nat × Nat)) (input output : Option Nat)
      (group : Option ProcessId) (background : Bool) (stage : Script.Node) :
      SetsUp ev (stageChild ev pipes input output group background stage : ShellM α)
        (prepareChild group background) background
  /-- The child of a command substitution. -/
  | substitution (readEnd writeEnd : Nat) (body : Script.Node) :
      SetsUp ev (Expansion.substitutionChild ev readEnd writeEnd body) (do
        let _ ← ask (.close readEnd)
        becomeSubshell false) false

/-- A child begins with what is set up for it. -/
theorem SetsUp.first {ev : Evaluator} {child : ShellM α} {setUp : ShellM Unit} {background : Bool}
    (h : SetsUp ev child setUp background) :
    ∃ rest : ShellM α, child = (do
      setUp
      rest) := by
  cases h with
  | job list => exact ⟨_, rfl⟩
  | stage pipes input output group background stage => exact ⟨_, rfl⟩
  | substitution readEnd writeEnd body => exact ⟨_, (bind_assoc _ _ fun _ => _).symm⟩

theorem SetsUp.settles {ev : Evaluator} {child : ShellM α} {setUp : ShellM Unit}
    {background : Bool} (h : SetsUp ev child setUp background) (s : Shell) :
    Settles setUp s s.asSubshell fun D =>
      D.setAll (s.traps.inSubshell.childDispositions (background && !s.has .monitor)) := by
  cases h with
  | job list => exact settles_prepareChild none false s
  | stage pipes input output group background stage =>
      exact settles_prepareChild group background s
  | substitution readEnd writeEnd body =>
      exact (Settles.ask (fun _ _ => rfl) s).after fun _ => settles_becomeSubshell false s

/-! ## Shells that keep their traps in force -/

theorem settles_refreshSignals (s : Shell) :
    Settles refreshSignals s s fun D => D.setAll (s.traps.shellDispositions s.signalMode) :=
  Settles.get_bind (settles_setDispositions _ s)

/-- A change of options leaves the traps in force. -/
theorem obeys_refreshSignals {s t : Shell} {es : List Event} {r : Except Stop Unit}
    {D : Dispositions} (h : D.Obeys s.traps)
    (hrun : (refreshSignals.startedIn s).Comes es (.done (r, t))) : (D.after es).Obeys t.traps := by
  obtain ⟨-, rfl, hafter⟩ := settles_refreshSignals s es r t hrun
  rw [hafter]
  exact h.setAll_shellDispositions _

/-- `trap` puts what it sets in force. -/
theorem obeys_setTrap {s t : Shell} {es : List Event} {r : Except Stop Unit} {D : Dispositions}
    (h : D.Obeys s.traps) (number : Nat) (action : Option TrapAction)
    (hrun : ((Commands.setTrap number action).startedIn s).Comes es (.done (r, t))) :
    (D.after es).Obeys t.traps := by
  cases hlocked : s.traps.isLocked number with
  | true =>
      have hstays : Settles (Commands.setTrap number action) s s id := by
        refine Settles.get_bind ?_
        rw [if_pos hlocked]
        exact Settles.pure () s
      obtain ⟨-, rfl, hafter⟩ := hstays es r t hrun
      rw [hafter]
      exact h
  | false =>
      let u : Shell := { s with traps := s.traps.set number action }
      cases hnumber : Signal.ofNumber? number with
      | none =>
          have hset : Settles (Commands.setTrap number action) s u id := by
            refine Settles.get_bind ?_
            rw [if_neg (Bool.eq_false_iff.mp hlocked)]
            refine (Settles.modify _ s).after fun _ => ?_
            rw [hnumber]
            exact Settles.pure () u
          obtain ⟨-, rfl, hafter⟩ := hset es r t hrun
          rw [hafter]
          refine h.of_get?_eq (Traps.nodup_set h.distinct _ _) rfl fun sig => ?_
          refine (Traps.get?_set s.traps number sig.number action).trans (if_neg ?_)
          rintro rfl
          rw [Signal.ofNumber?_number] at hnumber
          cases hnumber
      | some sig =>
          obtain rfl := Signal.number_of_ofNumber? hnumber
          have hset : Settles (Commands.setTrap sig.number action) s u fun D =>
              D.setAll [(sig, u.traps.disposition u.signalMode sig)] := by
            refine Settles.get_bind ?_
            rw [if_neg (Bool.eq_false_iff.mp hlocked)]
            refine (Settles.modify _ s).after fun _ => ?_
            rw [hnumber]
            exact Settles.get_bind (settles_setDispositions _ u)
          obtain ⟨-, rfl, hafter⟩ := hset es r t hrun
          rw [hafter]
          exact h.set hlocked action _

/-! ## Children -/

/-- The traps that a child keeps are in force in it. -/
theorem obeys_inChild {D : Dispositions} {ts : Traps} (h : D.Obeys ts) (quiet : Bool) :
    (D.inChild ts quiet).Obeys ts.inSubshell := by
  have hignored : ∀ s, ts.isLocked s.number ∨ ts.get? s.number = some .ignore →
      ts.childDisposition quiet s = .ignore := by
    intro s hs
    refine if_pos ?_
    rcases hs with hs | hs <;> simp [hs]
  refine ⟨h.distinct.sublist (List.filter_sublist.map _), fun s hs => ?_, fun s hs => ?_,
    fun s hcatch hget => ?_, fun s text hcatch hlocked hget => ?_⟩
  · have hfree : s ∉ Traps.managed := fun hmem =>
      Bool.false_ne_true ((Traps.catchable_of_mem_managed hmem).symm.trans hs)
    exact (if_neg hfree).trans (h.uncatchable s hs)
  · unfold Dispositions.inChild
    split
    · exact hignored s (.inl hs)
    · exact h.locked s hs
  · have hs := (Traps.inSubshell_ignores_iff h.distinct s.number).mp hget
    unfold Dispositions.inChild
    split
    · exact hignored s (.inr hs)
    · exact h.ignored s hcatch hs
  · exact absurd hget (Traps.get?_inSubshell_ne_command ts s.number text)

/-- A child is ready exactly if its parent caught no signal but those it manages. -/
theorem readyFor_inChild_iff {D : Dispositions} {ts : Traps} (h : D.Obeys ts) (quiet : Bool) :
    (D.inChild ts quiet).ReadyFor ts quiet ↔ ∀ s, D s = .caught → s ∈ Traps.managed := by
  have hother : ∀ s, s ∉ Traps.managed → D.inChild ts quiet s = D s := fun s hs => if_neg hs
  have hmanaged : ∀ s, s ∈ Traps.managed →
      D.inChild ts quiet s = ts.childDisposition quiet s := fun s hs => if_pos hs
  constructor
  · intro hready s hcaught
    by_contra hs
    exact hready.uncaught s ((hother s hs).trans hcaught)
  · intro hcaught
    refine ⟨fun s text hget => ?_, fun s hcatch hget => ?_, fun s => ?_⟩
    · by_cases hs : s ∈ Traps.managed
      · rw [hmanaged s hs]
        unfold Traps.childDisposition
        simp [hget]
      · rw [hother s hs]
        have hkey : (quiet && (s == .int || s == .quit)) = false := by
          cases s <;> simp_all [Traps.managed]
        rw [hkey, Bool.or_false]
        cases hlocked : ts.isLocked s.number with
        | true => exact h.locked s hlocked
        | false =>
            cases hcatch : s.uncatchable with
            | true => exact h.uncatchable s hcatch
            | false => exact absurd (hcaught s (h.commanded s text hcatch hlocked hget)) hs
    · by_cases hs : s ∈ Traps.managed
      · rw [hmanaged s hs]
        exact if_pos (by simp [hget])
      · rw [hother s hs]
        exact h.ignored s hcatch hget
    · by_cases hs : s ∈ Traps.managed
      · rw [hmanaged s hs]
        unfold Traps.childDisposition
        split <;> simp
      · rw [hother s hs]
        exact fun h => hs (hcaught s h)

/-- A child of any kind begins with its set-up, after which the signals that the shell manages are as
the traps of the parent and the kind of the child ask for, and all others as they are in the parent.
The traps that are left are in force. Signals are what they should be, and none is caught, exactly if
the parent caught no signal but those it manages. A subshell that takes the place of its process has
no set-up at all. -/
theorem dispositions_of_child (ev : Evaluator) :
    (∀ {α : Type} (child : ShellM α) (setUp : ShellM Unit) (background : Bool),
      SetsUp ev child setUp background →
        (∃ rest : ShellM α, child = (do
          setUp
          rest)) ∧
        ∀ (s t : Shell) (es : List Event) (r : Except Stop Unit) (D : Dispositions),
          D.Obeys s.traps → (setUp.startedIn s).Comes es (.done (r, t)) →
          r = .ok () ∧ D.after es = D.inChild s.traps (background && !s.has .monitor) ∧
          (D.after es).Obeys t.traps ∧
          ((D.after es).ReadyFor s.traps (background && !s.has .monitor) ↔
            ∀ sig, D sig = .caught → sig ∈ Traps.managed)) ∧
    ∀ (body : Script.Node) (redirects : List Script.Redirect) (place : Place) (s : Shell),
      place.isLast = true → s.traps.get? 0 = none →
      (runSubshell ev body redirects place).startedIn s = (do
        applyRedirects ev false redirects
        ev.node body { isLast := true } : ShellM Unit).startedIn s.asSubshell := by
  constructor
  · intro α child setUp background hkind
    refine ⟨hkind.first, fun s t es r D hobeys hrun => ?_⟩
    obtain ⟨⟨a, rfl⟩, rfl, hafter⟩ := hkind.settles s es r t hrun
    have hchild : D.after es = D.inChild s.traps (background && !s.has .monitor) :=
      (hafter D).trans (Dispositions.setAll_childDispositions hobeys.distinct D)
    rw [hchild]
    exact ⟨rfl, rfl, obeys_inChild hobeys _, readyFor_inChild_iff hobeys _⟩
  · intro body redirects place s hplace htrap
    show (if (place.isLast && (s.traps.get? 0).isNone) = true then _ else _ :
      ShellM Unit).startedIn _ = _
    rw [hplace, htrap]
    rfl

/-- A shell that has a command for a signal. -/
def withCommandFor (sig : Signal) : Shell :=
  { traps := ({} : Traps).set sig.number (some (.command "echo caught")) }

/-- All signals at their defaults but one that is caught. -/
def catching (sig : Signal) : Dispositions :=
  Dispositions.set (fun _ => .default) sig ((withCommandFor sig).traps.disposition ⟨false, false⟩ sig)

theorem obeys_catching (sig : Signal) : (catching sig).Obeys (withCommandFor sig).traps := by
  have hdefault : Dispositions.Obeys (fun _ => .default) {} := by
    constructor <;> simp [Traps.isLocked, Traps.get?]
  exact hdefault.set rfl _ _

/-- The child of a shell with a command for `INT` does not catch it, and a subshell in its place is
not set up. -/
theorem dispositions_of_child_interrupt :
    ((catching .int).after childSignals).ReadyFor (withCommandFor .int).traps false ∧
    (runSubshell (evaluatorOf 4) exitFive [] { isLast := true }).startedIn {} = (do
        applyRedirects (evaluatorOf 4) false []
        (evaluatorOf 4).node exitFive { isLast := true } : ShellM Unit).startedIn
      ({} : Shell).asSubshell := by
  obtain ⟨hchild, hplace⟩ := dispositions_of_child (evaluatorOf 4)
  refine ⟨?_, hplace _ _ _ _ rfl rfl⟩
  obtain ⟨⟨r, t⟩, hrun, -⟩ := Host.Program.comes_of_endsIn
    (show ((prepareChild none false).startedIn (withCommandFor .int)).endsIn (fun _ => true)
      childSignals = true by decide +kernel)
  obtain ⟨-, -, -, hready⟩ := (hchild _ _ _ (.job (pure ()))).2 _ _ _ _ _ (obeys_catching .int) hrun
  refine hready.mpr fun sig hcaught => ?_
  cases sig <;> first | decide | exact absurd hcaught (by decide)

/-- The child of a shell with a command for `USR1` goes on catching it. -/
theorem not_dispositions_of_child :
    ¬ ∀ (ev : Evaluator) (list setUp : ShellM Unit) (s t : Shell) (es : List Event)
        (r : Except Stop Unit) (D : Dispositions), SetsUp ev (jobChild ev list) setUp false →
      D.Obeys s.traps → (setUp.startedIn s).Comes es (.done (r, t)) →
      (D.after es).ReadyFor s.traps false := by
  intro h
  obtain ⟨⟨r, t⟩, hrun, -⟩ := Host.Program.comes_of_endsIn
    (show ((prepareChild none false).startedIn (withCommandFor .usr1)).endsIn (fun _ => true)
      childSignals = true by decide +kernel)
  have hready := h (evaluatorOf 4) _ _ _ _ _ _ _ (.job (pure ())) (obeys_catching .usr1) hrun
  exact hready.uncaught .usr1 (by decide)

end Shell

end CommandShell
