import CommandShell.Execution.Redirection
import CommandShell.Host.Descriptors
import CommandShell.Proofs.Scopes
import Mathlib.Logic.Function.Basic

/-!
# Runs on a table of descriptors

What a redirection does shows only on the descriptors of the process. `Answers` says how the system
replies to calls when they are kept in a table: a new descriptor is the lowest that is free, a copy
stands for the same open file, and whatever can fail may fail. A run on a table is a run with such
replies, and `Ends` is a triple about all of them: it starts from the descriptors put aside and from
the open files, and says what becomes of both.

A computation keeps the files when each descriptor stands for the same open file after it as before
and the same descriptors are put aside. The modules beside this one show that expansions keep them,
and that a construct with redirections does when its body does.
-/

namespace CommandShell

open Host (Call Reply Program)

namespace Host

/-- What each descriptor stands for, by the number of the open file. -/
abbrev FileMap := Nat → Option Nat

namespace Descriptors

variable {ds ds' : Descriptors} {fd floor : Nat} {slot : Slot}

/-- The open files of a table. -/
def files (ds : Descriptors) : FileMap := fun fd => (ds.get? fd).map Slot.openFile

theorem isOpen_eq_files (ds : Descriptors) (fd : Nat) : ds.isOpen fd = (ds.files fd).isSome :=
  (Option.isSome_map ..).symm

theorem lookup_cons_eq {l : List (Nat × Slot)} (n x : Nat) :
    ((n, slot) :: l).lookup x = if x = n then some slot else l.lookup x := by
  by_cases hx : x = n
  · subst hx
    rw [List.lookup_cons_self, if_pos rfl]
  · rw [List.lookup_cons, if_neg hx, beq_false_of_ne hx]

theorem get?_close (ds : Descriptors) (fd x : Nat) :
    (ds.close fd).get? x = if x = fd then none else ds.get? x := by
  obtain ⟨slots, limit⟩ := ds
  show (slots.filter _).lookup x = if x = fd then none else slots.lookup x
  induction slots with
  | nil => exact (ite_self none).symm
  | cons s slots ih =>
      obtain ⟨n, slot⟩ := s
      by_cases hn : n = fd
      · subst hn
        rw [List.filter_cons_of_neg (by simp), ih, lookup_cons_eq]
        by_cases hx : x = n
        · rw [if_pos hx, if_pos hx]
        · rw [if_neg hx, if_neg hx, if_neg hx]
      · rw [List.filter_cons_of_pos (by simpa using hn), lookup_cons_eq, lookup_cons_eq, ih]
        by_cases hx : x = n
        · rw [if_pos hx, if_pos hx, if_neg (hx ▸ hn)]
        · rw [if_neg hx, if_neg hx]

theorem get?_put (ds : Descriptors) (fd x : Nat) (slot : Slot) :
    (ds.put fd slot).get? x = if x = fd then some slot else ds.get? x := by
  show ((fd, slot) :: (ds.close fd).slots).lookup x = _
  rw [lookup_cons_eq]
  by_cases hx : x = fd
  · rw [if_pos hx, if_pos hx]
  · rw [if_neg hx, if_neg hx]
    exact (get?_close ds fd x).trans (if_neg hx)

theorem files_close (ds : Descriptors) (fd : Nat) :
    (ds.close fd).files = Function.update ds.files fd none := by
  funext x
  show ((ds.close fd).get? x).map _ = _
  rw [get?_close, Function.update_apply]
  split
  · rfl
  · rfl

theorem files_put (ds : Descriptors) (fd : Nat) (slot : Slot) :
    (ds.put fd slot).files = Function.update ds.files fd (some slot.openFile) := by
  funext x
  show ((ds.put fd slot).get? x).map _ = _
  rw [get?_put, Function.update_apply]
  split
  · rfl
  · rfl

/-- A new descriptor was free before, and nothing else changes. -/
theorem add?_eq_some (h : ds.add? floor slot = some (ds', fd)) :
    floor ≤ fd ∧ ds.files fd = none ∧ ds' = ds.put fd slot := by
  obtain ⟨n, hn, heq⟩ := Option.map_eq_some_iff.mp h
  obtain ⟨rfl, rfl⟩ := Prod.mk.inj heq
  obtain ⟨hfind, -⟩ := Option.filter_eq_some_iff.mp hn
  have hfree := List.find?_some (p := fun fd => !ds.isOpen fd) hfind
  have hfloor : floor ≤ n := (List.mem_range'_1.mp (List.mem_of_find?_eq_some hfind)).1
  rw [isOpen_eq_files] at hfree
  exact ⟨hfloor, by simpa using hfree, rfl⟩

/-- The table after a descriptor was marked to be inherited. -/
def kept (ds : Descriptors) (fd : Nat) : Descriptors :=
  match ds.get? fd with
  | some slot => ds.put fd { slot with closeOnExec := false }
  | none => ds

theorem limit_kept (ds : Descriptors) (fd : Nat) : (ds.kept fd).limit = ds.limit := by
  unfold kept
  split
  · rfl
  · rfl

theorem files_kept (ds : Descriptors) (fd : Nat) : (ds.kept fd).files = ds.files := by
  unfold kept
  split
  · rename_i slot hslot
    refine (files_put ..).trans (Function.update_eq_self_iff.mpr ?_)
    exact (congrArg (Option.map Slot.openFile) hslot).symm
  · rfl

end Descriptors

/-- The descriptors of a process during a run. -/
structure FileTable where
  descriptors : Descriptors
  /-- The write end of a pipe, if the last call made one. -/
  newPipe : Option Nat := none
  /-- Number of reads that are still to be answered. -/
  reads : Nat := 0

/-- The table with other descriptors after a call. -/
def FileTable.next (T : FileTable) (ds : Descriptors) : FileTable :=
  { T with descriptors := ds, newPipe := none }

/-- What no call changes for the better: the limit of the table, and the reads to come. -/
structure FileTable.Follows (U T : FileTable) : Prop where
  limit : U.descriptors.limit = T.descriptors.limit
  reads : U.reads ≤ T.reads

theorem FileTable.Follows.refl (T : FileTable) : T.Follows T := ⟨rfl, Nat.le_refl _⟩

theorem FileTable.Follows.trans {T U V : FileTable} (h : V.Follows U) (h' : U.Follows T) :
    V.Follows T :=
  ⟨h.limit.trans h'.limit, Nat.le_trans h.reads h'.reads⟩

theorem FileTable.follows_next {T : FileTable} {ds : Descriptors}
    (h : ds.limit = T.descriptors.limit) : (T.next ds).Follows T :=
  ⟨h, Nat.le_refl _⟩

/-- Up to this size a write goes at once into a pipe that is empty. -/
def atomicWrite : Nat := 4096

/-- How a system limits its processes. -/
structure Limits where
  /-- The limit of each table of descriptors. -/
  descriptors : Nat
  /-- Whether a fork may fail. -/
  forkFails : Prop

/-- A table as the system limits it. Only runs count in which no loop is given up for the number of
its reads. -/
structure Limits.Fit (L : Limits) (T : FileTable) : Prop where
  limit : T.descriptors.limit = L.descriptors
  reads : T.reads < Shell.roundLimit

theorem Limits.Fit.of_follows {L : Limits} {T U : FileTable} (h : L.Fit T) (hU : U.Follows T) :
    L.Fit U :=
  ⟨hU.limit.trans h.limit, Nat.lt_of_le_of_lt hU.reads h.reads⟩

/-- The replies to a call, each with the table after it. Opening, copying and making a pipe may fail
at any time. Closing, copying onto a number below the limit and asking for the status of an open
descriptor fail only if there is no such descriptor. -/
def Answers (L : Limits) (T : FileTable) : (c : Call) → Reply c → FileTable → Prop
  | .openFile _ _, .ok fd, U => ∃ slot ds,
    T.descriptors.add? 0 slot = some (ds, fd) ∧ U = T.next ds
  | .close fd, r, U => r.isOk = T.descriptors.isOpen fd ∧ U = T.next (T.descriptors.close fd)
  | .duplicate fd floor, .ok copy, U => ∃ slot ds, T.descriptors.get? fd = some slot ∧
    T.descriptors.add? floor { slot with closeOnExec := true } = some (ds, copy) ∧ U = T.next ds
  | .duplicateOnto fd target, .ok _, U => ∃ slot, T.descriptors.get? fd = some slot ∧
    target < T.descriptors.limit ∧
    U = T.next (T.descriptors.put target { slot with closeOnExec := false })
  | .duplicateOnto fd target, .error _, U =>
    ¬ (T.descriptors.isOpen fd ∧ target < T.descriptors.limit) ∧ U = T.next T.descriptors
  | .isOpen fd, b, U => b = T.descriptors.isOpen fd ∧ U = T.next T.descriptors
  | .keepOnExec fd, _, U => U = T.next (T.descriptors.kept fd)
  | .pipe, .ok (readEnd, writeEnd), U => ∃ slot₁ slot₂ ds₁ ds₂,
    T.descriptors.add? 0 slot₁ = some (ds₁, readEnd) ∧
    ds₁.add? 0 slot₂ = some (ds₂, writeEnd) ∧ U = { T.next ds₂ with newPipe := some writeEnd }
  | .read _ _, _, U => ∃ n, T.reads = n + 1 ∧ U = { T.next T.descriptors with reads := n }
  | .write fd data, r, U =>
    (T.newPipe = some fd → data.length ≤ atomicWrite → r = .ok data.length) ∧
    U = T.next T.descriptors
  | .descriptorStatus fd, r, U =>
    (T.descriptors.isOpen fd → r.isOk) ∧ U = T.next T.descriptors
  | .fork, r, U => (L.forkFails ∨ r.isOk) ∧ U = T.next T.descriptors
  | _, _, U => U = T.next T.descriptors

/-- Every run of a program on a table ends with a result and a table that satisfy `Q`. -/
def Program.Meets {α : Type} (L : Limits) (Q : α → FileTable → Prop) :
    Program α → FileTable → Prop
  | .done a, T => Q a T
  | .call c k, T => ∀ r U, Answers L T c r U → (k r).Meets L Q U

namespace Program

variable {α β : Type} {L : Limits} {Q Q' : α → FileTable → Prop}

theorem Meets.mono (h : ∀ a T, Q a T → Q' a T) :
    ∀ {p : Program α} {T : FileTable}, p.Meets L Q T → p.Meets L Q' T
  | .done a, T, hp => h a T hp
  | .call _ _, _, hp => fun r U hr => (hp r U hr).mono h

theorem meets_bind {Q : β → FileTable → Prop} {f : α → Program β} :
    ∀ {p : Program α} {T : FileTable},
      p.Meets L (fun a U => (f a).Meets L Q U) T → (p.bind f).Meets L Q T
  | .done _, _, hp => hp
  | .call _ _, _, hp => fun r U hr => meets_bind (hp r U hr)

/-- What always holds of results also holds of those on a table. -/
theorem Meets.and_always {P : α → Prop} :
    ∀ {p : Program α} {T : FileTable}, p.Meets L Q T → p.Always P →
      p.Meets L (fun a U => Q a U ∧ P a) T
  | .done _, _, hp, ha => ⟨hp, ha⟩
  | .call _ _, _, hp, ha => fun r U hr => (hp r U hr).and_always (ha r)

theorem meets_of_always {p : Program α} (h : p.Always fun _ => False) (T : FileTable) :
    p.Meets L Q T := by
  induction p generalizing T with
  | done a => exact h.elim
  | call c k ih => exact fun r U _ => ih r (h r) U

end Program

end Host

namespace Shell

open Host (FileTable FileMap Limits Answers Descriptors)

variable {σ α β : Type}

/-! ## Triples -/

/-- What redirections change: the descriptors put aside and the open files. The number of reads that
are still to be answered comes with them. -/
structure Holdings where
  saved : List (List SavedDescriptor)
  files : FileMap
  reads : Nat

/-- What a shell holds when it runs on a table. -/
def holdings (s : Shell) (T : FileTable) : Holdings where
  saved := s.saved
  files := T.descriptors.files
  reads := T.reads

/-- The same descriptors are put aside and stand for the same open files. -/
structure Holdings.Same (w w' : Holdings) : Prop where
  saved : w'.saved = w.saved
  files : w'.files = w.files

theorem Holdings.Same.refl (w : Holdings) : w.Same w := ⟨rfl, rfl⟩

theorem Holdings.Same.trans {w w' w'' : Holdings} (h : w.Same w') (h' : w'.Same w'') :
    w.Same w'' :=
  ⟨h'.saved.trans h.saved, h'.files.trans h.files⟩

variable {L : Limits}

/-- Every run of a computation that starts with these holdings ends with an outcome and holdings
that satisfy `Q`. -/
def Ends (L : Limits) (x : ShellM α) (w : Holdings) (Q : Except Stop α → Holdings → Prop) : Prop :=
  ∀ s T, holdings s T = w → L.Fit T →
    (x.startedIn s).Meets L (fun r U => U.Follows T ∧ Q r.1 (holdings r.2 U)) T

/-- A computation that ends with what it started with, however it ends. -/
class KeepsFiles (L : Limits) (x : ShellM α) : Prop where
  ends : ∀ w, Ends L x w fun _ w' => w.Same w'

section

variable {w : Holdings} {x : ShellM α} {Q Q' : Except Stop α → Holdings → Prop}

theorem Ends.mono (hx : Ends L x w Q) (h : ∀ r w', Q r w' → Q' r w') : Ends L x w Q' :=
  fun s T hw hT => (hx s T hw hT).mono fun r _ hr => ⟨hr.1, h r.1 _ hr.2⟩

/-- What always holds of the outcome comes in addition. -/
theorem Ends.and_always {P : Except Stop α → Prop} (hx : Ends L x w Q)
    (h : ∀ s, (x.startedIn s).Always fun r => P r.1) : Ends L x w fun r w' => Q r w' ∧ P r :=
  fun s T hw hT => ((hx s T hw hT).and_always (h s)).mono fun _ _ hr => ⟨hr.1.1, hr.1.2, hr.2⟩

theorem ends_pure {a : α} (h : Q (.ok a) w) : Ends L (pure a) w Q :=
  fun _ _ hw _ => ⟨.refl _, hw ▸ h⟩

theorem ends_throw {e : Stop} (h : Q (.error e) w) : Ends L (throw e) w Q :=
  fun _ _ hw _ => ⟨.refl _, hw ▸ h⟩

theorem ends_fail {f : Fault} (h : Q (.error f) w) : Ends L (fail f) w Q := ends_throw h

/-- Nothing comes after a failure. -/
theorem ends_fail_bind {f : Fault} {g : α → ShellM β} {Q : Except Stop β → Holdings → Prop}
    (h : Q (.error f) w) : Ends L (fail f >>= g) w Q :=
  fun _ _ hw _ => ⟨.refl _, hw ▸ h⟩

theorem ends_neverEnds (x : ShellM α) [h : NeverEnds x] : Ends L x w Q :=
  fun s T _ _ => Host.Program.meets_of_always (h.always s _) T

/-- A sequence: what comes after a success of its first part, or that part's failure. -/
theorem Ends.bind {P : Except Stop α → Holdings → Prop} {Q : Except Stop β → Holdings → Prop}
    {f : α → ShellM β} (hx : Ends L x w P) (hf : ∀ a w', P (.ok a) w' → Ends L (f a) w' Q)
    (he : ∀ e w', P (.error e) w' → Q (.error e) w') : Ends L (x >>= f) w Q := by
  intro s T hw hT
  refine Host.Program.meets_bind (p := x.startedIn s) ((hx s T hw hT).mono ?_)
  rintro ⟨r, t⟩ U ⟨hU, hP⟩
  cases r with
  | ok a =>
      refine (hf a _ hP t U rfl (hT.of_follows hU)).mono fun r V hV => ?_
      exact ⟨hV.1.trans hU, hV.2⟩
  | error e => exact ⟨hU, he e _ hP⟩

theorem Ends.map {f : α → β} {Q : Except Stop β → Holdings → Prop}
    (hx : Ends L x w fun r w' => Q (r.map f) w') : Ends L (f <$> x) w Q := by
  rw [map_eq_pure_bind]
  exact hx.bind (fun _ _ h => ends_pure h) fun _ _ h => h

/-- A computation that does not fail, with what holds of its value. -/
def Gives (L : Limits) (x : ShellM α) (w : Holdings) (P : α → Holdings → Prop) : Prop :=
  Ends L x w fun r w' => ∃ a, r = .ok a ∧ P a w'

theorem Gives.bind {P : α → Holdings → Prop} {Q : Except Stop β → Holdings → Prop}
    {f : α → ShellM β} (hx : Gives L x w P) (hf : ∀ a w', P a w' → Ends L (f a) w' Q) :
    Ends L (x >>= f) w Q := by
  refine Ends.bind hx ?_ ?_
  · rintro _ w' ⟨a, ha, hP⟩
    cases ha
    exact hf _ w' hP
  · rintro e w' ⟨a, ha, -⟩
    cases ha

theorem Gives.ends {P : α → Holdings → Prop} {Q : Except Stop α → Holdings → Prop}
    (hx : Gives L x w P) (h : ∀ a w', P a w' → Q (.ok a) w') : Ends L x w Q := by
  refine hx.mono ?_
  rintro _ w' ⟨a, rfl, hP⟩
  exact h a w' hP

theorem gives_pure {a : α} {P : α → Holdings → Prop} (h : P a w) : Gives L (pure a) w P :=
  ends_pure ⟨a, rfl, h⟩

/-- An attempt gives what there is to be said of the outcome. -/
theorem Ends.attempt {P : Except Stop α → Holdings → Prop} (hx : Ends L x w P) :
    Gives L (attempt x) w P := by
  intro s T hw hT
  refine Host.Program.meets_bind (p := x.startedIn s) ((hx s T hw hT).mono ?_)
  exact fun r _ hr => ⟨hr.1, r.1, rfl, hr.2⟩

/-- What follows a look at the state sees the descriptors put aside. -/
theorem ends_get_bind {Q : Except Stop β → Holdings → Prop} {f : Shell → ShellM β}
    (hf : ∀ s, s.saved = w.saved → Ends L (f s) w Q) : Ends L (get >>= f) w Q := by
  intro s T hw hT
  exact hf s (congrArg Holdings.saved hw) s T hw hT

theorem gives_modify {f : Shell → Shell} (saved : List (List SavedDescriptor))
    (hf : ∀ s, s.saved = w.saved → (f s).saved = saved) :
    Gives L (modify f) w fun _ w' => w' = { w with saved } := by
  rintro s T rfl -
  exact ⟨.refl _, (), rfl, congrArg (Holdings.mk · _ _) (hf s rfl)⟩

end

/-! ## Computations that keep the files -/

/-- The first part of a sequence keeps the files. -/
theorem Ends.after {w : Holdings} {x : ShellM α} [hx : KeepsFiles L x] {f : α → ShellM β}
    {Q : Except Stop β → Holdings → Prop} (hf : ∀ a w', w.Same w' → Ends L (f a) w' Q)
    (he : ∀ e w', w.Same w' → Q (.error e) w') : Ends L (x >>= f) w Q :=
  (hx.ends w).bind hf he

instance keepsFiles_pure (a : α) : KeepsFiles L (pure a : ShellM α) :=
  ⟨fun w => ends_pure (.refl w)⟩

instance keepsFiles_throw (e : Stop) : KeepsFiles L (throw e : ShellM α) :=
  ⟨fun w => ends_throw (.refl w)⟩

instance keepsFiles_fail (f : Fault) : KeepsFiles L (fail f : ShellM α) := keepsFiles_throw _

instance keepsFiles_get : KeepsFiles L (get : ShellM Shell) :=
  ⟨fun w _ _ hw _ => ⟨.refl _, hw ▸ .refl w⟩⟩

protected theorem KeepsFiles.bind {x : ShellM α} {f : α → ShellM β} [hx : KeepsFiles L x]
    (hf : ∀ a, KeepsFiles L (f a)) : KeepsFiles L (x >>= f) :=
  ⟨fun _ => .after (fun a w' hw => ((hf a).ends w').mono fun _ _ h => hw.trans h) fun _ _ h => h⟩

instance keepsFiles_bind {x : ShellM α} {f : α → ShellM β} [KeepsFiles L x]
    [hf : ∀ a, KeepsFiles L (f a)] : KeepsFiles L (x >>= f) := .bind hf

instance keepsFiles_fail_bind (e : Fault) (f : α → ShellM β) : KeepsFiles L (fail e >>= f) :=
  ⟨fun w => ends_fail_bind (.refl w)⟩

instance keepsFiles_map {f : α → β} {x : ShellM α} [KeepsFiles L x] : KeepsFiles L (f <$> x) := by
  rw [map_eq_pure_bind]
  infer_instance

protected theorem KeepsFiles.ite {c : Prop} [Decidable c] {x y : ShellM α} (hx : KeepsFiles L x)
    (hy : KeepsFiles L y) : KeepsFiles L (if c then x else y) := by
  split
  · exact hx
  · exact hy

instance keepsFiles_ite {c : Prop} [Decidable c] {x y : ShellM α} [hx : KeepsFiles L x]
    [hy : KeepsFiles L y] : KeepsFiles L (if c then x else y) := hx.ite hy

instance keepsFiles_quietly {x : ShellM Unit} [hx : KeepsFiles L x] :
    KeepsFiles L (quietly x) :=
  ⟨fun w => (hx.ends w).attempt.bind fun _ _ hw => ends_pure hw⟩

instance keepsFiles_ofExcept (r : Except Fault α) : KeepsFiles L (ofExcept r) := by
  cases r with
  | ok a => exact keepsFiles_pure a
  | error f => exact keepsFiles_fail f

instance keepsFiles_resume (r : Except Stop α) : KeepsFiles L (resume r) := by
  cases r with
  | ok a => exact keepsFiles_pure a
  | error e => exact keepsFiles_throw e

/-- A change of the state that puts nothing aside. -/
protected theorem KeepsFiles.modify {f : Shell → Shell} (hf : ∀ s, (f s).saved = s.saved) :
    KeepsFiles L (modify f : ShellM Unit) := by
  constructor
  rintro w s T rfl -
  exact ⟨.refl _, hf s, rfl⟩

instance keepsFiles_setStatus (code : Int) : KeepsFiles L (setStatus code) := .modify fun _ => rfl

/-- Every round of a loop keeps the files, so the loop does. -/
protected theorem KeepsFiles.iterate {step : σ → ShellM (σ ⊕ α)}
    (h : ∀ a, KeepsFiles L (step a)) (a : σ) : KeepsFiles L (iterate step a) := by
  have hn : ∀ n a, KeepsFiles L (iterateFor step n a) := by
    intro n
    induction n with
    | zero => exact fun _ => keepsFiles_fail _
    | succ n ih =>
        intro a
        refine .bind fun r => ?_
        cases r with
        | inl a' => exact ih a'
        | inr b => exact keepsFiles_pure b
  exact hn roundLimit a

/-- A loop that reads in every round but the last comes to its end. -/
theorem ends_iterate {step : σ → ShellM (σ ⊕ α)} {I : Holdings → Prop}
    {Q : Except Stop α → Holdings → Prop}
    (h : ∀ a w, I w → Ends L (step a) w fun r w' => match r with
      | .ok (.inl _) => I w' ∧ w'.reads < w.reads
      | .ok (.inr b) => Q (.ok b) w'
      | .error e => Q (.error e) w')
    (a : σ) {w : Holdings} (hw : I w) : Ends L (iterate step a) w Q := by
  have hn : ∀ n a w, I w → w.reads < n → Ends L (iterateFor step n a) w Q := by
    intro n
    induction n with
    | zero => exact fun _ _ _ h => absurd h (Nat.not_lt_zero _)
    | succ n ih =>
        intro a w hI hreads
        refine (h a w hI).bind (fun r w' hr => ?_) fun _ _ he => he
        cases r with
        | inl a' => exact ih a' w' hr.1 (by omega)
        | inr b => exact ends_pure hr
  intro s T hs hT
  exact hn roundLimit a w hw (hs ▸ hT.reads) s T hs hT

/-! ## Calls -/

/-- Whether a call makes or loses descriptors. -/
def movesFiles : Call → Bool
  | .openFile .. | .close _ | .duplicate .. | .duplicateOnto .. | .pipe => true
  | _ => false

/-- Every other call leaves each descriptor as it is. -/
theorem files_of_answers {T U : FileTable} {c : Call} {r : Reply c} (hc : movesFiles c = false)
    (h : Answers L T c r U) : U.Follows T ∧ U.descriptors.files = T.descriptors.files := by
  cases c with
  | openFile | close | duplicate | duplicateOnto | pipe => cases hc
  | keepOnExec fd =>
      cases h
      exact ⟨FileTable.follows_next (T.descriptors.limit_kept fd), T.descriptors.files_kept fd⟩
  | read fd count =>
      obtain ⟨n, hn, rfl⟩ := h
      exact ⟨⟨rfl, hn ▸ Nat.le_succ n⟩, rfl⟩
  | write | descriptorStatus | fork | isOpen =>
      obtain ⟨-, rfl⟩ := h
      exact ⟨FileTable.follows_next rfl, rfl⟩
  | _ =>
      cases h
      exact ⟨FileTable.follows_next rfl, rfl⟩

theorem keepsFiles_ask (c : Call) (hc : movesFiles c = false) :
    @KeepsFiles (Reply c) L (ask c) := by
  constructor
  rintro w s T rfl hT r U hr
  obtain ⟨hU, hfiles⟩ := files_of_answers hc hr
  exact ⟨hU, rfl, hfiles⟩

instance keepsFiles_write_call (fd : Nat) (data : Host.Bytes) :
    KeepsFiles L (ask (.write fd data)) :=
  keepsFiles_ask _ rfl

instance keepsFiles_read_call (fd count : Nat) : KeepsFiles L (ask (.read fd count)) :=
  keepsFiles_ask _ rfl

instance keepsFiles_keepOnExec_call (fd : Nat) : KeepsFiles L (ask (.keepOnExec fd)) :=
  keepsFiles_ask _ rfl

instance keepsFiles_fileStatus_call (path : Host.Bytes) (follow : Bool) :
    KeepsFiles L (ask (.fileStatus path follow)) :=
  keepsFiles_ask _ rfl

instance keepsFiles_wait_call (target : Option ProcessId) (noHang untraced : Bool) :
    KeepsFiles L (ask (.wait target noHang untraced)) :=
  keepsFiles_ask _ rfl

instance keepsFiles_homeDirectory_call (user : Option Host.Bytes) :
    KeepsFiles L (ask (.homeDirectory user)) :=
  keepsFiles_ask _ rfl

section

variable {w : Holdings}

theorem gives_isOpen (fd : Nat) :
    Gives L (ask (.isOpen fd)) w fun b w' => b = (w.files fd).isSome ∧ w.Same w' := by
  rintro s T rfl - r U ⟨rfl, rfl⟩
  exact ⟨FileTable.follows_next rfl, _, rfl, Descriptors.isOpen_eq_files _ fd, rfl, rfl⟩

theorem gives_descriptorStatus {fd : Nat} (hfd : (w.files fd).isSome) :
    Gives L (ask (.descriptorStatus fd)) w fun reply w' => reply.isOk ∧ w.Same w' := by
  rintro s T rfl - r U ⟨hr, rfl⟩
  have hok := hr ((Descriptors.isOpen_eq_files _ fd).trans hfd)
  exact ⟨FileTable.follows_next rfl, r, rfl, hok, rfl, rfl⟩

/-- A fork that cannot fail. -/
theorem gives_fork (hfork : ¬ L.forkFails) :
    Gives L (ask .fork) w fun reply w' => reply.isOk ∧ w.Same w' := by
  rintro s T rfl - r U ⟨hr, rfl⟩
  exact ⟨FileTable.follows_next rfl, r, rfl, hr.resolve_left hfork, rfl, rfl⟩

/-- A read that is answered takes one from those to come. -/
theorem gives_read (fd count : Nat) :
    Gives L (ask (.read fd count)) w fun _ w' => w.Same w' ∧ w'.reads < w.reads := by
  rintro s T rfl - r U ⟨n, hn, rfl⟩
  have hreads : n < T.reads := by
    rw [hn]
    exact Nat.lt_succ_self n
  exact ⟨⟨rfl, Nat.le_of_lt hreads⟩, r, rfl, ⟨rfl, rfl⟩, hreads⟩

/-- What closing a descriptor leaves. -/
structure Closes (fd : Nat) (w w' : Holdings) : Prop where
  saved : w'.saved = w.saved
  files : w'.files = Function.update w.files fd none

theorem gives_close (fd : Nat) :
    Gives L (ask (.close fd)) w fun reply w' =>
      reply.isOk = (w.files fd).isSome ∧ Closes fd w w' := by
  rintro s T rfl - r U ⟨hr, rfl⟩
  exact ⟨FileTable.follows_next rfl, r, rfl, hr.trans (Descriptors.isOpen_eq_files _ fd), rfl,
    Descriptors.files_close _ fd⟩

/-- Closing an open descriptor succeeds. -/
theorem gives_closeOrFail {fd : Nat} (hfd : (w.files fd).isSome) :
    Gives L (closeOrFail fd) w fun _ w' => Closes fd w w' := by
  refine (gives_close fd).bind ?_
  rintro reply w' ⟨hok, hw'⟩
  rw [hfd] at hok
  cases reply with
  | ok u => exact gives_pure hw'
  | error e => cases hok

/-- What is left by an attempt to make a descriptor: the same if it failed, else a descriptor that
was free before and stands for a file that satisfies `p`. -/
def Gains {ε : Type} (floor : Nat) (p : Nat → Prop) (w : Holdings) :
    Except ε Nat → Holdings → Prop
  | .error _, w' => w.Same w'
  | .ok fd, w' => floor ≤ fd ∧ w.files fd = none ∧ w'.saved = w.saved ∧
    ∃ n, p n ∧ w'.files = Function.update w.files fd (some n)

theorem gives_openFile (path : Text) (flags : Host.OpenFlags) :
    Gives L (openFile path flags) w (Gains 0 (fun _ => True) w) := by
  unfold openFile
  cases pathBytes? path with
  | none => exact gives_pure (.refl w)
  | some p =>
      rintro s T rfl - r U hr
      cases r with
      | error e =>
          cases hr
          exact ⟨FileTable.follows_next rfl, _, rfl, rfl, rfl⟩
      | ok fd =>
          obtain ⟨slot, ds, hadd, rfl⟩ := hr
          obtain ⟨hfloor, hfree, rfl⟩ := Descriptors.add?_eq_some hadd
          exact ⟨FileTable.follows_next rfl, _, rfl, hfloor, hfree, rfl, _, trivial,
            Descriptors.files_put ..⟩

theorem gives_duplicate (fd floor : Nat) :
    Gives L (ask (.duplicate fd floor)) w (Gains floor (fun n => w.files fd = some n) w) := by
  rintro s T rfl - r U hr
  cases r with
  | error e =>
      cases hr
      exact ⟨FileTable.follows_next rfl, _, rfl, rfl, rfl⟩
  | ok copy =>
      obtain ⟨slot, ds, hfd, hadd, rfl⟩ := hr
      obtain ⟨hfloor, hfree, rfl⟩ := Descriptors.add?_eq_some hadd
      exact ⟨FileTable.follows_next rfl, _, rfl, hfloor, hfree, rfl, slot.openFile,
        congrArg (Option.map Host.Slot.openFile) hfd, Descriptors.files_put ..⟩

/-- Copying an open descriptor onto a number below the limit succeeds. -/
theorem gives_duplicateOnto {fd target : Nat} (hne : fd ≠ target) (hfd : (w.files fd).isSome)
    (htarget : target < L.descriptors) :
    Gives L (duplicateOnto fd target) w fun reply w' =>
      reply = .ok () ∧ w'.saved = w.saved ∧
      w'.files = Function.update w.files target (w.files fd) := by
  unfold duplicateOnto
  rw [if_neg hne]
  rintro s T rfl hT r U hr
  cases r with
  | error e =>
      exact absurd ⟨(Descriptors.isOpen_eq_files _ fd).trans hfd, hT.limit ▸ htarget⟩ hr.1
  | ok u =>
      obtain ⟨slot, hslot, -, rfl⟩ := hr
      refine ⟨FileTable.follows_next rfl, _, rfl, rfl, rfl, (Descriptors.files_put ..).trans ?_⟩
      exact congrArg (Function.update _ target)
        (congrArg (Option.map Host.Slot.openFile) hslot).symm

section

variable {ε : Type} {floor fd : Nat} {p : Nat → Prop}

theorem Gains.same {reply : Except ε Nat} {w₁ w₂ : Holdings}
    (h : Gains floor p w reply w₁) (hw : w₁.Same w₂) : Gains floor p w reply w₂ := by
  cases reply with
  | error e => exact Holdings.Same.trans h hw
  | ok fd =>
      obtain ⟨hfloor, hfree, hsaved, n, hn, hfiles⟩ := h
      exact ⟨hfloor, hfree, hw.saved.trans hsaved, n, hn, hw.files.trans hfiles⟩

/-- What came before without a change. -/
theorem Gains.after {reply : Except ε Nat} {w₁ w₂ : Holdings} (h : Gains floor p w₁ reply w₂)
    (hw : w.Same w₁) : Gains floor p w reply w₂ := by
  cases reply with
  | error e => exact hw.trans h
  | ok fd =>
      obtain ⟨hfloor, hfree, hsaved, n, hn, hfiles⟩ := h
      rw [hw.files] at hfree hfiles
      exact ⟨hfloor, hfree, hsaved.trans hw.saved, n, hn, hfiles⟩

/-- A new descriptor stands for something. -/
theorem Gains.isSome {w' : Holdings} (h : Gains floor p w (.ok fd : Except ε Nat) w') :
    (w'.files fd).isSome := by
  obtain ⟨-, -, -, n, -, hfiles⟩ := h
  rw [hfiles, Function.update_self]
  rfl

/-- A free descriptor that is opened and closed again. -/
theorem update_update_of_free {f : FileMap} {fd : Nat} (h : f fd = none) (x : Option Nat) :
    Function.update (Function.update f fd x) fd none = f :=
  (Function.update_idem ..).trans (Function.update_eq_self_iff.mpr h.symm)

/-- A new descriptor that is closed again leaves nothing behind. -/
theorem Gains.close {w₁ w₂ : Holdings} (h : Gains floor p w (.ok fd : Except ε Nat) w₁)
    (hw : Closes fd w₁ w₂) : w.Same w₂ := by
  obtain ⟨-, hfree, hsaved, n, -, hfiles⟩ := h
  refine ⟨hw.saved.trans hsaved, ?_⟩
  rw [hw.files, hfiles, update_update_of_free hfree]

end

/-- What making a pipe leaves: the same if it failed, else two descriptors that were free before. -/
def GainsPipe (w : Holdings) : Except Errno (Nat × Nat) → Holdings → Prop
  | .error _, w' => w.Same w'
  | .ok (readEnd, writeEnd), w' => w.files readEnd = none ∧ w.files writeEnd = none ∧
    readEnd ≠ writeEnd ∧ w'.saved = w.saved ∧ ∃ n m,
      w'.files = Function.update (Function.update w.files readEnd (some n)) writeEnd (some m)

theorem gainsPipe_of_answers {s : Shell} {T U : FileTable} {r : Reply .pipe}
    (h : Answers L T .pipe r U) :
    U.Follows T ∧ GainsPipe (holdings s T) r (holdings s U) ∧
    ∀ readEnd writeEnd, r = .ok (readEnd, writeEnd) → U.newPipe = some writeEnd := by
  rcases r with e | ⟨readEnd, writeEnd⟩
  · cases h
    exact ⟨FileTable.follows_next rfl, ⟨rfl, rfl⟩, fun _ _ h => (nomatch h)⟩
  · obtain ⟨slot₁, slot₂, ds₁, ds₂, h₁, h₂, rfl⟩ := h
    obtain ⟨-, hread, rfl⟩ := Descriptors.add?_eq_some h₁
    obtain ⟨-, hwrite, rfl⟩ := Descriptors.add?_eq_some h₂
    rw [Descriptors.files_put] at hwrite
    have hne : readEnd ≠ writeEnd := by
      rintro rfl
      rw [Function.update_self] at hwrite
      cases hwrite
    rw [Function.update_of_ne hne.symm] at hwrite
    refine ⟨⟨rfl, Nat.le_refl _⟩, ⟨hread, hwrite, hne, rfl, slot₁.openFile, slot₂.openFile, ?_⟩, ?_⟩
    · exact (Descriptors.files_put ..).trans
        (congrArg (Function.update · writeEnd _) (Descriptors.files_put ..))
    · rintro _ _ heq
      cases heq
      rfl

theorem gives_pipe : Gives L (ask .pipe) w (GainsPipe w) := by
  rintro s T rfl - r U hr
  obtain ⟨hU, hgains, -⟩ := gainsPipe_of_answers (s := s) hr
  exact ⟨hU, r, rfl, hgains⟩

theorem GainsPipe.same {reply : Except Errno (Nat × Nat)} {w₁ w₂ : Holdings}
    (h : GainsPipe w reply w₁) (hw : w₁.Same w₂) : GainsPipe w reply w₂ := by
  rcases reply with e | ⟨readEnd, writeEnd⟩
  · exact Holdings.Same.trans h hw
  · obtain ⟨hread, hwrite, hne, hsaved, n, m, hfiles⟩ := h
    exact ⟨hread, hwrite, hne, hw.saved.trans hsaved, n, m, hw.files.trans hfiles⟩

/-- The write end of a new pipe is open. -/
theorem GainsPipe.isSome {readEnd writeEnd : Nat} {w' : Holdings}
    (h : GainsPipe w (.ok (readEnd, writeEnd)) w') : (w'.files writeEnd).isSome := by
  obtain ⟨-, -, -, -, n, m, hfiles⟩ := h
  rw [hfiles, Function.update_self]
  rfl

/-- Of a new pipe whose write end is closed again the read end is left. -/
theorem GainsPipe.closeWrite {readEnd writeEnd : Nat} {w₁ w₂ : Holdings}
    (h : GainsPipe w (.ok (readEnd, writeEnd)) w₁) (hw : Closes writeEnd w₁ w₂) :
    Gains 0 (fun _ => True) w (.ok readEnd : Except Errno Nat) w₂ := by
  obtain ⟨hread, hwrite, hne, hsaved, n, m, hfiles⟩ := h
  refine ⟨Nat.zero_le _, hread, hw.saved.trans hsaved, n, trivial, ?_⟩
  rw [hw.files, hfiles, update_update_of_free]
  rw [Function.update_of_ne hne.symm, hwrite]

end

end Shell

end CommandShell
