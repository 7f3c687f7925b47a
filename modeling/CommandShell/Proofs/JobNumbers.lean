import Mathlib.Data.List.Nodup
import Mathlib.Order.Bounds.Basic
import CommandShell.Proofs.JobTable

/-!
# The numbers of jobs

A table of jobs keeps three things in step: places, of which some are empty, the numbers that the
jobs carry, and the order in which the numbers were last used. `Consistent` says how they belong
together. The empty table is consistent and every operation keeps a consistent one so
(`Consistent.perform`), whatever jobs come in and whatever numbers are taken out, also numbers that
no job has. So in every table that operations lead to (`table_consistent`) a new job gets the
smallest free number, and the current job, the previous job and the job that a specification names
are jobs of the table.

Most operations are harmless because they leave the numbers in their places
(`Consistent.of_numbers_eq`); the rest put a job in, take one out, or change the order.
-/

namespace CommandShell.Jobs

/-- An operation on the table of jobs. -/
inductive Operation where
  | insert (j : Job)
  | remove (n : Nat)
  | record (pid : ProcessId) (status : ProcessStatus)
  | goOn (n : Nat)
  | setForeground (j : Job)
  | takeForeground
  | takeDone
  | takeChanged
  | clear
  | makeCurrent (n : Nat)
  deriving DecidableEq

/-- The table after an operation. -/
def perform (js : Jobs) : Operation → Jobs
  | .insert j => (js.insert j).1
  | .remove n => (js.remove n).1
  | .record pid status => (js.record pid status).1
  | .goOn n => js.modify n Job.markContinued
  | .setForeground j => { js with foreground := some j }
  | .takeForeground => { js with foreground := none }
  | .takeDone => js.takeDone.1
  | .takeChanged => js.takeChanged.1
  | .clear => cleared
  | .makeCurrent n => js.makeCurrent n

/-- The table after operations in turn. -/
def performAll (js : Jobs) (ops : List Operation) : Jobs := ops.foldl perform js

/-- Only a job of the table is made the current one. -/
def Permits (js : Jobs) : List Operation → Prop
  | [] => True
  | op :: ops => (∀ n, op = .makeCurrent n → (js.get? n).isSome = true) ∧ (js.perform op).Permits ops

/-- Every job has the number of its place, the last place is taken, and the order has the numbers
of the jobs, each once, and no other. -/
structure Consistent (js : Jobs) : Prop where
  numbered : ∀ i j, js.at? i = some j → j.id = some (i + 1)
  trimmed : ∀ n, js.slots.length = n + 1 → (js.at? n).isSome = true
  distinct : js.order.Nodup
  listed : ∀ n, n ∈ js.order ↔ ∃ i, n = i + 1 ∧ (js.at? i).isSome = true

/-- The numbers in their places. -/
def numbers (js : Jobs) : List (Option (Option Nat)) := js.slots.map (Option.map Job.id)

section

variable {js js' : Jobs} {n : Nat}

/-! ## Operations that leave the numbers alone -/

theorem map_id_at? (js : Jobs) (i : Nat) : (js.at? i).map Job.id = js.numbers[i]?.join := by
  unfold at? numbers
  rw [List.getElem?_map]
  cases js.slots[i]? with
  | none => rfl
  | some slot => rfl

/-- Consistency is a matter of the numbers in their places and of the order. -/
theorem Consistent.of_numbers_eq (h : js.Consistent) (hnumbers : js'.numbers = js.numbers)
    (horder : js'.order = js.order) : js'.Consistent := by
  have hat : ∀ i, (js'.at? i).map Job.id = (js.at? i).map Job.id := by
    intro i
    rw [map_id_at?, map_id_at?, hnumbers]
  have hsome : ∀ i, (js'.at? i).isSome = (js.at? i).isSome := by
    intro i
    rw [← Option.isSome_map, hat, Option.isSome_map]
  have hlength : js'.slots.length = js.slots.length := by
    simpa [numbers] using congrArg List.length hnumbers
  constructor
  · intro i j' hj'
    have hid := hat i
    rw [hj'] at hid
    obtain ⟨j, hj, hjid⟩ := Option.map_eq_some_iff.mp hid.symm
    rw [← hjid]
    exact h.numbered i j hj
  · intro n hn
    rw [hsome]
    exact h.trimmed n (hlength ▸ hn)
  · rw [horder]
    exact h.distinct
  · intro n
    rw [horder, h.listed]
    simp only [hsome]

theorem map_id_modifyFirst {p : Job → Bool} {f : Job → Job} (hf : ∀ j, (f j).id = j.id)
    (slots : List (Option Job)) :
    (modifyFirst p f slots).map (Option.map Job.id) = slots.map (Option.map Job.id) := by
  induction slots with
  | nil => rfl
  | cons slot slots ih =>
      cases slot with
      | none => simp [modifyFirst, ih]
      | some j => by_cases hp : p j = true <;> simp [modifyFirst, hp, hf, ih]

theorem Consistent.record (h : js.Consistent) (pid : ProcessId) (status : ProcessStatus) :
    (js.record pid status).1.Consistent := by
  have htable : (Jobs.record.recordInTable js pid status).1.Consistent := by
    refine h.of_numbers_eq ?_ rfl
    exact map_id_modifyFirst (f := (·.record pid status)) (fun _ => rfl) js.slots
  unfold Jobs.record
  split
  · split
    · exact h.of_numbers_eq rfl rfl
    · exact htable
  · exact htable

theorem Consistent.takeChanged (h : js.Consistent) : js.takeChanged.1.Consistent := by
  refine h.of_numbers_eq ?_ rfl
  simp [numbers, Jobs.takeChanged, Function.comp_def]

/-! ## Putting jobs in and taking them out -/

theorem Consistent.insert (h : js.Consistent) (j : Job) : (js.insert j).1.Consistent := by
  have hfree : freeSlot js.slots + 1 ∉ js.order := by
    rw [h.listed]
    rintro ⟨i, hi, hsome⟩
    obtain rfl : freeSlot js.slots = i := by omega
    rw [at?_freeSlot] at hsome
    cases hsome
  constructor
  · intro i j' hj'
    rw [at?_insert] at hj'
    split at hj'
    · rename_i hi
      cases hj'
      rw [hi]
    · exact h.numbered i j' hj'
  · intro n hn
    rw [at?_insert]
    split
    · rfl
    · rename_i hne
      refine h.trimmed n ?_
      unfold Jobs.insert at hn
      dsimp only at hn
      split at hn
      · simpa using hn
      · have hle := freeSlot_le js.slots
        rw [List.length_append, List.length_singleton] at hn
        omega
  · show (js.order ++ [freeSlot js.slots + 1]).Nodup
    rw [← List.concat_eq_append]
    exact h.distinct.concat hfree
  · intro n
    show n ∈ js.order ++ [freeSlot js.slots + 1] ↔ _
    rw [List.mem_append, List.mem_singleton, h.listed]
    constructor
    · rintro (⟨i, hi, hsome⟩ | hn)
      · refine ⟨i, hi, ?_⟩
        rw [at?_insert]
        split
        · rfl
        · exact hsome
      · exact ⟨freeSlot js.slots, hn, by rw [at?_insert, if_pos rfl]; rfl⟩
    · rintro ⟨i, hi, hsome⟩
      rw [at?_insert] at hsome
      by_cases hslot : i = freeSlot js.slots
      · exact .inr (hslot ▸ hi)
      · rw [if_neg hslot] at hsome
        exact .inl ⟨i, hi, hsome⟩

theorem getElem?_dropEmptyEnd_last {slots : List (Option Job)} {n : Nat}
    (hn : (dropEmptyEnd slots).length = n + 1) : (dropEmptyEnd slots)[n]?.join.isSome = true := by
  have hne : dropEmptyEnd slots ≠ [] := by
    intro hnil
    rw [hnil] at hn
    cases hn
  have hlast := List.rdropWhile_last_not Option.isNone slots hne
  have hget : (dropEmptyEnd slots)[n]? = some ((dropEmptyEnd slots).getLast hne) := by
    rw [List.getLast_eq_getElem, List.getElem?_eq_getElem (by omega)]
    congr 2
    omega
  rw [hget]
  show ((dropEmptyEnd slots).getLast hne).isSome = true
  rw [Option.isSome_iff_ne_none, ne_eq, ← Option.isNone_iff_eq_none]
  exact hlast

theorem Consistent.remove (h : js.Consistent) (n : Nat) : (js.remove n).1.Consistent := by
  cases n with
  | zero => exact h
  | succ k =>
      have hat := at?_remove js k
      unfold Jobs.remove at hat ⊢
      dsimp only at hat ⊢
      by_cases hk : k < js.slots.length
      · rw [if_pos hk] at hat ⊢
        constructor
        · intro i j hj
          rw [hat] at hj
          split at hj
          · cases hj
          · exact h.numbered i j hj
        · exact fun n hn => getElem?_dropEmptyEnd_last hn
        · exact h.distinct.filter _
        · intro n
          show n ∈ js.order.filter _ ↔ _
          rw [List.mem_filter, h.listed]
          simp only [hat]
          constructor
          · rintro ⟨⟨i, hi, hsome⟩, hne⟩
            have hik : i ≠ k := by
              rintro rfl
              simp [hi] at hne
            exact ⟨i, hi, by rw [if_neg hik]; exact hsome⟩
          · rintro ⟨i, hi, hsome⟩
            split at hsome
            · cases hsome
            · rename_i hik
              exact ⟨⟨i, hi, hsome⟩, by simpa [hi] using hik⟩
      · rw [if_neg hk]
        exact h

theorem Consistent.takeMarked (h : js.Consistent) (ns : List Nat) :
    (js.takeMarked ns).1.Consistent := by
  induction ns generalizing js with
  | nil => exact h
  | cons n ns ih => exact ih (h.remove n)

theorem consistent_empty : Consistent {} where
  numbered _ _ hj := nomatch hj
  trimmed _ hn := nomatch hn
  distinct := List.nodup_nil
  listed n := by
    constructor
    · intro hn
      cases hn
    · rintro ⟨i, -, hsome⟩
      cases hsome

/-- The order has the numbers of the jobs. -/
theorem Consistent.mem_order_iff (h : js.Consistent) (n : Nat) :
    n ∈ js.order ↔ (js.get? n).isSome = true := by
  rw [h.listed]
  constructor
  · rintro ⟨i, rfl, hsome⟩
    rw [get?_eq_at? h.numbered]
    exact hsome
  · intro hsome
    obtain ⟨j, hj⟩ := Option.isSome_iff_exists.mp hsome
    obtain ⟨i, hi⟩ := mem_toList_iff.mp (List.mem_of_find?_eq_some hj)
    have hid : (j.id == some n) = true := List.find?_some (p := fun j : Job => j.id == some n) hj
    rw [beq_iff_eq, h.numbered i j hi] at hid
    obtain rfl : i + 1 = n := Option.some.inj hid
    exact ⟨i, rfl, by rw [hi]; rfl⟩

theorem Consistent.makeCurrent (h : js.Consistent) (hn : (js.get? n).isSome = true) :
    (js.makeCurrent n).Consistent := by
  have hn' : n ∈ js.order := (h.mem_order_iff n).mpr hn
  refine ⟨h.numbered, h.trimmed, ?_, fun m => ?_⟩
  · show (js.order.filter (· ≠ n) ++ [n]).Nodup
    rw [← List.concat_eq_append]
    refine (h.distinct.filter _).concat fun hmem => ?_
    simpa using (List.mem_filter.mp hmem).2
  · show m ∈ js.order.filter (· ≠ n) ++ [n] ↔ ∃ i, m = i + 1 ∧ (js.at? i).isSome = true
    rw [← h.listed, List.mem_append, List.mem_filter, List.mem_singleton]
    constructor
    · rintro (⟨hm, -⟩ | rfl)
      · exact hm
      · exact hn'
    · intro hm
      by_cases hmn : m = n
      · exact .inr hmn
      · exact .inl ⟨hm, by simpa using hmn⟩

/-- Every permitted operation keeps a table consistent. -/
theorem Consistent.perform (h : js.Consistent) {op : Operation}
    (hop : ∀ n, op = .makeCurrent n → (js.get? n).isSome = true) : (js.perform op).Consistent := by
  cases op with
  | insert j => exact h.insert j
  | remove n => exact h.remove n
  | record pid status => exact h.record pid status
  | goOn n =>
      refine h.of_numbers_eq ?_ rfl
      exact map_id_modifyFirst (f := Job.markContinued) (fun _ => rfl) js.slots
  | setForeground j => exact h.of_numbers_eq rfl rfl
  | takeForeground => exact h.of_numbers_eq rfl rfl
  | takeDone => exact h.takeMarked _
  | takeChanged => exact h.takeChanged
  | clear => exact consistent_empty
  | makeCurrent n => exact h.makeCurrent (hop n rfl)

/-- Every run of permitted operations keeps a table consistent. -/
theorem Consistent.performAll (h : js.Consistent) {ops : List Operation} (hops : js.Permits ops) :
    (js.performAll ops).Consistent := by
  induction ops generalizing js with
  | nil => exact h
  | cons op ops ih =>
      obtain ⟨hop, hops⟩ := hops
      exact ih (h.perform hop) hops

/-! ## What consistency is good for -/

/-- A new job gets the smallest number that no job has. -/
theorem Consistent.isLeast_insert (h : js.Consistent) (j : Job) :
    IsLeast {n | 0 < n ∧ js.get? n = none} (js.insert j).2 := by
  show IsLeast _ (freeSlot js.slots + 1)
  constructor
  · refine ⟨Nat.succ_pos _, ?_⟩
    rw [get?_eq_at? h.numbered, at?_freeSlot]
  · rintro n ⟨hpos, hnone⟩
    obtain ⟨i, rfl⟩ := Nat.exists_eq_succ_of_ne_zero (Nat.ne_of_gt hpos)
    rw [Nat.succ_eq_add_one, get?_eq_at? h.numbered] at hnone
    by_contra hlt
    have hfull : (js.at? i).isSome = true := isSome_at?_of_lt_freeSlot (by omega)
    rw [hnone] at hfull
    cases hfull

theorem Consistent.current?_mem (h : js.Consistent) (hn : js.current? = some n) :
    (js.get? n).isSome = true :=
  (h.mem_order_iff n).mp (List.mem_of_getLast? hn)

theorem Consistent.previous?_mem (h : js.Consistent) (hn : js.previous? = some n) :
    (js.get? n).isSome = true :=
  (h.mem_order_iff n).mp (List.dropLast_subset _ (List.mem_of_getLast? hn))

/-- The only one of some jobs is one of the table. -/
theorem Consistent.theOnly?_mem (h : js.Consistent) {fits : Job → Bool}
    (hn : theOnly? ((js.toList.filter fits).filterMap Job.id) = some n) :
    (js.get? n).isSome = true := by
  have hmem : n ∈ (js.toList.filter fits).filterMap Job.id := by
    cases hl : (js.toList.filter fits).filterMap Job.id with
    | nil =>
        rw [hl] at hn
        cases hn
    | cons m ms =>
        rw [hl] at hn
        cases ms with
        | nil =>
            obtain rfl : m = n := Option.some.inj hn
            exact List.mem_singleton_self _
        | cons m' ms => cases hn
  obtain ⟨j, hj, hid⟩ := List.mem_filterMap.mp hmem
  obtain ⟨i, hi⟩ := mem_toList_iff.mp (List.mem_of_mem_filter hj)
  obtain rfl : i + 1 = n := Option.some.inj ((h.numbered i j hi).symm.trans hid)
  rw [get?_eq_at? h.numbered, hi]
  rfl

/-- A specification names a job of the table, if any. -/
theorem Consistent.resolve?_mem (h : js.Consistent) {spec : Text} (hn : js.resolve? spec = some n) :
    (js.get? n).isSome = true := by
  unfold resolve? at hn
  split at hn
  · split at hn
    · cases hn
    · split at hn
      · exact h.current?_mem hn
      · split at hn
        · exact h.previous?_mem hn
        · split at hn
          · obtain ⟨m, -, hm⟩ := Option.bind_eq_some_iff.mp hn
            obtain ⟨j, hj, rfl⟩ := Option.map_eq_some_iff.mp hm
            rw [hj]
            rfl
          · exact h.theOnly?_mem hn
  · cases hn

end

/-- In every table that permitted operations lead to from the empty one, a job has the number of its
place, the last place is taken, and the order lists the numbers of the jobs, each once. So a new
job gets the smallest number that is free, and the current job, the previous one and the one that
a specification names are in the table. -/
theorem table_consistent (ops : List Operation) (h : Permits {} ops) :
    ((∀ i j, (performAll {} ops).at? i = some j → j.id = some (i + 1)) ∧
      (∀ n, (performAll {} ops).slots.length = n + 1 →
        ((performAll {} ops).at? n).isSome = true) ∧
      (performAll {} ops).order.Nodup ∧
      ∀ n, n ∈ (performAll {} ops).order ↔ ((performAll {} ops).get? n).isSome = true) ∧
    (∀ j, IsLeast {n | 0 < n ∧ (performAll {} ops).get? n = none}
      ((performAll {} ops).insert j).2) ∧
    (∀ n, (performAll {} ops).current? = some n → ((performAll {} ops).get? n).isSome = true) ∧
    (∀ n, (performAll {} ops).previous? = some n → ((performAll {} ops).get? n).isSome = true) ∧
    ∀ spec n, (performAll {} ops).resolve? spec = some n →
      ((performAll {} ops).get? n).isSome = true := by
  have hjs := consistent_empty.performAll h
  refine ⟨⟨hjs.numbered, hjs.trimmed, hjs.distinct, hjs.mem_order_iff⟩, hjs.isLeast_insert, ?_⟩
  exact ⟨fun n => hjs.current?_mem, fun n => hjs.previous?_mem, fun spec n => hjs.resolve?_mem⟩

/-- A job of one process. -/
def single (pid : ProcessId) (command : Text) : Job :=
  Job.ofProcesses [{ pid, command }] none true none

/-- Three jobs come, the second one goes, so does one that is not there, the first one becomes the
current one, and another job comes. -/
def comeAndGo : List Operation :=
  [.insert (single 10 "a"), .insert (single 11 "b"), .insert (single 12 "c"), .remove 2, .remove 7,
    .makeCurrent 1, .insert (single 13 "d")]

/-- The last job has taken the number of the second one, the next one would get a new number, and
the last part of the command names it. -/
theorem table_consistent_comeAndGo :
    Permits {} comeAndGo ∧ (performAll {} comeAndGo).order = [3, 1, 2] ∧
    (performAll {} comeAndGo).order.Nodup ∧
    IsLeast {n | 0 < n ∧ (performAll {} comeAndGo).get? n = none} 4 ∧
    ((performAll {} comeAndGo).get? 1).isSome = true ∧
    (performAll {} comeAndGo).resolve? "%?d" = some 2 ∧
    ((performAll {} comeAndGo).get? 2).isSome = true := by
  have hpermits : Permits {} comeAndGo := by
    refine ⟨nofun, nofun, nofun, nofun, nofun, fun n hn => ?_, nofun, trivial⟩
    cases hn
    rfl
  obtain ⟨⟨-, -, hdistinct, -⟩, hleast, -, hprevious, hresolve⟩ :=
    table_consistent comeAndGo hpermits
  exact ⟨hpermits, rfl, hdistinct, hleast (single 14 "e"), hprevious 1 rfl, rfl,
    hresolve "%?d" 2 rfl⟩

end CommandShell.Jobs
