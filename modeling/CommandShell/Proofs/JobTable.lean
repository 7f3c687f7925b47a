import Mathlib.Data.List.DropRight
import CommandShell.Commands.JobControl
import CommandShell.Execution.Source

/-!
# The table of jobs

`Jobs.at?` looks a job up by its place in the table, and the lemmas say what each operation does to
every place. A table is in order (`Jobs.Orderly`) when no job is in the foreground, every job has the
number of its place, and no process is in two jobs or twice in one. Then a job is found by its number
and by any of its processes, and what is recorded for a process reaches that process and no other.
-/

namespace CommandShell

/-! ## Processes of a job -/

namespace Job

/-- The processes of a job. -/
def pids (j : Job) : List ProcessId := j.processes.map (·.pid)

variable {j : Job} {pid : ProcessId} {status : ProcessStatus}

theorem hasPid_iff : j.hasPid pid = true ↔ pid ∈ j.pids := by
  simp [hasPid, pids]

theorem lastPid?_eq : j.lastPid? = j.pids.getLast? := by
  simp [lastPid?, pids]

theorem map_pid_recordIn (ps : List JobProcess) :
    (recordIn pid status ps).map (·.pid) = ps.map (·.pid) := by
  induction ps with
  | nil => rfl
  | cons p ps ih =>
      unfold recordIn
      split
      · rfl
      · rw [List.map_cons, ih, List.map_cons]

theorem pids_record (j : Job) (pid : ProcessId) (status : ProcessStatus) :
    (j.record pid status).pids = j.pids := map_pid_recordIn j.processes

/-- What is recorded for a process reaches that process and no other. -/
theorem of_mem_recordIn {q : JobProcess} {ps : List JobProcess} (h : (ps.map (·.pid)).Nodup)
    (hq : q ∈ recordIn pid status ps) : q.pid = pid ∧ q.status = status ∨ q.pid ≠ pid ∧ q ∈ ps := by
  induction ps with
  | nil => cases hq
  | cons p ps ih =>
      rw [List.map_cons, List.nodup_cons] at h
      unfold recordIn at hq
      split at hq
      · rename_i hp
        rcases List.mem_cons.mp hq with rfl | hq
        · exact .inl ⟨hp, rfl⟩
        · refine .inr ⟨?_, List.mem_cons_of_mem _ hq⟩
          rintro hpid
          exact h.1 (List.mem_map.mpr ⟨q, hq, hpid.trans hp.symm⟩)
      · rename_i hp
        rcases List.mem_cons.mp hq with rfl | hq
        · exact .inr ⟨hp, List.mem_cons_self⟩
        · rcases ih h.2 hq with hhere | ⟨hne, hmem⟩
          · exact .inl hhere
          · exact .inr ⟨hne, List.mem_cons_of_mem _ hmem⟩

theorem state_eq_done_iff : j.state = .done ↔ ∀ p ∈ j.processes, p.status.isDone = true := by
  unfold state
  rw [← List.all_eq_true]
  split
  · rename_i h
    exact ⟨fun _ => h, fun _ => rfl⟩
  · rename_i h
    refine ⟨fun hs => ?_, fun hs => absurd hs h⟩
    split at hs <;> cases hs

end Job

theorem List.find?_eq_some_of_unique {α : Type} {l : List α} {p : α → Bool} {a : α} (ha : a ∈ l)
    (hp : p a = true) (h : ∀ b ∈ l, p b = true → b = a) : l.find? p = some a := by
  cases hfind : l.find? p with
  | none => exact absurd hp (List.find?_eq_none.mp hfind a ha)
  | some b => rw [h b (List.mem_of_find?_eq_some hfind) (List.find?_some hfind)]

/-! ## Places of the table -/

namespace Jobs

/-- The job at a place of the table. -/
def at? (js : Jobs) (i : Nat) : Option Job := js.slots[i]?.join

variable {js : Jobs} {j : Job} {i : Nat} {pid : ProcessId}

theorem mem_toList_iff : j ∈ js.toList ↔ ∃ i, js.at? i = some j := by
  unfold toList at?
  rw [List.mem_filterMap]
  constructor
  · rintro ⟨slot, hslot, heq⟩
    obtain ⟨i, hi⟩ := List.mem_iff_getElem?.mp hslot
    exact ⟨i, by rw [hi]; exact heq⟩
  · rintro ⟨i, hi⟩
    exact ⟨some j, List.mem_iff_getElem?.mpr ⟨i, Option.join_eq_some_iff.mp hi⟩, rfl⟩

/-- The table is in order. -/
structure Orderly (js : Jobs) : Prop where
  /-- No job is in the foreground. -/
  background : js.foreground = none
  numbered : ∀ i j, js.at? i = some j → j.id = some (i + 1)
  /-- No process is in a job twice. -/
  distinct : ∀ i j, js.at? i = some j → j.pids.Nodup
  /-- No process is in two jobs. -/
  apart : ∀ i i' j j' pid, js.at? i = some j → js.at? i' = some j' → pid ∈ j.pids →
    pid ∈ j'.pids → i = i'

/-! ## Finding jobs -/

/-- Where every job has the number of its place, a number leads to that place. -/
theorem get?_eq_at? (h : ∀ i j, js.at? i = some j → j.id = some (i + 1)) (i : Nat) :
    js.get? (i + 1) = js.at? i := by
  cases hi : js.at? i with
  | some j =>
      refine List.find?_eq_some_of_unique (mem_toList_iff.mpr ⟨i, hi⟩) ?_ fun j' hj' hid => ?_
      · rw [h i j hi]
        exact beq_self_eq_true _
      · obtain ⟨i', hi'⟩ := mem_toList_iff.mp hj'
        have hnumber := (h i' j' hi').symm.trans (eq_of_beq hid)
        obtain rfl : i' = i := by simpa using hnumber
        exact Option.some.inj (hi'.symm.trans hi)
  | none =>
      refine List.find?_eq_none.mpr fun j' hj' hid => ?_
      obtain ⟨i', hi'⟩ := mem_toList_iff.mp hj'
      have hnumber := (h i' j' hi').symm.trans (eq_of_beq hid)
      obtain rfl : i' = i := by simpa using hnumber
      rw [hi'] at hi
      cases hi

theorem Orderly.get?_eq_at? (h : js.Orderly) (i : Nat) : js.get? (i + 1) = js.at? i :=
  Jobs.get?_eq_at? h.numbered i

theorem Orderly.ofPid?_eq_some (h : js.Orderly) (hi : js.at? i = some j) (hpid : pid ∈ j.pids) :
    js.ofPid? pid = some j := by
  refine List.find?_eq_some_of_unique (mem_toList_iff.mpr ⟨i, hi⟩) (Job.hasPid_iff.mpr hpid)
    fun j' hj' hpid' => ?_
  obtain ⟨i', hi'⟩ := mem_toList_iff.mp hj'
  obtain rfl := h.apart i' i j' j pid hi' hi (Job.hasPid_iff.mp hpid') hpid
  exact Option.some.inj (hi'.symm.trans hi)

theorem ofPid?_eq_none (h : ∀ i j, js.at? i = some j → pid ∉ j.pids) : js.ofPid? pid = none := by
  refine List.find?_eq_none.mpr fun j' hj' hpid => ?_
  obtain ⟨i, hi⟩ := mem_toList_iff.mp hj'
  exact h i j' hi (Job.hasPid_iff.mp hpid)

/-! ## Changing the table -/

theorem freeSlot_le (slots : List (Option Job)) : freeSlot slots ≤ slots.length :=
  (List.takeWhile_prefix _).length_le

theorem getElem?_freeSlot (slots : List (Option Job)) : slots[freeSlot slots]?.join = none := by
  induction slots with
  | nil => rfl
  | cons slot slots ih =>
      cases slot with
      | none => rfl
      | some j => exact ih

theorem at?_freeSlot (js : Jobs) : js.at? (freeSlot js.slots) = none := getElem?_freeSlot js.slots

theorem isSome_getElem?_of_lt_freeSlot {slots : List (Option Job)} {i : Nat}
    (h : i < freeSlot slots) : slots[i]?.join.isSome = true := by
  induction slots generalizing i with
  | nil => cases h
  | cons slot slots ih =>
      cases slot with
      | none => cases h
      | some j =>
          cases i with
          | zero => rfl
          | succ i => exact ih (Nat.lt_of_succ_lt_succ h)

/-- All places before the free one are taken. -/
theorem isSome_at?_of_lt_freeSlot (h : i < freeSlot js.slots) : (js.at? i).isSome = true :=
  isSome_getElem?_of_lt_freeSlot h

/-- The number of a job goes with its place. -/
theorem at?_insert (js : Jobs) (j : Job) (i : Nat) :
    (js.insert j).1.at? i = if i = freeSlot js.slots
      then some { j with id := some (freeSlot js.slots + 1) } else js.at? i := by
  have hle := freeSlot_le js.slots
  unfold insert at?
  dsimp only
  split
  · rename_i hlt
    rw [List.getElem?_set]
    by_cases hi : freeSlot js.slots = i
    · rw [if_pos hi, if_pos hlt, if_pos hi.symm]
      rfl
    · rw [if_neg hi, if_neg (Ne.symm hi)]
  · have hlength : freeSlot js.slots = js.slots.length := by omega
    rw [hlength]
    by_cases hi : i = js.slots.length
    · rw [if_pos hi, hi, List.getElem?_concat_length]
      rfl
    · rw [if_neg hi]
      rcases Nat.lt_or_gt_of_ne hi with hlt | hgt
      · rw [List.getElem?_append_left hlt]
      · rw [List.getElem?_eq_none (by simp; omega), List.getElem?_eq_none (by omega)]

theorem getElem?_dropEmptyEnd (slots : List (Option Job)) (i : Nat) :
    (dropEmptyEnd slots)[i]?.join = slots[i]?.join := by
  show (slots.rdropWhile Option.isNone)[i]?.join = _
  induction slots using List.reverseRecOn with
  | nil => rfl
  | append_singleton slots slot ih =>
      cases slot with
      | some j => rw [List.rdropWhile_concat_neg _ _ _ (by simp)]
      | none =>
          rw [List.rdropWhile_concat_pos _ _ _ rfl, ih]
          rcases Nat.lt_trichotomy i slots.length with hlt | heq | hgt
          · rw [List.getElem?_append_left hlt]
          · rw [heq, List.getElem?_concat_length, List.getElem?_eq_none (Nat.le_refl _)]
            rfl
          · rw [List.getElem?_eq_none (Nat.le_of_lt hgt), List.getElem?_eq_none (by simp; omega)]

theorem at?_remove (js : Jobs) (k i : Nat) :
    (js.remove (k + 1)).1.at? i = if i = k then none else js.at? i := by
  unfold remove
  dsimp only
  split
  · show (dropEmptyEnd (js.slots.set k none))[i]?.join = _
    rw [getElem?_dropEmptyEnd, List.getElem?_set]
    by_cases hi : k = i
    · rw [if_pos hi, if_pos hi.symm]
      split <;> rfl
    · rw [if_neg hi, if_neg (Ne.symm hi)]
      rfl
  · rename_i hlt
    split
    · rename_i hi
      unfold at?
      rw [hi, List.getElem?_eq_none (Nat.le_of_not_lt hlt)]
      rfl
    · rfl

theorem foreground_remove (js : Jobs) (n : Nat) : (js.remove n).1.foreground = js.foreground := by
  cases n with
  | zero => rfl
  | succ slot =>
      unfold remove
      dsimp only
      split <;> rfl

theorem at?_removeJobs (js : Jobs) (ns : List Nat) (i : Nat) :
    (Shell.removeJobs js ns).at? i = if i + 1 ∈ ns then none else js.at? i := by
  unfold Shell.removeJobs
  induction ns generalizing js with
  | nil => rfl
  | cons n ns ih =>
      rw [List.foldl_cons, ih]
      cases n with
      | zero => simp [remove]
      | succ slot =>
          rw [at?_remove]
          by_cases hi : i = slot
          · simp [hi]
          · simp [hi]

theorem foreground_removeJobs (js : Jobs) (ns : List Nat) :
    (Shell.removeJobs js ns).foreground = js.foreground := by
  unfold Shell.removeJobs
  induction ns generalizing js with
  | nil => rfl
  | cons n ns ih => rw [List.foldl_cons, ih, foreground_remove]

/-- The first job that satisfies `p` is the only one. -/
theorem getElem?_modifyFirst {p : Job → Bool} {f : Job → Job} {slots : List (Option Job)}
    (h : ∀ (i i' : Nat) (j j' : Job), slots[i]?.join = some j → slots[i']?.join = some j' →
      p j = true → p j' = true → i = i') (i : Nat) :
    (modifyFirst p f slots)[i]?.join =
      slots[i]?.join.map fun j => if p j = true then f j else j := by
  induction slots generalizing i with
  | nil => rfl
  | cons slot slots ih =>
      have htail : ∀ (i i' : Nat) (j j' : Job), slots[i]?.join = some j → slots[i']?.join = some j' →
          p j = true → p j' = true → i = i' := by
        intro i i' j j' hi hi' hj hj'
        exact Nat.succ.inj (h (i + 1) (i' + 1) j j' hi hi' hj hj')
      cases slot with
      | none =>
          cases i with
          | zero => rfl
          | succ i => exact ih htail i
      | some first =>
          unfold modifyFirst
          split
          · rename_i hp
            cases i with
            | zero =>
                show some (f first) = some (if p first = true then f first else first)
                rw [if_pos hp]
            | succ i =>
                show slots[i]?.join = slots[i]?.join.map _
                cases hi : slots[i]?.join with
                | none => rfl
                | some j =>
                    have hj : ¬ p j = true := by
                      intro hj
                      cases h 0 (i + 1) first j rfl hi hp hj
                    rw [Option.map_some, if_neg hj]
          · rename_i hp
            cases i with
            | zero =>
                show some first = some (if p first = true then f first else first)
                rw [if_neg hp]
            | succ i => exact ih htail i

/-- The jobs that are forgotten are done, and the last background process is none of theirs. -/
theorem Orderly.mem_forgettable_iff (h : js.Orderly) {last : Option ProcessId} :
    i + 1 ∈ Shell.forgettable js last ↔
      ∃ j, js.at? i = some j ∧ j.state = .done ∧ ∀ pid, last = some pid → pid ∉ j.pids := by
  unfold Shell.forgettable
  rw [List.mem_filterMap]
  constructor
  · rintro ⟨j, hj, hid⟩
    obtain ⟨hmem, hcond⟩ := List.mem_filter.mp hj
    obtain ⟨i', hi'⟩ := mem_toList_iff.mp hmem
    obtain rfl : i' = i := by simpa using (h.numbered i' j hi').symm.trans hid
    obtain ⟨hdone, hlast⟩ := Bool.and_eq_true_iff.mp hcond
    refine ⟨j, hi', eq_of_beq hdone, ?_⟩
    rintro pid rfl hpid
    rw [Option.any_some, Job.hasPid_iff.mpr hpid] at hlast
    cases hlast
  · rintro ⟨j, hi, hdone, hlast⟩
    refine ⟨j, List.mem_filter.mpr ⟨mem_toList_iff.mpr ⟨i, hi⟩, ?_⟩, h.numbered i j hi⟩
    rw [hdone, Bool.and_eq_true_iff]
    refine ⟨rfl, ?_⟩
    cases last with
    | none => rfl
    | some pid =>
        rw [Option.any_some, Bool.not_eq_true', Bool.eq_false_iff]
        exact fun hpid => hlast pid rfl (Job.hasPid_iff.mp hpid)

/-- What is recorded for a process reaches the job that has it. -/
theorem Orderly.at?_record (h : js.Orderly) (pid : ProcessId) (status : ProcessStatus) (i : Nat) :
    (js.record pid status).1.at? i =
      (js.at? i).map fun j => if j.hasPid pid = true then j.record pid status else j := by
  unfold record
  rw [h.background]
  refine getElem?_modifyFirst (fun i i' j j' hi hi' hj hj' => ?_) i
  exact h.apart i i' j j' pid hi hi' (Job.hasPid_iff.mp hj) (Job.hasPid_iff.mp hj')

theorem Orderly.foreground_record (h : js.Orderly) (pid : ProcessId) (status : ProcessStatus) :
    (js.record pid status).1.foreground = none := by
  unfold record
  rw [h.background]
  exact h.background

/-! ## Keeping the table in order -/

/-- The second table has at every place what the first one has there, or nothing, but for what is
known of the processes. -/
def Within (js' js : Jobs) : Prop :=
  ∀ i j', js'.at? i = some j' → ∃ j, js.at? i = some j ∧ j'.id = j.id ∧ j'.pids = j.pids

theorem Orderly.within {js' : Jobs} (h : js.Orderly) (hjs : js'.Within js)
    (hforeground : js'.foreground = none) : js'.Orderly where
  background := hforeground
  numbered i j' hi := by
    obtain ⟨j, hj, hid, -⟩ := hjs i j' hi
    exact hid.trans (h.numbered i j hj)
  distinct i j' hi := by
    obtain ⟨j, hj, -, hpids⟩ := hjs i j' hi
    exact hpids ▸ h.distinct i j hj
  apart i i' j j' pid hi hi' hpid hpid' := by
    obtain ⟨k, hk, -, hpids⟩ := hjs i j hi
    obtain ⟨k', hk', -, hpids'⟩ := hjs i' j' hi'
    exact h.apart i i' k k' pid hk hk' (hpids ▸ hpid) (hpids' ▸ hpid')

theorem Orderly.record (h : js.Orderly) (pid : ProcessId) (status : ProcessStatus) :
    (js.record pid status).1.Orderly := by
  refine h.within (fun i j' hi => ?_) (h.foreground_record pid status)
  rw [h.at?_record] at hi
  obtain ⟨j, hj, rfl⟩ := Option.map_eq_some_iff.mp hi
  refine ⟨j, hj, ?_⟩
  split
  · exact ⟨rfl, Job.pids_record j pid status⟩
  · exact ⟨rfl, rfl⟩

theorem Orderly.removeJobs (h : js.Orderly) (ns : List Nat) :
    (Shell.removeJobs js ns).Orderly := by
  refine h.within (fun i j hi => ?_) ((foreground_removeJobs js ns).trans h.background)
  rw [at?_removeJobs] at hi
  split at hi
  · cases hi
  · exact ⟨j, hi, rfl, rfl⟩

theorem Orderly.remove (h : js.Orderly) (k : Nat) : (js.remove (k + 1)).1.Orderly :=
  h.removeJobs [k + 1]

theorem Orderly.insert (h : js.Orderly) {j : Job} (hj : j.pids.Nodup)
    (hnew : ∀ i j' pid, js.at? i = some j' → pid ∈ j'.pids → pid ∉ j.pids) :
    (js.insert j).1.Orderly := by
  have hat : ∀ i j', (js.insert j).1.at? i = some j' →
      i = freeSlot js.slots ∧ j'.id = some (i + 1) ∧ j'.pids = j.pids ∨
        i ≠ freeSlot js.slots ∧ js.at? i = some j' := by
    intro i j' hi
    rw [at?_insert] at hi
    by_cases hslot : i = freeSlot js.slots
    · rw [if_pos hslot] at hi
      cases hi
      exact .inl ⟨hslot, hslot ▸ rfl, rfl⟩
    · rw [if_neg hslot] at hi
      exact .inr ⟨hslot, hi⟩
  refine ⟨h.background, fun i j' hi => ?_, fun i j' hi => ?_,
    fun i i' j₁ j₂ pid hi hi' hpid hpid' => ?_⟩
  · rcases hat i j' hi with ⟨-, hid, -⟩ | ⟨-, hi⟩
    · exact hid
    · exact h.numbered i j' hi
  · rcases hat i j' hi with ⟨-, -, hpids⟩ | ⟨-, hi⟩
    · exact hpids ▸ hj
    · exact h.distinct i j' hi
  · rcases hat i j₁ hi with ⟨hslot, -, hpids⟩ | ⟨-, hi⟩
    · rcases hat i' j₂ hi' with ⟨hslot', -, -⟩ | ⟨-, hi'⟩
      · exact hslot.trans hslot'.symm
      · exact absurd (hpids ▸ hpid) (hnew i' j₂ pid hi' hpid')
    · rcases hat i' j₂ hi' with ⟨-, -, hpids⟩ | ⟨-, hi'⟩
      · exact absurd (hpids ▸ hpid') (hnew i j₁ pid hi hpid)
      · exact h.apart i i' j₁ j₂ pid hi hi' hpid hpid'

end Jobs

end CommandShell
