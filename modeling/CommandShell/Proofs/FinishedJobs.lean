import CommandShell.Proofs.StopNotices

/-!
# Telling about finished jobs

Between two commands an interactive shell takes the finished jobs out of its table, one by one in the
order of their numbers, and tells about each with a mark: `+` for the job that was used last, `-` for the
one before it. The mark of a job is decided by how many jobs were used after it (`marker_eq`), and it is
asked for when the job's turn has come. By then the finished jobs with smaller numbers are gone, and
those of them that were used later no longer count (`usedAfterAtTurn`).

`takeDone_marks` says what the table gives and what it keeps: the jobs, their order and the rest of the
table are as one expects, and a job shows the mark that it had before exactly if the jobs that are gone
made no difference to it. They may make one: two finished jobs can both be told of as the current one
(`not_takeDone_marks`).
-/

namespace CommandShell.Jobs

/-! ## Marks -/

/-- Whether the table has a job with that number, and it is done. -/
def hasFinished (js : Jobs) (n : Nat) : Bool := (js.get? n).any (·.state == .done)

/-- The finished jobs, in the order of their numbers. -/
def finished (js : Jobs) : List Job := js.toList.filter (·.state == .done)

/-- The numbers of the jobs used after the one with number `n`, the last one at the end. -/
def usedAfter (js : Jobs) (n : Nat) : List Nat := (js.order.dropWhile (· != n)).tail

/-- Those of them that are in the table when the finished jobs with numbers below `n` are gone. -/
def usedAfterAtTurn (js : Jobs) (n : Nat) : List Nat :=
  (js.usedAfter n).filter fun m => !(js.hasFinished m && m < n)

/-- The mark of a job that so many jobs were used after. -/
def markBefore : Nat → Char
  | 0 => '+'
  | 1 => '-'
  | _ => ' '

/-- The jobs that are gone by the turn of the job with number `n` make no difference to its mark. -/
def KeepsMark (js : Jobs) (n : Nat) : Prop :=
  min (js.usedAfterAtTurn n).length 2 = min (js.usedAfter n).length 2

instance (js : Jobs) (n : Nat) : Decidable (js.KeepsMark n) := by
  unfold KeepsMark
  infer_instance

theorem markBefore_eq_iff (a b : Nat) : markBefore a = markBefore b ↔ min a 2 = min b 2 := by
  match a, b with
  | 0, 0 => simp
  | 0, 1 => simp [markBefore]
  | 0, b + 2 => simp [markBefore]
  | 1, 0 => simp [markBefore]
  | 1, 1 => simp
  | 1, b + 2 => simp [markBefore]
  | a + 2, 0 => simp [markBefore]
  | a + 2, 1 => simp [markBefore]
  | a + 2, b + 2 => simp [markBefore]

variable {js : Jobs} {j : Job} {m n : Nat}

theorem dropWhile_split {before after : List Nat} (hbefore : n ∉ before) :
    (before ++ n :: after).dropWhile (· != n) = n :: after := by
  rw [List.dropWhile_append_of_pos]
  · simp
  · intro a ha
    rw [bne_iff_ne]
    rintro rfl
    exact hbefore ha

theorem current?_concat {earlier : List Nat} {last : Nat} (h : js.order = earlier ++ [last]) :
    js.current? = some last := by
  rw [current?, h, List.getLast?_concat]

theorem previous?_concat {earlier : List Nat} {last : Nat} (h : js.order = earlier ++ [last]) :
    js.previous? = earlier.getLast? := by
  rw [previous?, h, List.dropLast_concat]

/-- The mark tells how many jobs were used after the job, up to two. -/
theorem marker_eq (horder : js.order.Nodup) (hn : n ∈ js.order) :
    js.marker n = markBefore (js.usedAfter n).length := by
  obtain ⟨before, after, hsplit⟩ := List.append_of_mem hn
  rw [hsplit] at horder
  have hbefore : n ∉ before := fun hmem =>
    List.disjoint_of_nodup_append horder hmem List.mem_cons_self
  have hafter : n ∉ after := (List.nodup_cons.mp (List.nodup_append.mp horder).2.1).1
  have hused : js.usedAfter n = after := by
    rw [usedAfter, hsplit, dropWhile_split hbefore, List.tail_cons]
  rw [hused]
  cases after using List.reverseRecOn with
  | nil => simp [marker, current?_concat hsplit, markBefore]
  | append_singleton after last =>
      have hlast : last ≠ n := by
        rintro rfl
        exact hafter (by simp)
      rw [← List.cons_append, ← List.append_assoc] at hsplit
      cases after using List.reverseRecOn with
      | nil =>
          have hprevious : js.previous? = some n := by
            rw [previous?_concat hsplit, List.getLast?_concat]
          simp [marker, current?_concat hsplit, hprevious, hlast, markBefore]
      | append_singleton after earlier =>
          have hearlier : earlier ≠ n := by
            rintro rfl
            exact hafter (by simp)
          have hprevious : js.previous? = some earlier := by
            rw [previous?_concat hsplit, ← List.cons_append, ← List.append_assoc,
              List.getLast?_concat]
          simp [marker, current?_concat hsplit, hprevious, hlast, hearlier, markBefore]

/-- Jobs that are taken out are no longer among those used after a job, and the rest stay. -/
theorem after_filter {p : Nat → Bool} (hn : p n = true) (order : List Nat) :
    ((order.filter p).dropWhile (· != n)).tail =
      ((order.dropWhile (· != n)).tail).filter p := by
  induction order with
  | nil => rfl
  | cons a order ih =>
      by_cases ha : a = n
      · subst ha
        simp [hn]
      · by_cases hp : p a = true
        · simp [hp, ha, ih]
        · simp [hp, ha, ih]

/-! ## Taking one job out -/

theorem Consistent.get?_zero (h : js.Consistent) : js.get? 0 = none := by
  refine List.find?_eq_none.mpr fun j hj hid => ?_
  obtain ⟨i, hi⟩ := mem_toList_iff.mp hj
  have hnumber := (h.numbered i j hi).symm.trans (eq_of_beq hid)
  cases hnumber

/-- Only the job that is asked for goes. -/
theorem Consistent.get?_remove (h : js.Consistent) (hne : m ≠ n) :
    (js.remove n).1.get? m = js.get? m := by
  have hremoved := h.remove n
  cases m with
  | zero => rw [hremoved.get?_zero, h.get?_zero]
  | succ i =>
      cases n with
      | zero => rfl
      | succ k =>
          rw [get?_eq_at? hremoved.numbered, get?_eq_at? h.numbered, at?_remove, if_neg]
          rintro rfl
          exact hne rfl

theorem Consistent.snd_remove (h : js.Consistent) (n : Nat) : (js.remove n).2 = js.get? n := by
  cases n with
  | zero => exact h.get?_zero.symm
  | succ k =>
      rw [get?_eq_at? h.numbered]
      show (if k < js.slots.length then _ else (js, none) : Jobs × Option Job).2 = _
      split
      · rfl
      · rename_i hk
        rw [at?, List.getElem?_eq_none (Nat.le_of_not_lt hk)]
        rfl

theorem Consistent.order_remove (h : js.Consistent) (n : Nat) :
    (js.remove n).1.order = js.order.filter (· != n) := by
  -- a number that no job has is not in the order either
  have hnone : js.get? n = none → js.order = js.order.filter (· != n) := by
    intro hget
    refine (List.filter_eq_self.mpr fun m hm => ?_).symm
    rw [bne_iff_ne]
    rintro rfl
    rw [h.mem_order_iff, hget] at hm
    cases hm
  cases n with
  | zero => exact hnone h.get?_zero
  | succ k =>
      show (if k < js.slots.length then _ else (js, none) : Jobs × Option Job).1.order = _
      split
      · refine List.filter_congr fun m _ => ?_
        rw [bne, Bool.beq_eq_decide_eq, decide_not]
      · rename_i hk
        refine hnone ?_
        rw [get?_eq_at? h.numbered, at?, List.getElem?_eq_none (Nat.le_of_not_lt hk)]
        rfl

theorem Consistent.usedAfter_remove (h : js.Consistent) (hne : m ≠ n) :
    (js.remove n).1.usedAfter m = (js.usedAfter m).filter (· != n) := by
  rw [usedAfter, h.order_remove]
  exact after_filter (p := (· != n)) (bne_iff_ne.mpr hne) js.order

/-! ## Taking jobs out by their numbers -/

/-- The numbers of the jobs that satisfy `p` come in order. -/
theorem Consistent.pairwise_numbers (h : js.Consistent) (p : Job → Bool) :
    ((js.toList.filter p).filterMap Job.id).Pairwise (· < ·) := by
  rw [toList, numbers_filter p h.numbered]
  refine List.Pairwise.map _ (fun a b => Nat.succ_lt_succ) ?_
  exact List.pairwise_lt_range.filter _

/-- A job that is taken out comes before the rest, with the mark it has at that point. -/
theorem snd_takeMarked_cons {n : Nat} {j : Job} (hj : (js.remove n).2 = some j) (ns : List Nat) :
    (js.takeMarked (n :: ns)).2 = (j, js.marker n) :: ((js.remove n).1.takeMarked ns).2 := by
  rw [Jobs.takeMarked]
  dsimp only
  rw [hj]

/-- The first of the jobs to go meets the table as it is. -/
theorem usedAfter_filter_first {ns : List Nat} (hfirst : ∀ m ∈ ns, n < m) :
    ((js.usedAfter n).filter fun m => !((n :: ns).contains m && m < n)) = js.usedAfter n := by
  refine List.filter_eq_self.mpr fun m _ => ?_
  by_cases hm : m ∈ n :: ns
  · have hle : ¬ m < n := by
      rcases List.mem_cons.mp hm with rfl | hm
      · exact Nat.lt_irrefl _
      · exact Nat.not_lt.mpr (Nat.le_of_lt (hfirst m hm))
    simp [hle]
  · simp [hm]

/-- For those after it the first one is gone, too. -/
theorem Consistent.usedAfter_filter_later (h : js.Consistent) (hlt : n < m) (ns : List Nat) :
    (((js.remove n).1.usedAfter m).filter fun a => !(ns.contains a && a < m)) =
      (js.usedAfter m).filter fun a => !((n :: ns).contains a && a < m) := by
  rw [h.usedAfter_remove (Nat.ne_of_gt hlt), List.filter_filter]
  refine List.filter_congr fun a _ => ?_
  by_cases ha : a = n
  · simp [ha, hlt]
  · simp [ha]

/-- Jobs are taken out in the order of their numbers, and each has the mark that the jobs before it
have left to it. -/
theorem Consistent.snd_takeMarked (h : js.Consistent) {ns : List Nat} (hns : ns.Pairwise (· < ·))
    (htable : ∀ n ∈ ns, n ∈ js.order) :
    (js.takeMarked ns).2 = ns.filterMap fun n => (js.get? n).map fun j =>
      (j, markBefore ((js.usedAfter n).filter fun m => !(ns.contains m && m < n)).length) := by
  induction ns generalizing js with
  | nil => rfl
  | cons n ns ih =>
      obtain ⟨hfirst, hns⟩ := List.pairwise_cons.mp hns
      have hn : n ∈ js.order := htable n List.mem_cons_self
      obtain ⟨j, hj⟩ := Option.isSome_iff_exists.mp ((h.mem_order_iff n).mp hn)
      have hrest := ih (h.remove n) hns fun m hm => by
        rw [h.order_remove]
        refine List.mem_filter.mpr ⟨htable m (List.mem_cons_of_mem n hm), ?_⟩
        exact bne_iff_ne.mpr (Nat.ne_of_gt (hfirst m hm))
      have hlater : ∀ m ∈ ns, ((js.remove n).1.get? m).map (fun k => (k, markBefore
            (((js.remove n).1.usedAfter m).filter fun a => !(ns.contains a && a < m)).length)) =
          (js.get? m).map fun k => (k, markBefore
            ((js.usedAfter m).filter fun a => !((n :: ns).contains a && a < m)).length) := by
        intro m hm
        rw [h.get?_remove (Nat.ne_of_gt (hfirst m hm)), h.usedAfter_filter_later (hfirst m hm)]
      rw [snd_takeMarked_cons ((h.snd_remove n).trans hj), hrest, List.filterMap_congr hlater,
        List.filterMap_cons, hj, usedAfter_filter_first hfirst, marker_eq h.distinct hn]
      rfl

/-! ## The finished jobs -/

theorem Consistent.get?_of_mem (h : js.Consistent) (hj : j ∈ js.toList) :
    ∃ n, j.id = some n ∧ js.get? n = some j := by
  obtain ⟨i, hi⟩ := mem_toList_iff.mp hj
  exact ⟨i + 1, h.numbered i j hi, (get?_eq_at? h.numbered i).trans hi⟩

theorem Consistent.mem_numbers_iff (h : js.Consistent) (p : Job → Bool) (n : Nat) :
    n ∈ (js.toList.filter p).filterMap Job.id ↔ (js.get? n).any p = true := by
  rw [List.mem_filterMap]
  constructor
  · rintro ⟨j, hj, hid⟩
    obtain ⟨hmem, hp⟩ := List.mem_filter.mp hj
    obtain ⟨m, hm, hget⟩ := h.get?_of_mem hmem
    obtain rfl : m = n := Option.some.inj (hm.symm.trans hid)
    rw [hget]
    exact hp
  · intro hany
    cases hget : js.get? n with
    | none =>
        rw [hget] at hany
        cases hany
    | some j =>
        rw [hget] at hany
        have hid : (j.id == some n) = true := List.find?_some (p := fun j : Job => j.id == some n) hget
        exact ⟨j, List.mem_filter.mpr ⟨List.mem_of_find?_eq_some hget, hany⟩, eq_of_beq hid⟩

theorem Consistent.contains_finished (h : js.Consistent) (n : Nat) :
    (js.finished.filterMap Job.id).contains n = js.hasFinished n := by
  rw [Bool.eq_iff_iff, List.contains_iff_mem]
  exact h.mem_numbers_iff _ n

/-- Each finished job is given with the mark that it has at its turn. -/
theorem Consistent.snd_takeDone (h : js.Consistent) :
    js.takeDone.2 =
      js.finished.map fun j => (j, markBefore (js.usedAfterAtTurn (j.id.getD 0)).length) := by
  have htable : ∀ n ∈ js.finished.filterMap Job.id, n ∈ js.order := by
    intro n hn
    rw [h.mem_order_iff]
    have hany := (h.mem_numbers_iff _ n).mp hn
    cases hget : js.get? n with
    | none =>
        rw [hget] at hany
        cases hany
    | some j => rfl
  refine (h.snd_takeMarked (h.pairwise_numbers _) htable).trans ?_
  rw [List.filterMap_filterMap, ← List.filterMap_eq_map]
  refine List.filterMap_congr fun j hj => ?_
  obtain ⟨n, hid, hget⟩ := h.get?_of_mem (List.mem_of_mem_filter hj)
  have hturn : js.usedAfterAtTurn n = (js.usedAfter n).filter fun m =>
      !((js.finished.filterMap Job.id).contains m && m < n) := by
    simp only [h.contains_finished]
    rfl
  rw [hid, Option.bind_some, hget, Function.comp_apply, hid, Option.getD_some, hturn]
  rfl

theorem Consistent.at?_takeDone_eq (h : js.Consistent) (i : Nat) :
    js.takeDone.1.at? i = (js.at? i).filter (·.state != .done) := by
  have hgone : i + 1 ∈ js.finished.filterMap Job.id ↔ (js.at? i).any (·.state == .done) = true := by
    rw [← get?_eq_at? h.numbered]
    exact h.mem_numbers_iff _ (i + 1)
  show (js.takeMarked (js.finished.filterMap Job.id)).1.at? i = _
  rw [takeMarked_eq_removeJobs, at?_removeJobs, if_congr hgone rfl rfl]
  cases js.at? i with
  | none => rfl
  | some j =>
      by_cases hj : j.state = .done
      · simp [hj, Option.filter]
      · simp [hj, Option.filter]

theorem Consistent.order_takeMarked (h : js.Consistent) (ns : List Nat) :
    (js.takeMarked ns).1.order = js.order.filter fun n => !ns.contains n := by
  induction ns generalizing js with
  | nil => exact (List.filter_eq_self.mpr fun _ _ => rfl).symm
  | cons n ns ih =>
      refine (ih (h.remove n)).trans ?_
      rw [h.order_remove, List.filter_filter]
      refine List.filter_congr fun m _ => ?_
      by_cases hm : m = n
      · simp [hm]
      · simp [hm]

theorem foreground_takeDone (js : Jobs) : js.takeDone.1.foreground = js.foreground := by
  show (js.takeMarked _).1.foreground = _
  rw [takeMarked_eq_removeJobs, foreground_removeJobs]

/-- Nothing is left to tell. -/
theorem Consistent.takeDone_takeDone (h : js.Consistent) : js.takeDone.1.takeDone.2 = [] := by
  have hleft : js.takeDone.1.finished = [] := by
    refine List.filter_eq_nil_iff.mpr fun j hj hdone => ?_
    obtain ⟨i, hi⟩ := mem_toList_iff.mp hj
    rw [h.at?_takeDone_eq] at hi
    have hnot := (Option.filter_eq_some_iff.mp hi).2
    rw [eq_of_beq hdone] at hnot
    cases hnot
  have hafter : js.takeDone.1.Consistent := h.takeMarked _
  rw [hafter.snd_takeDone, hleft, List.map_nil]

/-- A mark that is not blank is that of one job. -/
theorem eq_of_marker_eq {mark : Char} (hmark : mark ≠ ' ') (hm : js.marker m = mark)
    (hn : js.marker n = mark) : m = n := by
  have hnamed : ∀ k, js.marker k = mark →
      (mark = '+' ∧ js.current? = some k) ∨ (mark = '-' ∧ js.previous? = some k) := by
    intro k hk
    rw [marker] at hk
    split at hk
    · exact .inl ⟨hk.symm, ‹_›⟩
    · split at hk
      · exact .inr ⟨hk.symm, ‹_›⟩
      · exact absurd hk.symm hmark
  rcases hnamed m hm with ⟨rfl, hcurrent⟩ | ⟨rfl, hprevious⟩
  · rcases hnamed n hn with ⟨-, hcurrent'⟩ | ⟨hne, -⟩
    · exact Option.some.inj (hcurrent.symm.trans hcurrent')
    · cases hne
  · rcases hnamed n hn with ⟨hne, -⟩ | ⟨-, hprevious'⟩
    · cases hne
    · exact Option.some.inj (hprevious.symm.trans hprevious')

/-- No two finished jobs have the same mark, blanks apart. -/
theorem Consistent.length_filter_marker_le (h : js.Consistent) {mark : Char} (hmark : mark ≠ ' ') :
    (js.finished.filter fun j => js.marker (j.id.getD 0) = mark).length ≤ 1 := by
  have hpairwise := h.pairwise_numbers fun j =>
    decide (js.marker (j.id.getD 0) = mark) && j.state == .done
  rw [← List.filter_filter] at hpairwise
  change ((js.finished.filter _).filterMap Job.id).Pairwise (· < ·) at hpairwise
  have hid : ∀ j ∈ js.finished.filter fun j => js.marker (j.id.getD 0) = mark,
      ∃ n, j.id = some n ∧ js.marker n = mark := by
    intro j hj
    obtain ⟨hfinished, hj⟩ := List.mem_filter.mp hj
    obtain ⟨n, hid, -⟩ := h.get?_of_mem (List.mem_of_mem_filter hfinished)
    rw [hid] at hj
    exact ⟨n, hid, of_decide_eq_true hj⟩
  match hlist : js.finished.filter fun j => js.marker (j.id.getD 0) = mark with
  | [] => simp [hlist]
  | [_] => simp [hlist]
  | j :: k :: rest =>
      rw [hlist] at hid hpairwise
      obtain ⟨m, hm, hmmark⟩ := hid j List.mem_cons_self
      obtain ⟨n, hn, hnmark⟩ := hid k (List.mem_cons_of_mem j List.mem_cons_self)
      rw [List.filterMap_cons_some hm, List.filterMap_cons_some hn] at hpairwise
      have hlt : m < n := (List.pairwise_cons.mp hpairwise).1 n List.mem_cons_self
      exact absurd (eq_of_marker_eq hmark hmmark hnmark) (Nat.ne_of_lt hlt)

/-- The finished jobs are taken out once and for all, and are given in the order of their numbers; the
other jobs keep their places, and the order in which they were last used. A job's mark is decided by the
jobs used after it that are still there at its turn, so it is the mark from before exactly if those that
are gone made no difference to it. Where none of them did, no two jobs are given as the current one, or as
the previous one. -/
theorem takeDone_marks (js : Jobs) (h : js.Consistent) :
    (js.takeDone.1.Consistent ∧ js.takeDone.1.foreground = js.foreground ∧
      (∀ i, js.takeDone.1.at? i = (js.at? i).filter (·.state != .done)) ∧
      js.takeDone.1.order = js.order.filter (fun n => !js.hasFinished n) ∧
      js.takeDone.1.takeDone.2 = []) ∧
    js.takeDone.2.map (·.1) = js.toList.filter (·.state == .done) ∧
    (∀ j mark, (j, mark) ∈ js.takeDone.2 → ∃ n, j.id = some n ∧ js.get? n = some j ∧
      mark = markBefore (js.usedAfterAtTurn n).length ∧ (mark = js.marker n ↔ js.KeepsMark n)) ∧
    ((∀ n, js.hasFinished n = true → js.KeepsMark n) →
      ∀ mark, mark ≠ ' ' → (js.takeDone.2.filter (·.2 = mark)).length ≤ 1) := by
  have hgiven := h.snd_takeDone
  refine ⟨⟨h.takeMarked _, foreground_takeDone js, h.at?_takeDone_eq, ?_, h.takeDone_takeDone⟩,
    ?_, ?_, ?_⟩
  · refine (h.order_takeMarked _).trans (List.filter_congr fun n _ => ?_)
    exact congrArg _ (h.contains_finished n)
  · rw [hgiven, List.map_map]
    exact List.map_id _
  · intro j mark hmem
    rw [hgiven] at hmem
    obtain ⟨k, hk, heq⟩ := List.mem_map.mp hmem
    obtain ⟨rfl, rfl⟩ := Prod.mk.inj heq
    obtain ⟨n, hid, hget⟩ := h.get?_of_mem (List.mem_of_mem_filter hk)
    have hn : n ∈ js.order := (h.mem_order_iff n).mpr (hget ▸ rfl)
    refine ⟨n, hid, hget, ?_, ?_⟩
    · rw [hid, Option.getD_some]
    · rw [hid, Option.getD_some, marker_eq h.distinct hn]
      exact markBefore_eq_iff _ _
  · intro hkeeps mark hmark
    have hmarks : js.takeDone.2 = js.finished.map fun j => (j, js.marker (j.id.getD 0)) := by
      rw [hgiven]
      refine List.map_congr_left fun j hj => ?_
      obtain ⟨hmem, hdone⟩ := List.mem_filter.mp hj
      obtain ⟨n, hid, hget⟩ := h.get?_of_mem hmem
      have hn : n ∈ js.order := (h.mem_order_iff n).mpr (hget ▸ rfl)
      have hfinished : js.hasFinished n = true := by
        rw [hasFinished, hget]
        exact hdone
      rw [hid, Option.getD_some, marker_eq h.distinct hn]
      exact congrArg (j, ·) ((markBefore_eq_iff _ _).mpr (hkeeps n hfinished))
    rw [hmarks, List.filter_map, List.length_map]
    exact h.length_filter_marker_le hmark

/-- Three jobs come, the first one is made the current one, and the other two end. -/
def othersEnd : List Operation :=
  [.insert (single 10 "a"), .insert (single 11 "b"), .insert (single 12 "c"), .makeCurrent 1,
    .record 12 (.exited 0), .record 11 (.exited 3)]

/-- The job that goes first was used before the other one, which is still the previous one. -/
theorem takeDone_marks_othersEnd :
    (performAll {} othersEnd).Consistent ∧ (performAll {} othersEnd).order = [2, 3, 1] ∧
    (performAll {} othersEnd).takeDone.1.order = [1] ∧
    (performAll {} othersEnd).takeDone.2.map (fun given => (given.1.id, given.2)) =
      [(some 2, ' '), (some 3, '-')] ∧
    (performAll {} othersEnd).KeepsMark 2 ∧ (performAll {} othersEnd).KeepsMark 3 ∧
    '-' = (performAll {} othersEnd).marker 3 ∧
    ((performAll {} othersEnd).takeDone.2.filter (·.2 = '-')).length ≤ 1 := by
  have hpermits : Permits {} othersEnd := by
    refine ⟨nofun, nofun, nofun, fun n hn => ?_, nofun, nofun, trivial⟩
    cases hn
    rfl
  have hjs := consistent_empty.performAll hpermits
  obtain ⟨⟨-, -, -, horder, -⟩, -, hmarks, hone⟩ := takeDone_marks _ hjs
  have hkeeps : (performAll {} othersEnd).KeepsMark 2 ∧ (performAll {} othersEnd).KeepsMark 3 := by
    decide
  obtain ⟨n, hn, -, -, hmark⟩ := hmarks (Job.record { single 12 "c" with id := some 3 } 12 (.exited 0))
    '-' (by decide)
  obtain rfl : 3 = n := Option.some.inj hn
  refine ⟨hjs, by decide, horder.trans (by decide), by decide, hkeeps.1, hkeeps.2,
    hmark.mpr hkeeps.2, hone (fun n hn => ?_) '-' (by decide)⟩
  match n with
  | 0 | 1 => cases hn
  | 2 => exact hkeeps.1
  | 3 => exact hkeeps.2
  | n + 4 => cases hn

/-- Two jobs come, the first one is made the current one, and both end. -/
def bothEnd : List Operation :=
  [.insert (single 10 "a"), .insert (single 11 "b"), .makeCurrent 1, .record 10 (.exited 0),
    .record 11 (.exited 0)]

/-- The first job is gone when the second one's turn comes, and both are told of as the current one. -/
theorem not_takeDone_marks :
    Permits {} bothEnd ∧ (performAll {} bothEnd).Consistent ∧
    [1, 2].map (performAll {} bothEnd).marker = ['+', '-'] ∧
    (performAll {} bothEnd).takeDone.2.map (fun given => (given.1.id, given.2)) =
      [(some 1, '+'), (some 2, '+')] := by
  have hpermits : Permits {} bothEnd := by
    refine ⟨nofun, nofun, fun n hn => ?_, nofun, nofun, trivial⟩
    cases hn
    rfl
  exact ⟨hpermits, consistent_empty.performAll hpermits, by decide, by decide⟩

end CommandShell.Jobs
