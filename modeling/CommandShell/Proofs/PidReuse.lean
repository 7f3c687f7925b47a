import CommandShell.Proofs.JobNumbers

/-!
# Numbers of processes that come again

A finished job stays in the table until somebody asks about it, and by then the system may have given
the number of one of its processes to a new process. What is recorded for a number goes to the first
process that has it (`processes_record`), first in the foreground and then in the order of the table,
whether that process is finished or not. So it goes to the unfinished process with the number exactly
if no finished one stands before it: `JobProcess.Answers`.

`reports_find_live` says so for one report. It also says what follows in a run of operations in which
this is so at every report: each report changes the process it is about and no other, and a job that
is done keeps its processes until it is taken out.
-/

namespace CommandShell

namespace JobProcess

/-- A process after a report about a number. The report concerns it if it has the number and is not
finished. -/
def hear (pid : ProcessId) (status : ProcessStatus) (p : JobProcess) : JobProcess :=
  if p.pid = pid ∧ p.status.isDone = false then { p with status } else p

/-- No more than one of the processes with a number is unfinished. -/
def Distinguished (ps : List JobProcess) : Prop :=
  ps.Pairwise fun p q => p.pid = q.pid → p.status.isDone = true ∨ q.status.isDone = true

/-- The first of the processes with a number, if any, is unfinished. -/
def Answers (pid : ProcessId) (ps : List JobProcess) : Prop :=
  ∀ p, ps.find? (·.pid == pid) = some p → p.status.isDone = false

instance (ps : List JobProcess) : Decidable (Distinguished ps) :=
  inferInstanceAs (Decidable (ps.Pairwise _))

instance (pid : ProcessId) (ps : List JobProcess) : Decidable (Answers pid ps) :=
  decidable_of_iff ((ps.find? (·.pid == pid)).all (!·.status.isDone) = true) <| by
    unfold Answers
    cases ps.find? (·.pid == pid) <;> simp

section

variable {pid : ProcessId} {status : ProcessStatus} {p : JobProcess} {ps qs : List JobProcess}

theorem hear_of_pid_ne (h : p.pid ≠ pid) : p.hear pid status = p := if_neg fun hp => h hp.1

theorem hear_of_done (h : p.status.isDone = true) : p.hear pid status = p := by
  refine if_neg fun hp => ?_
  rw [h] at hp
  cases hp.2

theorem answers_cons_iff :
    Answers pid (p :: ps) ↔ if p.pid = pid then p.status.isDone = false else Answers pid ps := by
  unfold Answers
  by_cases hp : p.pid = pid <;> simp [hp]

theorem answers_append_iff : Answers pid (ps ++ qs) ↔
    if ps.any (·.pid == pid) = true then Answers pid ps else Answers pid qs := by
  induction ps with
  | nil => rfl
  | cons p ps ih =>
      rw [List.cons_append, answers_cons_iff, ih, answers_cons_iff]
      by_cases hp : p.pid = pid <;> simp [hp]

/-- Finished processes do not answer, unless the number is none of theirs. -/
theorem not_answers_of_done (hdone : ∀ p ∈ ps, p.status.isDone = true)
    (hany : ps.any (·.pid == pid) = true) : ¬ Answers pid ps := by
  obtain ⟨p, hp⟩ := Option.isSome_iff_exists.mp (List.find?_isSome.mpr (List.any_eq_true.mp hany))
  intro h
  have hfalse := h p hp
  rw [hdone p (List.mem_of_find?_eq_some hp)] at hfalse
  cases hfalse

/-- A report goes to the unfinished process if the first one with the number is unfinished. -/
theorem recordIn_eq_map_hear (hone : Distinguished ps) (h : Answers pid ps) :
    Job.recordIn pid status ps = ps.map (hear pid status) := by
  induction ps with
  | nil => rfl
  | cons p ps ih =>
      obtain ⟨hp, hps⟩ := List.pairwise_cons.mp hone
      rw [answers_cons_iff] at h
      rw [Job.recordIn, List.map_cons]
      split at h
      · rename_i hpid
        -- The others with this number are finished, since this one is not.
        have hothers : ps.map (hear pid status) = ps := by
          refine (List.map_congr_left fun q hq => ?_).trans (List.map_id ps)
          by_cases hqpid : q.pid = pid
          · have hdone := hp q hq (hpid.trans hqpid.symm)
            rw [h] at hdone
            exact hear_of_done (hdone.resolve_left nofun)
          · exact hear_of_pid_ne hqpid
        rw [if_pos hpid, hear, if_pos ⟨hpid, h⟩, hothers]
      · rename_i hpid
        rw [if_neg hpid, ih hps h, hear_of_pid_ne hpid]

/-- Where the first process with the number is finished, no report changes as it should: some
status shows the difference. -/
theorem answers_of_recordIn_eq (h : ∀ status, Job.recordIn pid status ps = ps.map (hear pid status)) :
    Answers pid ps := by
  induction ps with
  | nil => nofun
  | cons p ps ih =>
      rw [answers_cons_iff]
      split
      · rename_i hpid
        by_contra hdone
        rw [Bool.not_eq_false] at hdone
        have hrunning := h .running
        rw [Job.recordIn, if_pos hpid, List.map_cons, hear_of_done hdone, List.cons.injEq] at hrunning
        rw [← hrunning.1] at hdone
        cases hdone
      · rename_i hpid
        refine ih fun status => ?_
        have hstatus := h status
        rw [Job.recordIn, if_neg hpid, List.map_cons, List.cons.injEq] at hstatus
        exact hstatus.2

theorem recordIn_append (pid : ProcessId) (status : ProcessStatus) (ps qs : List JobProcess) :
    Job.recordIn pid status (ps ++ qs) =
      if ps.any (·.pid == pid) = true then Job.recordIn pid status ps ++ qs
      else ps ++ Job.recordIn pid status qs := by
  induction ps with
  | nil => rfl
  | cons p ps ih =>
      by_cases hp : p.pid = pid
      · simp [Job.recordIn, hp]
      · rw [List.cons_append, Job.recordIn, if_neg hp, ih]
        simp only [Job.recordIn, if_neg hp, List.any_cons, beq_false_of_ne hp, Bool.false_or]
        split <;> rfl

end

end JobProcess

namespace Jobs

open JobProcess

/-- The processes of jobs at places. -/
def processesOf (slots : List (Option Job)) : List JobProcess :=
  (slots.filterMap id).flatMap Job.processes

/-- The processes of all jobs, those of the foreground first. -/
def processes (js : Jobs) : List JobProcess := processesOf (js.foreground :: js.slots)

variable {js : Jobs} {j : Job} {i n : Nat} {pid : ProcessId} {status : ProcessStatus}
  {op : Operation}

/-! ## One report -/

theorem processesOf_none (slots : List (Option Job)) :
    processesOf (none :: slots) = processesOf slots := rfl

theorem processesOf_some (j : Job) (slots : List (Option Job)) :
    processesOf (some j :: slots) = j.processes ++ processesOf slots := rfl

theorem processesOf_modifyFirst (pid : ProcessId) (status : ProcessStatus)
    (slots : List (Option Job)) :
    processesOf (modifyFirst (Job.hasPid pid) (·.record pid status) slots) =
      Job.recordIn pid status (processesOf slots) := by
  induction slots with
  | nil => rfl
  | cons slot slots ih =>
      cases slot with
      | none => exact ih
      | some j =>
          rw [processesOf_some, recordIn_append, modifyFirst]
          change _ = if j.hasPid pid = true then _ else _
          by_cases hj : j.hasPid pid = true
          · rw [if_pos hj, if_pos hj]
            rfl
          · rw [if_neg hj, if_neg hj, processesOf_some, ih]

/-- A report changes the first job that has the process, from the foreground on. -/
theorem places_record (js : Jobs) (pid : ProcessId) (status : ProcessStatus) :
    (js.record pid status).1.foreground :: (js.record pid status).1.slots =
      modifyFirst (Job.hasPid pid) (·.record pid status) (js.foreground :: js.slots) := by
  unfold record
  cases hforeground : js.foreground with
  | none => simp [record.recordInTable, modifyFirst, hforeground]
  | some fg =>
      by_cases hfg : fg.hasPid pid = true
      · simp [modifyFirst, hfg]
      · simp [record.recordInTable, modifyFirst, hforeground, hfg]

/-- A report changes the first process with the number, from the foreground on. -/
theorem processes_record (js : Jobs) (pid : ProcessId) (status : ProcessStatus) :
    (js.record pid status).1.processes = Job.recordIn pid status js.processes := by
  unfold processes
  rw [places_record, processesOf_modifyFirst]

/-! ## Jobs that are done -/

theorem getElem?_modifyFirst_of_eq {p : Job → Bool} {f : Job → Job} (hf : f j = j)
    {slots : List (Option Job)} (hi : slots[i]?.join = some j) :
    (modifyFirst p f slots)[i]?.join = some j := by
  induction slots generalizing i with
  | nil => exact hi
  | cons slot slots ih =>
      cases slot with
      | none =>
          cases i with
          | zero => exact hi
          | succ i => exact ih hi
      | some k =>
          unfold modifyFirst
          cases i with
          | zero =>
              obtain rfl : k = j := Option.some.inj hi
              split
              · exact congrArg some hf
              · rfl
          | succ i =>
              split
              · exact hi
              · exact ih hi

/-- A report that an unfinished process answers leaves the jobs that are done as they are. -/
theorem getElem?_modifyFirst_record {slots : List (Option Job)} (h : Answers pid (processesOf slots))
    (hj : j.state = .done) (hi : slots[i]?.join = some j) :
    (modifyFirst (Job.hasPid pid) (·.record pid status) slots)[i]?.join = some j := by
  induction slots generalizing i with
  | nil => exact hi
  | cons slot slots ih =>
      cases slot with
      | none =>
          cases i with
          | zero => exact hi
          | succ i => exact ih h hi
      | some k =>
          rw [processesOf_some, answers_append_iff] at h
          change if k.hasPid pid = true then _ else _ at h
          unfold modifyFirst
          cases i with
          | zero =>
              obtain rfl : k = j := Option.some.inj hi
              split
              · rename_i hpid
                rw [if_pos hpid] at h
                exact absurd h (not_answers_of_done (Job.state_eq_done_iff.mp hj) hpid)
              · rfl
          | succ i =>
              split
              · exact hi
              · rename_i hpid
                rw [if_neg hpid] at h
                exact ih h hi

theorem markContinued_of_done (hj : j.state = .done) : j.markContinued = j := by
  unfold Job.markContinued
  have hprocesses : j.processes.map (fun p =>
      if p.status.isStopped then { p with status := .continued } else p) = j.processes := by
    refine (List.map_congr_left fun p hp => if_neg ?_).trans (List.map_id _)
    have hdone := Job.state_eq_done_iff.mp hj p hp
    cases hstatus : p.status <;> simp_all [ProcessStatus.isStopped, ProcessStatus.isDone]
  rw [hprocesses]

/-! ## Runs of operations -/

/-- An unfinished process, if any, is the first one with the number that a report is about. -/
def Operation.Heard (js : Jobs) : Operation → Prop
  | .record pid _ => Answers pid js.processes
  | _ => True

/-- All along a run of operations, no more than one of the processes with a number is unfinished, and
every report finds that one. -/
def Unmistaken (js : Jobs) : List Operation → Prop
  | [] => Distinguished js.processes
  | op :: ops => Distinguished js.processes ∧ op.Heard js ∧ (js.perform op).Unmistaken ops

instance (js : Jobs) : (op : Operation) → Decidable (op.Heard js)
  | .record pid _ => inferInstanceAs (Decidable (Answers pid js.processes))
  | .insert _ | .remove _ | .goOn _ | .setForeground _ | .takeForeground | .takeDone
  | .takeChanged | .clear | .makeCurrent _ => isTrue trivial

instance decidableUnmistaken (js : Jobs) : (ops : List Operation) → Decidable (js.Unmistaken ops)
  | [] => inferInstanceAs (Decidable (Distinguished js.processes))
  | op :: ops =>
      have := decidableUnmistaken (js.perform op) ops
      inferInstanceAs (Decidable (_ ∧ op.Heard js ∧ (js.perform op).Unmistaken ops))

/-- The operation does not take out the job at a place of the table. -/
def Operation.spares (i : Nat) : Operation → Bool
  | .remove n => n != i + 1
  | .takeDone | .clear => false
  | _ => true

/-- The operation does not take the job out of the foreground. -/
def Operation.sparesForeground : Operation → Bool
  | .setForeground _ | .takeForeground | .clear => false
  | _ => true

theorem at?_perform_of_done (hop : op.Heard js) (hspares : op.spares i = true)
    (hj : j.state = .done) (hi : js.at? i = some j) :
    ∃ j', (js.perform op).at? i = some j' ∧ j'.processes = j.processes := by
  cases op with
  | insert new =>
      refine ⟨j, ?_, rfl⟩
      show (js.insert new).1.at? i = some j
      rw [at?_insert, if_neg, hi]
      rintro rfl
      rw [at?_freeSlot] at hi
      cases hi
  | remove n =>
      refine ⟨j, ?_, rfl⟩
      cases n with
      | zero => exact hi
      | succ k =>
          have hne : i ≠ k := by
            rintro rfl
            simp [Operation.spares] at hspares
          show (js.remove (k + 1)).1.at? i = some j
          rw [at?_remove, if_neg hne, hi]
  | record pid status =>
      refine ⟨j, ?_, rfl⟩
      show ((js.record pid status).1.foreground :: (js.record pid status).1.slots)[i + 1]?.join =
        some j
      rw [places_record]
      exact getElem?_modifyFirst_record hop hj hi
  | goOn n => exact ⟨j, getElem?_modifyFirst_of_eq (markContinued_of_done hj) hi, rfl⟩
  | takeChanged =>
      refine ⟨{ j with changed := false }, ?_, rfl⟩
      show (js.slots.map _)[i]?.join = _
      unfold at? at hi
      rw [List.getElem?_map, Option.join_eq_some_iff.mp hi]
      rfl
  | setForeground new => exact ⟨j, hi, rfl⟩
  | takeForeground => exact ⟨j, hi, rfl⟩
  | makeCurrent n => exact ⟨j, hi, rfl⟩
  | takeDone => cases hspares
  | clear => cases hspares

theorem foreground_takeMarked (js : Jobs) (ns : List Nat) :
    (js.takeMarked ns).1.foreground = js.foreground := by
  induction ns generalizing js with
  | nil => rfl
  | cons n ns ih => exact (ih _).trans (foreground_remove js n)

theorem foreground_perform_of_done (hop : op.Heard js) (hspares : op.sparesForeground = true)
    (hj : j.state = .done) (hforeground : js.foreground = some j) :
    (js.perform op).foreground = some j := by
  cases op with
  | record pid status =>
      have hplace : (js.foreground :: js.slots)[0]?.join = some j := hforeground
      show ((js.record pid status).1.foreground :: (js.record pid status).1.slots)[0]?.join = some j
      rw [places_record]
      exact getElem?_modifyFirst_record hop hj hplace
  | remove n => exact (foreground_remove js n).trans hforeground
  | insert new => exact hforeground
  | goOn n => exact hforeground
  | takeDone => exact (foreground_takeMarked js _).trans hforeground
  | takeChanged => exact hforeground
  | makeCurrent n => exact hforeground
  | setForeground new => cases hspares
  | takeForeground => cases hspares
  | clear => cases hspares

section

variable {ops : List Operation}

theorem performAll_append (js : Jobs) (before after : List Operation) :
    js.performAll (before ++ after) = (js.performAll before).performAll after :=
  List.foldl_append

theorem Unmistaken.distinguished (h : js.Unmistaken ops) : Distinguished js.processes := by
  cases ops with
  | nil => exact h
  | cons op ops => exact h.1

theorem Unmistaken.rest {before after : List Operation} (h : js.Unmistaken (before ++ after)) :
    (js.performAll before).Unmistaken after := by
  induction before generalizing js with
  | nil => exact h
  | cons op before ih => exact ih h.2.2

theorem Unmistaken.at?_of_done (h : js.Unmistaken ops) (hspares : ∀ op ∈ ops, op.spares i = true)
    (hj : j.state = .done) (hi : js.at? i = some j) :
    ∃ j', (js.performAll ops).at? i = some j' ∧ j'.processes = j.processes := by
  induction ops generalizing js j with
  | nil => exact ⟨j, hi, rfl⟩
  | cons op ops ih =>
      obtain ⟨-, hop, hops⟩ := h
      obtain ⟨hspares, hrest⟩ := List.forall_mem_cons.mp hspares
      obtain ⟨k, hk, hprocesses⟩ := at?_perform_of_done hop hspares hj hi
      have hdone : k.state = .done := by
        rw [Job.state_eq_done_iff, hprocesses]
        exact Job.state_eq_done_iff.mp hj
      obtain ⟨j', hj', hprocesses'⟩ := ih hops hrest hdone hk
      exact ⟨j', hj', hprocesses'.trans hprocesses⟩

theorem Unmistaken.foreground_of_done (h : js.Unmistaken ops)
    (hspares : ∀ op ∈ ops, op.sparesForeground = true) (hj : j.state = .done)
    (hforeground : js.foreground = some j) : (js.performAll ops).foreground = some j := by
  induction ops generalizing js with
  | nil => exact hforeground
  | cons op ops ih =>
      obtain ⟨-, hop, hops⟩ := h
      obtain ⟨hspares, hrest⟩ := List.forall_mem_cons.mp hspares
      exact ih hops hrest (foreground_perform_of_done hop hspares hj hforeground)

end

/-- Where no number is that of two unfinished processes, what is recorded for a number always changes
the unfinished process that has it and no other exactly if no finished process with the number stands
before it. In a run of operations in which this is so at every report, every report does that, and a
job that is done, in the table or in the foreground, keeps its processes and stays done until it is
taken out. -/
theorem reports_find_live (js : Jobs) (ops : List Operation) (hone : Distinguished js.processes)
    (h : Unmistaken {} ops) :
    (∀ pid, (∀ status, (js.record pid status).1.processes = js.processes.map (hear pid status)) ↔
      Answers pid js.processes) ∧
    (∀ before pid status after, ops = before ++ .record pid status :: after →
      (performAll {} (before ++ [.record pid status])).processes =
        (performAll {} before).processes.map (hear pid status)) ∧
    ∀ before after, ops = before ++ after →
      (∀ i j, (performAll {} before).at? i = some j → j.state = .done →
        (∀ op ∈ after, op.spares i = true) →
        ∃ j', (performAll {} ops).at? i = some j' ∧ j'.processes = j.processes ∧
          j'.state = .done) ∧
      ∀ j, (performAll {} before).foreground = some j → j.state = .done →
        (∀ op ∈ after, op.sparesForeground = true) →
        (performAll {} ops).foreground = some j := by
  refine ⟨fun pid => ?_, ?_, ?_⟩
  · simp only [processes_record]
    exact ⟨answers_of_recordIn_eq, fun h status => recordIn_eq_map_hear hone h⟩
  · rintro before pid status after rfl
    have hreport := h.rest
    rw [performAll_append]
    exact (processes_record _ pid status).trans
      (recordIn_eq_map_hear hreport.distinguished hreport.2.1)
  · rintro before after rfl
    rw [performAll_append]
    refine ⟨fun i j hi hj hspares => ?_, fun j hj hdone hspares => ?_⟩
    · obtain ⟨j', hj', hprocesses⟩ := h.rest.at?_of_done hspares hj hi
      refine ⟨j', hj', hprocesses, ?_⟩
      rw [Job.state_eq_done_iff, hprocesses]
      exact Job.state_eq_done_iff.mp hj
    · exact h.rest.foreground_of_done hspares hdone hj

/-- A job ends, another one ends and is taken out, and its number comes again. -/
def comeAgain : List Operation :=
  [.insert (single 7 "a"), .record 7 (.exited 3), .insert (single 100 "b"), .record 100 (.exited 0),
    .remove 2, .insert (single 100 "c"), .record 100 (.stopped .tstp)]

/-- The report about the number that came again goes to the new process, and the first job is done
as before. -/
theorem reports_find_live_comeAgain :
    Unmistaken {} comeAgain ∧ Distinguished (performAll {} comeAgain).processes ∧
    Answers 100 (performAll {} comeAgain).processes ∧
    (performAll {} comeAgain).processes =
      [⟨7, "a", .exited 3⟩, ⟨100, "c", .stopped .tstp⟩] ∧
    ∃ j, (performAll {} comeAgain).at? 0 = some j ∧ j.state = .done := by
  have h : Unmistaken {} comeAgain := by decide
  have hone : Distinguished (performAll {} comeAgain).processes := by decide
  obtain ⟨hanswers, hreports, hdone⟩ := reports_find_live (performAll {} comeAgain) comeAgain hone h
  refine ⟨h, hone, (hanswers 100).mp fun status => ?_, ?_, ?_⟩
  · rfl
  · exact hreports (comeAgain.take 6) 100 (.stopped .tstp) [] rfl
  · obtain ⟨hat, -⟩ := hdone (comeAgain.take 2) (comeAgain.drop 2) rfl
    obtain ⟨j, hj, -, hstate⟩ := hat 0 _ rfl (by decide) (by decide)
    exact ⟨j, hj, hstate⟩

/-- A job ends and stays in the table, and its number comes again. -/
def comeTooSoon : List Operation :=
  [.insert (single 100 "a"), .record 100 (.exited 0), .insert (single 100 "b")]

/-- No number is that of two unfinished processes, and yet the report about the new process goes to
the finished one, whose job is not done any more. -/
theorem reports_miss_live_comeTooSoon :
    (∀ n, Distinguished (performAll {} (comeTooSoon.take n)).processes) ∧
    ((performAll {} comeTooSoon).at? 0).map Job.state = some .done ∧
    (performAll {} comeTooSoon).processes = [⟨100, "a", .exited 0⟩, ⟨100, "b", .running⟩] ∧
    (performAll {} (comeTooSoon ++ [.record 100 (.stopped .tstp)])).processes =
      [⟨100, "a", .stopped .tstp⟩, ⟨100, "b", .running⟩] ∧
    ((performAll {} (comeTooSoon ++ [.record 100 (.stopped .tstp)])).at? 0).map Job.state =
      some .stopped := by
  refine ⟨fun n => ?_, by decide, by decide, by decide, by decide⟩
  match n with
  | 0 | 1 | 2 => decide
  | n + 3 =>
      rw [List.take_of_length_le (by simp [comeTooSoon])]
      decide

end Jobs

end CommandShell
