import CommandShell.Proofs.Lockstep
import CommandShell.Proofs.PidReuse

/-!
# Telling about stopped jobs

An interactive shell tells about a job that stops in two places. The wait for a job in the foreground
tells about it as it puts the job into the table (`tellStopped`), and the look after jobs between two
commands tells about every stopped job that changed since the last look (`notifyJobs`). Both go by one
mark, `Job.changed`, and only the second one takes it away.

`Happening` is one of these moments or an operation on the table. A stopped job of the table that
nothing happens to keeps its place, and the next look tells about it if it is marked and takes the
mark away (`at?_after`, `count_told`). So `stops_told` counts: a job that stopped in the background is
told of once, and one that stopped in the foreground twice, at once and at the next look.
-/

namespace CommandShell.Jobs

/-- What happens to the jobs of an interactive shell: an operation that tells nothing, the end of the
wait for the job in the foreground, or the look after jobs between two commands. -/
inductive Happening where
  | operation (op : Operation)
  | waited
  | look
  deriving DecidableEq

/-- The job in the foreground, if it is stopped. -/
def stoppedForeground? (js : Jobs) : Option Job := js.foreground.filter (·.state == .stopped)

namespace Happening

/-- The jobs afterwards. -/
def after (js : Jobs) : Happening → Jobs
  | operation op => js.perform op
  | waited =>
    match js.stoppedForeground? with
    | some j => (js.perform .takeForeground).perform (.insert j)
    | none => js.perform .takeForeground
  | look => (js.perform .takeChanged).perform .takeDone

/-- The numbers of the jobs that are told to have stopped. -/
def told (js : Jobs) : Happening → List Nat
  | operation _ => []
  | waited =>
    match js.stoppedForeground? with
    | some j => [((js.perform .takeForeground).insert j).2]
    | none => []
  | look => js.takeChanged.2.filter fun n => (js.takeChanged.1.get? n).any (·.state == .stopped)

/-- Nothing happens to a job with the given processes at a place of the table: it is not taken out, it
does not go on, and nothing is reported about its processes. Changes are asked for by looks only. -/
def Leaves (i : Nat) (pids : List ProcessId) : Happening → Prop
  | operation (.record pid _) => pid ∉ pids
  | operation (.remove n) | operation (.goOn n) => n ≠ i + 1
  | operation .clear | operation .takeChanged => False
  | _ => True

/-- Only a job of the table is made the current one. -/
def Permitted (js : Jobs) (h : Happening) : Prop :=
  ∀ n, h = operation (.makeCurrent n) → (js.get? n).isSome = true

end Happening

/-- The jobs after happenings in turn. -/
def afterAll (js : Jobs) (hs : List Happening) : Jobs := hs.foldl Happening.after js

/-- The numbers of the jobs that are told to have stopped, in turn. -/
def toldIn (js : Jobs) : List Happening → List Nat
  | [] => []
  | h :: hs => h.told js ++ (h.after js).toldIn hs

/-- Every happening is permitted when it comes. -/
def PermitsAll (js : Jobs) : List Happening → Prop
  | [] => True
  | h :: hs => h.Permitted js ∧ (h.after js).PermitsAll hs

/-! ## What the shell does -/

/-- The line that tells about a stopped job. -/
def stopLine (js : Jobs) (n : Nat) : Text :=
  match js.get? n with
  | some j => j.line (js.marker n) ++ "\n"
  | none => []

theorem stoppedLines_eq (js : Jobs) (ns : List Nat) : Shell.stoppedLines js ns =
    (ns.filter fun n => (js.get? n).any (·.state == .stopped)).flatMap (stopLine js) := by
  induction ns with
  | nil => rfl
  | cons n ns ih =>
      unfold Shell.stoppedLines at ih ⊢
      rw [List.flatMap_cons, ih, List.filter_cons]
      cases hn : js.get? n with
      | none => rfl
      | some j =>
          by_cases hj : j.state = .stopped
          · simp [hj, stopLine, hn]
          · simp [hj]

/-- The look after jobs tells about the stopped ones and then about those that have ended. -/
theorem notifyJobs_eq : Shell.notifyJobs = (do
    let js := (← get).jobs
    Shell.modifyJobs fun _ => Happening.look.after js
    Shell.writeErr ((Happening.look.told js).flatMap (stopLine js.takeChanged.1) ++
      js.takeChanged.1.takeDone.2.flatMap fun (j, marker) => (j.line marker ++ "\n" : Text))) := by
  unfold Shell.notifyJobs
  simp only [stoppedLines_eq]
  rfl

variable {js : Jobs} {j j' : Job} {i : Nat} {pid : ProcessId} {status : ProcessStatus}
  {h : Happening} {hs : List Happening}

section

variable (hforeground : js.foreground = some j) (hj : j.state = .stopped)

include hforeground hj

theorem stoppedForeground?_eq : js.stoppedForeground? = some j := by
  unfold stoppedForeground?
  rw [hforeground]
  exact Option.filter_some_pos (beq_iff_eq.mpr hj)

theorem after_waited :
    Happening.waited.after js = (js.perform .takeForeground).perform (.insert j) := by
  simp only [Happening.after, stoppedForeground?_eq hforeground hj]

theorem told_waited : Happening.waited.told js = [freeSlot js.slots + 1] := by
  simp only [Happening.told, stoppedForeground?_eq hforeground hj]
  rfl

/-- A stopped job that was in the foreground is told of as it comes into the table. -/
theorem tellStopped_eq (hjs : js.Consistent) (s : Shell) (hs : s.jobs = js) :
    (do
      Shell.modifyJobs (·.perform .takeForeground)
      Shell.tellStopped j : ShellM Unit).run.run s = (do
      Shell.modifyJobs Happening.waited.after
      (Happening.waited.told js).forM fun n => do
        Shell.quietly (Shell.writeErr ("\n" ++ stopLine (← get).jobs n))
      Shell.setStatus (128 + ((j.stopSignal?.getD .tstp).number : Int)) : ShellM Unit).run.run s := by
  subst hs
  have htaken : (s.jobs.perform .takeForeground).Consistent := hjs.perform fun _ h => nomatch h
  have hnew : ((s.jobs.perform .takeForeground).insert j).1.get? (freeSlot s.jobs.slots + 1) =
      some { j with id := some (freeSlot s.jobs.slots + 1) } := by
    rw [get?_eq_at? (htaken.insert j).numbered, at?_insert]
    exact if_pos rfl
  let t : Shell := { s with jobs := ((s.jobs.perform .takeForeground).insert j).1 }
  have hline : stopLine t.jobs (freeSlot s.jobs.slots + 1) =
      Job.line { j with id := some (freeSlot s.jobs.slots + 1) }
        (t.jobs.marker (freeSlot s.jobs.slots + 1)) ++ "\n" := by
    unfold stopLine
    rw [hnew]
  have htells : (Shell.tellStopped j).run.run { s with jobs := s.jobs.perform .takeForeground } =
      (do
        Shell.quietly (Shell.writeErr ("\n" ++ stopLine t.jobs (freeSlot s.jobs.slots + 1)))
        Shell.setStatus (128 + ((j.stopSignal?.getD .tstp).number : Int)) : ShellM Unit).run.run t := by
    rw [hline]
    unfold Shell.tellStopped
    show ((match t.jobs.get? (freeSlot s.jobs.slots + 1) with
      | some j => do
        Shell.quietly (Shell.writeErr
          ("\n" ++ j.line (t.jobs.marker (freeSlot s.jobs.slots + 1)) ++ "\n"))
        Shell.setStatus _
      | none => do
        pure ()
        Shell.setStatus _ : ShellM Unit)).run.run t = _
    rw [hnew]
    rfl
  rw [told_waited hforeground hj]
  refine htells.trans ?_
  have hstate : { s with jobs := Happening.waited.after s.jobs } = t := by
    rw [after_waited hforeground hj]
    rfl
  show _ = ((Shell.quietly (Shell.writeErr ("\n" ++
      stopLine { s with jobs := Happening.waited.after s.jobs }.jobs (freeSlot s.jobs.slots + 1))) >>=
    fun _ => pure ()) >>= fun _ => Shell.setStatus _ : ShellM Unit).run.run
      { s with jobs := Happening.waited.after s.jobs }
  rw [hstate, bind_assoc]
  rfl

end

/-! ## Places and numbers -/

theorem numbers_filter {slots : List (Option Job)} (p : Job → Bool)
    (hnumbered : ∀ (i : Nat) (j : Job), slots[i]?.join = some j → j.id = some (i + 1)) :
    ((slots.filterMap id).filter p).filterMap Job.id =
      ((List.range slots.length).filter fun i => slots[i]?.join.any p).map (· + 1) := by
  induction slots using List.reverseRecOn with
  | nil => rfl
  | append_singleton slots slot ih =>
      have hbefore : ∀ i < slots.length, (slots ++ [slot])[i]? = slots[i]? := fun i hi =>
        List.getElem?_append_left hi
      have hih := ih fun i j hi => by
        have hlt : i < slots.length := by
          by_contra hge
          rw [List.getElem?_eq_none (Nat.le_of_not_lt hge)] at hi
          cases hi
        exact hnumbered i j (by rwa [hbefore i hlt])
      have hfilter : (List.range slots.length).filter (fun i => (slots ++ [slot])[i]?.join.any p) =
          (List.range slots.length).filter fun i => slots[i]?.join.any p := by
        refine List.filter_congr fun i hi => ?_
        rw [hbefore i (List.mem_range.mp hi)]
      rw [List.filterMap_append, List.filter_append, List.filterMap_append, hih, List.length_append,
        List.length_singleton, List.range_succ, List.filter_append, hfilter, List.map_append]
      congr 1
      cases slot with
      | none => simp
      | some j =>
          have hid := hnumbered slots.length j (by simp)
          by_cases hp : p j = true
          · simp [hp, hid]
          · simp [hp]

/-- How often a number is among those of the jobs that satisfy `p`. -/
theorem Consistent.count_numbers (hjs : js.Consistent) (p : Job → Bool) (hi : js.at? i = some j) :
    ((js.toList.filter p).filterMap Job.id).count (i + 1) = if p j = true then 1 else 0 := by
  have hlt : i < js.slots.length := by
    by_contra hge
    unfold at? at hi
    rw [List.getElem?_eq_none (Nat.le_of_not_lt hge)] at hi
    cases hi
  have hany : js.slots[i]?.join.any p = p j := by
    change js.slots[i]?.join = some j at hi
    rw [hi]
    rfl
  unfold toList
  rw [numbers_filter p hjs.numbered]
  split
  · rename_i hp
    refine List.count_eq_one_of_mem ?_ ?_
    · exact (List.nodup_range.filter _).map Nat.succ_injective
    · exact List.mem_map_of_mem (List.mem_filter.mpr ⟨List.mem_range.mpr hlt, hany.trans hp⟩)
  · rename_i hp
    refine List.count_eq_zero.mpr fun hmem => hp ?_
    obtain ⟨i', hi', heq⟩ := List.mem_map.mp hmem
    obtain rfl : i' = i := Nat.succ.inj heq
    exact hany.symm.trans (List.mem_filter.mp hi').2

theorem takeMarked_eq_removeJobs (js : Jobs) (ns : List Nat) :
    (js.takeMarked ns).1 = Shell.removeJobs js ns := by
  induction ns generalizing js with
  | nil => rfl
  | cons n ns ih => exact ih _

/-- A change of the first job that satisfies `p` leaves the others alone. -/
theorem getElem?_modifyFirst_of_not {p : Job → Bool} {f : Job → Job} {slots : List (Option Job)}
    (hj : p j = false) (hi : slots[i]?.join = some j) :
    (modifyFirst p f slots)[i]?.join = some j := by
  induction slots generalizing i with
  | nil => exact hi
  | cons slot slots ih =>
      cases slot with
      | none =>
          cases i with
          | zero => exact hi
          | succ i => exact ih hi
      | some first =>
          unfold modifyFirst
          cases i with
          | zero =>
              obtain rfl : first = j := Option.some.inj hi
              rw [hj]
              rfl
          | succ i =>
              split
              · exact hi
              · exact ih hi

/-- What is at a place afterwards was there before, or is what became of it. -/
theorem getElem?_modifyFirst_cases {p : Job → Bool} {f : Job → Job} {slots : List (Option Job)}
    (hi : slots[i]?.join = some j) :
    (modifyFirst p f slots)[i]?.join = some j ∨ (modifyFirst p f slots)[i]?.join = some (f j) := by
  induction slots generalizing i with
  | nil => exact .inl hi
  | cons slot slots ih =>
      cases slot with
      | none =>
          cases i with
          | zero => exact .inl hi
          | succ i => exact ih hi
      | some first =>
          unfold modifyFirst
          cases i with
          | zero =>
              obtain rfl : first = j := Option.some.inj hi
              split
              · exact .inr rfl
              · exact .inl rfl
          | succ i =>
              split
              · exact .inl hi
              · exact ih hi

/-- A report that changes the state of a job marks it, in the foreground and in the table. -/
theorem changed_of_record {k : Nat}
    (hi : (js.foreground :: js.slots)[k]?.join = some j)
    (hi' : ((js.record pid status).1.foreground :: (js.record pid status).1.slots)[k]?.join = some j')
    (hstate : j'.state ≠ j.state) : j'.changed = true := by
  rw [places_record] at hi'
  rcases getElem?_modifyFirst_cases hi with hsame | hrecorded
  · rw [hi'] at hsame
    cases hsame
    exact absurd rfl hstate
  · rw [hi'] at hrecorded
    cases hrecorded
    rfl

/-! ## One happening -/

theorem Consistent.after (hjs : js.Consistent) (hh : h.Permitted js) : (h.after js).Consistent := by
  have hrest : (js.perform .takeForeground).Consistent := hjs.perform nofun
  cases h with
  | operation op => exact hjs.perform fun n hn => hh n (congrArg _ hn)
  | waited =>
      unfold Happening.after
      dsimp only
      cases js.stoppedForeground? with
      | some j => exact hrest.insert j
      | none => exact hrest
  | look => exact hjs.takeChanged.takeMarked _

theorem at?_takeChanged (hi : js.at? i = some j) :
    js.takeChanged.1.at? i = some { j with changed := false } := by
  show (js.slots.map _)[i]?.join = _
  unfold at? at hi
  rw [List.getElem?_map, Option.join_eq_some_iff.mp hi]
  rfl

theorem Consistent.at?_takeDone (hjs : js.Consistent) (hi : js.at? i = some j)
    (hj : j.state = .stopped) : js.takeDone.1.at? i = some j := by
  unfold takeDone
  rw [takeMarked_eq_removeJobs, at?_removeJobs, if_neg, hi]
  intro hmem
  have hcount := hjs.count_numbers (fun j => j.state == .done) hi
  rw [hj, if_neg (by decide)] at hcount
  exact List.count_eq_zero.mp hcount hmem

theorem at?_insert_of_some (new : Job) (hi : js.at? i = some j) :
    (js.insert new).1.at? i = some j := by
  rw [at?_insert, if_neg, hi]
  rintro rfl
  rw [at?_freeSlot] at hi
  cases hi

/-- A stopped job that nothing happens to keeps its place. A look takes its mark away. -/
theorem at?_after (hjs : js.Consistent) (hi : js.at? i = some j) (hj : j.state = .stopped)
    (hh : h.Leaves i j.pids) : (h.after js).at? i =
      some (if h = .look then { j with changed := false } else j) := by
  cases h with
  | look =>
      rw [if_pos rfl]
      exact hjs.takeChanged.at?_takeDone (at?_takeChanged hi) hj
  | waited =>
      rw [if_neg nofun]
      unfold Happening.after
      dsimp only
      cases js.stoppedForeground? with
      | some new => exact at?_insert_of_some new hi
      | none => exact hi
  | operation op =>
      rw [if_neg nofun]
      show (js.perform op).at? i = some j
      cases op with
      | insert new => exact at?_insert_of_some new hi
      | remove n =>
          cases n with
          | zero => exact hi
          | succ k =>
              show (js.remove (k + 1)).1.at? i = some j
              rw [at?_remove, if_neg, hi]
              rintro rfl
              exact hh rfl
      | record pid status =>
          show ((js.record pid status).1.foreground :: (js.record pid status).1.slots)[i + 1]?.join =
            some j
          rw [places_record]
          refine getElem?_modifyFirst_of_not ?_ hi
          rw [Bool.eq_false_iff, ne_eq, Job.hasPid_iff]
          exact hh
      | goOn n =>
          refine getElem?_modifyFirst_of_not ?_ hi
          rw [hjs.numbered i j hi]
          exact beq_false_of_ne fun heq => hh (Option.some.inj heq).symm
      | takeDone => exact hjs.at?_takeDone hi hj
      | takeChanged => exact hh.elim
      | clear => exact hh.elim
      | setForeground new => exact hi
      | takeForeground => exact hi
      | makeCurrent n => exact hi

/-- A look tells about a stopped job that is marked, and nothing else does. -/
theorem count_told (hjs : js.Consistent) (hi : js.at? i = some j) (hj : j.state = .stopped) :
    (h.told js).count (i + 1) = if h = .look ∧ j.changed = true then 1 else 0 := by
  cases h with
  | operation op => rfl
  | waited =>
      rw [if_neg fun hh => nomatch hh.1]
      unfold Happening.told
      dsimp only
      cases js.stoppedForeground? with
      | none => rfl
      | some new =>
          refine List.count_eq_zero.mpr fun hmem => ?_
          have hslot : i = freeSlot js.slots := Nat.succ.inj (List.mem_singleton.mp hmem)
          rw [hslot, at?_freeSlot] at hi
          cases hi
  | look =>
      have hget : (js.takeChanged.1.get? (i + 1)).any (·.state == .stopped) = true := by
        rw [get?_eq_at? hjs.takeChanged.numbered, at?_takeChanged hi]
        exact beq_iff_eq.mpr hj
      show (js.takeChanged.2.filter fun n => _).count (i + 1) = _
      refine (List.count_filter ?_).trans ((hjs.count_numbers Job.changed hi).trans ?_)
      · exact hget
      · simp

/-! ## Runs -/

/-- A stopped job that nothing happens to is told of once, at the first look, if it is marked. -/
theorem count_toldIn (hjs : js.Consistent) (hpermits : js.PermitsAll hs) (hi : js.at? i = some j)
    (hj : j.state = .stopped) (hhs : ∀ h ∈ hs, h.Leaves i j.pids) :
    (js.toldIn hs).count (i + 1) = if .look ∈ hs ∧ j.changed = true then 1 else 0 := by
  induction hs generalizing js j with
  | nil => rfl
  | cons h hs ih =>
      obtain ⟨hpermitted, hpermits⟩ := hpermits
      obtain ⟨hleaves, hhs⟩ := List.forall_mem_cons.mp hhs
      have hafter := at?_after hjs hi hj hleaves
      unfold toldIn
      rw [List.count_append, count_told hjs hi hj]
      by_cases hlook : h = .look
      · rw [if_pos hlook] at hafter
        rw [ih (hjs.after hpermitted) hpermits hafter hj hhs]
        simp [hlook]
      · rw [if_neg hlook] at hafter
        rw [ih (hjs.after hpermitted) hpermits hafter hj hhs]
        simp [hlook, Ne.symm hlook]

theorem PermitsAll.consistent {before after : List Happening} (hjs : js.Consistent)
    (h : js.PermitsAll (before ++ after)) :
    (js.afterAll before).Consistent ∧ (js.afterAll before).PermitsAll after := by
  induction before generalizing js with
  | nil => exact ⟨hjs, h⟩
  | cons first before ih => exact ih (hjs.after h.1) h.2

section

variable (hjs : js.Consistent) (hpermits : js.PermitsAll (.operation (.record pid status) :: hs))

include hjs hpermits

/-- A job of the table that a report stops is told of at the first look. -/
theorem count_toldIn_background (hi : js.at? i = some j) (hj : j.state ≠ .stopped)
    (hi' : (js.record pid status).1.at? i = some j') (hj' : j'.state = .stopped)
    (hhs : ∀ h ∈ hs, h.Leaves i j'.pids) :
    (js.toldIn (.operation (.record pid status) :: hs)).count (i + 1) =
      if .look ∈ hs then 1 else 0 := by
  have hmark : j'.changed = true := changed_of_record (k := i + 1) hi hi' (hj' ▸ hj.symm)
  have hcount := count_toldIn (hjs.after hpermits.1) hpermits.2 hi' hj' hhs
  simpa [hmark, toldIn, Happening.told] using hcount

/-- A job in the foreground that a report stops is told of when the wait is over, and once more at the
first look. -/
theorem count_toldIn_foreground {rest : List Happening} (hhs : hs = .waited :: rest)
    (hforeground : js.foreground = some j) (hj : j.state ≠ .stopped)
    (hforeground' : (js.record pid status).1.foreground = some j') (hj' : j'.state = .stopped)
    (hrest : ∀ h ∈ rest, h.Leaves (freeSlot js.slots) j'.pids) :
    (js.toldIn (.operation (.record pid status) :: hs)).count (freeSlot js.slots + 1) =
      if .look ∈ rest then 2 else 1 := by
  subst hhs
  obtain ⟨hrecord, hwaited, hpermits⟩ := hpermits
  have hmark : j'.changed = true := changed_of_record (k := 0) hforeground hforeground' (hj' ▸ hj.symm)
  have hslots : (js.record pid status).1.slots = js.slots := by
    unfold record at hforeground' ⊢
    rw [hforeground] at hforeground' ⊢
    by_cases hpid : j.hasPid pid = true
    · simp [hpid]
    · simp only [hpid] at hforeground'
      -- Otherwise the job in the foreground would be as it was.
      obtain rfl : j = j' := Option.some.inj (hforeground.symm.trans hforeground')
      exact absurd hj' hj
  have hplace : (Happening.waited.after (js.record pid status).1).at? (freeSlot js.slots) =
      some { j' with id := some (freeSlot js.slots + 1) } := by
    rw [after_waited hforeground' hj', ← hslots]
    exact (at?_insert _ _ _).trans (if_pos rfl)
  have hcount := count_toldIn ((hjs.after hrecord).after hwaited) hpermits hplace hj' hrest
  have htold : Happening.waited.told (js.record pid status).1 = [freeSlot js.slots + 1] := by
    rw [told_waited hforeground' hj', hslots]
  show (Happening.waited.told (js.record pid status).1 ++ _).count _ = _
  rw [htold, List.count_append, List.count_singleton_self]
  refine (congrArg (1 + ·) hcount).trans ?_
  simp only [hmark, and_true]
  split <;> rfl

end

/-- How often a stop is told of in a run from the empty table. A report stops a job, and then nothing
happens to the job. If it was in the table, it is told of once, at the first look. If it was in the
foreground, it is told of when the wait is over, and once more at the first look. -/
theorem stops_told (before after : List Happening) (pid : ProcessId) (status : ProcessStatus)
    (hpermits : PermitsAll {} (before ++ .operation (.record pid status) :: after)) :
    (∀ i j j', (afterAll {} before).at? i = some j → j.state ≠ .stopped →
      ((afterAll {} before).record pid status).1.at? i = some j' → j'.state = .stopped →
      (∀ h ∈ after, h.Leaves i j'.pids) →
      ((afterAll {} before).toldIn (.operation (.record pid status) :: after)).count (i + 1) =
        if .look ∈ after then 1 else 0) ∧
    ∀ j j' rest, (afterAll {} before).foreground = some j → j.state ≠ .stopped →
      ((afterAll {} before).record pid status).1.foreground = some j' → j'.state = .stopped →
      after = .waited :: rest →
      (∀ h ∈ rest, h.Leaves (freeSlot (afterAll {} before).slots) j'.pids) →
      ((afterAll {} before).toldIn (.operation (.record pid status) :: after)).count
          (freeSlot (afterAll {} before).slots + 1) =
        if .look ∈ rest then 2 else 1 := by
  obtain ⟨hjs, hpermits⟩ := PermitsAll.consistent consistent_empty hpermits
  refine ⟨fun i j j' hi hj hi' hj' => count_toldIn_background hjs hpermits hi hj hi' hj', ?_⟩
  intro j j' rest hforeground hj hforeground' hj' hafter
  exact count_toldIn_foreground hjs hpermits hafter hforeground hj hforeground' hj'

/-- A job that is in the table and one that is in the foreground stop, and the shell looks after its
jobs twice. -/
theorem stops_told_single :
    (toldIn {} [.operation (.insert (single 7 "a")), .operation (.record 7 (.stopped .tstp)),
      .look, .look]).count 1 = 1 ∧
    (toldIn {} [.operation (.setForeground (single 7 "a")),
      .operation (.record 7 (.stopped .tstp)), .waited, .look, .look]).count 1 = 2 := by
  constructor
  · exact (stops_told [.operation (.insert (single 7 "a"))] [.look, .look] 7 (.stopped .tstp)
      ⟨nofun, nofun, nofun, nofun, trivial⟩).1 0 _ _ rfl (by decide) rfl (by decide)
      (by simp [Happening.Leaves])
  · exact (stops_told [.operation (.setForeground (single 7 "a"))] [.waited, .look, .look] 7
      (.stopped .tstp) ⟨nofun, nofun, nofun, nofun, nofun, trivial⟩).2 _ _ _ rfl (by decide) rfl
      (by decide) rfl (by simp [Happening.Leaves])

/-- A shell with job control. -/
def conversing : Shell := { options := .ofList [.interactive, .monitor] }

/-- A job in the foreground stops, is told of, and is told of again before the next command, without
a word about it in between. -/
theorem stop_told_twice :
    toldIn {} [.operation (.setForeground (single 7 "a")),
      .operation (.record 7 (.stopped .tstp)), .waited, .look] = [1, 1] ∧
    ((do
      Shell.runForeground (single 7 "a")
      Shell.notifyJobs : ShellM Unit).startedIn conversing).endsIn (fun _ => true)
      [⟨.wait (some 7) false true, .ok (some (7, .stopped .tstp))⟩,
        ⟨.write 2 (Text.encode "\n[1]+  Stopped                 a\n"), .ok 33⟩,
        ⟨.write 2 (Text.encode "[1]+  Stopped                 a\n"), .ok 32⟩] = true :=
  ⟨by decide, by decide +kernel⟩

end CommandShell.Jobs
