import Mathlib.Data.Finset.Card
import CommandShell.Proofs.JobTable
import CommandShell.Proofs.Surroundings

/-!
# The children of a shell

What the system knows of the children of a shell is the life of each of them: it runs, it has ended,
and it is gone once its end was reported. A child may end at any moment, `fork` gives a number that no
child had before, and `wait` reports the end of each child once. `family` are these surroundings.

A table of jobs tells the truth (`Jobs.Tells`) when it has an end for the children that were reported
and for no others. That is kept by waiting, by starting jobs, and by time. The numbers of children have
a bound, so that the loops that wait for them come to an end (`Children.reports`).
-/

namespace CommandShell

open Host (Call Reply Program Event Surroundings)

/-- What has become of a process number. -/
inductive Life where
  /-- No child has it yet. -/
  | unborn
  | running
  /-- The child has ended, and nobody waited for it yet. -/
  | ended (status : ProcessStatus)
  /-- The end was reported to the shell. -/
  | reported (status : ProcessStatus)
  deriving DecidableEq, Repr

namespace Life

/-- The child does not run any more. -/
def isOver : Life → Bool
  | ended _ | reported _ => true
  | _ => false

/-- The end was reported. -/
def isReported : Life → Bool
  | reported _ => true
  | _ => false

theorem isOver_of_isReported {life : Life} (h : life.isReported = true) : life.isOver = true := by
  cases life with
  | reported status => rfl
  | _ => cases h

/-- A status that tells the truth about a child, as far as it was reported. -/
def Fits : Life → ProcessStatus → Prop
  | unborn, _ => False
  | running, status | ended _, status => status = .running
  | reported status', status => status = status'

end Life

/-- The system numbers processes below this. -/
def processLimit : Int := 4194304

/-- The children of a shell, as the system knows them. -/
structure Children where
  life : ProcessId → Life
  numbered : ∀ pid, life pid ≠ .unborn → 0 < pid ∧ pid < processLimit
  final : ∀ pid status, life pid = .ended status ∨ life pid = .reported status →
    status.isDone = true

namespace Children

/-- A child ends. -/
def Ends (κ κ' : Children) : Prop :=
  ∃ pid status, κ.life pid = .running ∧ κ'.life = Function.update κ.life pid (.ended status)

/-- The end of a child is reported. -/
def Reports (κ : Children) (pid : ProcessId) (status : ProcessStatus) (κ' : Children) : Prop :=
  κ.life pid = .ended status ∧ κ'.life = Function.update κ.life pid (.reported status)

/-- How calls of the shell are answered. No signal arrives, and what the child does after a fork is
another run. -/
def Answers (κ : Children) : (c : Call) → Reply c → Children → Prop
  | .fork, .ok (.parent pid), κ' =>
    κ.life pid = .unborn ∧ κ'.life = Function.update κ.life pid .running
  | .fork, .ok .child, _ => False
  | .wait (some pid) _ _, .ok (some (pid', status)), κ' => pid' = pid ∧ κ.Reports pid status κ'
  | .wait (some pid) noHang _, .ok none, κ' => noHang = true ∧ κ.life pid = .running ∧ κ' = κ
  | .wait (some pid) _ _, .error e, κ' =>
    e = .noChild ∧ (κ.life pid = .unborn ∨ (κ.life pid).isReported) ∧ κ' = κ
  | .wait none _ _, .ok (some (pid, status)), κ' => κ.Reports pid status κ'
  | .wait none noHang _, .ok none, κ' =>
    noHang = true ∧ (∀ pid status, κ.life pid ≠ .ended status) ∧ (∃ pid, κ.life pid = .running) ∧
      κ' = κ
  | .wait none _ _, .error e, κ' =>
    e = .noChild ∧ (∀ pid, κ.life pid = .unborn ∨ (κ.life pid).isReported) ∧ κ' = κ
  | .takeArrived, arrived, κ' => arrived = false ∧ κ' = κ
  | _, _, κ' => κ' = κ

end Children

/-- Surroundings in which children end and are waited for. -/
def family : Surroundings Children where
  drifts := Children.Ends
  answers κ e κ' := κ.Answers e.1 e.2 κ'

namespace Children

variable {κ κ' κ'' : Children} {pid : ProcessId}

/-! ## Growing older -/

/-- Children are born, end, and are reported, in this order. -/
structure Ages (κ κ' : Children) : Prop where
  born : ∀ pid, κ.life pid ≠ .unborn → κ'.life pid ≠ .unborn
  ended : ∀ pid, (κ.life pid).isOver → (κ'.life pid).isOver
  reported : ∀ pid status, κ.life pid = .reported status → κ'.life pid = .reported status

/-- As long as nobody waits, the children that are there run or end. -/
def Spares (κ κ' : Children) : Prop :=
  ∀ pid, κ.life pid ≠ .unborn →
    κ'.life pid = κ.life pid ∨ κ.life pid = .running ∧ ∃ status, κ'.life pid = .ended status

theorem Ages.refl (κ : Children) : κ.Ages κ := ⟨fun _ h => h, fun _ h => h, fun _ _ h => h⟩

theorem Ages.trans (h : κ.Ages κ') (h' : κ'.Ages κ'') : κ.Ages κ'' where
  born pid hpid := h'.born pid (h.born pid hpid)
  ended pid hpid := h'.ended pid (h.ended pid hpid)
  reported pid status hpid := h'.reported pid status (h.reported pid status hpid)

theorem Spares.refl (κ : Children) : κ.Spares κ := fun _ _ => .inl rfl

theorem Spares.trans (h : κ.Spares κ') (h' : κ'.Spares κ'') : κ.Spares κ'' := by
  intro pid hpid
  rcases h pid hpid with heq | ⟨hrun, status, hend⟩
  · rcases h' pid (heq ▸ hpid) with heq' | ⟨hrun', hend'⟩
    · exact .inl (heq'.trans heq)
    · exact .inr ⟨heq ▸ hrun', hend'⟩
  · rcases h' pid (by simp [hend]) with heq' | ⟨hrun', -⟩
    · exact .inr ⟨hrun, status, heq'.trans hend⟩
    · rw [hend] at hrun'
      cases hrun'

theorem Spares.ages (h : κ.Spares κ') : κ.Ages κ' := by
  refine ⟨fun pid hpid => ?_, fun pid hpid => ?_, fun pid status hpid => ?_⟩
  · rcases h pid hpid with heq | ⟨-, status, hend⟩
    · exact heq ▸ hpid
    · simp [hend]
  · have hborn : κ.life pid ≠ .unborn := by
      intro hu
      rw [hu] at hpid
      cases hpid
    rcases h pid hborn with heq | ⟨-, status, hend⟩
    · exact heq ▸ hpid
    · rw [hend]
      rfl
  · rcases h pid (by simp [hpid]) with heq | ⟨hrun, -⟩
    · exact heq.trans hpid
    · rw [hpid] at hrun
      cases hrun

theorem Ends.spares (h : κ.Ends κ') : κ.Spares κ' := by
  obtain ⟨pid, status, hrun, hlife⟩ := h
  intro pid' hborn
  rw [hlife]
  by_cases hpid : pid' = pid
  · subst hpid
    exact .inr ⟨hrun, status, Function.update_self ..⟩
  · exact .inl (Function.update_of_ne hpid ..)

theorem spares_of_drifts (h : family.Drifts κ κ') : κ.Spares κ' := by
  induction h with
  | refl => exact Spares.refl κ
  | tail _ hstep ih => exact ih.trans (Ends.spares hstep)

theorem Reports.ages {status : ProcessStatus} (h : κ.Reports pid status κ') : κ.Ages κ' := by
  obtain ⟨hended, hlife⟩ := h
  have hother : ∀ pid', pid' ≠ pid → κ'.life pid' = κ.life pid' := by
    intro pid' hpid
    rw [hlife]
    exact Function.update_of_ne hpid ..
  have hself : κ'.life pid = .reported status := by
    rw [hlife]
    exact Function.update_self ..
  refine ⟨fun pid' hpid' => ?_, fun pid' hpid' => ?_, fun pid' status' hpid' => ?_⟩
  · by_cases hpid : pid' = pid
    · simp [hpid, hself]
    · rwa [hother pid' hpid]
  · by_cases hpid : pid' = pid
    · rw [hpid, hself]
      rfl
    · rwa [hother pid' hpid]
  · by_cases hpid : pid' = pid
    · rw [hpid, hended] at hpid'
      cases hpid'
    · rwa [hother pid' hpid]

theorem spares_fork (hborn : κ.life pid = .unborn)
    (hlife : κ'.life = Function.update κ.life pid .running) : κ.Spares κ' := by
  intro pid' hpid'
  refine .inl ?_
  rw [hlife]
  refine Function.update_of_ne ?_ ..
  rintro rfl
  exact hpid' hborn

/-- A call that waits for a child. -/
def isWait : Call → Bool
  | .wait .. => true
  | _ => false

theorem Answers.spares {c : Call} {r : Reply c} (h : κ.Answers c r κ') (hc : isWait c = false) :
    κ.Spares κ' := by
  cases c with
  | wait target noHang untraced => cases hc
  | fork =>
      rcases r with e | _ | pid
      · obtain rfl : κ' = κ := h
        exact Spares.refl κ'
      · exact h.elim
      · exact spares_fork h.1 h.2
  | takeArrived =>
      obtain ⟨-, rfl⟩ := h
      exact Spares.refl κ'
  | _ =>
      obtain rfl : κ' = κ := h
      exact Spares.refl κ'

theorem Answers.ages {c : Call} {r : Reply c} (h : κ.Answers c r κ') : κ.Ages κ' := by
  cases c with
  | wait target noHang untraced =>
      rcases target with _ | pid <;> rcases r with e | _ | ⟨pid', status⟩
      · obtain ⟨-, -, rfl⟩ := h
        exact Ages.refl κ'
      · obtain ⟨-, -, -, rfl⟩ := h
        exact Ages.refl κ'
      · exact Reports.ages h
      · obtain ⟨-, -, rfl⟩ := h
        exact Ages.refl κ'
      · obtain ⟨-, -, rfl⟩ := h
        exact Ages.refl κ'
      · exact h.2.ages
  | _ => exact (Answers.spares h rfl).ages

theorem ages_of_takes {es : List Event} (h : family.Takes κ es κ') : κ.Ages κ' :=
  h.keeps (P := κ.Ages) (fun _ _ hstep hw => hw.trans (Ends.spares hstep).ages)
    (fun _ _ _ _ ha hw => hw.trans (Answers.ages ha)) (Ages.refl κ)

theorem spares_of_answers {e : Event} (h : family.answers κ e κ') (he : isWait e.1 = false) :
    κ.Spares κ' := Answers.spares h he

/-- The life of a child that was born goes on. -/
def live (κ : Children) (pid : ProcessId) (life : Life) (hborn : κ.life pid ≠ .unborn)
    (hfinal : ∀ status, life = .ended status ∨ life = .reported status → status.isDone = true) :
    Children where
  life := Function.update κ.life pid life
  numbered pid' hpid' := by
    by_cases hpid : pid' = pid
    · exact κ.numbered pid' (hpid ▸ hborn)
    · rw [Function.update_of_ne hpid] at hpid'
      exact κ.numbered pid' hpid'
  final pid' status h := by
    by_cases hpid : pid' = pid
    · subst hpid
      rw [Function.update_self] at h
      exact hfinal status h
    · rw [Function.update_of_ne hpid] at h
      exact κ.final pid' status h

/-- The end of a child that has ended can be reported. -/
theorem exists_reports {status : ProcessStatus} (h : κ.life pid = .ended status) :
    ∃ κ', κ.Reports pid status κ' := by
  have hdone := κ.final pid status (.inl h)
  refine ⟨κ.live pid (.reported status) (by simp [h]) ?_, h, rfl⟩
  rintro status' (heq | heq) <;> cases heq
  exact hdone

/-- A child that runs can end, and then its end can be reported. -/
theorem exists_ends_reports (h : κ.life pid = .running) :
    ∃ κ₁ status κ₂, family.Drifts κ κ₁ ∧ κ₁.Reports pid status κ₂ := by
  have hfinal : ∀ status, Life.ended (.exited 0) = .ended status ∨
      Life.ended (.exited 0) = .reported status → status.isDone = true := by
    rintro status (heq | heq) <;> cases heq
    rfl
  let κ₁ := κ.live pid (.ended (.exited 0)) (by simp [h]) hfinal
  have hended : κ₁.life pid = .ended (.exited 0) := Function.update_self ..
  obtain ⟨κ₂, hreports⟩ := exists_reports hended
  exact ⟨κ₁, _, κ₂, .single ⟨pid, .exited 0, h, rfl⟩, hreports⟩

theorem nonempty_reply {c : Call} (h : ∀ code, c ≠ .exit code) : Nonempty (Reply c) := by
  cases c with
  | exit code => exact absurd rfl (h code)
  | _ => first
    | exact ⟨.error .interrupted⟩
    | exact ⟨default⟩
    | exact ⟨Errno.interrupted⟩
    | exact ⟨Host.Disposition.default⟩

/-- Every call but the last one of a process is answered, a `wait` at the latest when the child that
it waits for has ended. -/
theorem lively_family : family.Lively := by
  intro κ c hexit
  have hsame {r : Reply c} (h : κ.Answers c r κ) : ∃ κ₁ r κ₂, family.Drifts κ κ₁ ∧
      family.answers κ₁ ⟨c, r⟩ κ₂ := ⟨κ, r, κ, .refl, h⟩
  have hreport {κ₁ κ₂ : Children} {r : Reply c} (hd : family.Drifts κ κ₁)
      (h : κ₁.Answers c r κ₂) : ∃ κ₁ r κ₂, family.Drifts κ κ₁ ∧
      family.answers κ₁ ⟨c, r⟩ κ₂ := ⟨κ₁, r, κ₂, hd, h⟩
  cases c with
  | exit code => exact absurd rfl (hexit code)
  | fork => exact hsame (r := .error .interrupted) rfl
  | takeArrived => exact hsame (r := false) ⟨rfl, rfl⟩
  | wait target noHang untraced =>
      cases target with
      | none =>
          by_cases hended : ∃ pid status, κ.life pid = .ended status
          · obtain ⟨pid, status, hlife⟩ := hended
            obtain ⟨κ', hreports⟩ := exists_reports hlife
            exact hreport (r := .ok (some (pid, status))) .refl hreports
          by_cases hrun : ∃ pid, κ.life pid = .running
          · obtain ⟨pid, hlife⟩ := hrun
            obtain ⟨κ₁, status, κ₂, hd, hreports⟩ := exists_ends_reports hlife
            exact hreport (r := .ok (some (pid, status))) hd hreports
          · refine hsame (r := .error .noChild) ⟨rfl, fun pid => ?_, rfl⟩
            cases hlife : κ.life pid with
            | unborn => exact .inl rfl
            | running => exact absurd ⟨pid, hlife⟩ hrun
            | ended status => exact absurd ⟨pid, status, hlife⟩ hended
            | reported status => exact .inr rfl
      | some pid =>
          cases hlife : κ.life pid with
          | unborn => exact hsame (r := .error .noChild) ⟨rfl, .inl hlife, rfl⟩
          | running =>
              obtain ⟨κ₁, status, κ₂, hd, hreports⟩ := exists_ends_reports hlife
              exact hreport (r := .ok (some (pid, status))) hd ⟨rfl, hreports⟩
          | ended status =>
              obtain ⟨κ', hreports⟩ := exists_reports hlife
              exact hreport (r := .ok (some (pid, status))) .refl ⟨rfl, hreports⟩
          | reported status =>
              exact hsame (r := .error .noChild) ⟨rfl, .inr (by rw [hlife]; rfl), rfl⟩
  | _ =>
      obtain ⟨r⟩ := nonempty_reply hexit
      exact hsame (r := r) rfl

/-! ## Reported children -/

/-- The number of children whose end was reported. -/
def reports (κ : Children) : Nat :=
  ((Finset.range 4194304).filter fun n => (κ.life (Int.ofNat n)).isReported).card

theorem reports_le (κ : Children) : κ.reports ≤ 4194304 :=
  (Finset.card_filter_le ..).trans_eq (Finset.card_range _)

theorem Ages.isReported (h : κ.Ages κ') (hpid : (κ.life pid).isReported = true) :
    (κ'.life pid).isReported = true := by
  cases hlife : κ.life pid with
  | reported status => rw [h.reported pid status hlife, Life.isReported]
  | _ =>
      rw [hlife] at hpid
      cases hpid

theorem Spares.isReported_eq (h : κ.Spares κ') (hborn : κ.life pid ≠ .unborn) :
    (κ'.life pid).isReported = (κ.life pid).isReported := by
  rcases h pid hborn with heq | ⟨hrun, status, hend⟩
  · rw [heq]
  · rw [hrun, hend]
    rfl

theorem Ages.filter_isReported_subset (h : κ.Ages κ') :
    ((Finset.range 4194304).filter fun n => (κ.life (Int.ofNat n)).isReported) ⊆
      (Finset.range 4194304).filter fun n => (κ'.life (Int.ofNat n)).isReported :=
  Finset.monotone_filter_right _ fun _ _ => h.isReported

theorem Ages.reports_le (h : κ.Ages κ') : κ.reports ≤ κ'.reports :=
  Finset.card_le_card h.filter_isReported_subset

theorem Ages.reports_lt (h : κ.Ages κ') (hbefore : (κ.life pid).isReported = false)
    (hafter : (κ'.life pid).isReported = true) : κ.reports < κ'.reports := by
  have hborn : κ'.life pid ≠ .unborn := by
    intro hlife
    rw [hlife] at hafter
    cases hafter
  obtain ⟨hlow, hhigh⟩ := κ'.numbered pid hborn
  have hcast : Int.ofNat pid.toNat = pid := Int.toNat_of_nonneg hlow.le
  refine Finset.card_lt_card
    ((Finset.ssubset_iff_of_subset h.filter_isReported_subset).mpr ⟨pid.toNat, ?_, ?_⟩)
  · rw [Finset.mem_filter, Finset.mem_range, hcast]
    exact ⟨(Int.toNat_lt hlow.le).mpr hhigh, hafter⟩
  · intro hmem
    rw [Finset.mem_filter, hcast, hbefore] at hmem
    exact Bool.false_ne_true hmem.2

end Children

/-! ## Tables that tell the truth -/

/-- What a table of jobs has about every process is what was reported of it. -/
structure Jobs.Tells (js : Jobs) (κ : Children) : Prop where
  orderly : js.Orderly
  fits : ∀ i j q, js.at? i = some j → q ∈ j.processes → (κ.life q.pid).Fits q.status

/-- Two tables have jobs of the same processes at the same places. -/
def Jobs.Same (js js' : Jobs) : Prop := ∀ i, (js'.at? i).map Job.pids = (js.at? i).map Job.pids

section

variable {κ κ' : Children} {js js' js'' : Jobs} {j : Job} {i : Nat} {pid : ProcessId}
  {status : ProcessStatus}

open Jobs

theorem Life.Fits.of_isRunning {life : Life} (h : life.Fits status) (hrun : status.isRunning = true)
    (hfinal : ∀ status, life = .reported status → status.isDone = true) :
    life ≠ .unborn ∧ life.isReported = false := by
  cases life with
  | unborn => exact h.elim
  | reported status' =>
      obtain rfl : status = status' := h
      have hdone := hfinal status rfl
      cases status <;> simp [ProcessStatus.isRunning, ProcessStatus.isDone] at hrun hdone
  | _ => exact ⟨by simp, rfl⟩

theorem Life.Fits.isReported {life : Life} (h : life.Fits status)
    (hrun : status.isRunning = false) : life.isReported = true := by
  cases life with
  | unborn => exact h.elim
  | reported status' => rfl
  | _ =>
      rw [show status = .running from h] at hrun
      cases hrun

theorem Life.Fits.isDone_eq {life : Life} (h : life.Fits status)
    (hfinal : ∀ status, life = .reported status → status.isDone = true) :
    status.isDone = life.isReported := by
  cases life with
  | unborn => exact h.elim
  | reported status' =>
      obtain rfl : status = status' := h
      exact hfinal status rfl
  | _ =>
      rw [show status = .running from h]
      rfl

theorem Life.Fits.of_spares (hsp : κ.Spares κ') (h : (κ.life pid).Fits status) :
    (κ'.life pid).Fits status := by
  have hborn : κ.life pid ≠ .unborn := by
    intro hu
    rw [hu] at h
    exact h
  rcases hsp pid hborn with heq | ⟨hrun, status', hend⟩
  · rwa [heq]
  · rw [hrun] at h
    rw [hend]
    exact h

theorem Jobs.Tells.born (h : js.Tells κ) (hi : js.at? i = some j) (hpid : pid ∈ j.pids) :
    κ.life pid ≠ .unborn := by
  obtain ⟨q, hq, rfl⟩ := List.mem_map.mp hpid
  intro hu
  have hfits := h.fits i j q hi hq
  rw [hu] at hfits
  exact hfits

/-- A job is done as soon as the end of each of its processes was reported. -/
theorem Jobs.Tells.state_eq_done_iff (h : js.Tells κ) (hi : js.at? i = some j) :
    j.state = .done ↔ ∀ pid ∈ j.pids, (κ.life pid).isReported = true := by
  have hdone : ∀ q ∈ j.processes, q.status.isDone = (κ.life q.pid).isReported := fun q hq =>
    (h.fits i j q hi hq).isDone_eq fun status hlife => κ.final _ status (.inr hlife)
  rw [Job.state_eq_done_iff]
  constructor
  · intro hall pid hpid
    obtain ⟨q, hq, rfl⟩ := List.mem_map.mp hpid
    exact (hdone q hq).symm.trans (hall q hq)
  · intro hall q hq
    exact (hdone q hq).trans (hall q.pid (List.mem_map.mpr ⟨q, hq, rfl⟩))

theorem Jobs.Tells.of_spares (h : js.Tells κ) (hsp : κ.Spares κ') : js.Tells κ' :=
  ⟨h.orderly, fun i j q hi hq => (h.fits i j q hi hq).of_spares hsp⟩

theorem Jobs.Same.refl (js : Jobs) : js.Same js := fun _ => rfl

theorem Jobs.Same.symm (h : js.Same js') : js'.Same js := fun i => (h i).symm

theorem Jobs.Same.trans (h : js.Same js') (h' : js'.Same js'') : js.Same js'' :=
  fun i => (h' i).trans (h i)

theorem Jobs.Same.at? (h : js.Same js') (hi : js.at? i = some j) :
    ∃ j', js'.at? i = some j' ∧ j'.pids = j.pids := by
  have heq := h i
  rw [hi] at heq
  exact Option.map_eq_some_iff.mp heq

/-- The report about a child is true once it is recorded. -/
theorem Jobs.Tells.record (h : js.Tells κ) (hreport : κ.Reports pid status κ') :
    (js.record pid status).1.Tells κ' ∧ js.Same (js.record pid status).1 := by
  obtain ⟨hended, hlife⟩ := hreport
  refine ⟨⟨h.orderly.record pid status, fun i j q hi hq => ?_⟩, fun i => ?_⟩
  · rw [h.orderly.at?_record] at hi
    obtain ⟨j₀, hi₀, rfl⟩ := Option.map_eq_some_iff.mp hi
    have hother : q.pid ≠ pid → q ∈ j₀.processes → (κ'.life q.pid).Fits q.status := by
      intro hne hq
      rw [hlife, Function.update_of_ne hne]
      exact h.fits i j₀ q hi₀ hq
    split at hq
    · rcases Job.of_mem_recordIn (h.orderly.distinct i j₀ hi₀) hq with ⟨hpid, hstatus⟩ | ⟨hne, hq⟩
      · rw [hpid, hlife, Function.update_self]
        exact hstatus
      · exact hother hne hq
    · rename_i hpid
      refine hother (fun hqp => hpid ?_) hq
      exact Job.hasPid_iff.mpr (List.mem_map.mpr ⟨q, hq, hqp⟩)
  · rw [h.orderly.at?_record]
    cases js.at? i with
    | none => rfl
    | some j =>
        show some _ = some _
        dsimp only
        split
        · rw [Job.pids_record]
        · rfl

end

namespace Shell

variable {s t u : Shell} {κ κ' κ'' : Children}

/-! ## Waiting -/

/-- The shell learned of children that ended, and nothing else changed. -/
structure Learns (s : Shell) (κ : Children) (t : Shell) (κ' : Children) : Prop where
  only : t = { s with jobs := t.jobs }
  tells : t.jobs.Tells κ'
  same : s.jobs.Same t.jobs
  ages : κ.Ages κ'

theorem Learns.refl (h : s.jobs.Tells κ) : Learns s κ s κ := ⟨rfl, h, .refl _, .refl _⟩

theorem Learns.trans (h : Learns s κ t κ') (h' : Learns t κ' u κ'') : Learns s κ u κ'' := by
  refine ⟨?_, h'.tells, h.same.trans h'.same, h.ages.trans h'.ages⟩
  rw [h'.only, h.only]

theorem Learns.of_spares (h : s.jobs.Tells κ) (hsp : κ.Spares κ') : Learns s κ s κ' :=
  ⟨rfl, h.of_spares hsp, .refl _, hsp.ages⟩

/-- What follows a report that is recorded. -/
theorem learns_record {pid : ProcessId} {status : ProcessStatus} (h : s.jobs.Tells κ)
    (hreport : κ.Reports pid status κ') :
    Learns s κ { s with jobs := (s.jobs.record pid status).1 } κ' ∧ κ.reports < κ'.reports := by
  obtain ⟨htells, hsame⟩ := h.record hreport
  have hbefore : (κ.life pid).isReported = false := by
    rw [hreport.1]
    rfl
  have hafter : (κ'.life pid).isReported = true := by
    rw [hreport.2, Function.update_self]
    rfl
  exact ⟨⟨rfl, htells, hsame, hreport.ages⟩, hreport.ages.reports_lt hbefore hafter⟩

/-- A report that came is recorded. -/
theorem ensures_recorded {pid : ProcessId} {status : ProcessStatus} (h : Learns s κ s κ')
    (hreport : κ'.Reports pid status κ'') :
    Ensures family (do
      modifyJobs fun js => (js.record pid status).1
      return .ok (some pid) : ShellM (Except Errno (Option ProcessId))) s κ''
      fun r t κ₃ => Learns s κ t κ₃ ∧ r = .ok (.ok (some pid)) ∧ κ.reports < κ₃.reports := by
  obtain ⟨hrecord, hlt⟩ := learns_record h.tells hreport
  refine Ensures.modify_bind (Ensures.pure fun κ₃ hd => ?_)
  have hafter := Learns.of_spares hrecord.tells (Children.spares_of_drifts hd)
  refine ⟨(h.trans hrecord).trans hafter, rfl, ?_⟩
  have hle := h.ages.reports_le
  have hle' := hafter.ages.reports_le
  omega

/-- Without blocking, the shell learns of a child that ended, or there was none. -/
theorem ensures_waitFor_any (h : s.jobs.Tells κ) (untraced : Bool) :
    Ensures family (waitFor none true untraced) s κ fun r t κ' => Learns s κ t κ' ∧
      ((∃ pid, r = .ok (.ok (some pid)) ∧ κ.reports < κ'.reports) ∨
        r = .ok (.ok none) ∧ ∀ pid, (κ.life pid).isOver → (κ'.life pid).isReported) := by
  refine Ensures.ask_bind fun κ₁ r κ₂ hd ha => ?_
  have hlearns := Learns.of_spares h (Children.spares_of_drifts hd)
  -- a child that had ended is over still, so it was reported if none is left to be reported
  have hnone {ans : Except Errno (Option ProcessId)} (hans : ans = .ok none) (heq : κ₂ = κ₁)
      (hidle : ∀ pid, (κ₁.life pid).isOver → (κ₁.life pid).isReported) :
      Ensures family (pure ans : ShellM (Except Errno (Option ProcessId))) s κ₂
        fun r t κ' => Learns s κ t κ' ∧
          ((∃ pid, r = .ok (.ok (some pid)) ∧ κ.reports < κ'.reports) ∨
            r = .ok (.ok none) ∧ ∀ pid, (κ.life pid).isOver → (κ'.life pid).isReported) := by
    subst hans heq
    refine Ensures.pure fun κ₃ hd' => ?_
    have hsp := Children.spares_of_drifts hd'
    refine ⟨hlearns.trans (.of_spares hlearns.tells hsp), .inr ⟨rfl, fun pid hover => ?_⟩⟩
    exact hsp.ages.isReported (hidle pid (hlearns.ages.ended pid hover))
  rcases r with e | _ | ⟨pid, status⟩
  · obtain ⟨rfl, hidle, heq⟩ := ha
    refine hnone rfl heq fun pid hover => (hidle pid).resolve_left fun hu => ?_
    rw [hu] at hover
    cases hover
  · obtain ⟨-, hidle, -, heq⟩ := ha
    refine hnone rfl heq fun pid hover => ?_
    cases hlife : κ₁.life pid with
    | ended status => exact absurd hlife (hidle pid status)
    | reported status => rfl
    | _ =>
        rw [hlife] at hover
        cases hover
  · refine (ensures_recorded hlearns ha).mono ?_
    rintro r t κ₃ ⟨hlearned, rfl, hlt⟩
    exact ⟨hlearned, .inl ⟨pid, rfl, hlt⟩⟩

/-- Blocking on a child that was born and not reported, the shell learns of its end. -/
theorem ensures_waitFor_one (h : s.jobs.Tells κ) {pid : ProcessId} (hborn : κ.life pid ≠ .unborn)
    (hfree : (κ.life pid).isReported = false) :
    Ensures family (waitFor (some pid) false false) s κ fun r t κ' => Learns s κ t κ' ∧
      r = .ok (.ok (some pid)) ∧ κ.reports < κ'.reports := by
  refine Ensures.ask_bind fun κ₁ r κ₂ hd ha => ?_
  have hsp := Children.spares_of_drifts hd
  have hlearns := Learns.of_spares h hsp
  rcases r with e | _ | ⟨pid', status⟩
  · obtain ⟨-, hgone, -⟩ := ha
    rcases hgone with hu | hrep
    · exact absurd hu (hlearns.ages.born pid hborn)
    · rw [hsp.isReported_eq hborn, hfree] at hrep
      cases hrep
  · obtain ⟨hhang, -⟩ := ha
    cases hhang
  · obtain ⟨rfl, hreport⟩ := ha
    exact ensures_recorded hlearns hreport

/-- Every child that had ended is reported after that. -/
theorem ensures_reap (h : s.jobs.Tells κ) (untraced : Bool) :
    Ensures family (reap untraced) s κ fun r t κ' => r = .ok () ∧ Learns s κ t κ' ∧
      ∀ pid, (κ.life pid).isOver → (κ'.life pid).isReported := by
  refine Ensures.iterate (I := fun _ t κ' => Learns s κ t κ') Children.reports_le (by decide)
    (fun _ t κ' hlearns => ?_) (Learns.refl h)
  refine Ensures.bind (ensures_waitFor_any hlearns.tells untraced).stays (fun r u κ₁ hr => ?_)
    fun e u κ₁ he => ?_
  · obtain ⟨-, ⟨pid, hpid, -⟩ | ⟨hnone, -⟩⟩ := hr κ₁ .refl
    · cases hpid
      refine Ensures.pure fun κ₂ hd => ?_
      obtain ⟨hlearned, ⟨pid', -, hlt⟩ | ⟨hnone, -⟩⟩ := hr κ₂ hd
      · exact ⟨hlearns.trans hlearned, hlt⟩
      · cases hnone
    · cases hnone
      refine Ensures.pure fun κ₂ hd => ?_
      obtain ⟨hlearned, ⟨pid', hpid', -⟩ | ⟨-, hidle⟩⟩ := hr κ₂ hd
      · cases hpid'
      · exact ⟨rfl, hlearns.trans hlearned, fun pid hover => hidle pid (hlearns.ages.ended pid hover)⟩
  · obtain ⟨-, ⟨pid, hpid, -⟩ | ⟨hnone, -⟩⟩ := he κ₁ .refl
    · cases hpid
    · cases hnone

/-- The shell waits for a job until the end of each of its processes was reported. -/
theorem ensures_waitJob (h : s.jobs.Tells κ) {i : Nat} {j : Job} (hi : s.jobs.at? i = some j) :
    Ensures family (Commands.waitJob (i + 1)) s κ fun r t κ' => r = .ok none ∧ Learns s κ t κ' ∧
      ∀ pid ∈ j.pids, (κ'.life pid).isReported := by
  refine Ensures.iterate (I := fun _ t κ' => Learns s κ t κ') Children.reports_le (by decide)
    (fun _ t κ' hlearns => Ensures.get_bind ?_) (Learns.refl h)
  obtain ⟨j', hi', hpids⟩ := hlearns.same.at? hi
  rw [hlearns.tells.orderly.get?_eq_at?, hi', Option.bind_some]
  cases hrun : runningProcess? j' with
  | none =>
      refine Ensures.pure fun κ₁ hd => ?_
      have hsp := Children.spares_of_drifts hd
      refine ⟨rfl, hlearns.trans (.of_spares hlearns.tells hsp), fun pid hpid => ?_⟩
      rw [← hpids] at hpid
      obtain ⟨q, hq, rfl⟩ := List.mem_map.mp hpid
      refine hsp.ages.isReported ((hlearns.tells.fits i j' q hi' hq).isReported ?_)
      exact Bool.eq_false_of_not_eq_true (List.find?_eq_none.mp (Option.map_eq_none_iff.mp hrun) q hq)
  | some pid =>
      obtain ⟨q, hq, rfl⟩ := Option.map_eq_some_iff.mp hrun
      have hfits := hlearns.tells.fits i j' q hi' (List.mem_of_find?_eq_some hq)
      have hqrun : q.status.isRunning = true := by simpa using List.find?_some hq
      obtain ⟨hborn, hfree⟩ := hfits.of_isRunning hqrun
        fun status hlife => κ'.final _ status (.inr hlife)
      refine Ensures.bind (ensures_waitFor_one hlearns.tells hborn hfree).stays
        (fun r u κ₁ hr => ?_) fun e u κ₁ he => ?_
      · obtain ⟨-, heq, -⟩ := hr κ₁ .refl
        cases heq
        refine Ensures.pure fun κ₂ hd => ?_
        obtain ⟨hlearned, -, hlt⟩ := hr κ₂ hd
        exact ⟨hlearns.trans hlearned, hlt⟩
      · obtain ⟨-, heq, -⟩ := he κ₁ .refl
        cases heq

/-! ## Starting jobs -/

/-- Whatever a computation comes to, the shell is as it was, and nobody waited for a child. -/
def Aside {α : Type} (x : ShellM α) : Prop :=
  ∀ s κ, Ensures family x s κ fun _ t κ' => t = s ∧ κ.Spares κ'

section

variable {α β : Type}

theorem Aside.pure (a : α) : Aside (pure a : ShellM α) :=
  fun _ _ => Ensures.pure fun _ hd => ⟨rfl, Children.spares_of_drifts hd⟩

theorem Aside.fail (f : Fault) : Aside (fail f : ShellM α) :=
  fun _ _ => Ensures.throw fun _ hd => ⟨rfl, Children.spares_of_drifts hd⟩

theorem Aside.ask {c : Call} (hc : Children.isWait c = false) : Aside (ask c) :=
  fun _ _ => Ensures.ask fun _ _ _ _ hd ha hd' =>
    ⟨rfl, ((Children.spares_of_drifts hd).trans (Children.spares_of_answers ha hc)).trans
      (Children.spares_of_drifts hd')⟩

theorem Aside.bind {x : ShellM α} {f : α → ShellM β} (hx : Aside x) (hf : ∀ a, Aside (f a)) :
    Aside (x >>= f) := by
  intro s κ
  refine Ensures.bind (hx s κ) (fun a t κ₁ h => ?_) fun e t κ₁ h => h
  obtain ⟨rfl, hsp⟩ := h
  refine (hf a t κ₁).mono ?_
  rintro r u κ₂ ⟨rfl, hsp'⟩
  exact ⟨rfl, hsp.trans hsp'⟩

/-- What follows a computation that does nothing to the shell. -/
theorem Aside.then {x : ShellM α} {f : α → ShellM β} {κ₀ : Children} {P : β → Children → Prop}
    (hx : Aside x) (hsp : κ₀.Spares κ)
    (hf : ∀ a κ', κ₀.Spares κ' → Ensures family (f a) s κ' fun r t κ'' =>
      t = s ∧ κ₀.Spares κ'' ∧ ∀ b, r = .ok b → P b κ'') :
    Ensures family (x >>= f) s κ fun r t κ'' =>
      t = s ∧ κ₀.Spares κ'' ∧ ∀ b, r = .ok b → P b κ'' := by
  refine Ensures.bind (hx s κ) (fun a t κ₁ h => ?_) fun e t κ₁ h => ?_
  · obtain ⟨rfl, hsp'⟩ := h
    exact hf a κ₁ (hsp.trans hsp')
  · obtain ⟨rfl, hsp'⟩ := h
    exact ⟨rfl, hsp.trans hsp', fun _ heq => nomatch heq⟩

theorem aside_closePipes (pipes : List (Nat × Nat)) : Aside (closePipes pipes) := by
  induction pipes with
  | nil => exact Aside.pure ()
  | cons ends rest ih =>
      have hclose : Aside (do
          let _ ← Shell.ask (.close ends.1)
          let _ ← Shell.ask (.close ends.2)) :=
        (Aside.ask rfl).bind fun _ => (Aside.ask rfl).bind fun _ => Aside.pure ()
      exact hclose.bind fun _ => ih

theorem aside_makePipes (n : Nat) (made : List (Nat × Nat)) : Aside (makePipes n made) := by
  induction n generalizing made with
  | zero => exact Aside.pure _
  | succ n ih =>
      refine (Aside.ask rfl).bind fun r => ?_
      cases r with
      | ok ends => exact ih _
      | error e => exact (aside_closePipes _).bind fun _ => Aside.fail _

end

/-- The processes of a job that was just started: nobody had their numbers before, and nobody waited
for them. -/
structure Newborn (κ₀ κ : Children) (ps : List JobProcess) : Prop where
  distinct : (ps.map (·.pid)).Nodup
  running : ∀ q ∈ ps, q.status = .running
  fresh : ∀ q ∈ ps, κ₀.life q.pid = .unborn
  fits : ∀ q ∈ ps, (κ.life q.pid).Fits .running

theorem Newborn.of_spares {κ₀ : Children} {ps : List JobProcess} (h : Newborn κ₀ κ ps)
    (hsp : κ.Spares κ') : Newborn κ₀ κ' ps :=
  ⟨h.distinct, h.running, h.fresh, fun q hq => (h.fits q hq).of_spares hsp⟩

theorem Newborn.reverse {κ₀ : Children} {ps : List JobProcess} (h : Newborn κ₀ κ ps) :
    Newborn κ₀ κ ps.reverse := by
  refine ⟨?_, fun q hq => h.running q (List.mem_reverse.mp hq),
    fun q hq => h.fresh q (List.mem_reverse.mp hq), fun q hq => h.fits q (List.mem_reverse.mp hq)⟩
  rw [List.map_reverse]
  exact List.nodup_reverse.mpr h.distinct

/-- One more process is forked. -/
theorem Newborn.fork {κ₀ : Children} {ps : List JobProcess} {pid : ProcessId}
    (h : Newborn κ₀ κ ps) (hsp : κ₀.Spares κ) (hborn : κ.life pid = .unborn)
    (hlife : κ'.life = Function.update κ.life pid .running) (command : Text) :
    Newborn κ₀ κ' ({ pid, command } :: ps) := by
  have hold := h.of_spares (Children.spares_fork hborn hlife)
  refine ⟨List.nodup_cons.mpr ⟨fun hmem => ?_, h.distinct⟩, ?_, ?_, ?_⟩
  · obtain ⟨q, hq, rfl⟩ := List.mem_map.mp hmem
    have hfits := h.fits q hq
    rw [hborn] at hfits
    exact hfits
  · exact List.forall_mem_cons.mpr ⟨rfl, h.running⟩
  · refine List.forall_mem_cons.mpr ⟨?_, h.fresh⟩
    by_contra hne
    exact hsp.ages.born pid hne hborn
  · refine List.forall_mem_cons.mpr ⟨?_, hold.fits⟩
    rw [hlife, Function.update_self]
    rfl

theorem ensures_forkStages {κ₀ : Children} (ev : Evaluator) (pipes : List (Nat × Nat))
    (background : Bool) (stages : List Script.Node) :
    ∀ (input : Option Nat) (ahead : List (Nat × Nat)) (started : List JobProcess) (κ : Children),
      κ₀.Spares κ → Newborn κ₀ κ started →
      Ensures family (forkStages ev pipes background input ahead started stages) s κ fun r t κ' =>
        t = s ∧ κ₀.Spares κ' ∧ ∀ ps, r = .ok ps → Newborn κ₀ κ' ps := by
  induction stages with
  | nil =>
      intro input ahead started κ hsp hnew
      refine Ensures.pure fun κ' hd => ?_
      have hsp' := Children.spares_of_drifts hd
      refine ⟨rfl, hsp.trans hsp', ?_⟩
      rintro ps heq
      cases heq
      exact (hnew.of_spares hsp').reverse
  | cons stage rest ih =>
      intro input ahead started κ hsp hnew
      refine Ensures.ask_bind fun κ₁ r κ₂ hd ha => ?_
      have hsp₁ := Children.spares_of_drifts hd
      have hnew₁ := hnew.of_spares hsp₁
      have hsp₂ : κ₀.Spares κ₂ :=
        (hsp.trans hsp₁).trans (Children.spares_of_answers ha rfl)
      rcases r with e | _ | child
      · refine (aside_closePipes pipes).then hsp₂ fun _ κ' hsp' => ?_
        exact Ensures.throw fun κ₃ hd' =>
          ⟨rfl, hsp'.trans (Children.spares_of_drifts hd'), fun _ heq => nomatch heq⟩
      · exact ha.elim
      · have hnew₂ := hnew₁.fork (hsp.trans hsp₁) ha.1 ha.2 stage.source
        refine Ensures.get_bind ?_
        dsimp only
        split
        · refine Ensures.ask_bind fun κ₃ r κ₄ hd' ha' => ?_
          have hsp' := (Children.spares_of_drifts hd').trans (Children.spares_of_answers ha' rfl)
          exact ih _ _ _ κ₄ (hsp₂.trans hsp') (hnew₂.of_spares hsp')
        · exact ih _ _ _ κ₂ hsp₂ hnew₂

/-- The stages are started as one job, whose processes nobody knew before. -/
theorem ensures_launchStages (ev : Evaluator) (stages : List Script.Node) (background : Bool) :
    Ensures family (launchStages ev stages background) s κ fun r t κ' =>
      t = s ∧ κ.Spares κ' ∧ ∀ job, r = .ok job → Newborn κ κ' job.processes := by
  refine Ensures.get_bind ?_
  refine (aside_makePipes _ _).then (.refl κ) fun pipes κ₁ hsp => ?_
  refine Ensures.bind (ensures_forkStages ev pipes background stages none pipes [] κ₁ hsp
    ⟨List.nodup_nil, by simp, by simp, by simp⟩) (fun ps t κ₂ h => ?_) fun e t κ₂ h => ?_
  · obtain ⟨rfl, hsp₂, hnew⟩ := h
    refine ((aside_closePipes pipes).then (P := fun job κ' => Newborn κ κ' job.processes)
      (.refl κ₂) fun _ κ₃ hsp₃ => Ensures.pure fun κ₄ hd => ?_).mono ?_
    · have hsp₄ := hsp₃.trans (Children.spares_of_drifts hd)
      refine ⟨rfl, hsp₄, ?_⟩
      rintro job heq
      cases heq
      exact (hnew ps rfl).of_spares hsp₄
    · rintro r t κ' ⟨rfl, hsp', hjob⟩
      exact ⟨rfl, hsp₂.trans hsp', hjob⟩
  · obtain ⟨rfl, hsp₂, -⟩ := h
    exact ⟨rfl, hsp₂, fun _ heq => nomatch heq⟩

/-- A job that is started in the background goes into the table, and `$!` is its last process. -/
theorem ensures_runBackground (ev : Evaluator) (body : Script.Node)
    (hplain : s.isInteractive = false) :
    Ensures family (runBackground ev body) s κ fun r t κ' => κ.Spares κ' ∧
      ((∃ job, r = .ok () ∧ Newborn κ κ' job.processes ∧
          t = { s with jobs := (s.jobs.insert job).1, lastBackground := job.lastPid?, status := 0 }) ∨
        (∃ e, r = .error e) ∧ t = s) := by
  refine Ensures.bind (ensures_launchStages ev _ true) (fun job t κ₁ h => ?_)
    fun e t κ₁ h => ⟨h.2.1, .inr ⟨⟨e, rfl⟩, h.1⟩⟩
  obtain ⟨rfl, hsp, hnew⟩ := h
  refine Ensures.get_bind (Ensures.modify_bind (Ensures.get_bind ?_))
  show Ensures family (if t.isInteractive = true then _ else setStatus 0)
    { t with jobs := (t.jobs.insert job).1, lastBackground := job.lastPid? } κ₁ _
  rw [if_neg (Bool.eq_false_iff.mp hplain)]
  refine Ensures.modify fun κ₂ hd => ?_
  have hsp' := Children.spares_of_drifts hd
  exact ⟨hsp.trans hsp', .inl ⟨job, rfl, (hnew job rfl).of_spares hsp', rfl⟩⟩

end Shell

end CommandShell
