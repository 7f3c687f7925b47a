import CommandShell.Proofs.Children

/-!
# Waiting for background jobs

A script starts jobs in the background, their processes end when they like, the main loop looks after
jobs between commands, and `wait` asks for the status of a process. `Step` is one of these things
(`Deed`), during which children may end at any moment, and a history is any number of steps.

`wait_settled` says what the first `wait` for a job comes to. It waits until the job has ended and gives
the status of its last process, the one that `$!` named, unless a checkpoint came after the job had
ended and while `$!` named a process of another job. Such a checkpoint forgets the job, and the status
is 127 then. So the status depends on when the children ended (`not_wait_settled`).
-/

namespace CommandShell

open Host (Call Reply Program Event Surroundings)
open Host.Program (Comes Reaches)

/-! ## Numerals -/

namespace Numeral

theorem digits?_append (base acc : Nat) (t u : Text) :
    digits? base acc (t ++ u) = (digits? base acc t).bind fun n => digits? base n u := by
  induction t generalizing acc with
  | nil => rfl
  | cons c t ih =>
      show (digit? base c).bind _ = ((digit? base c).bind _).bind _
      rw [Option.bind_assoc]
      exact congrArg _ (funext fun d => ih _)

theorem digit?_digitChar {base d : Nat} (hbase : base ≤ 16) (hd : d < base) :
    digit? base d.digitChar = some d := by
  have hsmall : ∀ b ≤ 16, ∀ d < b, digit? b d.digitChar = some d := by decide
  exact hsmall base hbase d hd

/-- The digits of a number are read as that number. -/
theorem digits?_toDigits {base : Nat} (hone : 1 < base) (hbase : base ≤ 16) (n : Nat) :
    digits? base 0 (Nat.toDigits base n) = some n := by
  induction n using Nat.strongRecOn with
  | _ n ih =>
    by_cases hn : n < base
    · rw [Nat.toDigits_of_lt_base hn]
      simp [digits?, digit?_digitChar hbase hn]
    · have hle : base ≤ n := Nat.le_of_not_lt hn
      rw [Nat.toDigits_of_base_le hone hle, digits?_append,
        ih (n / base) (Nat.div_lt_self (by omega) hone)]
      have hd := digit?_digitChar hbase (Nat.mod_lt n (by omega))
      simp [digits?, hd, Nat.div_add_mod']

theorem digits?_ofNat (n : Nat) : digits? 10 0 (Text.ofNat n) = some n :=
  digits?_toDigits (by decide) (by decide) n

/-- A numeral starts with a digit. -/
theorem exists_ofNat_eq_cons (n : Nat) : ∃ c r, Text.ofNat n = c :: r ∧ c.isDigit = true := by
  obtain ⟨c, r, hcr⟩ := List.exists_cons_of_ne_nil (show Text.ofNat n ≠ [] from Nat.toDigits_ne_nil)
  have hmem : c ∈ Text.ofNat n := by
    rw [hcr]
    exact List.mem_cons_self
  exact ⟨c, r, hcr, Nat.isDigit_of_mem_toDigits (by decide) (by decide) hmem⟩

theorem unsigned?_ofNat (n : Nat) : unsigned? 10 (Text.ofNat n) = some n := by
  have hread := digits?_ofNat n
  obtain ⟨c, r, hcr, -⟩ := exists_ofNat_eq_cons n
  rw [hcr] at hread ⊢
  exact hread

theorem signed?_ofNat (bound n : Nat) :
    signed? bound (Text.ofNat n) = ((some n).filter (· < bound)).map Int.ofNat := by
  have hread := unsigned?_ofNat n
  obtain ⟨c, r, hcr, hc⟩ := exists_ofNat_eq_cons n
  rw [hcr] at hread ⊢
  have hbelow : below? 10 bound (c :: r) = (some n).filter (· < bound) := by
    unfold below?
    split
    · rename_i heq
      cases heq
      exact absurd hc (by decide)
    · show (unsigned? 10 (c :: r)).filter _ = _
      rw [hread]
  unfold signed?
  split
  · rename_i heq
    cases heq
    exact absurd hc (by decide)
  · rw [hbelow]

/-- The numeral of an integer is read as that integer, if at all. -/
theorem eq_of_int32?_ofInt {x y : Int} (h : int32? (Text.ofInt x) = some y) : y = x := by
  cases x with
  | ofNat n =>
      obtain ⟨n', hn', rfl⟩ := Option.map_eq_some_iff.mp ((signed?_ofNat _ n).symm.trans h)
      exact congrArg Int.ofNat (Option.some.inj (Option.filter_eq_some_iff.mp hn').1.symm)
  | negSucc n =>
      obtain ⟨z, hz, rfl⟩ := Option.map_eq_some_iff.mp h
      obtain ⟨n', hn', hcast⟩ := Option.bind_eq_some_iff.mp hz
      have hread := (Option.filter_eq_some_iff.mp hn').1
      rw [unsigned?_ofNat] at hread
      rw [← Option.some.inj hcast, ← Option.some.inj hread]
      rfl

theorem int32?_ofInt {x : Int} (h : 0 ≤ x) (hx : x < 0x80000000) :
    int32? (Text.ofInt x) = some x := by
  obtain ⟨n, rfl⟩ := Int.eq_ofNat_of_zero_le h
  refine (signed?_ofNat _ n).trans ?_
  have hn : n < 0x80000000 := by omega
  simp [hn]

theorem head?_ofInt_ne (x : Int) : (Text.ofInt x).head? ≠ some '%' := by
  cases x with
  | ofNat n =>
      obtain ⟨c, r, hcr, hc⟩ := exists_ofNat_eq_cons n
      show (Text.ofNat n).head? ≠ _
      rw [hcr]
      rintro heq
      cases heq
      exact absurd hc (by decide)
  | negSucc n => exact fun heq => absurd (Option.some.inj heq) (by decide)

end Numeral

namespace Shell

variable {s t : Shell} {κ κ' : Children} {ev : Evaluator}

/-! ## Checkpoints -/

/-- `$!` names none of the processes. -/
def Unnamed (s : Shell) (pids : List ProcessId) : Prop :=
  ∀ pid, s.lastBackground = some pid → pid ∉ pids

/-- None of the processes runs any more. -/
def AllOver (κ : Children) (pids : List ProcessId) : Prop := ∀ pid ∈ pids, (κ.life pid).isOver

theorem ensures_runTraps (ev : Evaluator) (s : Shell) (κ : Children) :
    Ensures family (runTraps ev) s κ fun r t κ' => r = .ok () ∧ t = s ∧ κ.Spares κ' := by
  refine Ensures.get_bind ?_
  split
  · exact Ensures.pure fun _ hd => ⟨rfl, rfl, Children.spares_of_drifts hd⟩
  · refine Ensures.ask_bind fun κ₁ r κ₂ hd ha => ?_
    obtain ⟨rfl, rfl⟩ := ha
    exact Ensures.pure fun _ hd' =>
      ⟨rfl, rfl, (Children.spares_of_drifts hd).trans (Children.spares_of_drifts hd')⟩

/-- A checkpoint forgets a job only if it has ended and `$!` names none of its processes, and it does
so if all of them had ended before it. -/
structure Forgets (s : Shell) (κ : Children) (t : Shell) (κ' : Children) : Prop where
  only : t = { s with jobs := t.jobs }
  tells : t.jobs.Tells κ'
  ages : κ.Ages κ'
  kept : ∀ i j, s.jobs.at? i = some j → (∃ j', t.jobs.at? i = some j' ∧ j'.pids = j.pids) ∨
    AllOver κ' j.pids ∧ Unnamed s j.pids
  left : ∀ i j', t.jobs.at? i = some j' → ∃ j, s.jobs.at? i = some j ∧ j'.pids = j.pids ∧
    ¬ (AllOver κ j.pids ∧ Unnamed s j.pids)

/-- What is left of the table after finished jobs were forgotten. -/
theorem Learns.forgets {κ₁ κ₂ : Children} (h : Learns s κ t κ₁)
    (hover : ∀ pid, (κ.life pid).isOver → (κ₁.life pid).isReported) (hsp : κ₁.Spares κ₂) :
    Forgets s κ { t with jobs := removeJobs t.jobs (forgettable t.jobs t.lastBackground) } κ₂ := by
  have hlast : t.lastBackground = s.lastBackground := by rw [h.only]
  have hat : ∀ i j, (removeJobs t.jobs (forgettable t.jobs t.lastBackground)).at? i = some j ↔
      i + 1 ∉ forgettable t.jobs t.lastBackground ∧ t.jobs.at? i = some j := by
    intro i j
    rw [Jobs.at?_removeJobs]
    split <;> simp_all
  have htells : (removeJobs t.jobs (forgettable t.jobs t.lastBackground)).Tells κ₁ :=
    ⟨h.tells.orderly.removeJobs _, fun i j q hi hq => h.tells.fits i j q ((hat i j).mp hi).2 hq⟩
  refine ⟨?_, htells.of_spares hsp, h.ages.trans hsp.ages, fun i j hi => ?_, fun i j' hi => ?_⟩
  · rw [h.only]
  · obtain ⟨j', hi', hpids⟩ := h.same.at? hi
    by_cases hfree : i + 1 ∈ forgettable t.jobs t.lastBackground
    · obtain ⟨j'', hi'', hdone, hunnamed⟩ := h.tells.orderly.mem_forgettable_iff.mp hfree
      obtain rfl : j'' = j' := Option.some.inj (hi''.symm.trans hi')
      rw [← hpids]
      refine .inr ⟨fun pid hpid => ?_, fun pid hpid => hunnamed pid (hlast.trans hpid)⟩
      exact Life.isOver_of_isReported
        (hsp.ages.isReported ((h.tells.state_eq_done_iff hi').mp hdone pid hpid))
    · exact .inl ⟨j', (hat i j').mpr ⟨hfree, hi'⟩, hpids⟩
  · obtain ⟨hfree, hi'⟩ := (hat i j').mp hi
    obtain ⟨j, hj, hpids⟩ := h.same.symm.at? hi'
    refine ⟨j, hj, hpids.symm, ?_⟩
    rintro ⟨hall, hunnamed⟩
    rw [hpids] at hall hunnamed
    refine hfree (h.tells.orderly.mem_forgettable_iff.mpr
      ⟨j', hi', ?_, fun pid hpid => hunnamed pid (hlast.symm.trans hpid)⟩)
    exact (h.tells.state_eq_done_iff hi').mpr fun pid hpid => hover pid (hall pid hpid)

theorem ensures_checkpoint (ev : Evaluator) (h : s.jobs.Tells κ) (hplain : s.isInteractive = false) :
    Ensures family (checkpoint ev) s κ fun r t κ' => r = .ok () ∧ Forgets s κ t κ' := by
  refine Ensures.get_bind ?_
  refine Ensures.bind (R := fun r t κ' => r = .ok () ∧ Learns s κ t κ' ∧
    ∀ pid, (κ.life pid).isOver → (κ'.life pid).isReported) ?_ (fun _ t κ₁ hreap => ?_) ?_
  · refine Ensures.attempt_bind (ensures_reap h _).stays fun r t κ₁ hr => ?_
    refine Ensures.pure fun κ₂ hd => ?_
    obtain ⟨-, hlearns, hover⟩ := hr κ₂ hd
    exact ⟨rfl, hlearns, hover⟩
  · obtain ⟨-, hlearns, hover⟩ := hreap
    have hplain' : ¬ t.isInteractive = true := by
      rw [hlearns.only]
      exact Bool.eq_false_iff.mp hplain
    refine Ensures.get_bind ?_
    dsimp only
    rw [if_neg hplain']
    refine Ensures.modify_bind ((ensures_runTraps ev _ κ₁).mono ?_)
    rintro r u κ₂ ⟨rfl, rfl, hsp⟩
    exact ⟨rfl, hlearns.forgets hover hsp⟩
  · rintro e t κ' ⟨heq, -⟩
    cases heq

/-! ## Waiting for a process -/

theorem ensures_waitOperand (x : ProcessId) (s : Shell) (κ : Children) :
    Ensures family (Commands.waitOperand (Text.ofInt x)) s κ fun r t κ' => t = s ∧ κ.Spares κ' ∧
      ((∃ pid, Numeral.int32? (Text.ofInt x) = some pid ∧
          r = .ok ((s.jobs.ofPid? pid).bind (·.id))) ∨
        Numeral.int32? (Text.ofInt x) = none ∧ ∃ e, r = .error e) := by
  refine Ensures.get_bind ?_
  dsimp only
  rw [if_neg (by simpa using Numeral.head?_ofInt_ne x)]
  cases Numeral.int32? (Text.ofInt x) with
  | some pid =>
      exact Ensures.pure fun _ hd =>
        ⟨rfl, Children.spares_of_drifts hd, .inl ⟨pid, rfl, rfl⟩⟩
  | none =>
      exact Ensures.throw fun _ hd =>
        ⟨rfl, Children.spares_of_drifts hd, .inr ⟨rfl, _, rfl⟩⟩

/-- Nobody knows the process: the status is 127, unless the number is out of range. -/
theorem ensures_runWait_unknown {x : ProcessId} (hx : ∀ i j, s.jobs.at? i = some j → x ∉ j.pids) :
    Ensures family (Commands.runWait [Text.ofInt x]) s κ fun r t κ' =>
      t = { s with status := t.status } ∧ κ.Spares κ' ∧
        (0 ≤ x → x < 0x80000000 → r = .ok () ∧ t.status = 127) := by
  refine Ensures.bind (ensures_waitOperand x s κ) (fun n t κ₁ h => ?_) fun e t κ₁ h => ?_
  · obtain ⟨rfl, hsp, ⟨pid, hpid, heq⟩ | ⟨-, e, heq⟩⟩ := h
    · obtain rfl := Numeral.eq_of_int32?_ofInt hpid
      rw [Jobs.ofPid?_eq_none hx] at heq
      cases heq
      exact Ensures.modify fun κ₂ hd =>
        ⟨rfl, hsp.trans (Children.spares_of_drifts hd), fun _ _ => ⟨rfl, rfl⟩⟩
    · cases heq
  · obtain ⟨rfl, hsp, ⟨pid, hpid, heq⟩ | ⟨hnone, -⟩⟩ := h
    · cases heq
    · refine ⟨rfl, hsp, fun hlow hhigh => ?_⟩
      rw [Numeral.int32?_ofInt hlow hhigh] at hnone
      cases hnone

/-- The status of a job whose processes were reported is that of the last one. -/
theorem status_of_reported {js : Jobs} (h : js.Tells κ) {i : Nat} {j : Job}
    (hi : js.at? i = some j) (hall : ∀ pid ∈ j.pids, (κ.life pid).isReported) (hne : j.pids ≠ []) :
    ∃ pid status, j.pids.getLast? = some pid ∧ κ.life pid = .reported status ∧
      j.status = status.code := by
  have hne' : j.processes ≠ [] := by
    intro hnil
    exact hne (by rw [Job.pids, hnil]; rfl)
  obtain ⟨q, hq⟩ := Option.isSome_iff_exists.mp (List.getLast?_isSome.mpr hne')
  have hmem := List.mem_of_getLast? hq
  have hfits := h.fits i j q hi hmem
  have hrep := hall q.pid (List.mem_map.mpr ⟨q, hmem, rfl⟩)
  cases hlife : κ.life q.pid with
  | reported status =>
      rw [hlife] at hfits
      refine ⟨q.pid, status, by rw [Job.pids, List.getLast?_map, hq]; rfl, hlife, ?_⟩
      unfold Job.status
      rw [hq]
      exact congrArg ProcessStatus.code (show q.status = status from hfits)
  | _ =>
      rw [hlife] at hrep
      cases hrep

/-- The job that was waited for is gone, and all others are where they were. -/
structure Collects (s : Shell) (κ : Children) (i : Nat) (t : Shell) (κ' : Children) : Prop where
  only : t = { s with jobs := t.jobs, status := t.status }
  tells : t.jobs.Tells κ'
  ages : κ.Ages κ'
  places : ∀ i', (t.jobs.at? i').map Job.pids =
    if i' = i then none else (s.jobs.at? i').map Job.pids

/-- A process of a job: the shell waits for the job, takes it out of the table, and gives the status
of its last process. -/
theorem ensures_runWait_known (h : s.jobs.Tells κ) {x : ProcessId} {i : Nat} {j : Job}
    (hi : s.jobs.at? i = some j) (hx : x ∈ j.pids) :
    Ensures family (Commands.runWait [Text.ofInt x]) s κ fun r t κ' => r = .ok () ∧
      Collects s κ i t κ' ∧ ∃ pid status, j.pids.getLast? = some pid ∧
        κ'.life pid = .reported status ∧ t.status = status.code := by
  refine Ensures.bind (ensures_waitOperand x s κ) (fun n t κ₁ hn => ?_) fun e t κ₁ he => ?_
  · obtain ⟨rfl, hsp, ⟨pid, hpid, heq⟩ | ⟨-, e, heq⟩⟩ := hn
    · obtain rfl := Numeral.eq_of_int32?_ofInt hpid
      rw [h.orderly.ofPid?_eq_some hi hx, Option.bind_some, h.orderly.numbered i j hi] at heq
      cases heq
      refine Ensures.bind (ensures_waitJob (h.of_spares hsp) hi) (fun r u κ₂ hwait => ?_)
        fun e u κ₂ he => ?_
      · obtain ⟨heq, hlearns, hall⟩ := hwait
        cases heq
        obtain ⟨j', hi', hpids⟩ := hlearns.same.at? hi
        rw [← hpids] at hx hall ⊢
        have hdone := (hlearns.tells.state_eq_done_iff hi').mpr hall
        obtain ⟨last, status, hlast, hlife, hcode⟩ :=
          status_of_reported hlearns.tells hi' hall (List.ne_nil_of_mem hx)
        refine Ensures.get_bind ?_
        rw [hlearns.tells.orderly.get?_eq_at?, hi']
        dsimp only
        rw [if_pos (by simp [Job.isAlive, hdone])]
        refine Ensures.modify_bind (Ensures.modify fun κ₃ hd => ?_)
        have hsp₃ := Children.spares_of_drifts hd
        refine ⟨rfl, ⟨?_, ?_, ?_, fun i' => ?_⟩, last, status, hlast,
          hsp₃.ages.reported last status hlife, hcode⟩
        · rw [hlearns.only]
        · refine Jobs.Tells.of_spares ⟨hlearns.tells.orderly.remove i, fun i' j q hi' hq => ?_⟩ hsp₃
          rw [Jobs.at?_remove] at hi'
          split at hi'
          · cases hi'
          · exact hlearns.tells.fits i' j q hi' hq
        · exact (hsp.ages.trans hlearns.ages).trans hsp₃.ages
        · rw [Jobs.at?_remove]
          split
          · rfl
          · exact hlearns.same i'
      · cases he.1
    · cases heq
  · obtain ⟨rfl, -, ⟨pid, -, heq⟩ | ⟨hnone, -⟩⟩ := he
    · cases heq
    · obtain ⟨hlow, hhigh⟩ := κ.numbered x (h.born hi hx)
      rw [Numeral.int32?_ofInt hlow.le (hhigh.trans (by decide))] at hnone
      cases hnone

end Shell

/-! ## Histories -/

open Shell

/-- A shell and its children. -/
structure Moment where
  shell : Shell
  children : Children

/-- What a script does that has to do with background jobs. -/
inductive Deed where
  | start (body : Script.Node)
  | checkpoint
  | wait (pid : ProcessId)

/-- What a deed runs. -/
def Deed.run (ev : Evaluator) : Deed → ShellM Unit
  | start body => runBackground ev body
  | checkpoint => Shell.checkpoint ev
  | wait pid => Commands.runWait [Text.ofInt pid]

namespace Moment

/-- A deed is done and comes to a result. Children may end at any moment before, during and after
it. -/
def Step (ev : Evaluator) (m : Moment) (d : Deed) (r : Except Stop Unit) (m' : Moment) : Prop :=
  ∃ es, ((d.run ev).startedIn m.shell).Comes es (.done (r, m'.shell)) ∧
    family.Takes m.children es m'.children

/-- Some deed is done. -/
def Next (ev : Evaluator) (m m' : Moment) : Prop := ∃ d r, Step ev m d r m'

/-- A deed that does not ask for the job of the given processes. -/
def NextUnasked (ev : Evaluator) (pids : List ProcessId) (m m' : Moment) : Prop :=
  ∃ d r, Step ev m d r m' ∧ ∀ pid ∈ pids, d ≠ .wait pid

/-- A deed that neither asks for the job of the given processes nor, as a checkpoint, finds them all
ended while `$!` names none of them. -/
def NextRemembered (ev : Evaluator) (pids : List ProcessId) (m m' : Moment) : Prop :=
  ∃ d r, Step ev m d r m' ∧ (∀ pid ∈ pids, d ≠ .wait pid) ∧
    (d = .checkpoint → ¬ (AllOver m'.children pids ∧ Unnamed m.shell pids))

/-- A shell that runs a script, and knows the truth about its children. -/
structure Sound (m : Moment) : Prop where
  plain : m.shell.isInteractive = false
  tells : m.shell.jobs.Tells m.children

/-- The table has the job of the given processes. -/
def Has (m : Moment) (pids : List ProcessId) : Prop :=
  ∃ i j, m.shell.jobs.at? i = some j ∧ j.pids = pids

/-- The given processes were born, and no job has any of them. -/
def Forgot (m : Moment) (pids : List ProcessId) : Prop :=
  ∀ pid ∈ pids, m.children.life pid ≠ .unborn ∧ ∀ i j, m.shell.jobs.at? i = some j → pid ∉ j.pids

variable {ev : Evaluator} {m m' : Moment} {d : Deed} {r : Except Stop Unit} {pids : List ProcessId}
  {pid : ProcessId} {body : Script.Node}

/-- What holds after every run of a deed holds after a step. -/
theorem Step.ensures {Q : Except Stop Unit → Shell → Children → Prop} (h : Step ev m d r m')
    (hd : Ensures family (d.run ev) m.shell m.children Q) : Q r m'.shell m'.children := by
  obtain ⟨es, hes, ht⟩ := h
  exact hd hes ht

theorem Step.ages (h : Step ev m d r m') : m.children.Ages m'.children := by
  obtain ⟨es, -, ht⟩ := h
  exact Children.ages_of_takes ht

/-- A job of newborn processes goes into the table. -/
theorem tells_insert {js : Jobs} {κ κ' : Children} {job : Job} (h : js.Tells κ) (hsp : κ.Spares κ')
    (hnew : Newborn κ κ' job.processes) : (js.insert job).1.Tells κ' := by
  refine ⟨h.orderly.insert hnew.distinct fun i j pid hi hpid hmem => ?_, fun i j q hi hq => ?_⟩
  · obtain ⟨q, hq, rfl⟩ := List.mem_map.mp hmem
    exact h.born hi hpid (hnew.fresh q hq)
  · rw [Jobs.at?_insert] at hi
    split at hi
    · cases hi
      rw [hnew.running q hq]
      exact hnew.fits q hq
    · exact (h.of_spares hsp).fits i j q hi hq

/-- A job that was started has processes that nobody had before, and all other jobs stay. -/
theorem Step.start (hm : m.Sound) (h : Step ev m (.start body) r m') : m'.Sound ∧
    ((∃ i j, r = .ok () ∧ m.shell.jobs.at? i = none ∧ m'.shell.jobs.at? i = some j ∧
        m'.shell.lastBackground = j.pids.getLast? ∧
        (∀ pid ∈ j.pids, m.children.life pid = .unborn ∧ m'.children.life pid ≠ .unborn) ∧
        ∀ i', i' ≠ i → m'.shell.jobs.at? i' = m.shell.jobs.at? i') ∨
      (∃ e, r = .error e) ∧ m'.shell = m.shell) := by
  obtain ⟨hsp, ⟨job, rfl, hnew, hshell⟩ | ⟨herror, hshell⟩⟩ :=
    h.ensures (ensures_runBackground ev body hm.plain)
  · have htells := tells_insert hm.tells hsp hnew
    have hat := Jobs.at?_insert m.shell.jobs job
    obtain ⟨s', κ'⟩ := m'
    dsimp only at hshell hsp hnew htells ⊢
    subst hshell
    refine ⟨⟨hm.plain, htells⟩, .inl ⟨Jobs.freeSlot m.shell.jobs.slots, _, rfl,
      Jobs.at?_freeSlot _, (hat _).trans (if_pos rfl), Job.lastPid?_eq, fun pid hpid => ?_,
      fun i' hi' => (hat i').trans (if_neg hi')⟩⟩
    obtain ⟨q, hq, rfl⟩ := List.mem_map.mp hpid
    refine ⟨hnew.fresh q hq, fun hu => ?_⟩
    have hfits := hnew.fits q hq
    rw [hu] at hfits
    exact hfits
  · exact ⟨⟨hshell ▸ hm.plain, hshell ▸ hm.tells.of_spares hsp⟩, .inr ⟨herror, hshell⟩⟩

theorem Step.checkpoint (hm : m.Sound) (h : Step ev m .checkpoint r m') :
    m'.Sound ∧ r = .ok () ∧ Forgets m.shell m.children m'.shell m'.children := by
  obtain ⟨hr, hforgets⟩ := h.ensures (ensures_checkpoint ev hm.tells hm.plain)
  refine ⟨⟨?_, hforgets.tells⟩, hr, hforgets⟩
  rw [hforgets.only]
  exact hm.plain

/-- Waiting for a process of a job gives the status of its last process, and no other job changes
its place. -/
theorem Step.wait_known (hm : m.Sound) (h : Step ev m (.wait pid) r m') {i : Nat} {j : Job}
    (hi : m.shell.jobs.at? i = some j) (hpid : pid ∈ j.pids) : m'.Sound ∧ r = .ok () ∧
      Collects m.shell m.children i m'.shell m'.children ∧ ∃ last status,
        j.pids.getLast? = some last ∧ m'.children.life last = .reported status ∧
          m'.shell.status = status.code := by
  obtain ⟨hr, hcollects, hstatus⟩ := h.ensures (ensures_runWait_known hm.tells hi hpid)
  refine ⟨⟨?_, hcollects.tells⟩, hr, hcollects, hstatus⟩
  rw [hcollects.only]
  exact hm.plain

/-- Waiting for a process that no job has changes nothing but the status. -/
theorem Step.wait_unknown (hm : m.Sound) (h : Step ev m (.wait pid) r m')
    (hpid : ∀ i j, m.shell.jobs.at? i = some j → pid ∉ j.pids) : m'.Sound ∧
      m'.shell.jobs = m.shell.jobs ∧
      (m.children.life pid ≠ .unborn → r = .ok () ∧ m'.shell.status = 127) := by
  obtain ⟨hshell, hsp, hstatus⟩ := h.ensures (ensures_runWait_unknown hpid)
  have hjobs : m'.shell.jobs = m.shell.jobs := by rw [hshell]
  refine ⟨⟨?_, hjobs ▸ hm.tells.of_spares hsp⟩, hjobs, fun hborn => ?_⟩
  · rw [hshell]
    exact hm.plain
  · obtain ⟨hlow, hhigh⟩ := m.children.numbered pid hborn
    exact hstatus hlow.le (hhigh.trans (by decide))

/-- A process that is waited for is one of a job, or no job has it. -/
theorem known_or_unknown (m : Moment) (pid : ProcessId) :
    (∃ i j, m.shell.jobs.at? i = some j ∧ pid ∈ j.pids) ∨
      ∀ i j, m.shell.jobs.at? i = some j → pid ∉ j.pids := by
  by_cases h : ∃ i j, m.shell.jobs.at? i = some j ∧ pid ∈ j.pids
  · exact .inl h
  · exact .inr fun i j hi hpid => h ⟨i, j, hi, hpid⟩

theorem Next.sound (hm : m.Sound) (h : Next ev m m') : m'.Sound := by
  obtain ⟨d, r, h⟩ := h
  cases d with
  | start body => exact (h.start hm).1
  | checkpoint => exact (h.checkpoint hm).1
  | wait pid =>
      rcases known_or_unknown m pid with ⟨i, j, hi, hpid⟩ | hunknown
      · exact (h.wait_known hm hi hpid).1
      · exact (h.wait_unknown hm hunknown).1

/-! ## What becomes of a job -/

/-- A job stays in the table until it is asked for or forgotten. -/
theorem NextRemembered.has (hm : m.Sound) (hhas : m.Has pids) (h : NextRemembered ev pids m m') :
    m'.Has pids := by
  obtain ⟨d, r, h, hwait, hcheck⟩ := h
  obtain ⟨i, j, hi, rfl⟩ := hhas
  cases d with
  | start body =>
      obtain ⟨-, ⟨i', j', -, hfree, -, -, -, hother⟩ | ⟨-, hshell⟩⟩ := h.start hm
      · refine ⟨i, j, (hother i ?_).trans hi, rfl⟩
        rintro rfl
        rw [hi] at hfree
        cases hfree
      · exact ⟨i, j, hshell ▸ hi, rfl⟩
  | checkpoint =>
      obtain ⟨-, -, hforgets⟩ := h.checkpoint hm
      rcases hforgets.kept i j hi with ⟨j', hi', hpids⟩ | hlost
      · exact ⟨i, j', hi', hpids⟩
      · exact absurd hlost (hcheck rfl)
  | wait pid =>
      rcases known_or_unknown m pid with ⟨i', j', hi', hpid⟩ | hunknown
      · have hne : i ≠ i' := by
          rintro rfl
          rw [hi] at hi'
          cases hi'
          exact hwait pid hpid rfl
        obtain ⟨-, -, hcollects, -⟩ := h.wait_known hm hi' hpid
        have hplace := hcollects.places i
        rw [if_neg hne, hi] at hplace
        obtain ⟨j'', hj'', hpids⟩ := Option.map_eq_some_iff.mp hplace
        exact ⟨i, j'', hj'', hpids⟩
      · exact ⟨i, j, (h.wait_unknown hm hunknown).2.1 ▸ hi, rfl⟩

/-- Nobody learns again of a job that is not in the table any more. -/
theorem Next.forgot (hm : m.Sound) (hforgot : m.Forgot pids) (h : Next ev m m') :
    m'.Forgot pids := by
  obtain ⟨d, r, h⟩ := h
  refine fun pid hpid => ⟨h.ages.born pid (hforgot pid hpid).1, fun i j hi hmem => ?_⟩
  have hbefore : ∀ i j, m.shell.jobs.at? i = some j → pid ∉ j.pids := (hforgot pid hpid).2
  cases d with
  | start body =>
      obtain ⟨-, ⟨i', j', -, -, hnew, -, hfresh, hother⟩ | ⟨-, hshell⟩⟩ := h.start hm
      · by_cases hne : i = i'
        · obtain rfl : j = j' := Option.some.inj (hi.symm.trans (hne ▸ hnew))
          exact (hforgot pid hpid).1 (hfresh pid hmem).1
        · exact hbefore i j ((hother i hne).symm.trans hi) hmem
      · exact hbefore i j (hshell ▸ hi) hmem
  | checkpoint =>
      obtain ⟨-, -, hforgets⟩ := h.checkpoint hm
      obtain ⟨j', hi', hpids, -⟩ := hforgets.left i j hi
      exact hbefore i j' hi' (hpids ▸ hmem)
  | wait pid' =>
      rcases known_or_unknown m pid' with ⟨i', j', hi', hpid'⟩ | hunknown
      · obtain ⟨-, -, hcollects, -⟩ := h.wait_known hm hi' hpid'
        have hplace := hcollects.places i
        rw [hi] at hplace
        split at hplace
        · cases hplace
        · obtain ⟨j'', hj'', hpids⟩ := Option.map_eq_some_iff.mp hplace.symm
          exact hbefore i j'' hj'' (hpids ▸ hmem)
      · exact hbefore i j ((h.wait_unknown hm hunknown).2.1 ▸ hi) hmem

/-- Nobody has the processes of a job any more when its place is empty and no job came. -/
theorem forgot_of_empty (hm : m.Sound) {i : Nat} {j : Job} (hi : m.shell.jobs.at? i = some j)
    (hages : m.children.Ages m'.children) (hleft : ∀ i' j', m'.shell.jobs.at? i' = some j' →
      i' ≠ i ∧ ∃ j'', m.shell.jobs.at? i' = some j'' ∧ j'.pids = j''.pids) :
    m'.Forgot j.pids := by
  refine fun pid hpid => ⟨hages.born pid (hm.tells.born hi hpid), fun i' j' hi' hmem => ?_⟩
  obtain ⟨hne, j'', hi'', hpids⟩ := hleft i' j' hi'
  exact hne (hm.tells.orderly.apart i' i j'' j pid hi'' hi (hpids ▸ hmem) hpid)

/-- A checkpoint forgets a job that has ended while `$!` names none of its processes. -/
theorem Step.forgets (hm : m.Sound) (hhas : m.Has pids) (h : Step ev m .checkpoint r m')
    (hover : AllOver m.children pids) (hunnamed : Unnamed m.shell pids) : m'.Forgot pids := by
  obtain ⟨i, j, hi, rfl⟩ := hhas
  obtain ⟨-, -, hforgets⟩ := h.checkpoint hm
  refine forgot_of_empty hm hi h.ages fun i' j' hi' => ?_
  obtain ⟨j'', hi'', hpids, hkept⟩ := hforgets.left i' j' hi'
  refine ⟨?_, j'', hi'', hpids⟩
  rintro rfl
  rw [hi] at hi''
  cases hi''
  exact hkept ⟨hover, hunnamed⟩

/-- A job that was asked for is gone. -/
theorem Step.collects (hm : m.Sound) (hhas : m.Has pids) (h : Step ev m (.wait pid) r m')
    (hpid : pid ∈ pids) : m'.Forgot pids := by
  obtain ⟨i, j, hi, rfl⟩ := hhas
  obtain ⟨-, -, hcollects, -⟩ := h.wait_known hm hi hpid
  refine forgot_of_empty hm hi h.ages fun i' j' hi' => ?_
  have hplace := hcollects.places i'
  rw [hi'] at hplace
  split at hplace
  · cases hplace
  · rename_i hne
    obtain ⟨j'', hj'', hpids⟩ := Option.map_eq_some_iff.mp hplace.symm
    exact ⟨hne, j'', hj'', hpids.symm⟩

/-- A job is in the table, or nobody learns of it again. -/
theorem Next.has_or_forgot (hm : m.Sound) (hjob : m.Has pids ∨ m.Forgot pids) (h : Next ev m m') :
    m'.Has pids ∨ m'.Forgot pids := by
  rcases hjob with hhas | hforgot
  · obtain ⟨d, r, hstep⟩ := h
    by_cases hwait : ∃ pid ∈ pids, d = .wait pid
    · obtain ⟨pid, hpid, rfl⟩ := hwait
      exact .inr (hstep.collects hm hhas hpid)
    by_cases hcheck : d = .checkpoint ∧ AllOver m'.children pids ∧ Unnamed m.shell pids
    · obtain ⟨rfl, -, -⟩ := hcheck
      obtain ⟨i, j, hi, rfl⟩ := hhas
      obtain ⟨-, -, hforgets⟩ := hstep.checkpoint hm
      cases hplace : m'.shell.jobs.at? i with
      | some j' =>
          obtain ⟨j'', hi'', hpids, -⟩ := hforgets.left i j' hplace
          obtain rfl : j'' = j := Option.some.inj (hi''.symm.trans hi)
          exact .inl ⟨i, j', hplace, hpids⟩
      | none =>
          refine .inr (forgot_of_empty hm hi hstep.ages fun i' j' hi' => ⟨?_, ?_⟩)
          · rintro rfl
            rw [hplace] at hi'
            cases hi'
          · obtain ⟨j'', hi'', hpids, -⟩ := hforgets.left i' j' hi'
            exact ⟨j'', hi'', hpids⟩
    · exact .inl (NextRemembered.has hm hhas ⟨d, r, hstep,
        fun pid hpid hd => hwait ⟨pid, hpid, hd⟩, fun hd hend => hcheck ⟨hd, hend⟩⟩)
  · exact .inr (h.forgot hm hforgot)

/-- A process of a job in the table: the status of the last one. -/
theorem Step.wait_has (hm : m.Sound) (hhas : m.Has pids) (h : Step ev m (.wait pid) r m')
    (hpid : pid ∈ pids) : r = .ok () ∧ ∃ last status, pids.getLast? = some last ∧
      m'.children.life last = .reported status ∧ m'.shell.status = status.code := by
  obtain ⟨i, j, hi, rfl⟩ := hhas
  obtain ⟨-, hr, -, hstatus⟩ := h.wait_known hm hi hpid
  exact ⟨hr, hstatus⟩

/-- A process that nobody learns of again: 127. -/
theorem Step.wait_forgot (hm : m.Sound) (hforgot : m.Forgot pids) (h : Step ev m (.wait pid) r m')
    (hpid : pid ∈ pids) : r = .ok () ∧ m'.shell.status = 127 := by
  obtain ⟨hborn, hnone⟩ := hforgot pid hpid
  exact (h.wait_unknown hm hnone).2.2 hborn

/-! ## Runs -/

open Relation (ReflTransGen)

theorem sound_of_nexts (hm : m.Sound) (h : ReflTransGen (Next ev) m m') : m'.Sound := by
  induction h with
  | refl => exact hm
  | tail _ hnext ih => exact hnext.sound ih

theorem NextRemembered.next (h : NextRemembered ev pids m m') : Next ev m m' := by
  obtain ⟨d, r, h, -⟩ := h
  exact ⟨d, r, h⟩

theorem has_of_nexts (hm : m.Sound) (hhas : m.Has pids)
    (h : ReflTransGen (NextRemembered ev pids) m m') : m'.Sound ∧ m'.Has pids := by
  induction h with
  | refl => exact ⟨hm, hhas⟩
  | tail _ hnext ih => exact ⟨hnext.next.sound ih.1, hnext.has ih.1 ih.2⟩

theorem has_or_forgot_of_nexts (hm : m.Sound) (hjob : m.Has pids ∨ m.Forgot pids)
    (h : ReflTransGen (Next ev) m m') : m'.Has pids ∨ m'.Forgot pids := by
  induction h with
  | refl => exact hjob
  | tail hbefore hnext ih => exact hnext.has_or_forgot (sound_of_nexts hm hbefore) ih

theorem forgot_of_nexts (hm : m.Sound) (hforgot : m.Forgot pids)
    (h : ReflTransGen (Next ev) m m') : m'.Forgot pids := by
  induction h with
  | refl => exact hforgot
  | tail hbefore hnext ih => exact hnext.forgot (sound_of_nexts hm hbefore) ih

/-- A shell that has no jobs knows the truth about its children. -/
theorem sound_of_empty (hplain : m.shell.isInteractive = false) (hjobs : m.shell.jobs = {}) :
    m.Sound := by
  have hat : ∀ i, m.shell.jobs.at? i = none := by
    rw [hjobs]
    exact fun i => rfl
  have hnever {i : Nat} {j : Job} (hi : m.shell.jobs.at? i = some j) : False := by
    rw [hat i] at hi
    cases hi
  exact ⟨hplain, ⟨⟨by rw [hjobs], fun i j hi => (hnever hi).elim, fun i j hi => (hnever hi).elim,
    fun i _ j _ _ hi => (hnever hi).elim⟩, fun i j _ hi => (hnever hi).elim⟩⟩

end Moment

/-! ## The end of a wait -/

/-- Any call but the last one of a process. -/
def GoesOn (c : Call) : Prop := ∀ code, c ≠ .exit code

theorem onlyAsks_peekPending? : OnlyAsks GoesOn peekPending? := by
  have hfirst : ∀ signals, OnlyAsks GoesOn (firstPending? signals) := by
    intro signals
    induction signals with
    | nil => exact .pure _
    | cons signal rest ih =>
        refine .bind (.ask fun _ => by simp) fun pending => ?_
        split
        · exact .pure _
        · exact ih
  refine .bind (.ask fun _ => by simp) fun arrived => ?_
  split
  · exact hfirst _
  · exact .pure _

theorem onlyAsks_waitJob (n : Nat) : OnlyAsks GoesOn (Commands.waitJob n) := by
  refine .iterate (fun _ => .bind .get fun s => ?_) ()
  split
  · exact .pure _
  · refine .bind (.bind (.ask fun _ => by simp) fun r => ?_) fun r => ?_
    · rcases r with e | _ | ⟨pid, status⟩
      · dsimp only
        split
        · exact .pure _
        · exact .pure _
      · exact .pure _
      · exact .bind (.modify _) fun _ => .pure _
    · rcases r with e | _ | pid
      · dsimp only
        split
        · refine .bind onlyAsks_peekPending? fun signal => ?_
          cases signal with
          | some signal => exact .pure _
          | none => exact .pure _
        · exact .throw _
      · exact .pure _
      · exact .pure _

/-- Waiting does not end the process. -/
theorem onlyAsks_waitOperands (status : Int) (args : List Text) :
    OnlyAsks GoesOn (Commands.waitOperands status args) := by
  induction args generalizing status with
  | nil => exact .modify _
  | cons arg args ih =>
      refine .bind (.bind .get fun s => ?_) fun n => ?_
      · dsimp only
        split
        · exact .pure _
        · split
          · exact .pure _
          · exact .throw _
      · cases n with
        | none => exact ih 127
        | some n =>
            refine .bind (onlyAsks_waitJob n) fun r => ?_
            cases r with
            | some interrupted => exact .modify _
            | none =>
                refine .bind .get fun s => ?_
                split
                · exact ih status
                · dsimp only
                  split
                  · exact .bind (.modify _) fun _ => ih _
                  · exact ih _

namespace Moment

open Relation (ReflTransGen)

/-- What the first `wait` for a job comes to. In a script that began without jobs, a job was started
and `$!` named its last process `p`. As long as nobody asked for the job, and no checkpoint found it
ended while `$!` named none of its processes, `wait` for any of its processes (`p` is one) gives the
exit status of `p`. After a checkpoint that found it ended so, the status is 127. A `wait` that was
begun comes to its end as soon as the children do. -/
theorem wait_settled (ev : Evaluator) (m₀ m m' : Moment) (body : Script.Node) (p : ProcessId)
    (hplain : m₀.shell.isInteractive = false) (hjobs : m₀.shell.jobs = {})
    (hbefore : ReflTransGen (Next ev) m₀ m) (hstart : Step ev m (.start body) (.ok ()) m')
    (hp : m'.shell.lastBackground = some p) :
    ∃ job, m'.shell.jobs.ofPid? p = some job ∧ job.lastPid? = some p ∧
      (∀ (m₁ m₂ : Moment) (x : ProcessId) (r : Except Stop Unit), x ∈ job.pids →
        ReflTransGen (NextRemembered ev job.pids) m' m₁ → Step ev m₁ (.wait x) r m₂ →
        r = .ok () ∧ ∃ status, m₂.children.life p = .reported status ∧
          m₂.shell.status = status.code) ∧
      (∀ (m₁ m₂ m₃ m₄ : Moment) (x : ProcessId) (r r' : Except Stop Unit), x ∈ job.pids →
        ReflTransGen (Next ev) m' m₁ → Step ev m₁ .checkpoint r m₂ →
        AllOver m₁.children job.pids → Unnamed m₁.shell job.pids →
        ReflTransGen (Next ev) m₂ m₃ → Step ev m₃ (.wait x) r' m₄ →
        r' = .ok () ∧ m₄.shell.status = 127) ∧
      ∀ (s : Shell) (κ κ₁ : Children) (x : ProcessId) (es : List Event)
        (q : Program (Except Stop Unit × Shell)),
        Reaches ((Commands.runWait [Text.ofInt x]).startedIn s) es q → family.Takes κ es κ₁ →
        ∃ es' a κ₂, q.Comes es' (.done a) ∧ family.Takes κ₁ es' κ₂ := by
  have hm := sound_of_nexts (sound_of_empty hplain hjobs) hbefore
  obtain ⟨hm', ⟨i, job, -, -, hi, hlast, -, -⟩ | ⟨⟨e, herror⟩, -⟩⟩ := hstart.start hm
  · rw [hp] at hlast
    have hhas : m'.Has job.pids := ⟨i, job, hi, rfl⟩
    refine ⟨job, hm'.tells.orderly.ofPid?_eq_some hi (List.mem_of_getLast? hlast.symm),
      Job.lastPid?_eq.trans hlast.symm, ?_, ?_, ?_⟩
    · intro m₁ m₂ x r hx hbetween hwait
      obtain ⟨hm₁, hhas₁⟩ := has_of_nexts hm' hhas hbetween
      obtain ⟨hr, last, status, hlast', hlife, hstatus⟩ := hwait.wait_has hm₁ hhas₁ hx
      obtain rfl : last = p := Option.some.inj (hlast'.symm.trans hlast.symm)
      exact ⟨hr, status, hlife, hstatus⟩
    · intro m₁ m₂ m₃ m₄ x r r' hx hbetween hcheck hover hunnamed hafter hwait
      have hm₁ := sound_of_nexts hm' hbetween
      have hm₂ := Next.sound hm₁ ⟨_, _, hcheck⟩
      have hforgot : m₂.Forgot job.pids := by
        rcases has_or_forgot_of_nexts hm' (.inl hhas) hbetween with hhas₁ | hforgot₁
        · exact hcheck.forgets hm₁ hhas₁ hover hunnamed
        · exact Next.forgot hm₁ hforgot₁ ⟨_, _, hcheck⟩
      exact hwait.wait_forgot (sound_of_nexts hm₂ hafter) (forgot_of_nexts hm₂ hforgot hafter) hx
    · intro s κ κ₁ x es q hreach htakes
      obtain ⟨hq, -⟩ := (onlyAsks_waitOperands 0 [Text.ofInt x] s).of_reaches hreach
      exact Children.lively_family.comes hq (fun code h => h code rfl) κ₁
  · cases herror

/-! ## A job that is forgotten -/

/-- A command that does nothing. -/
def idle : Script.Node := .mk (.simple [] [] []) 1

/-- The job of a process that runs it. -/
def idleJob (pid : ProcessId) : Job :=
  Job.ofProcesses [{ pid, command := idle.source }] (some pid) false none

/-- The lives of the children 1 and 2. A child that does not run any more ended with status 3. -/
def lives (one two : Life) (pid : ProcessId) : Life :=
  if pid = 1 then one else if pid = 2 then two else .unborn

theorem lives_eq_update_one (one one' two : Life) :
    lives one' two = Function.update (lives one two) 1 one' := by
  funext pid
  by_cases h : pid = 1
  · rw [h, Function.update_self]
    rfl
  · rw [Function.update_of_ne h]
    unfold lives
    rw [if_neg h, if_neg h]

theorem lives_eq_update_two (one two two' : Life) :
    lives one two' = Function.update (lives one two) 2 two' := by
  funext pid
  by_cases h : pid = 2
  · rw [h, Function.update_self]
    rfl
  · rw [Function.update_of_ne h]
    unfold lives
    rw [if_neg h, if_neg h]

/-- The children 1 and 2. -/
def twoChildren (one two : Life)
    (h : ∀ life ∈ [one, two], ∀ status, life = .ended status ∨ life = .reported status →
      status = .exited 3) : Children where
  life := lives one two
  numbered pid hpid := by
    unfold lives at hpid
    split at hpid
    · rename_i hone
      exact hone ▸ by decide
    · split at hpid
      · rename_i htwo
        exact htwo ▸ by decide
      · exact absurd rfl hpid
  final pid status hpid := by
    have hlife : lives one two pid ∈ [one, two] ∨ lives one two pid = .unborn := by
      unfold lives
      split
      · simp
      · split <;> simp
    rcases hlife with hmem | hunborn
    · rw [h _ hmem status hpid]
      rfl
    · rw [hunborn] at hpid
      rcases hpid with hpid | hpid <;> cases hpid

/-- A script before it starts anything. -/
def fresh : Moment := ⟨{}, twoChildren .unborn .unborn (by simp)⟩

/-- It started a job. -/
def first : Moment where
  shell := { jobs := (({} : Jobs).insert (idleJob 1)).1, lastBackground := some 1 }
  children := twoChildren .running .unborn (by simp)

/-- The job ended, and another one was started. -/
def second : Moment where
  shell := { jobs := (first.shell.jobs.insert (idleJob 2)).1, lastBackground := some 2 }
  children := twoChildren (.ended (.exited 3)) .running (by simp +contextual [eq_comm])

/-- A checkpoint came. -/
def third : Moment where
  shell := { second.shell with
    jobs := removeJobs (second.shell.jobs.record 1 (.exited 3)).1 [1] }
  children := twoChildren (.reported (.exited 3)) .running (by simp +contextual [eq_comm])

/-- The script asked for the first job. -/
def fourth : Moment := { third with shell := { third.shell with status := 127 } }

theorem step_first : Step (evaluatorOf 1) fresh (.start idle) (.ok ()) first := by
  refine ⟨[⟨.fork, .ok (.parent 1)⟩], .step (.here _), ?_⟩
  exact .call .refl ⟨rfl, lives_eq_update_one ..⟩ (.idle .refl)

theorem step_second : Step (evaluatorOf 1) first (.start idle) (.ok ()) second := by
  refine ⟨[⟨.fork, .ok (.parent 2)⟩], .step (.here _), ?_⟩
  have hends : first.children.Ends (twoChildren (.ended (.exited 3)) .unborn
      (by simp +contextual [eq_comm])) := ⟨1, .exited 3, rfl, lives_eq_update_one ..⟩
  exact .call (.single hends) ⟨rfl, lives_eq_update_two ..⟩ (.idle .refl)

theorem step_third : Step (evaluatorOf 1) second .checkpoint (.ok ()) third := by
  refine ⟨[⟨.wait none true false, .ok (some (1, .exited 3))⟩, ⟨.wait none true false, .ok none⟩,
    ⟨.takeArrived, false⟩], .step (.step (.step (.here _))), ?_⟩
  have hidle : ∀ pid status, third.children.life pid ≠ .ended status := by
    intro pid status
    show lives _ _ pid ≠ _
    unfold lives
    split
    · simp
    · split <;> simp
  exact .call .refl ⟨rfl, lives_eq_update_one ..⟩ (.call .refl ⟨rfl, hidle, ⟨2, rfl⟩, rfl⟩
    (.call .refl ⟨rfl, rfl⟩ (.idle .refl)))

theorem step_fourth : Step (evaluatorOf 1) third (.wait 1) (.ok ()) fourth :=
  ⟨[], .here _, .idle .refl⟩

/-- Before the checkpoint the job is remembered, after it no more. -/
theorem wait_settled_idle :
    (∀ m r, Step (evaluatorOf 1) second (.wait 1) r m → r = .ok () ∧
      ∃ status, m.children.life 1 = .reported status ∧ m.shell.status = status.code) ∧
    ∀ m r, Step (evaluatorOf 1) third (.wait 1) r m → r = .ok () ∧ m.shell.status = 127 := by
  obtain ⟨job, hjob, -, hkept, hlost, -⟩ := wait_settled (evaluatorOf 1) fresh fresh first idle 1 rfl
    rfl .refl step_first rfl
  have hpids : job.pids = [1] := congrArg Job.pids (Option.some.inj (hjob.symm.trans rfl))
  have hone : (1 : ProcessId) ∈ job.pids := hpids ▸ List.mem_singleton_self 1
  refine ⟨fun m r hwait => ?_, fun m r hwait => ?_⟩
  · refine hkept second m 1 r hone (.single ⟨_, _, step_second, ?_, ?_⟩) hwait
    · exact fun pid _ h => nomatch h
    · exact fun h => nomatch h
  · refine (hlost second third third m 1 _ r hone (.single ⟨_, _, step_second⟩) step_third ?_ ?_ .refl
      hwait)
    · rw [hpids]
      intro pid hpid
      obtain rfl := List.mem_singleton.mp hpid
      rfl
    · rw [hpids]
      rintro pid hpid
      cases hpid
      decide

/-- The first `wait` for a process that was `$!` does not always give its exit status. -/
theorem not_wait_settled :
    ¬ ∀ (ev : Evaluator) (m₀ m m' m₁ m₂ : Moment) (body : Script.Node) (p : ProcessId)
        (r : Except Stop Unit), m₀.shell.isInteractive = false → m₀.shell.jobs = {} →
      ReflTransGen (Next ev) m₀ m → Step ev m (.start body) (.ok ()) m' →
      m'.shell.lastBackground = some p → ReflTransGen (NextUnasked ev [p]) m' m₁ →
      Step ev m₁ (.wait p) r m₂ →
      ∃ status, m₂.children.life p = .reported status ∧ m₂.shell.status = status.code := by
  intro h
  have hthird : ReflTransGen (NextUnasked (evaluatorOf 1) [1]) first third :=
    .tail (.single ⟨_, _, step_second, fun _ _ h => nomatch h⟩)
      ⟨_, _, step_third, fun _ _ h => nomatch h⟩
  obtain ⟨status, hlife, hstatus⟩ := h _ _ _ _ _ _ _ _ _ rfl rfl .refl step_first rfl hthird step_fourth
  cases hlife
  exact absurd hstatus (by decide)

end Moment

end CommandShell
