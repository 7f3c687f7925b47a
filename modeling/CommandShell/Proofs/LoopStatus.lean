import CommandShell.Proofs.LoopStatus.Jumps

/-!
# The status of a loop

`LoopRun` is a run of a loop that comes to its end, round by round, with the runs of its body in order. The
status of such a loop is the one that the last run of the body left, and zero if there was none; what the
condition leaves counts for nothing. A run of the body that was ended by a `break` or a `continue` left
zero (`loop_status`).
-/

namespace CommandShell.Shell

open Host (Event Program)
open Host.Program (Comes)
open Script (Node Word Command)

variable {ev : Evaluator} {α : Type} {s t : Shell}

/-! ## Runs of loops -/

/-- How a list of a loop ends for the loop to take it, and where the loop goes then. -/
inductive LoopFlow.Follows : LoopFlow → Except Stop Unit → Prop where
  | next : Follows .next (.ok ())
  | leave : Follows .leave (.error (.jump (.breaking 1)))
  | again : Follows .again (.error (.jump (.continuing 1)))

/-- A run of the body of a loop: how it ended, and the state that it left. -/
structure BodyRun where
  outcome : Except Stop Unit
  after : Shell

/-- The status that the last of some runs of a body left; another one if there is none. -/
def lastStatus (otherwise : Int) (runs : List BodyRun) : Int :=
  runs.getLast?.elim otherwise (·.after.status)

theorem lastStatus_cons (otherwise : Int) (run : BodyRun) (runs : List BodyRun) :
    lastStatus otherwise (run :: runs) = lastStatus run.after.status runs := by
  unfold lastStatus
  rw [List.getLast?_cons]
  cases runs.getLast? with
  | none => rfl
  | some last => rfl

/-- The rounds of a `while` or `until` loop from a state on, with the calls in them and the runs of its
body, up to the state in which the loop is at its end. -/
inductive Rounds (ev : Evaluator) (cond body : Node) (untilZero : Bool) (place : Place) :
    Shell → List Event → List BodyRun → Shell → Prop where
  /-- The status of the condition ends the loop. -/
  | finish {s t : Shell} {es : List Event}
      (hcond : ((ev.node cond place.tested).startedIn s).Comes es (.done (.ok (), t)))
      (hstatus : (t.status == 0) = untilZero) : Rounds ev cond body untilZero place s es [] t
  | leave {s t : Shell} {es : List Event} {r : Except Stop Unit}
      (hcond : ((ev.node cond place.tested).startedIn s).Comes es (.done (r, t)))
      (hr : LoopFlow.leave.Follows r) : Rounds ev cond body untilZero place s es [] t
  /-- The next round begins without a run of the body. -/
  | skip {s t u : Shell} {es es' : List Event} {r : Except Stop Unit} {runs : List BodyRun}
      (hcond : ((ev.node cond place.tested).startedIn s).Comes es (.done (r, t)))
      (hr : LoopFlow.again.Follows r) (h : Rounds ev cond body untilZero place t es' runs u) :
      Rounds ev cond body untilZero place s (es ++ es') runs u
  | last {s t u : Shell} {es es' : List Event} {r : Except Stop Unit}
      (hcond : ((ev.node cond place.tested).startedIn s).Comes es (.done (.ok (), t)))
      (hstatus : (t.status == 0) ≠ untilZero)
      (hbody : ((ev.node body place.notLast).startedIn t).Comes es' (.done (r, u)))
      (hr : LoopFlow.leave.Follows r) : Rounds ev cond body untilZero place s (es ++ es') [⟨r, u⟩] u
  | round {s t u v : Shell} {es es' es'' : List Event} {flow : LoopFlow} {r : Except Stop Unit}
      {runs : List BodyRun}
      (hcond : ((ev.node cond place.tested).startedIn s).Comes es (.done (.ok (), t)))
      (hstatus : (t.status == 0) ≠ untilZero)
      (hbody : ((ev.node body place.notLast).startedIn t).Comes es' (.done (r, u)))
      (hr : flow.Follows r) (hflow : flow ≠ .leave) (h : Rounds ev cond body untilZero place u es'' runs v) :
      Rounds ev cond body untilZero place s (es ++ es' ++ es'') (⟨r, u⟩ :: runs) v

/-- The rounds of a loop over items. -/
inductive ItemRounds (ev : Evaluator) (var : Text) (body : Node) (place : Place) :
    List Text → Shell → List Event → List BodyRun → Shell → Prop where
  | finish (s : Shell) : ItemRounds ev var body place [] s [] [] s
  | last {item : Text} {items : List Text} {s t u : Shell} {es : List Event} {r : Except Stop Unit}
      (hitem : s.assign var item = .ok t)
      (hbody : ((ev.node body place.notLast).startedIn t).Comes es (.done (r, u)))
      (hr : LoopFlow.leave.Follows r) : ItemRounds ev var body place (item :: items) s es [⟨r, u⟩] u
  | round {item : Text} {items : List Text} {s t u v : Shell} {es es' : List Event} {flow : LoopFlow}
      {r : Except Stop Unit} {runs : List BodyRun} (hitem : s.assign var item = .ok t)
      (hbody : ((ev.node body place.notLast).startedIn t).Comes es (.done (r, u)))
      (hr : flow.Follows r) (hflow : flow ≠ .leave) (h : ItemRounds ev var body place items u es' runs v) :
      ItemRounds ev var body place (item :: items) s (es ++ es') (⟨r, u⟩ :: runs) v

/-- A run of a loop that comes to its end, with the calls in it and the runs of its body. -/
inductive LoopRun (ev : Evaluator) (place : Place) :
    Command → Shell → List Event → List BodyRun → Shell → Prop where
  | whileDo {cond body : Node} {s t : Shell} {es : List Event} {runs : List BodyRun}
      (h : Rounds ev cond body false place { s with loopDepth := s.loopDepth + 1 } es runs t) :
      LoopRun ev place (.whileDo cond body) s es runs t
  | untilDo {cond body : Node} {s t : Shell} {es : List Event} {runs : List BodyRun}
      (h : Rounds ev cond body true place { s with loopDepth := s.loopDepth + 1 } es runs t) :
      LoopRun ev place (.untilDo cond body) s es runs t
  | forIn {var : Text} {words : Option (List Word)} {body : Node} {s t u : Shell} {es es' : List Event}
      {items : List Text} {runs : List BodyRun}
      (hitems : ((loopItems ev words).startedIn s).Comes es (.done (.ok items, t)))
      (h : ItemRounds ev var body place items { t with loopDepth := t.loopDepth + 1 } es' runs u) :
      LoopRun ev place (.forIn var words body) s (es ++ es') runs u

variable {cond body : Node} {untilZero : Bool} {place : Place} {es : List Event} {runs : List BodyRun}

/-! ## Loops go by rounds -/

/-- What a loop does after its body, with `n` rounds to go at most. -/
def afterBody (ev : Evaluator) (cond body : Node) (untilZero : Bool) (place : Place) (n : Nat)
    (flow : LoopFlow) : ShellM Int := do
  let status := (← get).status
  if flow = .leave then return status
  else iterateFor (loopRound ev cond body untilZero place) n status

/-- What a loop does after its condition. -/
def afterCondition (ev : Evaluator) (cond body : Node) (untilZero : Bool) (place : Place) (n : Nat)
    (status : Int) : LoopFlow → ShellM Int
  | .leave => return status
  | .again => iterateFor (loopRound ev cond body untilZero place) n status
  | .next => do
    if ((← get).status == 0) == untilZero then return status
    afterBody ev cond body untilZero place n (← loopFlow (← attempt (ev.node body place.notLast)))

theorem iterateFor_loopRound (ev : Evaluator) (cond body : Node) (untilZero : Bool) (place : Place)
    (n : Nat) (status : Int) :
    iterateFor (loopRound ev cond body untilZero place) (n + 1) status =
      (do afterCondition ev cond body untilZero place n status
            (← loopFlow (← attempt (ev.node cond place.tested)))) := by
  unfold iterateFor loopRound
  simp only [bind_assoc]
  refine bind_congr fun r => bind_congr fun flow => ?_
  cases flow with
  | leave => rfl
  | again => rfl
  | next =>
      dsimp only
      unfold afterCondition
      rw [bind_assoc]
      refine bind_congr (m := ShellM) fun s => ?_
      split
      · rfl
      · simp only [bind_assoc]
        refine bind_congr fun r => bind_congr fun flow => bind_congr fun t => ?_
        split
        · rfl
        · rfl

/-- A jump with levels left is for a loop further out. -/
theorem loopFlow_of_lt {e : Stop} {k : Nat} (he : e.levels? = some k) (hk : 1 < k) :
    ∃ e', loopFlow (.error e) = throw e' := by
  cases e with
  | fault f line => cases he
  | jump j =>
      cases j with
      | breaking m =>
          cases he
          exact ⟨_, if_pos hk⟩
      | continuing m =>
          cases he
          exact ⟨_, if_pos hk⟩
      | _ => cases he

/-- A loop goes on after a list of it only if that did not stop, or stopped for this loop. -/
theorem follows_of_comes {r : Except Stop Unit} {f : LoopFlow → ShellM α} {a : α} {u : Shell}
    (hr : ∀ e k, r = .error e → e.levels? = some k → 1 ≤ k)
    (h : ((loopFlow r >>= f).startedIn t).Comes es (.done (.ok a, u))) :
    ∃ flow : LoopFlow, flow.Follows r ∧ ((f flow).startedIn t).Comes es (.done (.ok a, u)) := by
  cases r with
  | ok u => exact ⟨.next, .next, h⟩
  | error e =>
      cases e with
      | fault f line => cases h
      | jump j =>
          cases j with
          | breaking n =>
              obtain rfl | hlt := Nat.eq_or_lt_of_le (hr _ n rfl rfl)
              · exact ⟨.leave, .leave, h⟩
              · obtain ⟨e', he'⟩ := loopFlow_of_lt (e := .jump (.breaking n)) rfl hlt
                rw [he'] at h
                cases h
          | continuing n =>
              obtain rfl | hlt := Nat.eq_or_lt_of_le (hr _ n rfl rfl)
              · exact ⟨.again, .again, h⟩
              · obtain ⟨e', he'⟩ := loopFlow_of_lt (e := .jump (.continuing n)) rfl hlt
                rw [he'] at h
                cases h
          | _ => cases h

/-- A list of a loop that the loop goes on after. -/
theorem turn_of_comes [hev : AtZero ev] {node : Node} {f : LoopFlow → ShellM α} {a : α} {u : Shell}
    (h : (((do f (← loopFlow (← attempt (ev.node node place)))) : ShellM α).startedIn s).Comes es
      (.done (.ok a, u))) :
    ∃ es₁ es₂ r t, ∃ flow : LoopFlow, es = es₁ ++ es₂ ∧
      ((ev.node node place).startedIn s).Comes es₁ (.done (r, t)) ∧ flow.Follows r ∧
      ((f flow).startedIn t).Comes es₂ (.done (.ok a, u)) := by
  rw [startedIn_attempt_bind] at h
  obtain ⟨es₁, es₂, ⟨r, t⟩, rfl, hnode, hrest⟩ := Comes.of_bind h
  have hleaves := (hev.ends.node node place s).of_comes hnode
  obtain ⟨flow, hflow, hf⟩ := follows_of_comes (fun e k he hk => (hleaves.stops e he k hk).1) hrest
  exact ⟨es₁, es₂, r, t, flow, rfl, hnode, hflow, hf⟩

theorem startedIn_afterBody (n : Nat) (flow : LoopFlow) (u : Shell) :
    (afterBody ev cond body untilZero place n flow).startedIn u =
      if flow = .leave then .done (.ok u.status, u)
      else (iterateFor (loopRound ev cond body untilZero place) n u.status).startedIn u := by
  show (if flow = .leave then pure u.status else _ : ShellM Int).startedIn u = _
  split
  · rfl
  · rfl

theorem rounds_of_comes [hev : AtZero ev] {n : Nat} {status result : Int}
    (h : ((iterateFor (loopRound ev cond body untilZero place) n status).startedIn s).Comes es
      (.done (.ok result, t))) :
    ∃ runs, Rounds ev cond body untilZero place s es runs t ∧ result = lastStatus status runs := by
  induction n generalizing s es status with
  | zero => cases h
  | succ n ih =>
      rw [iterateFor_loopRound] at h
      obtain ⟨es₁, es₂, r, u, flow, rfl, hcond, hr, hrest⟩ := turn_of_comes h
      cases flow with
      | leave =>
          cases hrest
          rw [List.append_nil]
          exact ⟨[], .leave hcond hr, rfl⟩
      | again =>
          obtain ⟨runs, hrounds, hstatus⟩ := ih hrest
          exact ⟨runs, .skip hcond hr hrounds, hstatus⟩
      | next =>
          cases hr
          change ((if ((u.status == 0) == untilZero) = true then _ else _ : ShellM Int).startedIn u).Comes
            _ _ at hrest
          split at hrest
          · rename_i hstatus
            cases hrest
            rw [List.append_nil]
            exact ⟨[], .finish hcond (eq_of_beq hstatus), rfl⟩
          · rename_i hstatus
            obtain ⟨es₂, es₃, r, v, flow, rfl, hbody, hr, hrest⟩ := turn_of_comes hrest
            have hgoes : (u.status == 0) ≠ untilZero := fun h => hstatus (beq_iff_eq.mpr h)
            rw [startedIn_afterBody] at hrest
            split at hrest
            · rename_i hflow
              subst hflow
              cases hrest
              rw [List.append_nil]
              exact ⟨_, .last hcond hgoes hbody hr, rfl⟩
            · rename_i hflow
              obtain ⟨runs, hrounds, hresult⟩ := ih hrest
              rw [← List.append_assoc]
              refine ⟨⟨r, v⟩ :: runs, .round hcond hgoes hbody hr hflow hrounds, ?_⟩
              rw [lastStatus_cons]
              exact hresult

theorem itemRounds_of_comes [hev : AtZero ev] {var : Text} {items : List Text} {status result : Int}
    (h : ((forItems ev var body place status items).startedIn s).Comes es (.done (.ok result, t))) :
    ∃ runs, ItemRounds ev var body place items s es runs t ∧ result = lastStatus status runs := by
  induction items generalizing s es status with
  | nil =>
      cases h
      exact ⟨[], .finish _, rfl⟩
  | cons item items ih =>
      change ((((ofExcept (s.assign var item) >>= fun u => set u : ShellM Unit).startedIn s).bind _)).Comes
        _ _ at h
      cases hitem : s.assign var item with
      | error f =>
          rw [hitem] at h
          cases h
      | ok u =>
          rw [hitem] at h
          obtain ⟨es₁, es₂, r, v, flow, rfl, hbody, hr, hrest⟩ := turn_of_comes h
          change ((if flow = .leave then pure v.status else forItems ev var body place v.status items :
            ShellM Int).startedIn v).Comes _ _ at hrest
          split at hrest
          · rename_i hflow
            subst hflow
            cases hrest
            rw [List.append_nil]
            exact ⟨_, .last hitem hbody hr, rfl⟩
          · rename_i hflow
            obtain ⟨runs, hrounds, hresult⟩ := ih hrest
            refine ⟨⟨r, v⟩ :: runs, .round hitem hbody hr hflow hrounds, ?_⟩
            rw [lastStatus_cons]
            exact hresult

/-- What is left of a loop that ends well. -/
theorem comes_withinLoop {rounds : ShellM Int}
    (h : ((withinLoop rounds).startedIn s).Comes es (.done (.ok (), t))) :
    ∃ status u, (rounds.startedIn { s with loopDepth := s.loopDepth + 1 }).Comes es (.done (.ok status, u)) ∧
      t = { u with status, loopDepth := u.loopDepth - 1 } := by
  change (((do
    let r ← attempt (rounds >>= setStatus)
    modify fun sh => { sh with loopDepth := sh.loopDepth - 1 }
    resume r : ShellM Unit).startedIn { s with loopDepth := s.loopDepth + 1 })).Comes _ _ at h
  rw [startedIn_attempt_bind] at h
  obtain ⟨es₁, es₂, ⟨r, u⟩, rfl, hset, hclose⟩ := Comes.of_bind h
  cases r with
  | error e => cases hclose
  | ok _ =>
      cases hclose
      obtain ⟨es₁, es₂, ⟨r, v⟩, rfl, hrounds, hstatus⟩ := Comes.of_bind hset
      cases r with
      | error e => cases hstatus
      | ok status =>
          cases hstatus
          rw [List.append_nil, List.append_nil]
          exact ⟨status, v, hrounds, rfl⟩

/-- The kinds of commands that are loops. -/
def IsLoop : Command → Prop
  | .whileDo .. | .untilDo .. | .forIn .. => True
  | _ => False

theorem loopRun_of_comes [hev : AtZero ev] {c : Command} (hloop : IsLoop c)
    (h : ((runKind ev place c).startedIn s).Comes es (.done (.ok (), t))) :
    ∃ runs u, LoopRun ev place c s es runs u ∧
      t = { u with status := lastStatus 0 runs, loopDepth := s.loopDepth } := by
  have hdepth : t.loopDepth = s.loopDepth :=
    ((procedure_runKind (E := .within) place c).ends hev.ends s |>.of_comes h).loopDepth
  rw [← hdepth]
  cases c with
  | whileDo cond body =>
      obtain ⟨status, u, hrounds, rfl⟩ := comes_withinLoop h
      obtain ⟨runs, hrun, rfl⟩ := rounds_of_comes hrounds
      exact ⟨runs, u, .whileDo hrun, rfl⟩
  | untilDo cond body =>
      obtain ⟨status, u, hrounds, rfl⟩ := comes_withinLoop h
      obtain ⟨runs, hrun, rfl⟩ := rounds_of_comes hrounds
      exact ⟨runs, u, .untilDo hrun, rfl⟩
  | forIn var words body =>
      obtain ⟨es₁, es₂, ⟨r, v⟩, rfl, hitems, hloop⟩ := Comes.of_bind h
      cases r with
      | error e => cases hloop
      | ok items =>
          obtain ⟨status, u, hrounds, rfl⟩ := comes_withinLoop hloop
          obtain ⟨runs, hrun, rfl⟩ := itemRounds_of_comes hrounds
          exact ⟨runs, u, .forIn hitems hrun, rfl⟩
  | _ => exact hloop.elim

/-! ## What the runs of a body leave -/

/-- A run of a body that a loop took the stop of, by `break` or `continue`, left the status zero. -/
theorem BodyRun.status_eq_zero [hev : AtZero ev] {node : Node} {flow : LoopFlow} {run : BodyRun}
    (h : ((ev.node node place).startedIn s).Comes es (.done (run.outcome, run.after)))
    (hr : flow.Follows run.outcome) (hstop : run.outcome ≠ .ok ()) : run.after.status = 0 := by
  obtain ⟨r, u⟩ := run
  have hzero := (hev.node node place).always s |>.of_comes h
  cases hr with
  | next => exact absurd rfl hstop
  | leave => exact hzero _ 1 rfl rfl
  | again => exact hzero _ 1 rfl rfl

theorem Rounds.bodyRuns_zero [AtZero ev] (h : Rounds ev cond body untilZero place s es runs t) :
    ∀ run ∈ runs, run.outcome ≠ .ok () → run.after.status = 0 := by
  induction h with
  | finish => exact List.forall_mem_nil _
  | leave => exact List.forall_mem_nil _
  | skip _ _ _ ih => exact ih
  | last _ _ hbody hr => exact List.forall_mem_singleton.mpr (BodyRun.status_eq_zero hbody hr)
  | round _ _ hbody hr _ _ ih => exact List.forall_mem_cons.mpr ⟨BodyRun.status_eq_zero hbody hr, ih⟩

theorem ItemRounds.bodyRuns_zero [AtZero ev] {var : Text} {items : List Text}
    (h : ItemRounds ev var body place items s es runs t) :
    ∀ run ∈ runs, run.outcome ≠ .ok () → run.after.status = 0 := by
  induction h with
  | finish => exact List.forall_mem_nil _
  | last _ hbody hr => exact List.forall_mem_singleton.mpr (BodyRun.status_eq_zero hbody hr)
  | round _ hbody hr _ _ ih => exact List.forall_mem_cons.mpr ⟨BodyRun.status_eq_zero hbody hr, ih⟩

theorem LoopRun.bodyRuns_zero [AtZero ev] {c : Command} (h : LoopRun ev place c s es runs t) :
    ∀ run ∈ runs, run.outcome ≠ .ok () → run.after.status = 0 := by
  cases h with
  | whileDo h => exact h.bodyRuns_zero
  | untilDo h => exact h.bodyRuns_zero
  | forIn _ h => exact h.bodyRuns_zero

/-! ## The status of a loop -/

/-- A loop that ends well leaves what its run left, but for the status. That is the one that the last run of
its body left, which is zero if a `break` or a `continue` ended that run, and zero if the body never
ran. -/
theorem loop_status {depth : Nat} {node : Node} {place : Place} {s t : Shell} {es : List Event}
    (hloop : IsLoop node.command)
    (h : ((runNode (evaluatorOf depth) node place).startedIn s).Comes es (.done (.ok (), t))) :
    ∃ runs u, LoopRun (evaluatorOf depth) place node.command { s with line := node.line } es runs u ∧
      t = { u with status := lastStatus 0 runs, loopDepth := s.loopDepth } ∧
      ∀ run ∈ runs, run.outcome ≠ .ok () → run.after.status = 0 := by
  obtain ⟨c, line⟩ := node
  -- a loop itself never ends the shell for a failure
  have hcheck : ∀ u, (checkErrexit (.mk c line) place).startedIn u = .done (.ok (), u) := by
    have hsimple : (Node.mk c line).isSimple = false := by
      cases c with
      | simple => exact hloop.elim
      | pipeline => exact hloop.elim
      | subshell => exact hloop.elim
      | _ => rfl
    intro u
    simp only [checkErrexit, hsimple, Bool.and_false, Bool.false_and]
    rfl
  obtain ⟨es₁, es₂, ⟨r, u⟩, rfl, hkind, hrest⟩ := Comes.of_bind h
  cases hkind
  obtain ⟨es₁, es₂, ⟨r, u⟩, rfl, hkind, hrest⟩ := Comes.of_bind hrest
  cases r with
  | error e => cases hrest
  | ok _ =>
      change ((checkErrexit (.mk c line) place).startedIn u).Comes _ _ at hrest
      rw [hcheck] at hrest
      cases hrest
      obtain ⟨runs, v, hrun, ht⟩ := loopRun_of_comes hloop hkind
      rw [List.append_nil]
      exact ⟨runs, v, hrun, ht, hrun.bodyRuns_zero⟩

/-- `until $x; do x=true; false; done` -/
def untilLoop : Node :=
  .mk (.untilDo (.mk (.simple [] [.mk "$x" [.param "x" .plain false [] false] 1] []) 1)
    (.mk (.list (.mk (.simple [.mk "x=true" [.literal "x=true"] 1] [] []) 1)
      (.mk (.simple [] [.mk "false" [.literal "false"] 1] []) 1)) 1)) 1

/-- A shell in which the first test of that loop fails. -/
def waitingForTrue : Shell := { «variables» := { bindings := .ofList [("x", { value := some "false" })] } }

/-- The last run of its body leaves one, and the last test of it zero. -/
theorem loop_status_until :
    ∃ (t : Shell) (runs : List BodyRun) (u : Shell), IsLoop untilLoop.command ∧
      ((runNode (evaluatorOf 3) untilLoop {}).startedIn waitingForTrue).Comes
        (List.replicate 4 ⟨.takeArrived, false⟩) (.done (.ok (), t)) ∧
      LoopRun (evaluatorOf 3) {} untilLoop.command { waitingForTrue with line := 1 }
        (List.replicate 4 ⟨.takeArrived, false⟩) runs u ∧
      t = { u with status := lastStatus 0 runs, loopDepth := 0 } ∧ t.status = 1 ∧
      ∀ run ∈ runs, run.outcome ≠ .ok () → run.after.status = 0 := by
  obtain ⟨⟨r, t⟩, hrun, hr⟩ := Host.Program.comes_of_endsIn
    (show ((runNode (evaluatorOf 3) untilLoop {}).startedIn waitingForTrue).endsIn
      (fun r => r.1.isOk && r.2.status == 1) (List.replicate 4 ⟨.takeArrived, false⟩) = true by
        decide +kernel)
  cases r with
  | error e => cases hr
  | ok _ =>
      obtain ⟨runs, u, hloop, ht, hzero⟩ := loop_status (show IsLoop untilLoop.command from trivial) hrun
      exact ⟨t, runs, u, trivial, hrun, hloop, ht, eq_of_beq hr, hzero⟩

end CommandShell.Shell
