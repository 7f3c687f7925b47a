import CommandShell.Execution.Evaluate
import CommandShell.Proofs.Lockstep

/-!
# The status of a forked child

Subshells, the stages of pipelines, background jobs and command substitutions run a list of commands
in a forked child. The outcome of the list reaches `exitChild` as a value or as a stop, and
`child_exit_status` says which number the child hands to the system: the status of the list, after
an `exit` its operand, after an error the error's own status. Nothing that a trap for the end of the
child does changes it, and a subshell that needs no child of its own ends its process alike.

A `return` that leaves the list is the exception. Its operand is lost, and the child ends with the
status of the command before it (`not_child_exit_status`).
-/

namespace CommandShell

open Host (Call Reply Program Event)

namespace Host.Program

variable {α β : Type}

theorem Reaches.comes_bind {p p' : Program α} {es es' : List Event} (h : Reaches p es p')
    {f : α → Program β} {o : Outcome β} (ho : (p'.bind f).Comes es' o) :
    (p.bind f).Comes (es ++ es') o := by
  induction h with
  | here p => exact ho
  | step _ ih =>
      have hk := ih ho
      cases o with
      | done b => exact .step hk
      | asks c =>
          obtain ⟨k, hk⟩ := hk
          exact ⟨k, .step hk⟩

/-- What comes of a sequence whose first program is done. -/
theorem Comes.bind {p : Program α} {a : α} {es es' : List Event} (h : p.Comes es (.done a))
    {f : α → Program β} {o : Outcome β} (ho : (f a).Comes es' o) :
    (p.bind f).Comes (es ++ es') o :=
  Reaches.comes_bind h ho

/-- A sequence is done when its first program was done before. -/
theorem Comes.of_bind {p : Program α} {f : α → Program β} {es : List Event} {b : β}
    (h : (p.bind f).Comes es (.done b)) :
    ∃ es₁ es₂ a, es = es₁ ++ es₂ ∧ p.Comes es₁ (.done a) ∧ (f a).Comes es₂ (.done b) := by
  induction p generalizing es with
  | done a => exact ⟨[], es, a, rfl, .here _, h⟩
  | call c k ih =>
      cases h with
      | step h =>
          rename_i es r
          obtain ⟨es₁, es₂, a, rfl, hp, hf⟩ := ih r h
          exact ⟨⟨c, r⟩ :: es₁, es₂, a, rfl, .step hp, hf⟩

theorem Always.of_comes {P : α → Prop} {p : Program α} (h : p.Always P) {es : List Event} {a : α}
    (ha : p.Comes es (.done a)) : P a := by
  induction p generalizing es with
  | done b =>
      cases ha
      exact h
  | call c k ih =>
      cases ha with
      | step ha => exact ih _ (h _) ha

/-- The call that a program makes after the given calls, if it makes these. -/
def asksAfter : Program α → List Event → Option Call
  | call c _, [] => some c
  | call c k, e :: es => if h : e.1 = c then asksAfter (k (h ▸ e.2)) es else none
  | done _, _ => none

theorem Comes.asksAfter_eq {p : Program α} {es : List Event} {c : Call}
    (h : p.Comes es (.asks c)) : p.asksAfter es = some c := by
  obtain ⟨k, h⟩ := h
  generalize hq : call c k = q at h
  induction h with
  | here p =>
      subst hq
      rfl
  | step _ ih =>
      unfold asksAfter
      rw [dif_pos rfl]
      exact ih hq

end Host.Program

namespace Shell

open Host.Program (Comes Outcome)

variable {α β : Type}

/-! ## Computations that never stop short -/

/-- A computation that comes to a value whenever it comes to anything. -/
class Unfailing (x : ShellM α) : Prop where
  ok : ∀ s, (x.startedIn s).Always fun r => ∃ a, r.1 = .ok a

instance unfailing_pure (a : α) : Unfailing (pure a : ShellM α) := ⟨fun _ => ⟨a, rfl⟩⟩

instance unfailing_ask (c : Call) : @Unfailing (no_index (Reply c)) (ask c) :=
  ⟨fun _ r => ⟨r, rfl⟩⟩

instance unfailing_get : Unfailing (get : ShellM Shell) := ⟨fun s => ⟨s, rfl⟩⟩

instance unfailing_modify (f : Shell → Shell) : Unfailing (modify f : ShellM Unit) :=
  ⟨fun _ => ⟨(), rfl⟩⟩

instance unfailing_modifyGet (f : Shell → α × Shell) : Unfailing (modifyGet f : ShellM α) :=
  ⟨fun s => ⟨(f s).1, rfl⟩⟩

instance unfailing_bind {x : ShellM α} {f : α → ShellM β} [hx : Unfailing x]
    [hf : ∀ a, Unfailing (f a)] : Unfailing (x >>= f) := by
  constructor
  intro s
  show ((x.startedIn s).bind _).Always _
  rw [Host.Program.always_bind]
  refine (hx.ok s).mono ?_
  rintro ⟨r, t⟩ ⟨a, ha⟩
  dsimp only at ha
  subst ha
  exact (hf a).ok t

instance unfailing_ite {c : Prop} [Decidable c] {x y : ShellM α} [hx : Unfailing x]
    [hy : Unfailing y] : Unfailing (if c then x else y) := by
  split
  · exact hx
  · exact hy

instance unfailing_attempt (x : ShellM α) : Unfailing (attempt x) := by
  constructor
  intro s
  show ((x.startedIn s).bind _).Always _
  rw [Host.Program.always_bind]
  exact Host.Program.always_of (fun r => ⟨r.1, rfl⟩) _

instance unfailing_forM {f : β → ShellM Unit} [∀ b, Unfailing (f b)] (bs : List β) :
    Unfailing (bs.forM f) := by
  induction bs with
  | nil => exact unfailing_pure ()
  | cons b bs ih => exact unfailing_bind

instance unfailing_setStatus (code : Int) : Unfailing (setStatus code) := unfailing_modify _

instance unfailing_quietly (x : ShellM Unit) : Unfailing (quietly x) := unfailing_bind

instance unfailing_setDispositions (ds : List (Signal × Host.Disposition)) :
    Unfailing (setDispositions ds) := unfailing_forM ds

instance unfailing_duplicateOnto (fd target : Nat) : Unfailing (duplicateOnto fd target) :=
  unfailing_ite

instance unfailing_reportStop (e : Stop) : Unfailing (reportStop e) := unfailing_ite

instance unfailing_closePipes (pipes : List (Nat × Nat)) : Unfailing (closePipes pipes) :=
  unfailing_forM pipes

instance unfailing_becomeSubshell (background : Bool) : Unfailing (becomeSubshell background) :=
  unfailing_bind

instance unfailing_detachInput : Unfailing detachInput := by
  refine @unfailing_bind _ _ _ _ _ fun r => ?_
  cases r with
  | ok fd => exact unfailing_bind
  | error e => exact unfailing_pure ()

instance unfailing_prepareChild (group : Option ProcessId) (background : Bool) :
    Unfailing (prepareChild group background) := unfailing_bind

/-- What cannot fail may be attempted or not. -/
theorem attempt_bind {x : ShellM α} [hx : Unfailing x] (f : α → ShellM β) :
    attempt (x >>= f) = x >>= fun a => attempt (f a) := by
  funext s
  have h := hx.ok s
  show ((x.startedIn s).bind _).bind _ = (x.startedIn s).bind _
  rw [Host.Program.bind_assoc]
  generalize x.startedIn s = p at h
  induction p with
  | done r =>
      obtain ⟨r, t⟩ := r
      obtain ⟨a, ha⟩ := h
      dsimp only at ha
      subst ha
      rfl
  | call c k ih => exact congrArg (Program.call c) (funext fun r => ih r (h r))

/-- To ask for the state is to have it. -/
theorem startedIn_get_bind (f : Shell → ShellM α) (s : Shell) :
    (get >>= f).startedIn s = (f s).startedIn s := rfl

theorem startedIn_attempt_bind (x : ShellM α) (f : Except Stop α → ShellM β) (s : Shell) :
    (attempt x >>= f).startedIn s = (x.startedIn s).bind fun r => (f r.1).startedIn r.2 := by
  show ((x.startedIn s).bind _).bind _ = _
  rw [Host.Program.bind_assoc]
  rfl

theorem reaches_attempt_bind {x : ShellM α} {s t : Shell} {es : List Event} {r : Except Stop α}
    (hx : (x.startedIn s).Comes es (.done (r, t))) (f : Except Stop α → ShellM β) :
    ((attempt x >>= f).startedIn s).Reaches es ((f r).startedIn t) := by
  rw [startedIn_attempt_bind]
  exact Host.Program.Reaches.bind hx _

/-! ## Children -/

/-- The status of a list of commands that came to an outcome: of `exit` and `return` the operand, of
an error its status, otherwise that of the last command. -/
def listStatus : Except Stop Unit → Shell → Int
  | .error (.jump (.exit n)), _ => n
  | .error (.jump (.returning n)), _ => n
  | .error (.fault f _), _ => f.status
  | _, t => t.status

/-- The status with which a child ends that ran a list. -/
def exitCode : Except Stop Unit → Shell → Int
  | .error (.jump (.exit n)), _ => n
  | .error (.fault f _), _ => f.status
  | _, t => t.status

/-- The two differ for a `return` with another status than that of the last command. -/
theorem exitCode_eq_listStatus_iff (r : Except Stop Unit) (t : Shell) :
    exitCode r t = listStatus r t ↔ ∀ n, r = .error (.jump (.returning n)) → n = t.status := by
  cases r with
  | ok u => exact ⟨fun _ _ h => (nomatch h), fun _ => rfl⟩
  | error e =>
      cases e with
      | fault f line => exact ⟨fun _ _ h => (nomatch h), fun _ => rfl⟩
      | jump j =>
          cases j with
          | returning n =>
              constructor
              · intro h m hm
                cases hm
                exact h.symm
              · exact fun h => (h n rfl).symm
          | _ => exact ⟨fun _ _ h => (nomatch h), fun _ => rfl⟩

/-- What a child does between the end of its list and its own end: it reports an error and runs the
command of its `EXIT` trap. -/
def lastWords (ev : Evaluator) (r : Except Stop Unit) : ShellM Unit := do
  runExitTrap ev (← childStatus r)

instance unfailing_runExitTrap (ev : Evaluator) (code : Int) :
    Unfailing (runExitTrap ev code) := by
  refine @unfailing_bind _ _ _ _ _ fun command => ?_
  cases command with
  | none => exact unfailing_pure ()
  | some t =>
      refine @unfailing_bind _ _ _ _ _ fun _ => @unfailing_bind _ _ _ _ _ fun result => ?_
      cases result with
      | ok u => exact unfailing_pure ()
      | error e => exact unfailing_reportStop e

/-- The outcome of a list settles the status; only an error takes calls, for its message. -/
theorem childStatus_always (r : Except Stop Unit) (t : Shell) :
    ((childStatus r).startedIn t).Always fun c => c.1 = .ok (exitCode r t) := by
  cases r with
  | ok u => exact rfl
  | error e =>
      cases e with
      | jump j => cases j <;> exact rfl
      | fault f line =>
          show (((reportStop (.fault f line)).startedIn t).bind _).Always _
          rw [Host.Program.always_bind]
          refine ((unfailing_reportStop (.fault f line)).ok t).mono ?_
          rintro ⟨a, u⟩ ⟨b, hb⟩
          dsimp only at hb
          subst hb
          exact rfl

/-- A child that ran its list goes on to its last words, and then ends with the status that the
outcome of the list settled, whatever the last words did. -/
theorem comes_exitChild {ev : Evaluator} {list : ShellM Unit} {s t : Shell} {es es' : List Event}
    {r : Except Stop Unit} {v : Except Stop Unit × Shell}
    (hlist : (list.startedIn s).Comes es (.done (r, t)))
    (hlast : ((lastWords ev r).startedIn t).Comes es' (.done v)) :
    ((do exitChild ev (← attempt list) : ShellM α).startedIn s).Comes (es ++ es')
      (.asks (.exit (exitCode r t))) := by
  show (((list.startedIn s).bind _).bind _).Comes _ _
  rw [Host.Program.bind_assoc]
  refine hlist.bind ?_
  -- the status is settled before the trap is looked for
  obtain ⟨es₁, es₂, ⟨c, u⟩, rfl, hstatus, htrap⟩ := Comes.of_bind hlast
  have hc := (childStatus_always r t).of_comes hstatus
  dsimp only at hc
  subst hc
  refine hstatus.bind ?_
  obtain ⟨a, ha⟩ := ((unfailing_runExitTrap ev (exitCode r t)).ok u).of_comes htrap
  obtain ⟨v, w⟩ := v
  dsimp only at ha
  subst ha
  have hend : ((leave (exitCode r t) : ShellM α).startedIn w).Comes []
      (.asks (.exit (exitCode r t))) := ⟨_, .here _⟩
  rw [← List.append_nil es₂]
  show (((runExitTrap ev (exitCode r t)).startedIn u).bind _).Comes _ _
  exact htrap.bind hend

/-- Nothing follows the end of a process. -/
theorem leave_bind (code : Int) (f : α → ShellM β) : leave code >>= f = leave code := by
  funext s
  exact congrArg (Program.call (.exit code)) (funext fun never => nomatch never)

theorem exitChild_bind (ev : Evaluator) (r : Except Stop Unit) (f : α → ShellM β) :
    exitChild ev r >>= f = exitChild ev r := by
  unfold exitChild exitShell
  simp only [bind_assoc, leave_bind]

/-- What the child of a job of its own does: that of a subshell, or of an external program. -/
def jobChild (ev : Evaluator) (list : ShellM Unit) : ShellM Job := do
  prepareChild none false
  exitChild ev (← attempt list)

/-- A fork whose answer is that this is the child goes on with a child. -/
theorem comes_forkJob {ev : Evaluator} {list : ShellM Unit} {s : Shell} {es : List Event} {c : Call}
    (text : Text) (h : ((jobChild ev list).startedIn s).Comes es (.asks c)) :
    ((forkJob ev text list).startedIn s).Comes (⟨.fork, .ok .child⟩ :: es) (.asks c) := by
  obtain ⟨k, hk⟩ := h
  exact ⟨k, .step hk⟩

/-- A forked child together with the list that it runs, which includes what is set up for it. -/
inductive Runs (ev : Evaluator) : {α : Type} → ShellM α → ShellM Unit → Prop where
  /-- The child of a subshell, or of an external program. -/
  | job (list : ShellM Unit) :
      Runs ev (jobChild ev list) (do
        prepareChild none false
        list)
  /-- The child of a stage of a pipeline or of a background job. -/
  | stage {α : Type} (pipes : List (Nat × Nat)) (input output : Option Nat)
      (group : Option ProcessId) (background : Bool) (stage : Script.Node) :
      Runs ev (stageChild ev pipes input output group background stage : ShellM α) (do
        prepareChild group background
        let wired ← attempt do
          connect input 0
          connect output 1
        closePipes pipes
        resume wired
        ev.node stage { isLast := true })
  /-- The child of a command substitution. -/
  | substitution (readEnd writeEnd : Nat) (body : Script.Node) :
      Runs ev (Expansion.substitutionChild ev readEnd writeEnd body) (do
        let _ ← ask (.close readEnd)
        becomeSubshell false
        let moved ← duplicateOnto writeEnd 1
        ofExcept (moved.mapError .inputOutput)
        let _ ← ask (.close writeEnd)
        ev.node body { isLast := true })

/-- Whatever its kind, a child runs its list and ends. -/
theorem Runs.eq_exitChild {ev : Evaluator} {child : ShellM α} {list : ShellM Unit}
    (h : Runs ev child list) : child = (do exitChild ev (← attempt list) : ShellM α) := by
  cases h with
  | job list =>
      simp only [attempt_bind, bind_assoc]
      rfl
  | stage pipes input output group background stage =>
      simp only [attempt_bind, bind_assoc]
      unfold stageChild
      refine congrArg _ (funext fun _ => congrArg _ (funext fun wired => congrArg _
        (funext fun _ => ?_)))
      cases wired with
      | ok u => rfl
      | error e => rfl
  | substitution readEnd writeEnd body =>
      simp only [attempt_bind, bind_assoc]
      unfold Expansion.substitutionChild
      refine congrArg _ (funext fun _ => congrArg _ (funext fun _ => congrArg _
        (funext fun moved => ?_)))
      cases moved with
      | ok u =>
          have hmoved : (Except.ok u).mapError Fault.inputOutput = .ok u := rfl
          simp only [hmoved, ofExcept, pure_bind, attempt_bind, bind_assoc]
      | error e => exact exitChild_bind ev _ _

/-- A subshell that ends a process which has nothing else to do is no child of its own. The process
ends as the list does: the check for errors changes no status. -/
theorem comes_runNode_subshell {ev : Evaluator} {body : Script.Node}
    {redirects : List Script.Redirect} {line : Nat} {place : Place} {s t : Shell} {es : List Event}
    {r : Except Stop Unit} (hplace : place.isLast = true) (htrap : s.traps.get? 0 = none)
    (h : ((do
        applyRedirects ev false redirects
        ev.node body { isLast := true } : ShellM Unit).startedIn
      { s with line := line }.asSubshell).Comes es (.done (r, t))) :
    ∃ r', ((runNode ev (.mk (.subshell body redirects) line) place).startedIn s).Comes es
      (.done (r', t)) ∧ exitCode r' t = exitCode r t := by
  have hrun : (runSubshell ev body redirects place).startedIn { s with line := line } =
      (do
        applyRedirects ev false redirects
        ev.node body { isLast := true } : ShellM Unit).startedIn
      { s with line := line }.asSubshell := by
    show (if (place.isLast && (s.traps.get? 0).isNone) = true then _ else _ :
      ShellM Unit).startedIn _ = _
    rw [hplace, htrap]
    rfl
  rw [← List.append_nil es]
  show ∃ r', (((runSubshell ev body redirects place).startedIn
    { s with line := line }).bind _).Comes _ _ ∧ _
  rw [hrun]
  cases r with
  | error e => exact ⟨.error e, h.bind (.here _), rfl⟩
  | ok u =>
      have hcheck : ∃ r', ((checkErrexit (.mk (.subshell body redirects) line) place).startedIn
          t).Comes [] (.done (r', t)) ∧ exitCode r' t = t.status := by
        show ∃ r', ((if (t.status ≠ 0 && true && !place.isTested && t.has .errexit) = true
          then _ else _ : ShellM Unit).startedIn t).Comes _ _ ∧ _
        split
        · exact ⟨.error (.jump (.exit t.status)), .here _, rfl⟩
        · exact ⟨.ok (), .here _, rfl⟩
      obtain ⟨r', hr', hcode⟩ := hcheck
      exact ⟨r', h.bind hr', hcode⟩

/-- The status of a forked child: after its list came to an outcome and its last words were said, it
ends with the status of the list, unless that was left by `return` with a status other than that of
the last command. The child of a job is one of the two processes after a fork. A subshell that takes
the place of its process comes to an outcome that ends the process with the same status. -/
theorem child_exit_status (ev : Evaluator) :
    (∀ {α : Type} (child : ShellM α) (list : ShellM Unit) (s t : Shell) (es es' : List Event)
        (r : Except Stop Unit) (v : Except Stop Unit × Shell), Runs ev child list →
      (list.startedIn s).Comes es (.done (r, t)) →
      ((lastWords ev r).startedIn t).Comes es' (.done v) →
      ∃ code, (child.startedIn s).Comes (es ++ es') (.asks (.exit code)) ∧
        (code = listStatus r t ↔ ∀ n, r = .error (.jump (.returning n)) → n = t.status)) ∧
    (∀ (text : Text) (list : ShellM Unit) (s : Shell) (es : List Event) (code : Int),
      ((jobChild ev list).startedIn s).Comes es (.asks (.exit code)) →
      ((forkJob ev text list).startedIn s).Comes (⟨.fork, .ok .child⟩ :: es)
        (.asks (.exit code))) ∧
    ∀ (body : Script.Node) (redirects : List Script.Redirect) (line : Nat) (place : Place)
        (s t : Shell) (es : List Event) (r : Except Stop Unit), place.isLast = true →
      s.traps.get? 0 = none →
      ((do
          applyRedirects ev false redirects
          ev.node body { isLast := true } : ShellM Unit).startedIn
        { s with line := line }.asSubshell).Comes es (.done (r, t)) →
      ∃ r', ((runNode ev (.mk (.subshell body redirects) line) place).startedIn s).Comes es
          (.done (r', t)) ∧
        (exitCode r' t = listStatus r t ↔
          ∀ n, r = .error (.jump (.returning n)) → n = t.status) := by
  refine ⟨fun child list s t es es' r v hruns hlist hlast => ?_, fun text list s es code h => ?_,
    fun body redirects line place s t es r hplace htrap h => ?_⟩
  · rw [hruns.eq_exitChild]
    exact ⟨_, comes_exitChild hlist hlast, exitCode_eq_listStatus_iff r t⟩
  · exact comes_forkJob text h
  · obtain ⟨r', hr', hcode⟩ := comes_runNode_subshell hplace htrap h
    exact ⟨r', hr', hcode ▸ exitCode_eq_listStatus_iff r t⟩

/-- A child gives the signals that a shell manages their defaults. -/
def childSignals : List Event :=
  Traps.managed.map fun signal => ⟨.setDisposition signal .default, .default⟩

/-- The list ended by a jump, and no trap is left to run. -/
def leftBy (j : Jump) : Except Stop Unit × Shell → Bool
  | (.error e, t) => e = .jump j && (takeExitCommand t).1.isNone
  | (.ok (), _) => false

/-- A trap that was begun before, or that there is none, is not run. -/
theorem startedIn_runExitTrap (ev : Evaluator) (code : Int) {t : Shell}
    (h : (takeExitCommand t).1 = none) :
    (runExitTrap ev code).startedIn t = (pure () : ShellM Unit).startedIn (takeExitCommand t).2 := by
  have htaken : ∀ f : Option Text → ShellM Unit, (modifyGet takeExitCommand >>= f).startedIn t =
      (f (takeExitCommand t).1).startedIn (takeExitCommand t).2 := fun _ => rfl
  rw [runExitTrap, htaken, h]

theorem of_leftBy {j : Jump} {r : Except Stop Unit} {t : Shell} (h : leftBy j (r, t) = true)
    (ev : Evaluator) : r = .error (.jump j) ∧
      ∃ v, ((lastWords ev r).startedIn t).Comes [] (.done v) := by
  cases r with
  | ok u => cases h
  | error e =>
      obtain ⟨he, ht⟩ := Bool.and_eq_true_iff.mp h
      obtain rfl : e = .jump j := of_decide_eq_true he
      have hlast : (lastWords ev (.error (.jump j))).startedIn t =
          (runExitTrap ev (exitCode (.error (.jump j)) t)).startedIn t := by
        cases j <;> rfl
      refine ⟨rfl, (.ok (), (takeExitCommand t).2), ?_⟩
      rw [hlast, startedIn_runExitTrap ev _ (Option.isNone_iff_eq_none.mp ht)]
      exact .here _

/-- A list of one command that was read from a text, with what is set up for it in a child. -/
def childList (text : Text) : ShellM Unit := do
  prepareChild none false
  (evaluatorOf 4).source text

/-- The command `exit 5`. -/
def exitFive : Script.Node :=
  .mk (.simple [] [.mk "exit" [.literal "exit"] 1, .mk "5" [.literal "5"] 1] []) 1

/-- `exit 5` ends a child with 5, and so it does in a subshell that is no child of its own. -/
theorem child_exit_status_exit :
    ((forkJob (evaluatorOf 4) [] ((evaluatorOf 4).source "exit 5")).startedIn {}).Comes
      (⟨.fork, .ok .child⟩ :: (childSignals ++ [])) (.asks (.exit 5)) ∧
    ∃ r t, ((runNode (evaluatorOf 4) (.mk (.subshell exitFive []) 1) { isLast := true }).startedIn
      {}).Comes [] (.done (r, t)) ∧ exitCode r t = 5 := by
  obtain ⟨hchild, hfork, hplace⟩ := child_exit_status (evaluatorOf 4)
  constructor
  · obtain ⟨⟨r, t⟩, hlist, hr⟩ := Host.Program.comes_of_endsIn
      (show ((childList "exit 5").startedIn {}).endsIn (leftBy (.exit 5)) childSignals = true by
        decide +kernel)
    obtain ⟨rfl, v, hlast⟩ := of_leftBy hr (evaluatorOf 4)
    obtain ⟨code, hcode, hstatus⟩ := hchild _ _ _ _ _ _ _ _ (.job _) hlist hlast
    obtain rfl : code = 5 := hstatus.mpr fun _ h => (nomatch h)
    exact hfork [] _ _ _ _ hcode
  · obtain ⟨⟨r, t⟩, hlist, hr⟩ := Host.Program.comes_of_endsIn
      (show ((do
          applyRedirects (evaluatorOf 4) false []
          (evaluatorOf 4).node exitFive { isLast := true } : ShellM Unit).startedIn
        { ({} : Shell) with line := 1 }.asSubshell).endsIn (leftBy (.exit 5)) [] = true by
        decide +kernel)
    obtain ⟨rfl, -⟩ := of_leftBy hr (evaluatorOf 4)
    obtain ⟨r', hr', hstatus⟩ := hplace exitFive [] 1 { isLast := true } {} t [] _ rfl rfl hlist
    exact ⟨r', t, hr', hstatus.mpr fun _ h => (nomatch h)⟩

/-- `return 3` in a function ends a child with the status before, not with 3. -/
theorem not_child_exit_status :
    ¬ ∀ (ev : Evaluator) (list : ShellM Unit) (s t : Shell) (es es' : List Event)
        (r : Except Stop Unit) (v : Except Stop Unit × Shell),
      ((do
          prepareChild none false
          list : ShellM Unit).startedIn s).Comes es (.done (r, t)) →
      ((lastWords ev r).startedIn t).Comes es' (.done v) →
      ((forkJob ev [] list).startedIn s).Comes (⟨.fork, .ok .child⟩ :: (es ++ es'))
        (.asks (.exit (listStatus r t))) := by
  intro h
  obtain ⟨⟨r, t⟩, hlist, hr⟩ := Host.Program.comes_of_endsIn
    (show ((childList "return 3").startedIn { functionDepth := 1 }).endsIn (leftBy (.returning 3))
      childSignals = true by decide +kernel)
  obtain ⟨rfl, v, hlast⟩ := of_leftBy hr (evaluatorOf 4)
  have hthree := (h _ _ _ _ _ _ _ _ hlist hlast).asksAfter_eq
  have hzero : ((forkJob (evaluatorOf 4) [] ((evaluatorOf 4).source "return 3")).startedIn
      { functionDepth := 1 }).asksAfter (⟨.fork, .ok .child⟩ :: (childSignals ++ [])) =
      some (.exit 0) := by decide +kernel
  have hcode : (0 : Int) = 3 := Call.exit.inj (Option.some.inj (hzero.symm.trans hthree))
  exact absurd hcode (by decide)

end Shell

end CommandShell
