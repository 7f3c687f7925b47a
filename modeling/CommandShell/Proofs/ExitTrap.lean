import CommandShell.Proofs.Procedures.Trails

/-!
# The command for the end of a shell

A shell ends when the list of commands that it was started for came to an outcome: at the end of the
input, by an `exit`, by `errexit` or by an error that ends shells. Then the command of its `EXIT` trap is
taken out of the traps and evaluated, with the status of the shell as `$?` (`lastThings`). From then on
the shell is ending, and this is why the command is evaluated once. No act but a fork makes a shell that
is ending one that is not (`Trail.exists_parts`), and a subshell has a command for its end only if it
sets one (`Trail.exists_traps`).

Whatever the command comes to, the process ends with the status that was settled before
(`exit_trap_runs_once`), also if the command is an `exit` (`not_exit_trap_decides`).
-/

namespace CommandShell

open Host (Event Program)
open Host.Program (Comes Reaches)

namespace Startup

open Shell

/-- Runs the text of a startup file. -/
def runStartupText (ev : Evaluator) (t : Text) : ShellM Unit := do
  match ← attempt (ev.source t) with
  | .error (.jump (.exit code)) => exitShell ev code
  | .error (.jump (.returning code)) => setStatus code
  | .error s => reportStop s
  | .ok () => return

theorem sourceStartup_eq (ev : Evaluator) (path : Text) :
    sourceStartup ev path = (do
      match ← readFile path with
      | .error _ => return
      | .ok data => runStartupText ev (Text.decode data)) := rfl

/-- Runs commands until the shell ends. -/
def runMain {α : Type} (ev : Evaluator) (source : ScriptSource) : ShellM α := do
  finish ev (← attempt (runSource ev true source))

theorem live_eq {α : Type} (ev : Evaluator) (line : CommandLine) (login : Bool)
    (source : ScriptSource) : (live ev line login source : ShellM α) = (do
      sourceStartupFiles ev login
      let prompts := (← get).isInteractive && line.source == .standardInput
      runMain ev { source with prompts }) := rfl

end Startup

namespace Shell

variable {ev : Evaluator} {α : Type} {s t u : Shell} {a : Act} {as : List Act} {es : List Event}
  {command : Text} {code : Int}

/-! ## Taking the command -/

/-- A shell that took the command for its end, and is going to end with a status. -/
def ending (sh : Shell) (code : Int) : Shell :=
  { sh with isExiting := true, traps := sh.traps.set 0 none, status := code }

/-- Tells of an outcome, if it is an error. -/
def tell : Except Stop Unit → ShellM Unit
  | .ok () => pure ()
  | .error e => reportStop e

/-- What a shell does after an outcome that has a command for its end: it evaluates the command, and
ends with the status that it had before. -/
def lastThings (ev : Evaluator) (command : Text) (r : Except Stop Unit) (code : Int) : ShellM α := do
  tell r
  modify (·.ending code)
  tell (← attempt (ev.source command))
  leave code

theorem takeExitCommand_eq (hs : s.isExiting = false) :
    takeExitCommand s =
      (s.traps.exitCommand?, { s with isExiting := true, traps := s.traps.set 0 none }) := by
  unfold takeExitCommand
  rw [hs]
  rfl

theorem exitShell_eq (ev : Evaluator) (code : Int) :
    (exitShell ev code : ShellM α) = (do
      match ← modifyGet takeExitCommand with
      | none => leave code
      | some command =>
        setStatus code
        tell (← attempt (ev.source command))
        leave code) := by
  unfold exitShell runExitTrap
  rw [bind_assoc]
  refine bind_congr fun taken => ?_
  cases taken with
  | none => exact pure_bind _ _
  | some command =>
      simp only [bind_assoc]
      refine bind_congr (m := ShellM) fun _ => bind_congr fun r => ?_
      cases r with
      | ok u => rfl
      | error e => rfl

/-- With a command for its end, a shell that ends does the last things. -/
theorem startedIn_exitShell (hs : s.isExiting = false) (hcommand : s.traps.exitCommand? = some command)
    (code : Int) : (exitShell ev code : ShellM α).startedIn s =
      (lastThings ev command (.ok ()) code : ShellM α).startedIn s := by
  have htaken : ∀ f : Option Text → ShellM α, (modifyGet takeExitCommand >>= f).startedIn s =
      (f (some command)).startedIn { s with isExiting := true, traps := s.traps.set 0 none } := by
    intro f
    show (f (takeExitCommand s).1).startedIn (takeExitCommand s).2 = _
    rw [takeExitCommand_eq hs, hcommand]
  rw [exitShell_eq, htaken]
  rfl

/-- A message leaves the shell as it is, so that it comes to its end as if there were none. -/
theorem startedIn_tell_exitShell (hs : s.isExiting = false)
    (hcommand : s.traps.exitCommand? = some command) (r : Except Stop Unit) (code : Int) :
    (do
      tell r
      exitShell ev code : ShellM α).startedIn s = (lastThings ev command r code).startedIn s := by
  cases r with
  | ok u => exact startedIn_exitShell hs hcommand code
  | error e =>
      -- the calls of the message come first on both sides
      refine Host.Program.bind_congr_always ((always_ok_of_keeps (x := reportStop e) s).mono ?_)
      rintro _ ⟨⟨⟩, rfl⟩
      exact startedIn_exitShell hs hcommand code

theorem tell_jump (j : Jump) : tell (.error (.jump j)) = pure () := rfl

/-- To ask for the status is to have it. -/
theorem startedIn_status_bind (f : Int → ShellM α) (s : Shell) :
    (do f (← get).status : ShellM α).startedIn s = (f s.status).startedIn s := rfl

/-- The shell ends with the status of the list that it ran. -/
theorem startedIn_finish (hs : s.isExiting = false) (hcommand : s.traps.exitCommand? = some command)
    (r : Except Stop Unit) : (Startup.finish ev r : ShellM α).startedIn s =
      (lastThings ev command r (listStatus r s)).startedIn s := by
  rw [← startedIn_tell_exitShell hs hcommand]
  cases r with
  | ok u => exact startedIn_status_bind (exitShell ev) s
  | error e =>
      cases e with
      | fault f line => rfl
      | jump j =>
          rw [tell_jump, pure_bind]
          cases j with
          | exit n => rfl
          | returning n => rfl
          | _ => exact startedIn_status_bind (exitShell ev) s

/-- So does a forked child, but for a list that was left by `return`. -/
theorem startedIn_exitChild (hs : s.isExiting = false) (hcommand : s.traps.exitCommand? = some command)
    (r : Except Stop Unit) : (exitChild ev r : ShellM α).startedIn s =
      (lastThings ev command r (exitCode r s)).startedIn s := by
  rw [← startedIn_tell_exitShell hs hcommand]
  unfold exitChild
  cases r with
  | ok u => exact startedIn_status_bind (exitShell ev) s
  | error e =>
      cases e with
      | fault f line =>
          unfold childStatus tell
          simp only [bind_assoc, pure_bind]
          rfl
      | jump j =>
          rw [tell_jump, pure_bind]
          cases j with
          | exit n => exact congrArg (fun x : ShellM α => x.startedIn s) (pure_bind n (exitShell ev))
          | _ => exact startedIn_status_bind (exitShell ev) s

/-! ## Once -/

theorem exitCommand?_eq_some {ts : Traps} :
    ts.exitCommand? = some command ↔ ts.get? 0 = some (.command command) := by
  unfold Traps.exitCommand?
  split
  · rename_i t ht
    rw [ht]
    simp
  · rename_i hnone
    refine ⟨fun h => (nomatch h), fun h => absurd h (hnone command)⟩

/-- No act but a fork makes a shell that is ending one that is not. -/
theorem Acts.isExiting_or_parts (h : Acts s a t) (hs : s.isExiting = true) :
    t.isExiting = true ∨ a = .parts ∧ t = s.asSubshell := by
  cases h with
  | calls _ => exact .inl hs
  | changes _ _ _ => exact .inl hs
  | sets options => exact .inl hs
  | traps _ action => exact .inl hs
  | parts => exact .inr ⟨rfl, rfl⟩
  | ends =>
      unfold takeExitCommand
      rw [hs]
      exact .inl hs
  | works _ _ _ hexiting => exact .inl (hexiting.trans hs)

theorem Trail.exists_parts (h : Trail s as u) (hs : s.isExiting = true) (hu : u.isExiting = false) :
    ∃ as₁ as₂ v, as = as₁ ++ .parts :: as₂ ∧ Trail (asSubshell v) as₂ u := by
  induction h with
  | nil s => exact absurd (hu.symm.trans hs) Bool.false_ne_true
  | @cons s t u a as ha has ih =>
      rcases ha.isExiting_or_parts hs with ht | ⟨rfl, rfl⟩
      · obtain ⟨as₁, as₂, v, rfl, hv⟩ := ih ht hu
        exact ⟨a :: as₁, as₂, v, rfl, hv⟩
      · exact ⟨[], as, s, rfl, has⟩

/-- No act but `trap` gives a shell a command for its end, and a subshell has none. -/
theorem Acts.exitCommand_or_traps (h : Acts s a t) (ht : t.traps.exitCommand? = some command) :
    s.traps.exitCommand? = some command ∨ a = .traps 0 (some (.command command)) := by
  cases h with
  | calls _ => exact .inl ht
  | changes _ _ _ => exact .inl ht
  | sets options => exact .inl ht
  | @traps number _ action =>
      rw [exitCommand?_eq_some, Traps.get?_set] at ht
      by_cases hnumber : 0 = number
      · rw [if_pos hnumber] at ht
        exact .inr (by rw [← hnumber, ht])
      · rw [if_neg hnumber] at ht
        exact .inl (exitCommand?_eq_some.mpr ht)
  | parts => exact absurd (exitCommand?_eq_some.mp ht) (Traps.get?_inSubshell_ne_command _ _ _)
  | ends =>
      unfold takeExitCommand at ht
      split at ht
      · exact .inl ht
      · rw [exitCommand?_eq_some, Traps.get?_set] at ht
        cases ht
  | works _ _ htraps _ => exact .inl (htraps ▸ ht)

theorem Trail.exists_traps (h : Trail s as u) (hs : s.traps.exitCommand? ≠ some command)
    (hu : u.traps.exitCommand? = some command) :
    ∃ as₁ as₂, as = as₁ ++ .traps 0 (some (.command command)) :: as₂ := by
  induction h with
  | nil s => exact absurd hu hs
  | @cons s t u a as ha _ ih =>
      by_cases ht : t.traps.exitCommand? = some command
      · rcases ha.exitCommand_or_traps ht with hs' | rfl
        · exact absurd hs' hs
        · exact ⟨[], as, rfl⟩
      · obtain ⟨as₁, as₂, rfl⟩ := ih ht hu
        exact ⟨a :: as₁, as₂, rfl⟩

/-- On the way a subshell was made, and it set the command for its own end. -/
def SetsItsOwn (command : Text) (as : List Act) : Prop :=
  ∃ as₁ as₂ as₃, as = as₁ ++ .parts :: (as₂ ++ .traps 0 (some (.command command)) :: as₃)

/-- After a shell that is ending, only a subshell takes a command for its end, and its own. -/
theorem Trail.setsItsOwn (h : Trail s as u) (hs : s.isExiting = true)
    (hu : (takeExitCommand u).1 = some command) : SetsItsOwn command as := by
  have hfree : u.isExiting = false ∧ u.traps.exitCommand? = some command := by
    unfold takeExitCommand at hu
    split at hu
    · cases hu
    · exact ⟨Bool.eq_false_iff.mpr ‹_›, hu⟩
  -- a fork made a shell that is not ending, and it began without a command for its end
  obtain ⟨as₁, as₂, v, rfl, hv⟩ := h.exists_parts hs hfree.1
  have hnone : v.asSubshell.traps.exitCommand? ≠ some command :=
    fun h => Traps.get?_inSubshell_ne_command _ _ _ (exitCommand?_eq_some.mp h)
  obtain ⟨as₂, as₃, rfl⟩ := hv.exists_traps hnone hfree.2
  exact ⟨as₁, as₂, as₃, rfl⟩

/-! ## Shells that end -/

/-- A shell in a state, the list that it runs before it ends, an outcome of the list, and the status that
this stands for in the state that the list comes to. -/
inductive Finishes (ev : Evaluator) (s : Shell) :
    {α : Type} → ShellM α → ShellM Unit → Except Stop Unit → (Shell → Int) → Prop where
  /-- The main loop, at the end of its input or when it was stopped. -/
  | main {α : Type} (hs : s.isExiting = false) (source : ScriptSource) (r : Except Stop Unit) :
      Finishes ev s (Startup.runMain ev source : ShellM α) (runSource ev true source) r (listStatus r)
  /-- A startup file with an `exit` in it. -/
  | startup (hs : s.isExiting = false) (t : Text) (code : Int) :
      Finishes ev s (Startup.runStartupText ev t) (ev.source t) (.error (.jump (.exit code)))
        fun _ => code
  /-- A forked child, which is set up and runs its body. -/
  | child {α : Type} {child : ShellM α} {setUp body : ShellM Unit} {background : Bool}
      (h : Runs ev child (do
        setUp
        body)) (hsetUp : SetsUp ev child setUp background) (hbody : Procedure ev .any body)
      (r : Except Stop Unit) :
      Finishes ev s child (do
        setUp
        body) r (exitCode r)

variable {x : ShellM α} {list : ShellM Unit} {r : Except Stop Unit} {status : Shell → Int}

/-- The child of a subshell, or of an external program. -/
theorem finishes_jobChild (body : ShellM Unit) [h : Procedure ev .any body] (r : Except Stop Unit) :
    Finishes ev s (jobChild ev body) (do
      prepareChild none false
      body) r (exitCode r) := .child (.job body) (.job body) h r

/-- The child of a stage of a pipeline or of a background job. -/
theorem finishes_stageChild (pipes : List (Nat × Nat)) (input output : Option Nat)
    (group : Option ProcessId) (background : Bool) (stage : Script.Node) (r : Except Stop Unit) :
    Finishes ev s (stageChild ev pipes input output group background stage : ShellM α) (do
      prepareChild group background
      let wired ← attempt do
        connect input 0
        connect output 1
      closePipes pipes
      resume wired
      ev.node stage { isLast := true }) r (exitCode r) := by
  refine .child (.stage pipes input output group background stage)
    (.stage pipes input output group background stage) ?_ r
  exact .caught (F := .any) procedure_bind fun wired => inferInstance

/-- The child of a command substitution. -/
theorem finishes_substitutionChild (readEnd writeEnd : Nat) (body : Script.Node)
    (r : Except Stop Unit) :
    Finishes ev s (Expansion.substitutionChild ev readEnd writeEnd body) (do
      (do
        let _ ← ask (.close readEnd)
        becomeSubshell false)
      let moved ← duplicateOnto writeEnd 1
      ofExcept (moved.mapError .inputOutput)
      let _ ← ask (.close writeEnd)
      ev.node body { isLast := true }) r (exitCode r) := by
  refine .child ?_ (.substitution readEnd writeEnd body) procedure_bind r
  simp only [bind_assoc]
  exact .substitution readEnd writeEnd body

/-- A list does not begin to end the shell. -/
theorem Finishes.running (h : Finishes ev s x list r status) (hev : EndsWithin ev)
    (hlist : (list.startedIn s).Comes es (.done (r, t))) : t.isExiting = false := by
  cases h with
  | main hs source r =>
      exact (((procedure_runSource (E := .within) true source).ends hev s).of_comes hlist).running hs
  | startup hs text code => exact ((hev.source text s).of_comes hlist).running hs
  | child h hsetUp hbody r =>
      obtain ⟨es₁, es₂, ⟨r₁, t₁⟩, rfl, h₁, h₂⟩ := Comes.of_bind hlist
      obtain ⟨⟨u, rfl⟩, rfl, -⟩ := hsetUp.settles s es₁ r₁ t₁ h₁
      exact ((hbody.ends hev s.asSubshell).of_comes h₂).running rfl

/-- After its list a shell does the last things. -/
theorem Finishes.reaches (h : Finishes ev s x list r status)
    (hlist : (list.startedIn s).Comes es (.done (r, t))) (ht : t.isExiting = false)
    (hcommand : t.traps.exitCommand? = some command) :
    Reaches (x.startedIn s) es ((lastThings ev command r (status t) : ShellM α).startedIn t) := by
  cases h with
  | main hs source r =>
      rw [← startedIn_finish ht hcommand]
      exact reaches_attempt_bind hlist (Startup.finish ev)
  | startup hs text code =>
      rw [← startedIn_tell_exitShell ht hcommand, tell_jump, pure_bind]
      exact reaches_attempt_bind hlist _
  | child h hsetUp hbody r =>
      rw [h.eq_exitChild, ← startedIn_exitChild ht hcommand]
      exact reaches_attempt_bind hlist (exitChild ev)

/-- The process ends with the status that was settled, whatever the command came to. -/
theorem comes_lastThings {es₁ es₂ es₃ : List Event} {r' : Except Stop Unit} {v : Shell}
    (htell : ((tell r).startedIn t).Comes es₁ (.done (.ok (), t)))
    (hcommand : ((ev.source command).startedIn (t.ending code)).Comes es₂ (.done (r', u)))
    (htell' : ((tell r').startedIn u).Comes es₃ (.done (.ok (), v))) :
    ((lastThings ev command r code : ShellM α).startedIn t).Comes (es₁ ++ (es₂ ++ es₃))
      (.asks (.exit code)) := by
  have hleave : ((leave code : ShellM α).startedIn v).Comes [] (.asks (.exit code)) := ⟨_, .here _⟩
  have hend : ((do
      tell r'
      leave code : ShellM α).startedIn u).Comes es₃ (.asks (.exit code)) := by
    rw [← List.append_nil es₃]
    exact htell'.bind hleave
  obtain ⟨k, hk⟩ := hend
  have hreaches : Reaches ((attempt (ev.source command) >>= fun r' => do
      tell r'
      leave code : ShellM α).startedIn (t.ending code)) (es₂ ++ es₃) (.call (.exit code) k) :=
    (reaches_attempt_bind hcommand _).trans hk
  exact htell.bind ⟨k, hreaches⟩

/-- Let a shell of any kind have run its list, and let it have a command for its end then. It was not
ending before. It evaluates the command with the status that the outcome stands for, and ends with this
status whatever the command comes to. As long as the command is evaluated, no command for an end is taken,
but by a subshell that set one for itself. -/
theorem exit_trap_runs_once (depth : Nat) {α : Type} {x : ShellM α} {list : ShellM Unit}
    {r : Except Stop Unit} {status : Shell → Int} {s t : Shell} {es : List Event} {command : Text}
    (hx : Finishes (evaluatorOf depth) s x list r status)
    (hlist : (list.startedIn s).Comes es (.done (r, t)))
    (hcommand : t.traps.exitCommand? = some command) :
    t.isExiting = false ∧
    Reaches (x.startedIn s) es
      ((lastThings (evaluatorOf depth) command r (status t) : ShellM α).startedIn t) ∧
    (∀ es₁ es₂ es₃ r' u v, ((tell r).startedIn t).Comes es₁ (.done (.ok (), t)) →
      (((evaluatorOf depth).source command).startedIn (t.ending (status t))).Comes es₂
        (.done (r', u)) →
      ((tell r').startedIn u).Comes es₃ (.done (.ok (), v)) →
      (x.startedIn s).Comes (es ++ (es₁ ++ (es₂ ++ es₃))) (.asks (.exit (status t)))) ∧
    ∀ es' p, Reaches (((evaluatorOf depth).source command).startedIn (t.ending (status t))) es' p →
      ∃ as u, Trail (t.ending (status t)) as u ∧ events as = es' ∧ Traces u p ∧
        ∀ as₁ as₂ v command', as₁ ++ as₂ = as → Trail (t.ending (status t)) as₁ v →
          (takeExitCommand v).1 = some command' → SetsItsOwn command' as₁ := by
  have ht := hx.running (endsWithin_evaluatorOf depth) hlist
  have hreaches := hx.reaches hlist ht hcommand
  refine ⟨ht, hreaches, ?_, ?_⟩
  · intro es₁ es₂ es₃ r' u v htell hsource htell'
    obtain ⟨k, hk⟩ := comes_lastThings (α := α) htell hsource htell'
    exact ⟨k, hreaches.trans hk⟩
  · intro es' p hp
    obtain ⟨as, u, has, hes, hu⟩ := ((allTrails_evaluatorOf depth).source command _).reaches hp
    exact ⟨as, u, has, hes, hu, fun as₁ as₂ v command' _ hv htaken => hv.setsItsOwn rfl htaken⟩

/-- A shell with a command for its end. -/
def withExitCommand (command : Text) : Shell :=
  { traps := ({} : Traps).set 0 (some (.command command)) }

/-- What the main loop asks for before a command, in a process without children and signals. -/
def betweenCommands : List Event := [⟨.wait none true false, .ok none⟩, ⟨.takeArrived, false⟩]

/-- A shell whose main loop runs `exit 5` has that command left, which comes to the given outcome without
a call. -/
def leavesCommand (command : Text) (f : Except Stop Unit → Bool) (es : List Event) : Bool :=
  ((runSource (evaluatorOf 4) true (.ofText "exit 5")).startedIn (withExitCommand command)).endsIn
    (fun (r, t) => r == .error (.jump (.exit 5)) && t.traps.exitCommand? == some command &&
      (((evaluatorOf 4).source command).startedIn (t.ending 5)).endsIn (fun r => f r.1) es)
    betweenCommands

theorem comes_of_leavesCommand {f : Except Stop Unit → Bool}
    (h : leavesCommand command f es = true) :
    ∃ t r u, ((runSource (evaluatorOf 4) true (.ofText "exit 5")).startedIn
        (withExitCommand command)).Comes betweenCommands (.done (.error (.jump (.exit 5)), t)) ∧
      t.traps.exitCommand? = some command ∧
      (((evaluatorOf 4).source command).startedIn (t.ending 5)).Comes es (.done (r, u)) ∧
      f r = true := by
  obtain ⟨⟨r, t⟩, hlist, h⟩ := Host.Program.comes_of_endsIn h
  obtain ⟨h, hsource⟩ := Bool.and_eq_true_iff.mp h
  obtain ⟨hr, ht⟩ := Bool.and_eq_true_iff.mp h
  obtain rfl : r = .error (.jump (.exit 5)) := eq_of_beq hr
  obtain ⟨⟨r', u⟩, hcommand, hf⟩ := Host.Program.comes_of_endsIn hsource
  exact ⟨t, r', u, hlist, eq_of_beq ht, hcommand, hf⟩

/-- A shell that ends by `exit 5` runs `x=1` at its end, and ends with 5. -/
theorem exit_trap_runs_once_assignment :
    ((Startup.runMain (evaluatorOf 4) (.ofText "exit 5") : ShellM Empty).startedIn
      (withExitCommand "x=1")).Comes (betweenCommands ++ [⟨.takeArrived, false⟩]) (.asks (.exit 5)) := by
  obtain ⟨t, r, u, hlist, ht, hcommand, hr⟩ := comes_of_leavesCommand
    (show leavesCommand "x=1" (·.isOk) [⟨.takeArrived, false⟩] = true by decide +kernel)
  obtain ⟨-, -, hstatus, -⟩ := exit_trap_runs_once (α := Empty) 4
    (.main rfl (.ofText "exit 5") (.error (.jump (.exit 5)))) hlist ht
  cases r with
  | error e => cases hr
  | ok _ => exact hstatus [] [⟨.takeArrived, false⟩] [] (.ok ()) u u (.here _) hcommand (.here _)

/-- A shell that ends by `exit 5` runs `exit 3` at its end, and does not end with 3. -/
theorem not_exit_trap_decides :
    ¬ ∀ (depth : Nat) (source : ScriptSource) (s t u : Shell) (es es' : List Event) (command : Text)
        (code code' : Int), s.isExiting = false →
      ((runSource (evaluatorOf depth) true source).startedIn s).Comes es
        (.done (.error (.jump (.exit code)), t)) →
      t.traps.exitCommand? = some command →
      (((evaluatorOf depth).source command).startedIn (t.ending code)).Comes es'
        (.done (.error (.jump (.exit code')), u)) →
      ((Startup.runMain (evaluatorOf depth) source : ShellM Empty).startedIn s).Comes (es ++ es')
        (.asks (.exit code')) := by
  intro h
  obtain ⟨t, r, u, hlist, ht, hcommand, hr⟩ := comes_of_leavesCommand
    (show leavesCommand "exit 3" (· == .error (.jump (.exit 3))) [] = true by decide +kernel)
  obtain rfl : r = .error (.jump (.exit 3)) := eq_of_beq hr
  have hthree := (h 4 _ _ _ _ _ _ _ _ _ rfl hlist ht hcommand).asksAfter_eq
  have hfive : ((Startup.runMain (evaluatorOf 4) (.ofText "exit 5") : ShellM Empty).startedIn
      (withExitCommand "exit 3")).asksAfter (betweenCommands ++ []) = some (.exit 5) := by
    decide +kernel
  have hcode : (5 : Int) = 3 := Host.Call.exit.inj (Option.some.inj (hfive.symm.trans hthree))
  exact absurd hcode (by decide)

end Shell

end CommandShell
