import CommandShell.Proofs.Procedures.Constructs
import CommandShell.Startup.Boot

/-!
# Trails of procedures

Procedures go from state to state by acts. Commands are procedures, and so is the whole shell.
-/

/-!
## Procedures go by acts

Every part of a procedure goes on from its state by acts (`Trails`), whatever the answers to its calls
are, and so does the whole if the commands that its evaluator runs do (`Procedure.trails`). By induction
on the depth of nesting it follows that every command, every script and every child of a shell leaves a
trail (`allTrails_evaluatorOf`).
-/

namespace CommandShell.Shell

open Host (Call Program)

variable {ev : Evaluator} {E : Exits} {σ α β : Type} {s t : Shell}

/-- A computation that goes on by acts from whatever state it begins in. -/
def Trails (x : ShellM α) : Prop := ∀ s, Traces s (x.startedIn s)

/-- Orders are carried out in the state that gives them. -/
theorem traces_setDispositions {ds : List (Signal × Host.Disposition)}
    (h : ∀ sd ∈ ds, s.Orders sd.1 sd.2) : Traces s ((setDispositions ds).startedIn s) := by
  induction ds with
  | nil => exact .done _ s
  | cons sd ds ih =>
      exact .call (h sd List.mem_cons_self) fun _ => ih fun sd' hsd' => h sd' (List.mem_cons_of_mem _ hsd')

namespace Trails

/-- No call is made, and acts lead to the state that there is then. -/
theorem silent {x : ShellM α} (h : ∀ s, ∃ r t, x.startedIn s = .done (r, t) ∧
    ∃ as, Trail s as t ∧ events as = []) : Trails x := by
  intro s
  obtain ⟨r, t, hx, as, has, hcalls⟩ := h s
  rw [hx]
  exact .of_trail has hcalls (.done r t)

protected theorem pure (a : α) : Trails (pure a : ShellM α) := .silent fun s => ⟨.ok a, s, rfl, [], .nil s, rfl⟩

protected theorem throw (e : Stop) : Trails (throw e : ShellM α) :=
  .silent fun s => ⟨.error e, s, rfl, [], .nil s, rfl⟩

protected theorem get : Trails (get : ShellM Shell) := .silent fun s => ⟨.ok s, s, rfl, [], .nil s, rfl⟩

protected theorem ask {c : Call} (h : ∀ s : Shell, s.Issues c) : Trails (ask c) :=
  fun s => .call (h s) fun r => .done (.ok r) s

theorem sequence {P : α → Prop} {x : ShellM α} {f : α → ShellM β} (hx : Trails x) (hP : Yields P x)
    (hf : ∀ a, P a → Trails (f a)) : Trails (x >>= f) := by
  intro s
  show Traces s ((x.startedIn s).bind _)
  refine (hx s).bind_always (hP s) fun r t hr => ?_
  cases r with
  | ok a => exact hf a (hr a rfl) t
  | error e => exact .done (.error e) t

protected theorem bind {x : ShellM α} {f : α → ShellM β} (hx : Trails x) (hf : ∀ a, Trails (f a)) :
    Trails (x >>= f) :=
  hx.sequence (P := fun _ => True) (fun _ => Program.always_of (fun _ _ _ => trivial) _)
    fun a _ => hf a

protected theorem attempt {x : ShellM α} (hx : Trails x) : Trails (attempt x) := by
  intro s
  show Traces s ((x.startedIn s).bind _)
  exact (hx s).bind fun r t => .done (.ok r) t

protected theorem resume (r : Except Stop α) : Trails (resume r) := by
  cases r with
  | ok a => exact .pure a
  | error e => exact .throw e

protected theorem ite {c : Prop} [Decidable c] {x y : ShellM α} (hx : Trails x) (hy : Trails y) :
    Trails (if c then x else y) := by
  split
  · exact hx
  · exact hy

protected theorem modify {f : Shell → Shell} (h : ∀ s, ∃ as, Trail s as (f s) ∧ events as = []) :
    Trails (modify f : ShellM Unit) := .silent fun s => ⟨.ok (), f s, rfl, h s⟩

/-- Something changes that the acts are not about. -/
theorem works {f : Shell → Shell} (hvariables : ∀ s, (f s).variables = s.variables)
    (hoptions : ∀ s, (f s).options = s.options) (htraps : ∀ s, (f s).traps = s.traps)
    (hexiting : ∀ s, (f s).isExiting = s.isExiting) : Trails (modify f : ShellM Unit) :=
  .modify fun s => ⟨[.works],
    (Acts.works (hvariables s) (hoptions s) (htraps s) (hexiting s)).trail, rfl⟩

/-- The variables change, and something that the acts are not about. -/
theorem changes {c : Variables.Change} {f : Shell → Shell}
    (hc : ∀ s : Shell, s.variables.change c = .ok (f s).variables) (htries : ∀ s : Shell, s.Tries c)
    (hoptions : ∀ s, (f s).options = s.options) (htraps : ∀ s, (f s).traps = s.traps)
    (hexiting : ∀ s, (f s).isExiting = s.isExiting) : Trails (modify f : ShellM Unit) :=
  .modify fun s => by
    have hworks : Acts { s with «variables» := (f s).variables } .works (f s) :=
      .works rfl (hoptions s) (htraps s) (hexiting s)
    exact ⟨[.changes c, .works], .cons (.changes (hc s) (htries s) s.definitions) hworks.trail, rfl⟩

/-! ### Loops, functions, and the end of the shell -/

theorem withinLoop {body : ShellM Int} (h : Trails body) : Trails (withinLoop body) :=
  .bind (.works (fun _ => rfl) (fun _ => rfl) (fun _ => rfl) fun _ => rfl) fun _ =>
    .bind (.attempt (.bind h fun _ => .works (fun _ => rfl) (fun _ => rfl) (fun _ => rfl) fun _ => rfl))
      fun r => .bind (.works (fun _ => rfl) (fun _ => rfl) (fun _ => rfl) fun _ => rfl) fun _ => .resume r

theorem takeReturn (r : Except Stop Unit) : Trails (takeReturn r) := by
  unfold Shell.takeReturn
  split
  · exact .works (fun _ => rfl) (fun _ => rfl) (fun _ => rfl) fun _ => rfl
  · exact .resume r

theorem withinFunction (params : List Text) (assigned : List (Text × Text)) {body : ShellM Unit}
    (h : Trails (do shadowAll assigned; body)) : Trails (withinFunction params assigned body) := by
  unfold Shell.withinFunction withFrame
  simp only [bind_assoc, pure_bind]
  refine .bind .get fun s => .bind ?_ fun _ => .bind ?_ fun _ => .bind (.attempt h) fun r =>
    .bind ?_ fun _ => .bind ?_ fun _ => .takeReturn r
  · exact .changes (c := .params params) (fun _ => rfl) (fun _ => trivial) (fun _ => rfl)
      (fun _ => rfl) fun _ => rfl
  · exact .changes (c := .binding .openFrame) (fun _ => rfl) (fun _ => trivial) (fun _ => rfl)
      (fun _ => rfl) fun _ => rfl
  · exact .changes (c := .binding .closeFrame) (fun _ => rfl) (fun _ => trivial) (fun _ => rfl)
      (fun _ => rfl) fun _ => rfl
  · exact .changes (c := .params s.variables.params) (fun _ => rfl) (fun _ => trivial) (fun _ => rfl)
      (fun _ => rfl) fun _ => rfl

theorem iterateFor {step : σ → ShellM (σ ⊕ α)} (h : ∀ a, Trails (step a)) (n : Nat) (a : σ) :
    Trails (iterateFor step n a) := by
  induction n generalizing a with
  | zero => exact .throw _
  | succ n ih =>
      refine .bind (h a) fun r => ?_
      cases r with
      | inl a' => exact ih a'
      | inr b => exact .pure b

protected theorem iterate {step : σ → ShellM (σ ⊕ α)} (h : ∀ a, Trails (step a)) (a : σ) :
    Trails (iterate step a) := iterateFor h roundLimit a

theorem writeBytes (fd : Nat) (data : Host.Bytes) : Trails (writeBytes fd data) := by
  refine .iterate (fun rest => ?_) data
  refine .ite (.pure _) (.bind (.ask fun _ => trivial) fun r => ?_)
  cases r with
  | ok n => exact .pure _
  | error e => exact .ite (.pure _) (.throw _)

theorem reportStop (e : Stop) : Trails (reportStop e) :=
  .ite (.pure ()) (.bind .get fun _ => .bind (.attempt (writeBytes _ _)) fun _ => .pure ())

theorem leave (code : Int) : Trails (leave code : ShellM α) :=
  .bind (.ask fun _ => trivial) fun never => Empty.elim never

theorem setStatus (code : Int) : Trails (setStatus code) :=
  .works (fun _ => rfl) (fun _ => rfl) (fun _ => rfl) fun _ => rfl

section

variable (hsource : ∀ t, Trails (ev.source t))

include hsource

theorem runExitTrap (code : Int) : Trails (runExitTrap ev code) := by
  have htake : Trails (modifyGet takeExitCommand) :=
    .silent fun s => ⟨_, _, rfl, [.ends], (Acts.ends s).trail, rfl⟩
  refine .bind htake fun command => ?_
  cases command with
  | none => exact .pure ()
  | some t =>
      refine .bind (.setStatus code) fun _ => .bind (.attempt (hsource t)) fun r => ?_
      cases r with
      | ok u => exact .pure u
      | error e => exact .reportStop e

theorem exitShell (code : Int) : Trails (exitShell ev code : ShellM α) :=
  .bind (.runExitTrap hsource code) fun _ => .leave code

/-! ### Drains -/

theorem runTrap (later : List Signal) (command : Text) : Trails (runTrap ev later command) := by
  have hpending : ∀ ss, Trails (anyPending ss) := by
    intro ss
    induction ss with
    | nil => exact .pure false
    | cons s ss ih => exact .bind (.ask fun _ => trivial) fun pending => .ite (.pure true) ih
  have hmark : ∀ inTrap, Trails (modify fun sh => { sh with inTrap } : ShellM Unit) :=
    fun _ => .works (fun _ => rfl) (fun _ => rfl) (fun _ => rfl) fun _ => rfl
  refine .bind .get fun s => .bind (hmark true) fun _ => .bind (.attempt (hsource command)) fun r =>
    .bind (hmark false) fun _ => ?_
  cases r with
  | ok u => exact .setStatus _
  | error e =>
      refine .ite (.bind (hpending later) fun found => ?_) (.bind (.reportStop e) fun _ => .setStatus _)
      cases found with
      | true => exact .bind (.ask fun _ => trivial) fun _ => .throw e
      | false => exact .throw e

theorem handleArrived (ss : List Signal) : Trails (handleArrived ev ss) := by
  induction ss with
  | nil => exact .pure false
  | cons signal later ih =>
      refine .bind (.ask fun _ => trivial) fun taken => .ite ih (.bind .get fun s => ?_)
      split
      · exact .bind (.runTrap hsource later _) fun _ => ih
      · exact ih
      · exact .bind ih fun rest => .pure _

theorem runTraps : Trails (runTraps ev) :=
  .bind .get fun _ => .ite (.pure ()) <| .bind (.ask fun _ => trivial) fun _ => .ite (.pure ()) <|
    .bind (.handleArrived hsource Signal.all) fun _ => .ite (.throw _) (.pure ())

end

end Trails

/-! ### Procedures -/

/-- An evaluator of which every command goes by acts. -/
structure AllTrails (ev : Evaluator) : Prop where
  node : ∀ node place, Trails (ev.node node place)
  source : ∀ t, Trails (ev.source t)
  command : ∀ args, Trails (ev.command args)
  builtin : ∀ b name args, Trails (ev.builtin b name args)

protected theorem Procedure.trails {x : ShellM α} (h : Procedure ev E x) (hev : AllTrails ev) :
    Trails x := by
  induction h with
  | silent h =>
      refine .silent fun s => ?_
      obtain ⟨r, t, hx, hmoves, -⟩ := h s
      exact ⟨r, t, hx, hmoves.trail⟩
  | ask c h => exact .ask (issues_of_isPlain h)
  | @orders _ f hmoves h =>
      intro s
      exact .of_moves (hmoves s) (traces_setDispositions (h s))
  | sequence _ hP _ ihx ihf => exact ihx.sequence hP ihf
  | caught _ _ ihx ihf => exact .bind (.attempt ihx) ihf
  | loop _ _ ih => exact .withinLoop ih
  | function params assigned _ ih => exact .withinFunction params assigned ih
  | exit code => exact .exitShell hev.source code
  | node _ node place => exact hev.node node place
  | source _ t => exact hev.source t
  | command _ args => exact hev.command args
  | builtin _ b name args => exact hev.builtin b name args
  | drain _ => exact .runTraps hev.source

theorem allTrails_evaluatorOf (depth : Nat) : AllTrails (evaluatorOf depth) := by
  induction depth with
  | zero => exact ⟨fun _ _ => .throw _, fun _ => .throw _, fun _ => .throw _, fun _ _ _ => .throw _⟩
  | succ depth ih =>
      exact ⟨fun node place => (procedure_runNode (E := .within) node place).trails ih,
        fun t => (procedure_runText (E := .within) t).trails ih,
        fun args => (procedure_runArguments (E := .within) .empty args [] [] {}).trails ih,
        fun b name args => (procedure_runBuiltin (E := .within) b name args).trails ih⟩

end CommandShell.Shell

/-!
## The shell itself is a procedure

Startup files are sourced and commands are run until the shell ends. All of that is procedures of the
evaluator too, from the moment that the shell has its options on (`runShell_eq`).
-/

namespace CommandShell.Startup

open Shell

variable {α : Type} {ev : Evaluator} {E : Exits}

instance procedure_sourceStartup (path : Text) : Procedure ev E (sourceStartup ev path) := by
  refine .bind fun data => ?_
  cases data with
  | error e => infer_instance
  | ok data =>
      refine .bind fun r => ?_
      split
      · infer_instance
      · infer_instance
      · infer_instance
      · infer_instance

instance procedure_environmentFile? : Procedure ev E (environmentFile? ev) := by
  refine .bind fun s => ?_
  split
  · infer_instance
  · split
    · infer_instance
    · split
      · infer_instance
      · refine .bind fun r => ?_
        cases r with
        | error e => infer_instance
        | ok path => infer_instance

/-- Sources the startup file of an interactive shell. -/
def sourceEnvironmentFile (ev : Evaluator) : ShellM Unit := do
  if (← get).isInteractive then
    match ← environmentFile? ev with
    | some path => sourceStartup ev path
    | none => pure ()

instance procedure_sourceEnvironmentFile : Procedure ev E (sourceEnvironmentFile ev) := by
  refine .bind fun s => .ite (.bind fun file => ?_) inferInstance
  cases file with
  | some path => infer_instance
  | none => infer_instance

instance procedure_sourceStartupFiles (login : Bool) :
    Procedure ev E (sourceStartupFiles ev login) := by
  have hrest : Procedure ev E (sourceEnvironmentFile ev) := procedure_sourceEnvironmentFile
  refine .ite (.bind fun _ => .bind fun s => ?_) hrest
  split
  · exact .bind fun _ => hrest
  · exact hrest

instance procedure_finish (result : Except Stop Unit) :
    Procedure ev E (finish ev result : ShellM α) := by
  unfold finish
  split
  · infer_instance
  · infer_instance
  · infer_instance
  · infer_instance
  · infer_instance

/-- What a shell does from the moment that it has its options and parameters. -/
def live (ev : Evaluator) (line : CommandLine) (login : Bool) (source : ScriptSource) : ShellM α := do
  sourceStartupFiles ev login
  let prompts := (← get).isInteractive && line.source == .standardInput
  finish ev (← attempt (runSource ev true { source with prompts }))

/-- What a shell does until then. -/
def start (environment : List Host.Bytes) (name : Text) (line : CommandLine) : ShellM ScriptSource := do
  setUp environment
  let source ← openSource line.source
  configure name line
  return source

theorem runShell_eq {argv : List Host.Bytes} {line : CommandLine}
    (h : CommandLine.read ((argv.map Text.decode).drop 1) = .ok line)
    (environment : List Host.Bytes) :
    (runShell argv environment : ShellM α) = (do
      let name := (argv.map Text.decode).headD programName
      let source ← start environment name line
      live evaluator line (line.login || name.head? == some '-') source) := by
  unfold runShell start
  dsimp only
  rw [h]
  simp only [bind_assoc, pure_bind]
  rfl

instance procedure_live (line : CommandLine) (login : Bool) (source : ScriptSource) :
    Procedure ev E (live ev line login source : ShellM α) := procedure_bind

end CommandShell.Startup
