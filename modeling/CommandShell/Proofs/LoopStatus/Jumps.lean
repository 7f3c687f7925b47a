import CommandShell.Proofs.Twins
import CommandShell.Proofs.Sources

/-!
# Jumps out of loops leave the status zero

`break` and `continue` set the status to zero before they jump, wherever they stand: in nested loops, under
redirections, in texts and files, in traps. Nothing on the way out to the loop sets it again. So the status
is still zero when a loop takes such a jump (`atZero_evaluatorOf`).

`JumpsAtZero` says so of a computation. What stops for no loops has nothing to hand on
(`jumpsAtZero_plain`), and most of a shell is of that kind; the sections below go through the constructs
that do hand jumps on.
-/

namespace CommandShell.Shell

open Host (Call Program)
open Script (Node Redirect Word CaseArm Command)

variable {ev : Evaluator} {σ α β : Type} {s t : Shell}

/-! ## Jumps that leave the status zero -/

/-- A stop that is for loops comes with the status zero. -/
def StopsAtZero (r : Except Stop α × Shell) : Prop :=
  ∀ e k, r.1 = .error e → e.levels? = some k → r.2.status = 0

/-- A computation of which every jump out of loops leaves the status zero. -/
class JumpsAtZero (x : ShellM α) : Prop where
  always : ∀ s, (x.startedIn s).Always StopsAtZero

theorem StopsAtZero.of_ok (a : α) (s : Shell) : StopsAtZero (.ok a, s) := nofun

/-- Another outcome of the same kind, with the state as it is. -/
theorem StopsAtZero.error {e : Stop} (h : StopsAtZero ((.error e : Except Stop α), s)) :
    StopsAtZero ((.error e : Except Stop β), s) := by
  rintro _ k ⟨⟩ hk
  exact h e k rfl hk

theorem stopsAtZero_of_none {e : Stop} (h : e.levels? = none) (s : Shell) :
    StopsAtZero ((.error e : Except Stop α), s) := by
  rintro _ k ⟨⟩ hk
  exact nomatch h.symm.trans hk

/-- An evaluator of which every command leaves the status zero when it jumps out of loops. -/
class AtZero (ev : Evaluator) : Prop where
  ends : EndsWithin ev
  node : ∀ node place, JumpsAtZero (ev.node node place)
  source : ∀ t, JumpsAtZero (ev.source t)
  command : ∀ args, JumpsAtZero (ev.command args)
  builtin : ∀ b name args, JumpsAtZero (ev.builtin b name args)

namespace JumpsAtZero

/-- What stops for no loops. -/
theorem of_outside {x : ShellM α} (h : EndsFor .outside x) : JumpsAtZero x := by
  refine ⟨fun s => (h s).mono fun r hr e k he hk => ?_⟩
  have hnone : e.levels? = none := hr.stops e he
  cases hnone.symm.trans hk

theorem of_ok {x : ShellM α} (h : ∀ s, ∃ a t, x.startedIn s = .done (.ok a, t)) : JumpsAtZero x := by
  constructor
  intro s
  obtain ⟨a, t, hx⟩ := h s
  rw [hx]
  exact .of_ok a t

protected theorem ask (c : Call) : JumpsAtZero (ask c) := ⟨fun s r => .of_ok r s⟩

/-- What goes on after a part of which that is known from the state that it begins in. -/
theorem after {P : α → Prop} {x : ShellM α} {f : α → ShellM β} (hx : (x.startedIn s).Always StopsAtZero)
    (hP : Yields P x) (hf : ∀ a, P a → JumpsAtZero (f a)) :
    ((x >>= f).startedIn s).Always StopsAtZero := by
  show ((x.startedIn s).bind _).Always _
  rw [Program.always_bind]
  refine (hx.and (hP s)).mono ?_
  rintro ⟨r, t⟩ ⟨h, ha⟩
  cases r with
  | ok a => exact (hf a (ha a rfl)).always t
  | error e => exact h.error

theorem sequence {P : α → Prop} {x : ShellM α} {f : α → ShellM β} (hx : JumpsAtZero x) (hP : Yields P x)
    (hf : ∀ a, P a → JumpsAtZero (f a)) : JumpsAtZero (x >>= f) := ⟨fun s => after (hx.always s) hP hf⟩

protected theorem bind {x : ShellM α} {f : α → ShellM β} (hx : JumpsAtZero x)
    (hf : ∀ a, JumpsAtZero (f a)) : JumpsAtZero (x >>= f) :=
  hx.sequence (P := fun _ => True) (fun _ => Program.always_of (fun _ _ _ => trivial) _) fun a _ => hf a

protected theorem ite {c : Prop} [Decidable c] {x y : ShellM α} (hx : JumpsAtZero x)
    (hy : JumpsAtZero y) : JumpsAtZero (if c then x else y) := by
  split
  · exact hx
  · exact hy

/-- What goes on with an outcome may hand a jump on. -/
theorem caught {x : ShellM α} {f : Except Stop α → ShellM β} (hx : JumpsAtZero x)
    (hf : ∀ r t, StopsAtZero (r, t) → ((f r).startedIn t).Always StopsAtZero) :
    JumpsAtZero (attempt x >>= f) := by
  constructor
  intro s
  rw [startedIn_attempt_bind]
  rw [Program.always_bind]
  exact (hx.always s).mono fun r hr => hf r.1 r.2 hr

theorem iterateFor {step : σ → ShellM (σ ⊕ α)} (h : ∀ a, JumpsAtZero (step a)) (n : Nat) (a : σ) :
    JumpsAtZero (iterateFor step n a) := by
  induction n generalizing a with
  | zero => exact ⟨fun s => stopsAtZero_of_none rfl s⟩
  | succ n ih =>
      refine .bind (h a) fun r => ?_
      cases r with
      | inl a' => exact ih a'
      | inr b => exact ⟨fun s => .of_ok b s⟩

end JumpsAtZero

/-- A change of the state that is not about the status. -/
theorem keepsStatus_modify {f : Shell → Shell} (h : ∀ s, (f s).status = s.status) :
    Keeps (same Shell.status) (modify f : ShellM Unit) := ⟨h⟩

instance keepsStatus_closeSaved : Keeps (same Shell.status) closeSaved := by
  have hback : ∀ saved, Keeps (same Shell.status) (restoreDescriptor saved) := by
    intro saved
    unfold restoreDescriptor
    split
    · infer_instance
    · infer_instance
  refine .bind fun s => ?_
  split
  · infer_instance
  · have hframe : ∀ saved, Keeps (same Shell.status)
        (modify fun sh => { sh with saved := saved } : ShellM Unit) :=
      fun _ => keepsStatus_modify fun _ => rfl
    exact keeps_bind

theorem always_resume {r : Except Stop α} (h : StopsAtZero (r, t)) :
    ((resume r).startedIn t).Always StopsAtZero := by
  cases r with
  | ok a => exact .of_ok a t
  | error e => exact h.error

theorem StopsAtZero.of_status {r : Except Stop α} (h : StopsAtZero (r, s)) (ht : t.status = s.status) :
    StopsAtZero (r, t) := fun e k he hk => ht.trans (h e k he hk)

/-- What is put back before an outcome is handed on leaves the status as it is. -/
theorem JumpsAtZero.closed {x : ShellM α} (hx : JumpsAtZero x) (close : ShellM Unit) [Unfailing close]
    [hclose : Keeps (same Shell.status) close] :
    JumpsAtZero (do
      let r ← attempt x
      close
      resume r) :=
  hx.caught fun _ t h => always_unfailing_bind (P := fun u => u.status = t.status) (hclose.always t)
    fun _ _ hu => always_resume (h.of_status hu)

section

variable [hev : AtZero ev]

/-- A procedure that stops for no loops. -/
theorem jumpsAtZero_plain (ev : Evaluator) [hev : AtZero ev] {x : ShellM α}
    [h : Procedure ev .outside x] : JumpsAtZero x := .of_outside (h.ends hev.ends)

/-! ## Traps -/

theorem jumpsAtZero_runTrap (later : List Signal) (command : Text) :
    JumpsAtZero (runTrap ev later command) := by
  have hpending : ∀ ss, Unfailing (anyPending ss) ∧ Keeps (same Shell.status) (anyPending ss) := by
    intro ss
    induction ss with
    | nil => exact ⟨unfailing_pure _, keeps_pure _⟩
    | cons s ss ih =>
        obtain ⟨hok, hkeeps⟩ := ih
        exact ⟨unfailing_bind, keeps_bind⟩
  obtain ⟨hok, hkeeps⟩ := hpending later
  refine .bind (jumpsAtZero_plain ev) fun s => .bind ⟨fun s => .of_ok () _⟩ fun _ =>
    (hev.source command).caught fun r t h => ?_
  have hreport : ∀ e, JumpsAtZero (do reportStop e; setStatus s.status) := fun _ => jumpsAtZero_plain ev
  cases r with
  | ok u => exact .of_ok () _
  | error e =>
      cases e with
      | fault f line => exact (hreport _).always _
      | jump j =>
          refine always_unfailing_bind (P := fun u => u.status = t.status) (x := anyPending later)
            (hkeeps.always { t with inTrap := false }) fun found u hu => ?_
          cases found with
          | true => exact fun _ => h.of_status hu
          | false => exact h.of_status hu

theorem jumpsAtZero_runTraps : JumpsAtZero (runTraps ev) := by
  have harrived : ∀ ss, JumpsAtZero (handleArrived ev ss) := by
    intro ss
    induction ss with
    | nil => exact ⟨fun s => .of_ok false s⟩
    | cons signal later ih =>
        refine .bind (.ask _) fun taken => .ite ih (.bind (jumpsAtZero_plain ev) fun s => ?_)
        split
        · exact .bind (jumpsAtZero_runTrap later _) fun _ => ih
        · exact ih
        · exact .bind ih fun _ => ⟨fun s => .of_ok _ s⟩
  refine .bind (jumpsAtZero_plain ev) fun _ => .ite (jumpsAtZero_plain ev) ?_
  refine .bind (.ask _) fun _ => .ite (jumpsAtZero_plain ev) ?_
  exact .bind (harrived _) fun _ => .ite ⟨stopsAtZero_of_none rfl⟩ (jumpsAtZero_plain ev)

/-! ## Constructs around commands -/

theorem jumpsAtZero_withRedirects (rs : List Redirect) {body : ShellM Unit} (hbody : JumpsAtZero body) :
    JumpsAtZero (withRedirects ev rs body) := by
  have happly : EndsFor .outside (applyRedirects ev true rs) :=
    (procedure_applyRedirects true rs).ends hev.ends
  refine .ite hbody (.bind ⟨fun s => .of_ok () _⟩ fun _ =>
    (JumpsAtZero.of_outside happly).caught fun r t h => ?_)
  have hclose : Unfailing closeSaved := Tidy.closeSaved.unfailing
  cases r with
  | ok u => exact (hbody.closed closeSaved).always t
  | error e =>
      refine always_unfailing_bind (P := fun u => u.status = t.status) (x := closeSaved)
        (keepsStatus_closeSaved.always t) fun _ u hu => ?_
      cases e with
      | fault f line => exact (jumpsAtZero_plain ev : JumpsAtZero (do
          reportStop (.fault f line); setStatus 1)).always u
      | jump j => exact h.of_status hu

/-- A loop that a jump goes out of has no status of its own. -/
theorem jumpsAtZero_withinLoop {body : ShellM Int} (hbody : JumpsAtZero body) :
    JumpsAtZero (withinLoop body) := by
  have hclose : Keeps (same Shell.status) (modify fun sh => { sh with loopDepth := sh.loopDepth - 1 }) :=
    keepsStatus_modify fun _ => rfl
  have hrounds : JumpsAtZero (do setStatus (← body)) := hbody.bind fun _ => ⟨fun s => .of_ok () _⟩
  exact .bind ⟨fun s => .of_ok () _⟩ fun _ => hrounds.closed _

/-- A list of a loop, and what the loop does after it. -/
theorem jumpsAtZero_turn {x : ShellM Unit} (hx : JumpsAtZero x) {f : LoopFlow → ShellM β}
    (hf : ∀ flow, JumpsAtZero (f flow)) :
    JumpsAtZero (attempt x >>= fun r => loopFlow r >>= f) := by
  refine hx.caught fun r t h => JumpsAtZero.after (P := fun _ => True) ?_
    (fun _ => Program.always_of (fun _ _ _ => trivial) _) fun flow _ => hf flow
  unfold loopFlow
  split
  · exact .of_ok _ t
  · split
    · exact fun _ _ _ _ => h _ _ rfl rfl
    · exact .of_ok _ t
  · split
    · exact fun _ _ _ _ => h _ _ rfl rfl
    · exact .of_ok _ t
  · exact h.error

instance jumpsAtZero_runLoop (cond body : Node) (untilZero : Bool) (place : Place) :
    JumpsAtZero (runLoop ev cond body untilZero place) := by
  refine jumpsAtZero_withinLoop (.iterateFor (fun status => ?_) roundLimit 0)
  refine jumpsAtZero_turn (hev.node cond place.tested) fun flow => ?_
  cases flow with
  | leave => exact jumpsAtZero_plain ev
  | again => exact jumpsAtZero_plain ev
  | next =>
      refine .bind (jumpsAtZero_plain ev) fun s => .ite (jumpsAtZero_plain ev) ?_
      exact jumpsAtZero_turn (hev.node body place.notLast) fun flow => jumpsAtZero_plain ev

instance jumpsAtZero_runFor (var : Text) (items : List Text) (body : Node) (place : Place) :
    JumpsAtZero (runFor ev var items body place) := by
  have hitems : ∀ status, JumpsAtZero (forItems ev var body place status items) := by
    induction items with
    | nil => exact fun status => .of_ok fun s => ⟨status, s, rfl⟩
    | cons item items ih =>
        refine fun status => .bind (jumpsAtZero_plain ev) fun _ =>
          jumpsAtZero_turn (hev.node body place.notLast) fun flow => .bind (jumpsAtZero_plain ev) fun s => ?_
        exact .ite (jumpsAtZero_plain ev) (ih _)
  exact jumpsAtZero_withinLoop (hitems 0)

/-! ## Simple commands -/

theorem jumpsAtZero_callBuiltin (b : Builtin) (name : Text) (args : List Text)
    (assigned : List (Text × Text)) (redirects : List Redirect) :
    JumpsAtZero (callBuiltin ev b name args assigned redirects) := by
  have hbody : JumpsAtZero (withRedirects ev redirects (ev.builtin b name args)) :=
    jumpsAtZero_withRedirects redirects (hev.builtin b name args)
  have hclose : Keeps (same Shell.status) (modifyVariables Variables.closeFrame) :=
    keepsStatus_modify fun _ => rfl
  have hunfailing : Unfailing (modifyVariables Variables.closeFrame) := unfailing_modify _
  have hframe : JumpsAtZero (withFrame assigned (withRedirects ev redirects (ev.builtin b name args))
      >>= resume) := by
    unfold withFrame
    simp only [bind_assoc, pure_bind]
    have hassigned : JumpsAtZero (do
        shadowAll assigned
        withRedirects ev redirects (ev.builtin b name args) : ShellM Unit) :=
      .bind (jumpsAtZero_plain ev) fun _ => hbody
    exact .bind (.of_ok fun s => ⟨(), _, rfl⟩) fun _ => hassigned.closed _
  exact .ite (jumpsAtZero_plain ev) (.ite (.bind (jumpsAtZero_plain ev) fun _ => hbody) (.ite hbody hframe))

theorem jumpsAtZero_runArguments (functions : Table Node) (args : List Text)
    (assigned : List (Text × Text)) (redirects : List Redirect) (place : Place) :
    JumpsAtZero (runArguments ev functions args assigned redirects place) := by
  unfold runArguments
  cases args with
  | nil => exact jumpsAtZero_plain ev
  | cons name operands =>
      refine .ite (jumpsAtZero_plain ev) ?_
      split
      · exact jumpsAtZero_plain ev
      · split
        · exact jumpsAtZero_callBuiltin _ _ _ _ _
        · exact jumpsAtZero_plain ev

theorem jumpsAtZero_runSimple (assigns words : List Word) (redirects : List Redirect) (place : Place) :
    JumpsAtZero (runSimple ev assigns words redirects place) := by
  have hassign : ∀ ws, Procedure ev .outside (assignWords ev ws) := by
    intro ws
    induction ws with
    | nil => exact procedure_pure _
    | cons w ws ih => exact procedure_bind
  refine .bind (.of_ok fun s => ⟨(), _, rfl⟩) fun _ => .bind (jumpsAtZero_plain ev) fun args => .ite ?_ ?_
  · have hassignments : Procedure ev .outside (runAssignments ev assigns redirects) := procedure_bind
    exact jumpsAtZero_plain ev
  · exact .bind (jumpsAtZero_plain ev) fun assigned => .bind (jumpsAtZero_plain ev) fun _ =>
      .bind (jumpsAtZero_plain ev) fun s => jumpsAtZero_runArguments _ _ _ _ _

/-! ## Kinds of commands -/

theorem jumpsAtZero_runPipeline (stages : List Node) (place : Place) :
    JumpsAtZero (runPipeline ev stages place) := by
  unfold runPipeline
  split
  · exact hev.node _ place
  · exact jumpsAtZero_plain ev

theorem jumpsAtZero_runSubshell (body : Node) (redirects : List Redirect) (place : Place) :
    JumpsAtZero (runSubshell ev body redirects place) := by
  have hrun : JumpsAtZero (do
      applyRedirects ev false redirects
      ev.node body { isLast := true }) := .bind (jumpsAtZero_plain ev) fun _ => hev.node body _
  refine .bind (jumpsAtZero_plain ev) fun s => .ite ?_ (jumpsAtZero_plain ev)
  exact .bind (jumpsAtZero_plain ev) fun _ => hrun

theorem jumpsAtZero_runArms (subject : Text) (place : Place) (arms : List CaseArm) :
    JumpsAtZero (runArms ev subject place arms) := by
  have hfits : ∀ ws, Procedure ev .outside (fitsAny ev subject ws) := by
    intro ws
    induction ws with
    | nil => exact procedure_pure _
    | cons w ws ih => exact procedure_bind
  induction arms with
  | nil => exact .of_ok fun s => ⟨(), _, rfl⟩
  | cons arm arms ih =>
      obtain ⟨patterns, body⟩ := arm
      cases body with
      | some body => exact .bind (jumpsAtZero_plain ev) fun fits => .ite (hev.node body place) ih
      | none => exact .bind (jumpsAtZero_plain ev) fun fits => .ite (jumpsAtZero_plain ev) ih

theorem jumpsAtZero_runIf (cond thenBody : Node) (elseBody : Option Node) (place : Place) :
    JumpsAtZero (runIf ev cond thenBody elseBody place) := by
  refine .bind (hev.node cond _) fun _ => .bind (jumpsAtZero_plain ev) fun s =>
    .ite (hev.node thenBody place) ?_
  cases elseBody with
  | some body => exact hev.node body place
  | none => exact jumpsAtZero_plain ev

theorem jumpsAtZero_runKind (place : Place) (c : Command) : JumpsAtZero (runKind ev place c) := by
  cases c with
  | simple assigns words redirects =>
      exact .bind (jumpsAtZero_runSimple assigns words redirects place) fun _ => jumpsAtZero_runTraps
  | pipeline stages => exact jumpsAtZero_runPipeline stages place
  | not body => exact .bind (hev.node body _) fun _ => jumpsAtZero_plain ev
  | and left right =>
      exact .bind (hev.node left _) fun _ => .bind (jumpsAtZero_plain ev) fun s =>
        .ite (hev.node right place) (jumpsAtZero_plain ev)
  | or left right =>
      exact .bind (hev.node left _) fun _ => .bind (jumpsAtZero_plain ev) fun s =>
        .ite (hev.node right place) (jumpsAtZero_plain ev)
  | list left right => exact .bind (hev.node left _) fun _ => hev.node right place
  | background body => exact jumpsAtZero_plain (x := runBackground ev body) ev
  | ifThen cond thenBody elseBody => exact jumpsAtZero_runIf cond thenBody elseBody place
  | whileDo cond body => exact jumpsAtZero_runLoop cond body false place
  | untilDo cond body => exact jumpsAtZero_runLoop cond body true place
  | forIn var items body =>
      exact .bind (jumpsAtZero_plain ev) fun texts => jumpsAtZero_runFor var texts body place
  | caseOf subject arms =>
      exact .bind (jumpsAtZero_plain ev) fun text => jumpsAtZero_runArms text place arms
  | subshell body redirects => exact jumpsAtZero_runSubshell body redirects place
  | brace body => exact hev.node body place
  | redirected body redirects => exact jumpsAtZero_withRedirects redirects (hev.node body _)
  | function name body => exact .of_ok fun s => ⟨(), _, rfl⟩

theorem jumpsAtZero_runNode (node : Node) (place : Place) : JumpsAtZero (runNode ev node place) := by
  have hcheck : Procedure ev .outside (checkErrexit node place) := procedure_bind
  exact .bind (.of_ok fun s => ⟨(), _, rfl⟩) fun _ => .bind (jumpsAtZero_runKind place node.command)
    fun _ => jumpsAtZero_plain ev

/-! ## Built-in commands -/

/-- `break` and `continue` themselves. -/
theorem jumpsAtZero_leaveLoops (target : Nat → Jump) (args : List Text) :
    JumpsAtZero (Commands.leaveLoops target args) := by
  have hlevels : JumpsAtZero (Commands.levelsOperand args) := by
    unfold Commands.levelsOperand
    split
    · exact .of_ok fun s => ⟨1, s, rfl⟩
    · split
      · exact .of_ok fun s => ⟨_, s, rfl⟩
      · exact ⟨stopsAtZero_of_none rfl⟩
  refine .bind hlevels fun levels => ⟨fun s => ?_⟩
  show ((if s.loopDepth ≠ 0 then jump (target (min levels s.loopDepth)) else pure () :
    ShellM Unit).startedIn { s with status := 0 }).Always _
  split
  · exact fun _ _ _ _ => rfl
  · exact .of_ok () _

theorem jumpsAtZero_runDot (args : List Text) : JumpsAtZero (Commands.runDot ev args) := by
  have hreturn : ∀ {r t}, StopsAtZero (r, t) → ((takeReturn r).startedIn t).Always StopsAtZero := by
    intro r t h
    unfold takeReturn
    split
    · exact .of_ok () _
    · exact always_resume h
  unfold Commands.runDot
  cases args with
  | nil => exact jumpsAtZero_plain ev
  | cons name params =>
      refine .bind (jumpsAtZero_plain ev) fun text => ?_
      unfold Commands.withParams
      split
      · simp only [bind_assoc, pure_bind]
        exact .bind (.of_ok fun s => ⟨(), _, rfl⟩) fun _ => .bind (jumpsAtZero_plain ev) fun _ =>
          (hev.source text).caught fun r t h => hreturn (h.of_status rfl)
      · simp only [bind_assoc, pure_bind]
        exact .bind (jumpsAtZero_plain ev) fun s => .bind (.of_ok fun s => ⟨(), _, rfl⟩) fun _ =>
          .bind (.of_ok fun s => ⟨(), _, rfl⟩) fun _ => .bind (jumpsAtZero_plain ev) fun _ =>
          (hev.source text).caught fun r t h => hreturn (h.of_status rfl)

theorem jumpsAtZero_action (b : Builtin) (args : List Text) :
    JumpsAtZero (Commands.action ev b args) := by
  have hplain : Procedure ev .outside (Commands.action ev b args) → JumpsAtZero (Commands.action ev b args) :=
    fun _ => jumpsAtZero_plain ev
  cases b with
  | dot => exact jumpsAtZero_runDot args
  | eval =>
      refine .bind (.of_ok fun s => ⟨(), _, rfl⟩) fun _ => .ite (hev.source _) (jumpsAtZero_plain ev)
  | command =>
      refine .bind (jumpsAtZero_plain ev) fun r => ?_
      exact .ite (jumpsAtZero_plain ev) (.ite (jumpsAtZero_plain ev)
        (.ite (jumpsAtZero_plain ev) (hev.command _)))
  | break_ => exact jumpsAtZero_leaveLoops _ args
  | continue_ => exact jumpsAtZero_leaveLoops _ args
  | test => exact hplain procedure_bind
  | type => exact hplain (procedure_describeAll true 0 args)
  | echo => exact hplain procedure_bind
  | _ =>
      refine hplain ?_
      unfold Commands.action
      infer_instance

theorem jumpsAtZero_runBuiltin (b : Builtin) (name : Text) (args : List Text) :
    JumpsAtZero (Commands.runBuiltin ev b name args) := by
  refine (jumpsAtZero_action b args).caught fun r t h => ?_
  cases r with
  | ok u => exact .of_ok () t
  | error e =>
      cases e with
      | fault f line =>
          have hreport : JumpsAtZero (do
            report (name ++ ": " ++ (Stop.fault f line).message)
            setStatus (Stop.fault f line).status
            if b.isSpecial && !(← get).isInteractive then jump (.exit (Stop.fault f line).status)) :=
            jumpsAtZero_plain ev
          exact hreport.always t
      | jump j => exact h

/-! ## Scripts -/

theorem always_takeStop (ev : Evaluator) [hev : AtZero ev] (top : Bool) {e : Stop}
    (h : StopsAtZero ((.error e : Except Stop Unit), t)) :
    ((takeStop top e).startedIn t).Always StopsAtZero := by
  by_cases he : e.levels? = none
  · have htake : Procedure ev .outside (takeStop top e) :=
      (procedure_takeStop top e).of_handed (r := (.error e : Except Stop Unit)) (E := .outside)
        fun e' he' => by cases he'; exact he
    exact (jumpsAtZero_plain ev).always t
  · cases e with
    | fault f line => exact absurd rfl he
    | jump j =>
        cases j with
        | breaking n => cases top <;> exact h
        | continuing n => cases top <;> exact h
        | _ => exact absurd rfl he

theorem jumpsAtZero_runRead (top : Bool) (node : Node) : JumpsAtZero (runRead ev top node) := by
  refine .bind (jumpsAtZero_plain ev) fun s => .ite (jumpsAtZero_plain ev)
    ((hev.node node {}).caught fun r t h => ?_)
  cases r with
  | ok u => exact .of_ok () t
  | error e => exact always_takeStop ev top h

theorem jumpsAtZero_finishTurn (top : Bool) (src : ScriptSource)
    {read : Except Stop Script.Parsed × Script.Input} (hread : ∀ e, read.1 = .error e → e.levels? = none) :
    JumpsAtZero (finishTurn ev top src read) := by
  obtain ⟨result, input⟩ := read
  refine .bind (jumpsAtZero_plain ev) fun input => ?_
  rcases result with e | parsed
  · exact .bind ⟨fun t => always_takeStop ev top (stopsAtZero_of_none (hread e rfl) t)⟩ fun _ =>
      jumpsAtZero_plain ev
  · cases parsed with
    | done => exact jumpsAtZero_plain ev
    | empty => exact jumpsAtZero_plain ev
    | command node => exact .bind (jumpsAtZero_runRead top node) fun _ => jumpsAtZero_plain ev

theorem jumpsAtZero_sourceStep (top : Bool) (src : ScriptSource) :
    JumpsAtZero (sourceStep ev top src) := by
  have hread : ∀ s, JumpsAtZero (readCommand (refreshSource s src) >>=
      finishTurn ev top (refreshSource s src)) := fun s =>
    .sequence (jumpsAtZero_plain ev) (yields_readCommand _) fun _ h => jumpsAtZero_finishTurn top _ h
  have hcheckpoint : JumpsAtZero (checkpoint ev) := by
    have hnotify : Procedure ev .outside notifyJobs := procedure_bind
    have hforget : Procedure ev .outside forgetDoneJobs := .modify fun _ => .works rfl rfl rfl rfl rfl rfl
    exact .bind (jumpsAtZero_plain ev) fun s => .bind (jumpsAtZero_plain ev) fun _ =>
      .bind (jumpsAtZero_plain ev) fun s =>
        .ite (.bind (jumpsAtZero_plain ev) fun _ => jumpsAtZero_runTraps)
          (.bind (jumpsAtZero_plain ev) fun _ => jumpsAtZero_runTraps)
  exact .ite (.bind hcheckpoint fun _ => .bind (jumpsAtZero_plain ev) hread)
    (.bind (jumpsAtZero_plain ev) hread)

theorem jumpsAtZero_runSource (top : Bool) (src : ScriptSource) : JumpsAtZero (runSource ev top src) :=
  .iterateFor (fun src => jumpsAtZero_sourceStep top src) _ src

theorem jumpsAtZero_runText (text : Text) : JumpsAtZero (runText ev text) := by
  have hline : ∀ line, Keeps (same Shell.status) (modify fun sh => { sh with line := line } : ShellM Unit) :=
    fun _ => keepsStatus_modify fun _ => rfl
  exact .bind (jumpsAtZero_plain ev) fun s => (jumpsAtZero_runSource false _).closed _

end

/-- Commands leave the status zero when they jump out of loops, at every depth of nesting. -/
instance atZero_evaluatorOf (depth : Nat) : AtZero (evaluatorOf depth) := by
  induction depth with
  | zero =>
      have hfail : ∀ f : Fault, JumpsAtZero (fail f : ShellM Unit) := fun f => ⟨stopsAtZero_of_none rfl⟩
      exact ⟨endsWithin_evaluatorOf 0, fun _ _ => hfail _, fun _ => hfail _, fun _ => hfail _,
        fun _ _ _ => hfail _⟩
  | succ depth ih =>
      exact ⟨endsWithin_evaluatorOf (depth + 1), jumpsAtZero_runNode, jumpsAtZero_runText,
        fun args => jumpsAtZero_runArguments .empty args [] [] {}, jumpsAtZero_runBuiltin⟩

end CommandShell.Shell
