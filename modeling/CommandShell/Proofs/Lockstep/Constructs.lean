import CommandShell.Execution.Dispatch
import CommandShell.Execution.Source
import CommandShell.Proofs.Lockstep.Commands
import CommandShell.Execution.Evaluate

/-!
# Lockstep of whole evaluations

Lockstep passes from the parts of a construct to the construct, and so to evaluators, also to one that
is watched.
-/

/-!
## Lockstep of constructs and scripts
-/

namespace CommandShell

/-- The name that a word assigns to. -/
def Script.Word.assignedName? (w : Script.Word) : Option Text :=
  match w.parts with
  | .literal t :: _ => (Text.splitAssignment? t).map (·.1)
  | _ => none

namespace Shell

open Script (Word Redirect Node Command CaseArm Parsed Input)
open Expansion
open Commands (assignAll)
open Host.Program (Follows)

variable {L : Likeness} {ev ev' : Evaluator} {α : Type}

/-! ### Scripts -/

instance alike_showLines (input : Input) : Steady L (showLines input) := alike_bind

instance alike_takeStop (top : Bool) (s : Stop) : Steady L (takeStop top s) := by
  refine .bind inferInstance fun _ => ?_
  split
  · infer_instance
  · exact .bind inferInstance fun _ => .get_bind (fun _ _ => rfl) fun _ => inferInstance
  · infer_instance
  · infer_instance
  · infer_instance

instance alike_runParsed [EvaluatorsAlike L ev ev'] (top : Bool) (node : Node) :
    Alike L (runRead ev top node) (runRead ev' top node) := by
  refine .get_bind (fun _ _ => rfl) fun s => .ite inferInstance (.bind inferInstance fun r => ?_)
  cases r with
  | ok u => infer_instance
  | error s => infer_instance

theorem alike_readCommand {src : ScriptSource} (h : src.descriptor = none) :
    Steady L (readCommand src) := by
  have hline : ∀ first, Steady L (nextLine src first) := by
    intro first
    unfold nextLine
    rw [h]
    exact alike_pure _
  refine .iterate (fun input => ?_) _
  split
  · infer_instance
  · infer_instance
  · refine .bind inferInstance fun r => ?_
    rcases r with s | _ | line
    · infer_instance
    · infer_instance
    · infer_instance

/-- A step of a script that is a text. -/
theorem alike_sourceStep [EvaluatorsAlike L ev ev'] {src : ScriptSource}
    (h : src.descriptor = none) :
    Alike L (sourceStep ev false src) (sourceStep ev' false src) := by
  unfold sourceStep
  refine .get_bind (fun _ _ => rfl) fun s => .bind (alike_readCommand h) fun r => ?_
  obtain ⟨result, input⟩ := r
  refine .bind inferInstance fun input => ?_
  rcases result with s | parsed
  · infer_instance
  · cases parsed with
    | done => infer_instance
    | empty => infer_instance
    | command node => infer_instance

/-- What is left of a text is no other script. -/
theorem sourceStep_yields {src : ScriptSource} (h : src.descriptor = none) :
    Yields (fun r => ∀ src', r = .inl src' → src'.descriptor = none) (sourceStep ev false src) := by
  unfold sourceStep
  refine .bind fun s => .bind fun r => ?_
  obtain ⟨result, input⟩ := r
  refine .bind fun input => ?_
  rcases result with s | parsed
  · exact .bind fun _ => .pure fun _ heq => nomatch heq
  · cases parsed with
    | done => exact .pure fun _ heq => nomatch heq
    | empty =>
        refine .pure fun src' heq => ?_
        cases heq
        exact h
    | command node =>
        refine .bind fun _ => .pure fun src' heq => ?_
        cases heq
        exact h

instance alike_runText [EvaluatorsAlike L ev ev'] (t : Text) :
    Alike L (runText ev t) (runText ev' t) := by
  have hrun : Alike L (runSource ev false (.ofText t)) (runSource ev' false (.ofText t)) :=
    .iterateFor_of (P := fun src => src.descriptor = none) (fun _ h => alike_sourceStep h)
      (fun _ h => sourceStep_yields h) _ rfl
  have hline : ∀ line, Steady L (modify fun sh => { sh with line }) :=
    fun _ => .modify (fun _ _ => rfl) fun _ h => h
  exact .get_bind (fun _ _ => rfl) fun _ => inferInstance

/-! ### Loops -/

instance alike_loopFlow (r : Except Stop Unit) : Steady L (loopFlow r) := by
  unfold loopFlow
  split
  · infer_instance
  · infer_instance
  · infer_instance
  · infer_instance

theorem alike_withinLoop {x y : ShellM Int} (h : Alike L x y) :
    Alike L (withinLoop x) (withinLoop y) := by
  have hdepth : ∀ f : Nat → Nat, Steady L
      (modify fun sh => { sh with loopDepth := f sh.loopDepth }) :=
    fun _ => .modify (fun _ _ => rfl) fun _ h => h
  exact .bind (hdepth (· + 1)) fun _ => .bind inferInstance fun _ =>
    .bind (hdepth (· - 1)) fun _ => inferInstance

instance alike_loopRound [EvaluatorsAlike L ev ev'] (cond body : Node) (untilZero : Bool)
    (place : Place) (status : Int) :
    Alike L (loopRound ev cond body untilZero place status)
      (loopRound ev' cond body untilZero place status) := by
  refine .bind inferInstance fun r => .bind inferInstance fun flow => ?_
  cases flow with
  | leave => infer_instance
  | again => infer_instance
  | next =>
      refine .get_bind (fun _ _ => rfl) fun s => .ite inferInstance ?_
      exact .bind inferInstance fun r => .bind inferInstance fun flow =>
        .get_bind (fun _ _ => rfl) fun _ => inferInstance

instance alike_runLoop [EvaluatorsAlike L ev ev'] (cond body : Node) (untilZero : Bool)
    (place : Place) :
    Alike L (runLoop ev cond body untilZero place) (runLoop ev' cond body untilZero place) :=
  alike_withinLoop (.iterate (fun _ => inferInstance) 0)

instance alike_runFor [L.Kept] [EvaluatorsAlike L ev ev'] (var : Text) (items : List Text)
    (body : Node) (place : Place) :
    Alike L (runFor ev var items body place) (runFor ev' var items body place) := by
  have hitems : ∀ status, Alike L (forItems ev var body place status items)
      (forItems ev' var body place status items) := by
    induction items with
    | nil => exact fun _ => alike_pure _
    | cons item items ih =>
        intro status
        refine .bind inferInstance fun _ => .bind inferInstance fun r => .bind inferInstance
          fun flow => .get_bind (fun _ _ => rfl) fun s => inferInstance
  exact alike_withinLoop (hitems 0)

/-! ### Pipelines and subshells -/

instance alike_closePipes (pipes : List (Nat × Nat)) : Steady L (closePipes pipes) := by
  unfold closePipes
  infer_instance

instance alike_makePipes (n : Nat) (made : List (Nat × Nat)) : Steady L (makePipes n made) := by
  induction n generalizing made with
  | zero => exact alike_pure _
  | succ n ih =>
      refine .bind inferInstance fun r => ?_
      cases r with
      | ok ends => infer_instance
      | error e => infer_instance

instance alike_connect (source : Option Nat) (fd : Nat) : Steady L (connect source fd) := by
  cases source with
  | none => exact alike_pure _
  | some source =>
      refine .bind inferInstance fun r => ?_
      cases r with
      | ok u => infer_instance
      | error e => infer_instance

instance alike_stageChild [EvaluatorsAlike L ev ev'] (pipes : List (Nat × Nat))
    (input output : Option Nat) (group : Option ProcessId) (background : Bool) (stage : Node) :
    Alike L (stageChild ev pipes input output group background stage : ShellM α)
      (stageChild ev' pipes input output group background stage) := by
  refine .bind inferInstance fun _ => .bind inferInstance fun wired => .bind inferInstance
    fun _ => ?_
  cases wired with
  | ok u => infer_instance
  | error s => infer_instance

instance alike_forkStages [EvaluatorsAlike L ev ev'] (pipes : List (Nat × Nat)) (background : Bool)
    (input : Option Nat) (ahead : List (Nat × Nat)) (started : List JobProcess)
    (stages : List Node) :
    Alike L (forkStages ev pipes background input ahead started stages)
      (forkStages ev' pipes background input ahead started stages) := by
  induction stages generalizing input ahead started with
  | nil => exact alike_pure _
  | cons stage stages ih =>
      refine .bind inferInstance fun r => ?_
      rcases r with e | _ | child
      · infer_instance
      · infer_instance
      · exact .get_bind (fun _ _ => rfl) fun _ => inferInstance

instance alike_launchStages [EvaluatorsAlike L ev ev'] (stages : List Node) (background : Bool) :
    Alike L (launchStages ev stages background) (launchStages ev' stages background) :=
  .get_bind (fun _ _ => rfl) fun _ => inferInstance

instance alike_runPipeline [EvaluatorsAlike L ev ev'] (stages : List Node) (place : Place) :
    Alike L (runPipeline ev stages place) (runPipeline ev' stages place) := by
  unfold runPipeline
  split
  · infer_instance
  · infer_instance

instance alike_runBackground [EvaluatorsAlike L ev ev'] (body : Node) :
    Alike L (runBackground ev body) (runBackground ev' body) := by
  have hjobs : ∀ jobs last, Steady L
      (modify fun sh => { sh with jobs := jobs, lastBackground := last }) :=
    fun _ _ => .modify (fun _ _ => rfl) fun _ h => h
  refine .bind inferInstance fun job => .get_bind (fun _ _ => rfl) fun s =>
    .bind (hjobs _ _) fun _ => .get_bind (fun _ _ => rfl) fun s => inferInstance

theorem alike_runSubshell [L.Kept] [EvaluatorsAlike L ev ev'] {redirects : List Redirect}
    (h : L.AdmitsRedirects redirects) (body : Node) (place : Place) :
    Alike L (runSubshell ev body redirects place) (runSubshell ev' body redirects place) := by
  have happly : Alike L (applyRedirects ev false redirects) (applyRedirects ev' false redirects) :=
    alike_applyRedirects h false
  exact .get_bind (fun _ _ => rfl) fun _ => inferInstance

/-! ### Simple commands -/

instance alike_trace (assigned : List (Text × Text)) (args : List Text) :
    Steady L (trace assigned args) :=
  .get_bind (fun _ _ => rfl) fun _ => inferInstance

section

variable [L.Kept] [EvaluatorsAlike L ev ev']

theorem alike_assignWords {ws : List Word} (h : L.AdmitsWords ws) :
    Alike L (assignWords ev ws) (assignWords ev' ws) := by
  induction ws with
  | nil => exact alike_pure _
  | cons w ws ih =>
      have hws := ih fun v hv => h v (List.mem_cons_of_mem _ hv)
      exact .bind (alike_assignment (h w List.mem_cons_self)) fun a => inferInstance

theorem alike_runAssignments {ws : List Word} {redirects : List Redirect} (hw : L.AdmitsWords ws)
    (hr : L.AdmitsRedirects redirects) :
    Alike L (runAssignments ev ws redirects) (runAssignments ev' ws redirects) :=
  .bind (alike_assignWords hw) fun _ => .get_bind (fun _ _ => rfl) fun _ =>
    alike_withRedirects hr inferInstance

/-- Names that may be given values for as long as a command runs. -/
def Likeness.PermitsNames (L : Likeness) (assigned : List (Text × Text)) : Prop :=
  ∀ a ∈ assigned, L.permits a.1

theorem alike_shadowAll {assigned : List (Text × Text)} (h : L.PermitsNames assigned) :
    Steady L (shadowAll assigned) := by
  induction assigned with
  | nil => exact alike_pure _
  | cons a rest ih =>
      have ha := h a List.mem_cons_self
      have hrest := ih fun b hb => h b (List.mem_cons_of_mem _ hb)
      exact .bind (alike_shadow ha) fun _ => .bind (alike_exportValue a.2 ha) fun _ => hrest

theorem alike_withFrame {assigned : List (Text × Text)} {x y : ShellM Unit}
    (h : L.PermitsNames assigned) (hxy : Alike L x y) :
    Alike L (withFrame assigned x) (withFrame assigned y) := by
  have hshadow := alike_shadowAll h
  exact alike_bind

theorem alike_withinFunction {params : List Text} {assigned : List (Text × Text)}
    {x y : ShellM Unit} (h : L.PermitsNames assigned) (hxy : Alike L x y) :
    Alike L (withinFunction params assigned x) (withinFunction params assigned y) := by
  have hframe := alike_withFrame h hxy
  exact .get_bind (fun _ _ => rfl) fun s => .bind (.modify (fun _ _ => rfl) fun _ h => h) fun _ =>
    .bind hframe fun _ => .bind (.modify (fun _ _ => rfl) fun _ h => h) fun _ => inferInstance

theorem alike_callFunction {body : Node} {params : List Text} {assigned : List (Text × Text)}
    {redirects : List Redirect} (ha : L.PermitsNames assigned) (hr : L.AdmitsRedirects redirects)
    (place : Place) :
    Alike L (callFunction ev body params assigned redirects place)
      (callFunction ev' body params assigned redirects place) :=
  alike_withRedirects hr (alike_withinFunction ha inferInstance)

theorem alike_callBuiltin {b : Builtin} {name : Text} {args : List Text}
    {assigned : List (Text × Text)} {redirects : List Redirect} (ha : L.PermitsNames assigned)
    (hr : L.AdmitsRedirects redirects) :
    Alike L (callBuiltin ev b name args assigned redirects)
      (callBuiltin ev' b name args assigned redirects) := by
  have hbody : Alike L (withRedirects ev redirects (ev.builtin b name args))
      (withRedirects ev' redirects (ev'.builtin b name args)) :=
    alike_withRedirects hr inferInstance
  refine .ite (alike_runExec hr fun _ => ha) (.ite inferInstance (.ite hbody ?_))
  exact .bind (alike_withFrame ha hbody) fun _ => inferInstance

theorem alike_runExternal {args : List Text} {assigned : List (Text × Text)}
    {redirects : List Redirect} (ha : L.PermitsNames assigned) (hr : L.AdmitsRedirects redirects)
    (place : Place) :
    Alike L (runExternal ev args assigned redirects place)
      (runExternal ev' args assigned redirects place) := by
  refine .bind inferInstance fun r => ?_
  cases r with
  | error s => exact alike_withRedirects hr inferInstance
  | ok path =>
      have happly : Alike L (applyRedirects ev false redirects)
          (applyRedirects ev' false redirects) := alike_applyRedirects hr false
      have hexport := alike_exportAll ha
      exact .get_bind (fun _ _ => rfl) fun _ => inferInstance

theorem alike_runArguments {functions : Table Node} {args : List Text}
    {assigned : List (Text × Text)} {redirects : List Redirect} (ha : L.PermitsNames assigned)
    (hr : L.AdmitsRedirects redirects) (place : Place) :
    Alike L (runArguments ev functions args assigned redirects place)
      (runArguments ev' functions args assigned redirects place) := by
  have hexternal : Alike L (runExternal ev args assigned redirects place)
      (runExternal ev' args assigned redirects place) := alike_runExternal ha hr place
  cases args with
  | nil => exact alike_pure _
  | cons name operands =>
      refine .ite hexternal ?_
      split
      · exact alike_callFunction ha hr place
      · split
        · exact alike_callBuiltin ha hr
        · exact hexternal

end

/-! ### Kinds of commands -/

/-- Whether what an assignment gives a value may have one for a while. -/
def Likeness.PermitsWords (L : Likeness) (ws : List Word) : Prop :=
  ∀ w ∈ ws, ∀ name, w.assignedName? = some name → L.permits name

/-- What a command needs of its own words to be run alike. Commands inside it are not looked
at. -/
def Likeness.AdmitsCommand (L : Likeness) : Command → Prop
  | .simple assigns words redirects =>
    L.AdmitsWords assigns ∧ L.AdmitsWords words ∧ L.AdmitsRedirects redirects ∧
      (words ≠ [] → L.PermitsWords assigns)
  | .forIn _ (some words) _ => L.AdmitsWords words
  | .caseOf subject arms =>
    L.AdmitsParts subject.parts ∧ ∀ patterns body, .mk patterns body ∈ arms → L.AdmitsWords patterns
  | .subshell _ redirects | .redirected _ redirects => L.AdmitsRedirects redirects
  | _ => True

/-- The name that an expanded assignment has is the one that its word shows. -/
theorem assignment_named (ev : Evaluator) (w : Word) :
    Yields (fun a => w.assignedName? = some a.1) (assignment ev w) := by
  unfold assignment
  dsimp only
  split
  · rename_i t rest hparts
    split
    · exact .fail _
    · rename_i name start hsplit
      refine .bind fun value => .pure ?_
      show w.assignedName? = some name
      unfold Word.assignedName?
      rw [hparts]
      dsimp only
      rw [hsplit, Option.map_some]
  · exact .fail _

theorem assignment_yields {w : Word} (h : ∀ name, w.assignedName? = some name → L.permits name) :
    Yields (fun a => L.permits a.1) (assignment ev w) :=
  fun s => (assignment_named ev w s).mono fun _ hr a ha => h _ (hr a ha)

theorem assignments_yields {ws : List Word} (h : L.PermitsWords ws) :
    Yields L.PermitsNames (assignments ev ws) := by
  induction ws with
  | nil => exact .pure fun a ha => absurd ha List.not_mem_nil
  | cons w ws ih =>
      have hrest := ih fun v hv => h v (List.mem_cons_of_mem _ hv)
      refine .bind_of (assignment_yields (h w List.mem_cons_self)) fun a ha =>
        .bind_of hrest fun rest hrest => .pure fun b hb => ?_
      rcases List.mem_cons.mp hb with rfl | hb
      · exact ha
      · exact hrest b hb

theorem arguments_yields (ws : List Word) :
    Yields (fun args => args ≠ [] → ws ≠ []) (arguments ev ws) := by
  cases ws with
  | nil => exact .pure fun h => absurd rfl h
  | cons w ws =>
      exact fun _ => Host.Program.always_of (fun _ _ _ _ => List.cons_ne_nil w ws) _

section

variable [L.Kept] [EvaluatorsAlike L ev ev']

theorem alike_runSimple {assigns words : List Word} {redirects : List Redirect}
    (h : L.AdmitsCommand (.simple assigns words redirects)) (place : Place) :
    Alike L (runSimple ev assigns words redirects place)
      (runSimple ev' assigns words redirects place) := by
  obtain ⟨ha, hw, hr, hp⟩ := h
  refine .bind (.modify (fun _ _ => rfl) fun _ h => h) fun _ =>
    .bind_of (alike_arguments hw) (arguments_yields words) fun args hargs => ?_
  by_cases he : args.isEmpty = true
  · rw [if_pos he, if_pos he]
    exact alike_runAssignments ha hr
  · rw [if_neg he, if_neg he]
    have hne : args ≠ [] := fun h => he (by rw [h]; rfl)
    refine .bind_of (alike_assignments ha) (assignments_yields (hp (hargs hne)))
      fun assigned hassigned => .bind inferInstance fun _ => ?_
    exact .get_bind (fun _ _ => rfl) fun s => alike_runArguments hassigned hr place

theorem alike_fitsAny {ws : List Word} (h : L.AdmitsWords ws) (subject : Text) :
    Alike L (fitsAny ev subject ws) (fitsAny ev' subject ws) := by
  induction ws with
  | nil => exact alike_pure _
  | cons w ws ih =>
      have hws := ih fun v hv => h v (List.mem_cons_of_mem _ hv)
      exact .bind (alike_wordPattern (h w List.mem_cons_self)) fun _ => inferInstance

theorem alike_runArms {arms : List CaseArm}
    (h : ∀ patterns body, .mk patterns body ∈ arms → L.AdmitsWords patterns) (subject : Text)
    (place : Place) :
    Alike L (runArms ev subject place arms) (runArms ev' subject place arms) := by
  induction arms with
  | nil => exact alike_setStatus 0
  | cons arm arms ih =>
      obtain ⟨patterns, body⟩ := arm
      have harms := ih fun ps b hb => h ps b (List.mem_cons_of_mem _ hb)
      have hfits : Alike L (fitsAny ev subject patterns) (fitsAny ev' subject patterns) :=
        alike_fitsAny (h patterns body List.mem_cons_self) subject
      cases body with
      | some body => exact alike_bind
      | none => exact alike_bind

instance alike_runIf (cond thenBody : Node) (elseBody : Option Node) (place : Place) :
    Alike L (runIf ev cond thenBody elseBody place) (runIf ev' cond thenBody elseBody place) := by
  refine .bind inferInstance fun _ => .get_bind (fun _ _ => rfl) fun s => .ite inferInstance ?_
  cases elseBody with
  | some body => infer_instance
  | none => infer_instance

/-- Commands that admit it run alike. -/
theorem alike_runKind {c : Command} (h : L.AdmitsCommand c) (place : Place) :
    Alike L (runKind ev place c) (runKind ev' place c) := by
  cases c with
  | simple assigns words redirects =>
      exact .bind (alike_runSimple h place) fun _ => inferInstance
  | pipeline stages => exact alike_runPipeline stages place
  | not body =>
      exact .bind inferInstance fun _ => .get_bind (fun _ _ => rfl) fun _ => inferInstance
  | and left right =>
      exact .bind inferInstance fun _ => .get_bind (fun _ _ => rfl) fun _ => inferInstance
  | or left right =>
      exact .bind inferInstance fun _ => .get_bind (fun _ _ => rfl) fun _ => inferInstance
  | list left right => exact alike_bind
  | background body => exact alike_runBackground body
  | ifThen cond thenBody elseBody => exact alike_runIf cond thenBody elseBody place
  | whileDo cond body => exact alike_runLoop cond body false place
  | untilDo cond body => exact alike_runLoop cond body true place
  | forIn var items body =>
      cases items with
      | some words => exact .bind (alike_arguments h) fun _ => inferInstance
      | none => exact .get_bind (fun _ _ => rfl) fun s => inferInstance
  | caseOf subject arms =>
      exact .bind (alike_wordText h.1) fun _ => alike_runArms h.2 _ place
  | subshell body redirects => exact alike_runSubshell h body place
  | brace body => exact EvaluatorsAlike.node body place
  | redirected body redirects => exact alike_withRedirects h inferInstance
  | function name body => exact .bind (.define fun _ => rfl) fun _ => inferInstance

end

end Shell

end CommandShell

/-!
## Watched evaluation

A watched evaluator runs what the evaluator runs, and gives up where a watch tells it to: at a
command or a built-in command that the watch does not admit, at a text that is to be run as a script, or
at the end of a command that it does not accept. What a watch has to see to is written down in `Watch.Ensures`; then a watched run that
does not give up is a run of the evaluator (`watched_alike`), also from a state that is merely
alike. It is also a run under every other watch that never gives up first (`Watch.Implies`).
-/

namespace CommandShell.Shell

open Script (Node)
open Host (Event)
open Host.Program (Follows Reaches)

/-- What a watched run may do. -/
structure Watch where
  /-- The states in which a command may be run. -/
  admits : Shell → Node → Bool
  /-- The built-in commands that may be run, on which arguments. -/
  admitsBuiltin : Builtin → List Text → Bool
  /-- Whether texts may be run as scripts: by `eval`, by `.` and by traps. -/
  admitsTexts : Bool
  /-- The states that a command may end in. -/
  accepts : Shell → Node → Place → Bool

/-- The watch that never gives up. -/
def Watch.all : Watch where
  admits _ _ := true
  admitsBuiltin _ _ := true
  admitsTexts := true
  accepts _ _ _ := true

/-- Gives up unless a condition holds. -/
def giveUpUnless (b : Bool) : ShellM Unit := if b then return else leave Host.abandonCode

/-- A command whose evaluator is watched. -/
def watchedNode (w : Watch) (ev : Evaluator) (node : Node) (place : Place) : ShellM Unit := do
  giveUpUnless (w.admits (← get) node)
  modify fun sh => { sh with line := node.line }
  runKind ev place node.command
  giveUpUnless (w.accepts (← get) node place)
  checkErrexit node place

/-- The evaluator for scripts nested up to a depth, under a watch. -/
def watchedOf (w : Watch) : Nat → Evaluator
  | 0 => evaluatorOf 0
  | depth + 1 =>
    { node := watchedNode w (watchedOf w depth)
      source := fun t => do
        giveUpUnless w.admitsTexts
        runText (watchedOf w depth) t
      command := fun args => runArguments (watchedOf w depth) .empty args [] [] {}
      builtin := fun b name args => do
        giveUpUnless (w.admitsBuiltin b args)
        Commands.runBuiltin (watchedOf w depth) b name args }

/-- A run under the watch that never gives up is a run of the evaluator. -/
theorem watchedOf_all (depth : Nat) : watchedOf .all depth = evaluatorOf depth := by
  induction depth with
  | zero => rfl
  | succ depth ih =>
      show Evaluator.mk _ _ _ _ = Evaluator.mk _ _ _ _
      rw [ih]
      rfl

/-- A watch that sees to what lockstep needs. -/
structure Watch.Ensures (w : Watch) (L : Likeness) : Prop where
  admits : ∀ {s : Shell} {node : Node}, w.admits s node = true → L.AdmitsCommand node.command
  admitsBuiltin : ∀ {b args}, w.admitsBuiltin b args = true → L.AdmitsBuiltin b args
  accepts : L.exact ∨ ∀ {s : Shell} {node : Node} {place : Place}, w.accepts s node place = true →
    (s.status ≠ 0 && node.isSimple && !place.isTested) = false

/-- A watch that gives up first, if the other one ever does. -/
structure Watch.Implies (w w' : Watch) (L : Likeness) : Prop where
  admits : ∀ {s t : Shell} {node : Node}, L.Like s t → w.admits s node = true →
    w'.admits t node = true
  admitsBuiltin : ∀ {b args}, w.admitsBuiltin b args = true → w'.admitsBuiltin b args = true
  admitsTexts : w.admitsTexts = true → w'.admitsTexts = true
  accepts : ∀ {s t : Shell} {node : Node} {place : Place}, L.Like s t →
    w.accepts s node place = true → w'.accepts t node place = true

/-- The watch that never gives up is no first one. -/
theorem Watch.implies_all (w : Watch) (L : Likeness) : w.Implies .all L :=
  ⟨fun _ _ => rfl, fun _ => rfl, fun _ => rfl, fun _ _ => rfl⟩

variable {L : Likeness} {α : Type}

/-- Of two watched computations the first one gives up first. -/
protected theorem Alike.giveUpUnless {b b' : Bool} {x y : ShellM α} (hb : b = true → b' = true)
    (h : b = true → Alike L x y) :
    Alike L (do
      giveUpUnless b
      x) (do
      giveUpUnless b'
      y) := by
  cases b with
  | true =>
      rw [hb rfl]
      exact ⟨fun hst => (h rfl).follows hst⟩
  | false => exact ⟨fun _ => .abandoned⟩

/-- The same for what is looked at in the state. -/
protected theorem Alike.giveUpUnless_get {f g : Shell → Bool} {x y : ShellM α}
    (h : ∀ {s t}, L.Like s t → f s = true → g t = true ∧
      Follows L.answers (fun a b => a.1 = b.1 ∧ L.Like a.2 b.2) (x.run.run s) (y.run.run t)) :
    Alike L (do
      giveUpUnless (f (← get))
      x) (do
      giveUpUnless (g (← get))
      y) :=
  ⟨fun {s t} hst => by
    show Follows _ _ ((do
        giveUpUnless (f s)
        x : ShellM α).run.run s) ((do
        giveUpUnless (g t)
        y : ShellM α).run.run t)
    cases hf : f s with
    | true =>
        obtain ⟨hg, hxy⟩ := h hst hf
        rw [hg]
        exact hxy
    | false => exact .abandoned⟩

theorem checkErrexit_of_accepted {node : Node} {place : Place} {s : Shell}
    (h : (s.status ≠ 0 && node.isSimple && !place.isTested) = false) :
    (checkErrexit node place).run.run s = .done (.ok (), s) := by
  show ((if _ then _ else _ : ShellM Unit).run.run s) = _
  rw [h, Bool.false_and, if_neg Bool.false_ne_true]
  rfl

/-- The check for errors after a command that was accepted. -/
theorem alike_checkErrexit {w w' : Watch} (hw : w.Ensures L) (hw' : w.Implies w' L) (node : Node)
    (place : Place) :
    Alike L (do
      giveUpUnless (w.accepts (← get) node place)
      checkErrexit node place) (do
      giveUpUnless (w'.accepts (← get) node place)
      checkErrexit node place) := by
  refine .giveUpUnless_get fun {s t} hst ha => ⟨hw'.accepts hst ha, ?_⟩
  rcases hw.accepts with hex | haccepts
  · obtain rfl : t = s := hst.2.2 hex
    show Follows _ _ ((if _ then _ else _ : ShellM Unit).run.run t)
      ((if _ then _ else _ : ShellM Unit).run.run t)
    split
    · exact .done ⟨rfl, hst⟩
    · exact .done ⟨rfl, hst⟩
  · have hs := haccepts ha
    obtain ⟨_, ⟨on, rfl⟩, _⟩ := id hst
    rw [checkErrexit_of_accepted hs, checkErrexit_of_accepted (s := s.withErrexit on) hs]
    exact .done ⟨rfl, hst⟩

/-- A watched run that does not give up is a run under every watch that is implied. -/
theorem watched_alike [L.Kept] {w w' : Watch} (hw : w.Ensures L) (hw' : w.Implies w' L)
    (depth : Nat) : EvaluatorsAlike L (watchedOf w depth) (watchedOf w' depth) := by
  induction depth with
  | zero => exact ⟨fun _ _ => alike_fail _, fun _ => alike_fail _, fun _ => alike_fail _,
      fun _ _ _ => alike_fail _⟩
  | succ depth ih =>
      refine ⟨fun node place => ?_, fun t => .giveUpUnless hw'.admitsTexts fun _ => alike_runText t,
        fun args => ?_, fun b name args => ?_⟩
      · refine .giveUpUnless_get fun hst ha => ⟨hw'.admits hst ha, ?_⟩
        have hline : Steady L (modify fun sh => { sh with line := node.line }) :=
          .modify (fun _ _ => rfl) fun _ h => h
        have hrun : Alike L (runKind (watchedOf w depth) place node.command)
            (runKind (watchedOf w' depth) place node.command) := alike_runKind (hw.admits ha) place
        exact (hline.bind fun _ => hrun.bind fun _ =>
          alike_checkErrexit hw hw' node place).follows hst
      · have hnames : L.PermitsNames [] := fun _ ha => absurd ha List.not_mem_nil
        have hredirects : L.AdmitsRedirects [] := fun _ hr => absurd hr List.not_mem_nil
        have hrun : Alike L (runArguments (watchedOf w depth) .empty args [] [] {})
            (runArguments (watchedOf w' depth) .empty args [] [] {}) :=
          alike_runArguments hnames hredirects {}
        exact hrun
      · exact .giveUpUnless hw'.admitsBuiltin fun ha => alike_runBuiltin (hw.admitsBuiltin ha)

end CommandShell.Shell
