import CommandShell.Proofs.Twins

/-!
# The constructs over two evaluators

The functions of the evaluator are gone through in the order in which they are defined, loops, `break` and
`continue` left out.
-/

namespace CommandShell

/-- The kinds of commands that are loops. -/
def Script.Command.isLoop : Script.Command → Bool
  | .whileDo .. | .untilDo .. | .forIn .. => true
  | _ => false

namespace Shell

open Script (Node Word Part Redirect CaseArm)
open Expansion Commands

variable {ev ev' : Evaluator} {T : Span} {α σ : Type}

/-! ## Children -/

instance twins_exitChild (r : Except Stop Unit) :
    Twins ev ev' T (exitChild ev r : ShellM α) (exitChild ev' r) := by
  have hstatus : Twins ev ev' T (childStatus r) (childStatus r) := by
    unfold childStatus
    split
    · infer_instance
    · infer_instance
    · infer_instance
    · infer_instance
  exact twins_bind

instance twins_forkJob (text : Text) {body body' : ShellM Unit} [hbody : Twins ev ev' .all body body'] :
    Twins ev ev' T (forkJob ev text body) (forkJob ev' text body') := by
  refine .bind inferInstance fun s => .bind inferInstance fun r => ?_
  rcases r with e | _ | child
  · infer_instance
  · exact .bind inferInstance fun _ => .child hbody
  · infer_instance

/-! ## Expansion -/

instance twins_substitutionChild (readEnd writeEnd : Nat) (body : Node) :
    Twins ev ev' T (substitutionChild ev readEnd writeEnd body)
      (substitutionChild ev' readEnd writeEnd body) := by
  have hbody : Twins ev ev' T (do
      let _ ← ask (.close writeEnd)
      exitChild ev (← attempt (ev.node body { isLast := true })) : ShellM Text) (do
      let _ ← ask (.close writeEnd)
      exitChild ev' (← attempt (ev'.node body { isLast := true }))) :=
    .bind inferInstance fun _ => .child inferInstance
  refine .bind inferInstance fun _ => .bind inferInstance fun _ => .bind inferInstance fun r => ?_
  cases r with
  | error e => exact .bind inferInstance fun _ => hbody
  | ok u => exact hbody

instance twins_substitute (body : Option Node) :
    Twins ev ev' T (substitute ev body) (substitute ev' body) := by
  have hstatus : ∀ code : Int, Procedure (evaluatorOf 0) .outside
      (modify fun sh => { sh with substitutionStatus := some code } : ShellM Unit) :=
    fun _ => .modify fun _ => .works rfl rfl rfl rfl rfl rfl
  cases body with
  | none => exact .bind inferInstance fun _ => inferInstance
  | some body =>
      refine .bind inferInstance fun r => ?_
      rcases r with e | ⟨readEnd, writeEnd⟩
      · infer_instance
      · refine .bind inferInstance fun r => ?_
        rcases r with e | _ | child
        · infer_instance
        · infer_instance
        · refine .bind inferInstance fun _ => .bind inferInstance fun output =>
            .bind inferInstance fun _ => .bind inferInstance fun _ => .bind inferInstance fun _ => ?_
          cases output with
          | ok data => infer_instance
          | error e => infer_instance

instance twins_expandParameter (name : Text) (op : Script.ParamOp) (colon inQuotes hasArg : Bool)
    (arg arg' : Quoting → ShellM (List Piece)) [∀ q, Twins ev ev' T (arg q) (arg' q)] :
    Twins ev ev' T (expandParameter name op colon inQuotes hasArg arg)
      (expandParameter name op colon inQuotes hasArg arg') := by
  refine .bind inferInstance fun s => ?_
  cases op with
  | _ =>
      dsimp only
      infer_instance

mutual

theorem twins_partPieces (q : Quoting) : ∀ p : Part, Twins ev ev' T (partPieces ev q p) (partPieces ev' q p)
  | .literal _ | .escaped _ | .singleQuoted _ => by
      unfold partPieces
      infer_instance
  | .doubleQuoted ps => by
      have hps := twins_pieces .quoted ps
      unfold partPieces
      infer_instance
  | .param name op colon arg inQuotes => by
      have harg := fun q => twins_pieces q arg
      unfold partPieces
      infer_instance
  | .command body => by
      unfold partPieces
      infer_instance
  | .arithmetic ps => by
      have hps := twins_pieces .quoted ps
      unfold partPieces
      infer_instance

theorem twins_pieces (q : Quoting) : ∀ ps : List Part, Twins ev ev' T (pieces ev q ps) (pieces ev' q ps)
  | [] => by
      unfold pieces
      infer_instance
  | p :: ps => by
      have hp := twins_partPieces q p
      have hps := twins_pieces q ps
      unfold pieces
      infer_instance

end

attribute [instance] twins_pieces

instance twins_wordPieces (w : Word) : Twins ev ev' T (wordPieces ev w) (wordPieces ev' w) := by
  refine .bind inferInstance fun r => ?_
  rcases r with _ | ⟨home, rest⟩
  · infer_instance
  · infer_instance

instance twins_quotedText (ps : List Part) : Twins ev ev' T (quotedText ev ps) (quotedText ev' ps) :=
  twins_bind

instance twins_wordText (w : Word) : Twins ev ev' T (wordText ev w) (wordText ev' w) := twins_bind

instance twins_wordPattern (w : Word) : Twins ev ev' T (wordPattern ev w) (wordPattern ev' w) :=
  twins_bind

instance twins_hereDocText (w : Word) : Twins ev ev' T (hereDocText ev w) (hereDocText ev' w) := by
  unfold hereDocText
  split
  · infer_instance
  · infer_instance

instance twins_arguments (ws : List Word) : Twins ev ev' T (arguments ev ws) (arguments ev' ws) := by
  induction ws with
  | nil => exact .pure _
  | cons w ws ih => exact twins_bind

instance twins_assignedValue (first : Bool) (done : Text) (ps : List Part) :
    Twins ev ev' T (assignedValue ev first done ps) (assignedValue ev' first done ps) := by
  induction ps generalizing first done with
  | nil => exact .pure _
  | cons p ps ih =>
      unfold assignedValue
      cases p with
      | literal t => infer_instance
      | _ => infer_instance

instance twins_assignment (w : Word) : Twins ev ev' T (assignment ev w) (assignment ev' w) := by
  unfold assignment
  dsimp only
  split
  · split
    · infer_instance
    · infer_instance
  · infer_instance

instance twins_assignments (ws : List Word) : Twins ev ev' T (assignments ev ws) (assignments ev' ws) := by
  induction ws with
  | nil => exact .pure _
  | cons w ws ih => exact twins_bind

/-! ## Redirections -/

instance twins_openTarget (r : Redirect) : Twins ev ev' T (openTarget ev r) (openTarget ev' r) := by
  unfold openTarget
  split
  · infer_instance
  · infer_instance
  · infer_instance

instance twins_applyRedirects (save : Bool) (rs : List Redirect) :
    Twins ev ev' T (applyRedirects ev save rs) (applyRedirects ev' save rs) := by
  induction rs with
  | nil => exact .pure _
  | cons r rs ih =>
      unfold applyRedirects
      infer_instance

instance twins_withRedirects (rs : List Redirect) {body body' : ShellM Unit}
    [hbody : Twins ev ev' T body body'] :
    Twins ev ev' T (withRedirects ev rs body) (withRedirects ev' rs body') := by
  have hopen : Procedure (evaluatorOf 0) .outside openSaved :=
    .modify fun _ => .works rfl rfl rfl rfl rfl rfl
  refine .ite inferInstance (.bind inferInstance fun _ => .attempt_bind inferInstance fun r hr => ?_)
  cases r with
  | ok u =>
      refine .handed (Span.le_refl T) hbody (Tidy.closeSaved.bind fun _ => .pure ())
        (HandsOn.resume.after closeSaved) fun r hr => ?_
      exact Tidy.closeSaved.ends.bind fun _ => .of_procedure (h := procedure_resume hr)
  | error s =>
      have hthrow : Procedure (evaluatorOf 0) .outside (throw s : ShellM Unit) := .throw (hr s rfl)
      exact .same .of_procedure

/-! ## Traps -/

/-- A jump out of the command of a trap is handed on. -/
instance twins_runTraps [hT : Jumping T] : Twins ev ev' T (runTraps ev) (runTraps ev') := by
  have hflag : ∀ b, Tidy (modify fun sh => { sh with inTrap := b } : ShellM Unit) :=
    fun _ => .modify (fun _ => rfl) fun _ => rfl
  have hkept : ∀ later, Tidy (do if ← anyPending later then ask .markArrived : ShellM Unit) :=
    fun later => (Tidy.anyPending later).bind fun _ => .ite (.ask rfl) (.pure ())
  have htrap : ∀ later command, Twins ev ev' T (runTrap ev later command) (runTrap ev' later command) := by
    refine fun later command => .bind inferInstance fun s => .bind (.same (hflag true).ends) fun _ =>
      .handed hT.le inferInstance ((hflag false).bind fun _ => hkept later) (fun e he => ?_) fun r hr => ?_
    · simp only [Span.covers_jumps he, if_true, bind_assoc]
      refine bind_congr fun _ => bind_congr fun found => ?_
      cases found with
      | true => rfl
      | false => rfl
    · refine (hflag false).ends.bind fun _ => ?_
      have hstatus : EndsFor .outside (setStatus s.status) := .of_procedure
      cases r with
      | ok u => exact hstatus
      | error e =>
          have hthrow : EndsFor .outside (throw e : ShellM Unit) := .throw fun _ => hr e rfl
          refine .ite ((EndsFor.anyPending later).bind fun found => ?_)
            ((EndsFor.reportStop e).bind fun _ => hstatus)
          cases found with
          | true => exact .bind (.ask _) fun _ => hthrow
          | false => exact hthrow
  have harrived : ∀ ss, Twins ev ev' T (handleArrived ev ss) (handleArrived ev' ss) := by
    intro ss
    induction ss with
    | nil => exact .pure _
    | cons signal later ih =>
        refine .bind inferInstance fun taken => .ite ih (.bind inferInstance fun s => ?_)
        split
        · exact .bind (htrap later _) fun _ => ih
        · exact ih
        · exact .bind ih fun rest => inferInstance
  exact .bind inferInstance fun _ => .ite inferInstance <| .bind inferInstance fun _ =>
    .ite inferInstance <| .bind (harrived Signal.all) fun _ =>
      .ite (.same (.throw fun _ => rfl)) inferInstance

/-! ## Pipelines and subshells -/

instance twins_stageChild (pipes : List (Nat × Nat)) (input output : Option Nat)
    (group : Option ProcessId) (background : Bool) (stage : Node) :
    Twins ev ev' T (stageChild ev pipes input output group background stage : ShellM α)
      (stageChild ev' pipes input output group background stage) := by
  refine .bind inferInstance fun _ => .bind inferInstance fun wired => .bind inferInstance fun _ => ?_
  cases wired with
  | ok u => exact .child inferInstance
  | error s => infer_instance

instance twins_forkStages (pipes : List (Nat × Nat)) (background : Bool) (input : Option Nat)
    (ahead : List (Nat × Nat)) (started : List JobProcess) (stages : List Node) :
    Twins ev ev' T (forkStages ev pipes background input ahead started stages)
      (forkStages ev' pipes background input ahead started stages) := by
  induction stages generalizing input ahead started with
  | nil => exact .pure _
  | cons stage stages ih =>
      refine .bind inferInstance fun r => ?_
      rcases r with e | _ | child
      · infer_instance
      · infer_instance
      · infer_instance

instance twins_launchStages (stages : List Node) (background : Bool) :
    Twins ev ev' T (launchStages ev stages background) (launchStages ev' stages background) := twins_bind

instance twins_runPipeline (stages : List Node) (place : Place) :
    Twins ev ev' .all (runPipeline ev stages place) (runPipeline ev' stages place) := by
  unfold runPipeline
  split
  · infer_instance
  · infer_instance

instance twins_runBackground (body : Node) :
    Twins ev ev' T (runBackground ev body) (runBackground ev' body) := by
  have hjobs : ∀ jobs last, Procedure (evaluatorOf 0) .outside
      (modify fun sh => { sh with jobs := jobs, lastBackground := last }) :=
    fun _ _ => .modify fun _ => .works rfl rfl rfl rfl rfl rfl
  exact twins_bind

instance twins_runSubshell (body : Node) (redirects : List Redirect) (place : Place) :
    Twins ev ev' .all (runSubshell ev body redirects place) (runSubshell ev' body redirects place) :=
  twins_bind

/-! ## Functions and simple commands -/

/-- Computations with assignments before them, and what is done with the outcome. -/
theorem twins_withFrame (assigned : List (Text × Text)) {body body' : ShellM Unit}
    (hbody : Twins ev ev' T body body') :
    Twins ev ev' T (withFrame assigned body >>= resume) (withFrame assigned body' >>= resume) := by
  have hclose : Tidy (modifyVariables Variables.closeFrame) := .modify (fun _ => rfl) fun _ => rfl
  unfold withFrame
  simp only [bind_assoc, pure_bind]
  refine .bind inferInstance fun _ => .handed (Span.le_refl T) ?_ (hclose.bind fun _ => .pure ())
    (HandsOn.resume.after _) fun r hr => ?_
  · exact .bind inferInstance fun _ => hbody
  · exact hclose.ends.bind fun _ => .of_procedure (h := procedure_resume hr)

theorem twins_callFunction (hT : .all ≤ T) (body : Node) (params : List Text)
    (assigned : List (Text × Text)) (redirects : List Redirect) (place : Place) :
    Twins ev ev' T (callFunction ev body params assigned redirects place)
      (callFunction ev' body params assigned redirects place) := by
  have hbody : Twins ev ev' T
      (withinFunction params assigned (ev.node body { isTested := place.isTested }))
      (withinFunction params assigned (ev'.node body { isTested := place.isTested })) :=
    .function hT params assigned inferInstance
  exact twins_withRedirects redirects

instance twins_runExec (args : List Text) (assigned : List (Text × Text)) (redirects : List Redirect) :
    Twins ev ev' T (runExec ev args assigned redirects) (runExec ev' args assigned redirects) := by
  have hfail : ∀ s code, Procedure (evaluatorOf 0) .outside (failExec s code) := fun _ _ => procedure_bind
  unfold runExec
  split
  · refine .bind inferInstance fun r => ?_
    cases r with
    | ok u => infer_instance
    | error s => infer_instance
  · refine .bind inferInstance fun r => ?_
    cases r with
    | error s => infer_instance
    | ok path =>
        refine .bind inferInstance fun r => ?_
        cases r with
        | ok u => infer_instance
        | error s => infer_instance

instance twins_callBuiltin [Jumping T] (b : Builtin) (name : Text) (args : List Text)
    (assigned : List (Text × Text)) (redirects : List Redirect) :
    Twins ev ev' T (callBuiltin ev b name args assigned redirects)
      (callBuiltin ev' b name args assigned redirects) :=
  .ite inferInstance (.ite inferInstance (.ite inferInstance (twins_withFrame assigned inferInstance)))

instance twins_runExternal (args : List Text) (assigned : List (Text × Text))
    (redirects : List Redirect) (place : Place) :
    Twins ev ev' T (runExternal ev args assigned redirects place)
      (runExternal ev' args assigned redirects place) := by
  refine .bind inferInstance fun r => ?_
  cases r with
  | error s => infer_instance
  | ok path => infer_instance

/-- Errors come out of functions only. -/
theorem twins_runArguments [Jumping T] {functions : Table Node}
    (hfunctions : ∀ name body, functions.get? name = some body → .all ≤ T) (args : List Text)
    (assigned : List (Text × Text)) (redirects : List Redirect) (place : Place) :
    Twins ev ev' T (runArguments ev functions args assigned redirects place)
      (runArguments ev' functions args assigned redirects place) := by
  unfold runArguments
  cases args with
  | nil => infer_instance
  | cons name operands =>
      refine .ite inferInstance ?_
      split
      · exact twins_callFunction (hfunctions name _ ‹_›) _ operands assigned redirects place
      · split
        · infer_instance
        · infer_instance

instance twins_runSimple (assigns words : List Word) (redirects : List Redirect) (place : Place) :
    Twins ev ev' .all (runSimple ev assigns words redirects place)
      (runSimple ev' assigns words redirects place) := by
  have hnone : Procedure (evaluatorOf 0) .outside (modify fun sh => { sh with substitutionStatus := none }) :=
    .modify fun _ => .works rfl rfl rfl rfl rfl rfl
  have hwords : ∀ ws, Twins ev ev' .all (assignWords ev ws) (assignWords ev' ws) := by
    intro ws
    induction ws with
    | nil => exact .pure _
    | cons w ws ih => exact twins_bind
  have hassign : Twins ev ev' .all (runAssignments ev assigns redirects)
      (runAssignments ev' assigns redirects) := twins_bind
  have hrun : ∀ s : Shell, ∀ args assigned, Twins ev ev' .all
      (runArguments ev s.definitions.functions args assigned redirects place)
      (runArguments ev' s.definitions.functions args assigned redirects place) :=
    fun s args assigned => twins_runArguments (fun _ _ _ => Span.le_refl .all) args assigned redirects place
  exact twins_bind

/-! ## Kinds of commands -/

instance twins_runArms (subject : Text) (place : Place) (arms : List CaseArm) :
    Twins ev ev' .all (runArms ev subject place arms) (runArms ev' subject place arms) := by
  have hfits : ∀ ws, Twins ev ev' .all (fitsAny ev subject ws) (fitsAny ev' subject ws) := by
    intro ws
    induction ws with
    | nil => exact .pure _
    | cons w ws ih => exact twins_bind
  induction arms with
  | nil => exact .same (.of_procedure (h := procedure_setStatus 0))
  | cons arm arms ih =>
      obtain ⟨patterns, body⟩ := arm
      cases body with
      | some body => exact twins_bind
      | none => exact twins_bind

instance twins_runIf (cond thenBody : Node) (elseBody : Option Node) (place : Place) :
    Twins ev ev' .all (runIf ev cond thenBody elseBody place) (runIf ev' cond thenBody elseBody place) := by
  refine .bind inferInstance fun _ => .bind inferInstance fun s => .ite inferInstance ?_
  cases elseBody with
  | some body => infer_instance
  | none => infer_instance

instance twins_loopItems (items : Option (List Word)) :
    Twins ev ev' T (loopItems ev items) (loopItems ev' items) := by
  cases items with
  | some words => exact twins_arguments words
  | none => exact .bind inferInstance fun _ => inferInstance

/-- The kinds of commands that are no loops. -/
theorem twins_runKind (place : Place) {c : Script.Command} (hc : c.isLoop = false) :
    Twins ev ev' .all (runKind ev place c) (runKind ev' place c) := by
  cases c with
  | whileDo | untilDo | forIn => cases hc
  | _ =>
      unfold runKind
      infer_instance

/-! ## Built-in commands -/

instance twins_runEval [Jumping T] (args : List Text) : Twins ev ev' T (runEval ev args) (runEval ev' args) :=
  twins_bind

instance twins_runCommand [Jumping T] (args : List Text) :
    Twins ev ev' T (runCommand ev args) (runCommand ev' args) := twins_bind

/-- A `return` is for the sourced file, which hands other jumps on. -/
theorem handsOn_takeReturn : HandsOn .jumps (pure ()) takeReturn := by
  intro e he
  cases e with
  | fault f line => cases he
  | jump j =>
      cases j with
      | returning code => cases he
      | _ => rfl

instance twins_runDot [hT : Jumping T] (args : List Text) :
    Twins ev ev' T (runDot ev args) (runDot ev' args) := by
  have hdepth : ∀ f : Nat → Nat,
      Tidy (modify fun sh => { sh with sourceDepth := f sh.sourceDepth } : ShellM Unit) :=
    fun _ => .modify (fun _ => rfl) fun _ => rfl
  have hin : Twins ev ev' T (modify fun sh => { sh with sourceDepth := sh.sourceDepth + 1 })
      (modify fun sh => { sh with sourceDepth := sh.sourceDepth + 1 }) := .same (hdepth (· + 1)).ends
  have hparams : ∀ params, Tidy (modifyVariables (·.withParams params)) :=
    fun _ => .modify (fun _ => rfl) fun _ => rfl
  -- whatever is put back after the text, a `return` ends there
  have hsourced : ∀ text {u : ShellM Unit}, Tidy u →
      Twins ev ev' T (attempt (ev.source text) >>= fun r => u >>= fun _ => takeReturn r)
        (attempt (ev'.source text) >>= fun r => u >>= fun _ => takeReturn r) :=
    fun text u hu => .handed hT.le inferInstance (hu.bind fun _ => .pure ()) (handsOn_takeReturn.after u)
      fun r hr => hu.ends.bind fun _ => .takeReturn hr
  cases args with
  | nil => exact .same (.throw fun _ => rfl)
  | cons name params =>
      refine .bind inferInstance fun text => ?_
      unfold withParams
      split
      · simp only [bind_assoc, pure_bind]
        exact .bind inferInstance fun _ => .bind inferInstance fun _ => hsourced text (hdepth (· - 1))
      · simp only [bind_assoc, pure_bind]
        refine .bind inferInstance fun s => .bind inferInstance fun _ => .bind inferInstance fun _ =>
          .bind inferInstance fun _ => ?_
        have h := hsourced text ((hdepth (· - 1)).bind fun _ => hparams s.variables.params)
        simp only [bind_assoc] at h
        exact h

/-- The built-in commands that are no jumps for loops. -/
theorem twins_action [Jumping T] {b : Builtin} (hbreak : b ≠ .break_) (hcontinue : b ≠ .continue_)
    (args : List Text) : Twins ev ev' T (action ev b args) (action ev' b args) := by
  cases b with
  | break_ => exact absurd rfl hbreak
  | continue_ => exact absurd rfl hcontinue
  | test => exact .same (.of_procedure (h := procedure_bind))
  | type => exact .same (.of_procedure (h := procedure_describeAll true 0 args))
  | echo => exact .same (.of_procedure (h := procedure_bind))
  | _ =>
      unfold action
      infer_instance

/-! ## Scripts -/

instance twins_runRead (top : Bool) (node : Node) :
    Twins ev ev' .jumps (runRead ev top node) (runRead ev' top node) :=
  .bind inferInstance fun _ => .ite inferInstance
    (.read (Span.le_refl .jumps) top inferInstance rfl fun _ => rfl)

instance twins_checkpoint : Twins ev ev' .jumps (checkpoint ev) (checkpoint ev') := by
  have hnotify : Procedure (evaluatorOf 0) .outside notifyJobs := procedure_bind
  have hforget : Procedure (evaluatorOf 0) .outside forgetDoneJobs :=
    .modify fun _ => .works rfl rfl rfl rfl rfl rfl
  exact twins_bind

instance twins_sourceStep (top : Bool) (src : ScriptSource) :
    Twins ev ev' .jumps (sourceStep ev top src) (sourceStep ev' top src) := by
  have hread : ∀ s : Shell, Twins ev ev' .jumps (do
      let src := refreshSource s src
      let (result, input) ← readCommand src
      let input ← showLines input
      match result with
      | .ok .done => return .inr ()
      | .ok .empty => return .inl { src with input }
      | .ok (.command node) =>
        runRead ev top node
        return .inl { src with input }
      | .error s =>
        takeStop top s
        return if top then .inl { src with input := input.discardLine } else .inr () :
      ShellM (ScriptSource ⊕ Unit)) (do
      let src := refreshSource s src
      let (result, input) ← readCommand src
      let input ← showLines input
      match result with
      | .ok .done => return .inr ()
      | .ok .empty => return .inl { src with input }
      | .ok (.command node) =>
        runRead ev' top node
        return .inl { src with input }
      | .error s =>
        takeStop top s
        return if top then .inl { src with input := input.discardLine } else .inr () :
      ShellM (ScriptSource ⊕ Unit)) := by
    refine fun s => .sequence inferInstance (yields_readCommand _) fun read hread => ?_
    obtain ⟨result, input⟩ := read
    refine .bind inferInstance fun input => ?_
    split
    · infer_instance
    · infer_instance
    · infer_instance
    · rename_i e
      have htake : Procedure (evaluatorOf 0) .outside (takeStop top e) :=
        (procedure_takeStop top e).of_handed (r := (.error e : Except Stop Unit)) (E := .outside)
          fun e' he' => hread e' (by cases he'; rfl)
      infer_instance
  exact .ite (.bind inferInstance fun _ => .bind inferInstance hread) (.bind inferInstance hread)

instance twins_runSource (top : Bool) (src : ScriptSource) :
    Twins ev ev' .jumps (runSource ev top src) (runSource ev' top src) :=
  .iterateFor (fun _ => inferInstance) _ _

instance twins_runText (t : Text) : Twins ev ev' .jumps (runText ev t) (runText ev' t) := by
  have hline : ∀ line, Tidy (modify fun sh => { sh with line := line } : ShellM Unit) :=
    fun _ => .modify (fun _ => rfl) fun _ => rfl
  refine .bind inferInstance fun s => .handed (Span.le_refl .jumps) inferInstance
    ((hline s.line).bind fun _ => .pure ()) (HandsOn.resume.after _) fun r hr => ?_
  exact (hline s.line).ends.bind fun _ => .of_procedure (h := procedure_resume hr)

end Shell

end CommandShell
