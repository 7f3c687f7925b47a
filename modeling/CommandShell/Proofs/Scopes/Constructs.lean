import CommandShell.Execution.Evaluate
import CommandShell.Proofs.Scopes.Commands

/-!
# Scopes unwind

Loops, functions, prefix assignments, traps and redirections open scopes. Each of them closes its
scope however its body ended, so an evaluator built on one that leaves all scopes leaves all scopes
too. By induction on the depth of nesting, every command does (`scopes_unwind`), and a function or a
sourced file with arguments hands the positional parameters back.
-/

namespace CommandShell.Shell

open Script (Node Word Redirect CaseArm Input)
open Expansion

variable {α : Type} {R : Bond} {ev : Evaluator}

/-! ## Traps -/

/-- A trap is marked for as long as its command runs. None runs inside another one, so the mark was
off before. -/
theorem runTrap_always [hev : Unwinds ev] (later : List Signal) (command : Text) {s : Shell}
    (hs : s.inTrap = false) :
    ((runTrap ev later command).startedIn s).Always fun r => Nests s r.2 := by
  let marked : Shell := { s with inTrap := true }
  show ((attempt (ev.source command) >>= _).startedIn marked).Always _
  refine always_attempt_bind (P := Nests marked) ((hev.source command).always marked) fun r t ht => ?_
  have hout : Nests s { t with inTrap := false } := by
    refine ⟨?_, ht.frames⟩
    show { t.scopes with inTrap := false } = s.scopes
    rw [ht.scopes, ← hs]
    rfl
  cases r with
  | ok u => exact (inferInstance : Keeps nests (setStatus s.status)).after hout
  | error e =>
      refine (inferInstance : Keeps nests (do
        if e.isJump then
          if ← anyPending later then ask .markArrived
          throw e
        reportStop e
        setStatus s.status)).after hout

theorem handleArrived_always [Unwinds ev] (ss : List Signal) {s : Shell} (hs : s.inTrap = false) :
    ((handleArrived ev ss).startedIn s).Always fun r => Nests s r.2 := by
  induction ss generalizing s with
  | nil => exact .refl s
  | cons signal later ih =>
      have hrest : ∀ t : Shell, Nests s t →
          ((handleArrived ev later).startedIn t).Always fun r => Nests s r.2 := fun t ht =>
        (ih ((congrArg Scopes.inTrap ht.scopes).trans hs)).mono fun _ => ht.trans
      unfold handleArrived
      refine always_bind (P := fun t => t = s) (fun _ => rfl) ?_ fun _ _ ht => ht ▸ .refl s
      rintro taken t rfl
      split
      · exact hrest _ (.refl _)
      · refine always_bind (P := fun u => u = t) rfl ?_ fun _ _ hu => hu ▸ .refl t
        rintro sh u rfl
        split
        · exact always_bind (P := Nests u) (runTrap_always later _ hs)
            (fun _ t ht => hrest t ht) fun _ _ ht => ht
        · exact hrest _ (.refl _)
        · exact always_bind (P := Nests u) (hrest _ (.refl _)) (fun _ _ ht => ht) fun _ _ ht => ht

instance keeps_runTraps [Unwinds ev] : Keeps nests (runTraps ev) := by
  constructor
  intro s
  show ((if s.inTrap = true then return else do
    if !(← ask .takeArrived) then return
    if ← handleArrived ev Signal.all then jump .interrupted : ShellM Unit).startedIn s).Always _
  split
  · exact .refl s
  · rename_i hs
    intro arrived
    show ((if (!arrived) = true then return else do
      if ← handleArrived ev Signal.all then jump .interrupted : ShellM Unit).startedIn s).Always _
    split
    · exact .refl s
    · exact always_bind (P := Nests s) (handleArrived_always Signal.all (Bool.eq_false_iff.mpr hs))
        (fun interrupted t ht => (inferInstance : Keeps nests
          (if interrupted = true then jump .interrupted else pure ())).after ht) fun _ _ ht => ht

/-! ## Loops -/

instance keeps_loopFlow (r : Except Stop Unit) : Keeps R (loopFlow r) := by
  unfold loopFlow
  split
  · infer_instance
  · infer_instance
  · infer_instance
  · infer_instance

/-- A loop is counted for as long as it runs. -/
instance keeps_withinLoop (body : ShellM Int) [Keeps nests body] :
    Keeps nests (withinLoop body) := by
  refine .bracket (fun sh => { sh with loopDepth := sh.loopDepth + 1 })
    (fun sh => { sh with loopDepth := sh.loopDepth - 1 }) ?_
  rintro s t ⟨hscopes, hframes⟩
  refine ⟨?_, hframes⟩
  have hloops : t.loopDepth = s.loopDepth + 1 := congrArg Scopes.loops hscopes
  show { t.scopes with loops := t.loopDepth - 1 } = s.scopes
  rw [hscopes, hloops]
  rfl

instance keeps_runLoop [Unwinds ev] (cond body : Node) (untilZero : Bool) (place : Place) :
    Keeps nests (runLoop ev cond body untilZero place) := by
  have hround : ∀ status, Keeps nests (loopRound ev cond body untilZero place status) := by
    refine fun status => .bind fun r => .bind fun flow => ?_
    cases flow with
    | leave => infer_instance
    | again => infer_instance
    | next => infer_instance
  have hloop : Keeps nests (iterate (loopRound ev cond body untilZero place) 0) :=
    .iterate hround 0
  exact keeps_withinLoop _

instance keeps_runFor [Unwinds ev] (var : Text) (items : List Text) (body : Node) (place : Place) :
    Keeps nests (runFor ev var items body place) := by
  have hitems : ∀ status, Keeps nests (forItems ev var body place status items) := by
    induction items with
    | nil => exact fun _ => keeps_pure _
    | cons item items ih => exact fun _ => keeps_bind
  exact keeps_withinLoop _

/-! ## Pipelines and subshells -/

instance keeps_closePipes (pipes : List (Nat × Nat)) : Keeps R (closePipes pipes) :=
  keeps_forM pipes

instance keeps_makePipes (n : Nat) (made : List (Nat × Nat)) : Keeps R (makePipes n made) := by
  induction n generalizing made with
  | zero => exact keeps_pure _
  | succ n ih =>
      refine .bind fun r => ?_
      cases r with
      | ok ends => infer_instance
      | error e => infer_instance

instance neverEnds_stageChild (pipes : List (Nat × Nat)) (input output : Option Nat)
    (group : Option ProcessId) (background : Bool) (stage : Node) :
    NeverEnds (stageChild ev pipes input output group background stage : ShellM α) := by
  refine @neverEnds_bind _ _ _ _ _ fun _ => @neverEnds_bind _ _ _ _ _ fun wired =>
    @neverEnds_bind _ _ _ _ _ fun _ => ?_
  cases wired with
  | ok u => exact neverEnds_bind
  | error s => exact neverEnds_exitChild ev _

instance keeps_forkStages [Lenient R] (pipes : List (Nat × Nat)) (background : Bool) (input : Option Nat)
    (ahead : List (Nat × Nat)) (started : List JobProcess) (stages : List Node) :
    Keeps R (forkStages ev pipes background input ahead started stages) := by
  induction stages generalizing input ahead started with
  | nil => exact keeps_pure _
  | cons stage stages ih =>
      refine .bind fun r => ?_
      rcases r with e | _ | child
      · infer_instance
      · exact keeps_of_neverEnds _
      · infer_instance

instance keeps_launchStages [Lenient R] (stages : List Node) (background : Bool) :
    Keeps R (launchStages ev stages background) := keeps_bind

instance keeps_runPipeline [Unwinds ev] (stages : List Node) (place : Place) :
    Keeps nests (runPipeline ev stages place) := by
  unfold runPipeline
  split
  · infer_instance
  · infer_instance

instance keeps_runBackground (body : Node) : Keeps nests (runBackground ev body) := by
  have hjobs : ∀ jobs last, Keeps nests
      (modify fun sh => { sh with jobs := jobs, lastBackground := last }) :=
    fun _ _ => .modify (fun _ => rfl) fun _ => rfl
  exact keeps_bind

instance keeps_runSubshell [Unwinds ev] (body : Node) (redirects : List Redirect) (place : Place) :
    Keeps nests (runSubshell ev body redirects place) := keeps_bind

/-! ## Frames and functions -/

instance keeps_shadowAll [Lenient R] (assigned : List (Text × Text)) :
    Keeps R (shadowAll assigned) := by
  induction assigned with
  | nil => exact keeps_pure _
  | cons a rest ih => exact keeps_bind

/-- The newest frame is closed whatever was shadowed in it. -/
theorem closeFrame_frames (vs : Variables) : vs.closeFrame.frames = vs.frames.tail := by
  unfold Variables.closeFrame
  split
  · rename_i h
    rw [h]
    rfl
  · rename_i h
    rw [h]
    rfl

/-- A frame is open for as long as what runs in it. The frames around it stay as they are. -/
instance keeps_withFrame (assigned : List (Text × Text)) (body : ShellM Unit)
    [Keeps nests body] : Keeps nests (withFrame assigned body) := by
  refine .bracket (fun sh => { sh with «variables» := sh.variables.openFrame })
    (fun sh => { sh with «variables» := sh.variables.closeFrame }) ?_
  rintro s t ⟨hscopes, hgrown⟩
  have hframes : t.variables.closeFrame.frames = s.variables.frames :=
    (closeFrame_frames _).trans hgrown.tail
  refine ⟨?_, .of_eq hframes⟩
  show { t.scopes with frames := t.variables.closeFrame.frames.length } = s.scopes
  rw [hscopes, hframes]
  rfl

/-- What goes wrong in a frame is its result. -/
instance unfailing_withFrame (assigned : List (Text × Text)) (body : ShellM Unit) :
    Unfailing (withFrame assigned body) := by
  have h : ∀ f, Unfailing (modifyVariables f) := fun _ => unfailing_modify _
  exact unfailing_bind

/-- A function call changes the state before its frame opens and after it is closed. -/
theorem withinFunction_startedIn (params : List Text) (assigned : List (Text × Text))
    (body : ShellM Unit) (s : Shell) : (withinFunction params assigned body).startedIn s =
      (do
        let result ← withFrame assigned body
        modify fun now => { now with
          «variables» := now.variables.withParams s.params
          loopDepth := s.loopDepth
          functionDepth := now.functionDepth - 1 }
        takeReturn result : ShellM Unit).startedIn { s with
          «variables» := s.variables.withParams params
          loopDepth := 0
          functionDepth := s.functionDepth + 1 } := rfl

/-- A function is counted for as long as it runs. The loops around its call do not count in it, and
count again after it. -/
instance keeps_withinFunction (params : List Text) (assigned : List (Text × Text))
    (body : ShellM Unit) [Keeps nests body] :
    Keeps nests (withinFunction params assigned body) := by
  constructor
  intro s
  rw [withinFunction_startedIn]
  let entered : Shell := { s with
    «variables» := s.variables.withParams params
    loopDepth := 0
    functionDepth := s.functionDepth + 1 }
  refine always_unfailing_bind (P := Nests entered)
    ((keeps_withFrame assigned body).always entered) fun r t ht => ?_
  let left : Shell := { t with
    «variables» := t.variables.withParams s.params
    loopDepth := s.loopDepth
    functionDepth := t.functionDepth - 1 }
  have hleft : Nests s left := by
    refine ⟨?_, ht.frames⟩
    have hfunctions : t.functionDepth = s.functionDepth + 1 := congrArg Scopes.functions ht.scopes
    show { t.scopes with loops := s.loopDepth, functions := t.functionDepth - 1 } = s.scopes
    rw [ht.scopes, hfunctions]
    rfl
  exact (keeps_takeReturn r).after hleft

/-- The parameters of the caller come back even if the body changes its own. -/
instance keeps_params_withinFunction (params : List Text) (assigned : List (Text × Text))
    (body : ShellM Unit) : Keeps (same Shell.params) (withinFunction params assigned body) := by
  constructor
  intro s
  rw [withinFunction_startedIn]
  exact always_unfailing_bind (P := fun _ => True) (Host.Program.always_of (fun _ => trivial) _)
    fun r t _ => (keeps_takeReturn (R := same Shell.params) r).always { t with
      «variables» := t.variables.withParams s.params
      loopDepth := s.loopDepth
      functionDepth := t.functionDepth - 1 }

/-! ## Simple commands -/

instance keeps_trace (assigned : List (Text × Text)) (args : List Text) :
    Keeps R (trace assigned args) := keeps_bind

section

variable [Unwinds ev]

instance keeps_callFunction (body : Node) (params : List Text) (assigned : List (Text × Text))
    (redirects : List Redirect) (place : Place) :
    Keeps nests (callFunction ev body params assigned redirects place) := keeps_withRedirects _ _

instance keeps_callBuiltin (b : Builtin) (name : Text) (args : List Text)
    (assigned : List (Text × Text)) (redirects : List Redirect) :
    Keeps nests (callBuiltin ev b name args assigned redirects) := keeps_ite

instance keeps_runExternal (args : List Text) (assigned : List (Text × Text))
    (redirects : List Redirect) (place : Place) :
    Keeps nests (runExternal ev args assigned redirects place) := by
  refine .bind fun r => ?_
  cases r with
  | error s => infer_instance
  | ok path => infer_instance

instance keeps_runArguments (functions : Table Node) (args : List Text)
    (assigned : List (Text × Text)) (redirects : List Redirect) (place : Place) :
    Keeps nests (runArguments ev functions args assigned redirects place) := by
  unfold runArguments
  cases args with
  | nil => infer_instance
  | cons name operands =>
      refine .ite inferInstance ?_
      split
      · infer_instance
      · split
        · infer_instance
        · infer_instance

instance keeps_runSimple (assigns words : List Word) (redirects : List Redirect) (place : Place) :
    Keeps nests (runSimple ev assigns words redirects place) := by
  have hnone : Keeps nests (modify fun sh => { sh with substitutionStatus := none }) :=
    .modify (fun _ => rfl) fun _ => rfl
  have hwords : ∀ ws, Keeps nests (assignWords ev ws) := by
    intro ws
    induction ws with
    | nil => exact keeps_pure _
    | cons w ws ih => exact keeps_bind
  have hassign : Keeps nests (runAssignments ev assigns redirects) := keeps_bind
  exact keeps_bind

/-! ## Kinds of commands -/

instance keeps_runArms (subject : Text) (place : Place) (arms : List CaseArm) :
    Keeps nests (runArms ev subject place arms) := by
  have hfits : ∀ ws, Keeps nests (fitsAny ev subject ws) := by
    intro ws
    induction ws with
    | nil => exact keeps_pure _
    | cons w ws ih => exact keeps_bind
  induction arms with
  | nil => exact keeps_setStatus 0
  | cons arm arms ih =>
      obtain ⟨patterns, body⟩ := arm
      cases body with
      | some body => exact keeps_bind
      | none => exact keeps_bind

instance keeps_runIf (cond thenBody : Node) (elseBody : Option Node) (place : Place) :
    Keeps nests (runIf ev cond thenBody elseBody place) := by
  refine .bind fun _ => .bind fun s => .ite inferInstance ?_
  cases elseBody with
  | some body => infer_instance
  | none => infer_instance

instance keeps_loopItems (items : Option (List Word)) : Keeps nests (loopItems ev items) := by
  cases items with
  | some words => exact keeps_arguments words
  | none => exact keeps_bind

instance keeps_runKind (place : Place) (c : Script.Command) :
    Keeps nests (runKind ev place c) := by
  cases c with
  | _ =>
      unfold runKind
      infer_instance

instance keeps_runNode (node : Node) (place : Place) : Keeps nests (runNode ev node place) := by
  have hline : Keeps nests (modify fun sh => { sh with line := node.line }) :=
    .modify (fun _ => rfl) fun _ => rfl
  have hcheck : Keeps nests (checkErrexit node place) := keeps_bind
  exact keeps_bind

/-! ## Scripts -/

instance keeps_showLines (input : Input) : Keeps R (showLines input) := keeps_bind

omit [Unwinds ev] in
instance keeps_takeStop [Lenient R] (top : Bool) (s : Stop) : Keeps R (takeStop top s) := by
  refine .bind fun _ => ?_
  split
  · infer_instance
  · infer_instance
  · infer_instance
  · infer_instance
  · infer_instance

instance keeps_runParsed (top : Bool) (node : Node) : Keeps nests (runRead ev top node) := by
  refine .bind fun s => .ite inferInstance (.bind fun r => ?_)
  cases r with
  | ok u => infer_instance
  | error s => infer_instance

omit [Unwinds ev] in
instance keeps_nextLine (src : ScriptSource) (first : Bool) : Keeps R (nextLine src first) := by
  have hshown : ∀ raw, Keeps R (prompt raw) := by
    refine fun raw => .bind fun s => ?_
    dsimp only
    split
    · infer_instance
    · infer_instance
  have hprompt : Keeps R (promptFor first) := keeps_bind
  have hline : ∀ fd, Keeps R (Shell.readLine fd) := by
    refine fun fd => .iterate (fun line => .bind fun r => ?_) []
    rcases r with e | bs
    · infer_instance
    · cases bs with
      | nil => infer_instance
      | cons b bs => infer_instance
  unfold nextLine
  split
  · infer_instance
  · infer_instance

instance keeps_readCommand (src : ScriptSource) : Keeps R (readCommand src) := by
  refine .iterate (fun input => ?_) src.input
  split
  · infer_instance
  · infer_instance
  · refine .bind fun r => ?_
    rcases r with s | _ | line
    · infer_instance
    · infer_instance
    · infer_instance

instance keeps_checkpoint : Keeps nests (checkpoint ev) := by
  have hnotify : Keeps nests notifyJobs := keeps_bind
  have hforget : Keeps nests forgetDoneJobs := .modify (fun _ => rfl) fun _ => rfl
  exact keeps_bind

instance keeps_sourceStep (top : Bool) (src : ScriptSource) :
    Keeps nests (sourceStep ev top src) := by
  have hread : ∀ s : Shell, Keeps nests (do
      let src := refreshSource s src
      let (result, input) ← readCommand src
      let input ← showLines input
      match result with
      | .ok .done => return .inr ()
      | .ok .empty => return .inl { src with input }
      | .ok (.command node) =>
        runRead ev top node
        return .inl { src with input }
      | .error s =>
        takeStop top s
        return if top then .inl { src with input := input.discardLine } else .inr () :
      ShellM (ScriptSource ⊕ Unit)) := by
    refine fun s => .bind fun r => ?_
    obtain ⟨result, input⟩ := r
    refine .bind fun input => ?_
    split
    · infer_instance
    · infer_instance
    · infer_instance
    · infer_instance
  exact .ite (.bind fun _ => .bind hread) (.bind hread)

instance keeps_runText (t : Text) : Keeps nests (runText ev t) := by
  have hrun : Keeps nests (runSource ev false (.ofText t)) :=
    .iterateFor (fun _ => inferInstance) _ _
  have hline : ∀ line, Keeps nests (modify fun sh => { sh with line := line }) :=
    fun _ => .modify (fun _ => rfl) fun _ => rfl
  exact keeps_bind

end

/-- However deep the nesting, every scope is left. -/
theorem unwinds_evaluatorOf (depth : Nat) : Unwinds (evaluatorOf depth) := by
  induction depth with
  | zero =>
      exact ⟨fun _ _ => keeps_fail _, fun _ => keeps_fail _, fun _ => keeps_fail _,
        fun _ _ _ => keeps_fail _⟩
  | succ depth ih =>
      exact ⟨fun node place => keeps_runNode node place, fun t => keeps_runText t,
        fun args => keeps_runArguments .empty args [] [] {},
        fun b name args => keeps_runBuiltin b name args⟩

/-- Scopes unwind on every way out. Whatever a command comes to (a value, an error or a jump), and
whatever the system answers, the loops, functions, sourced files and traps that count as running,
the open frames of variables and the redirections to be undone are afterwards what they were before.
After a function call, and after a sourced file with arguments, the positional parameters are the
caller's. -/
theorem scopes_unwind (depth : Nat) :
    (∀ (node : Node) (place : Place) (s : Shell),
      (((evaluatorOf depth).node node place).startedIn s).Always fun r => r.2.scopes = s.scopes) ∧
    (∀ (body : Node) (params : List Text) (assigned : List (Text × Text))
        (redirects : List Redirect) (place : Place) (s : Shell),
      ((callFunction (evaluatorOf depth) body params assigned redirects place).startedIn s).Always
        fun r => r.2.scopes = s.scopes ∧ r.2.params = s.params) ∧
    ∀ (name first : Text) (params : List Text) (s : Shell),
      ((Commands.runDot (evaluatorOf depth) (name :: first :: params)).startedIn s).Always
        fun r => r.2.scopes = s.scopes ∧ r.2.params = s.params := by
  have hev := unwinds_evaluatorOf depth
  refine ⟨fun node place s => ((hev.node node place).always s).mono fun _ (h : Nests s _) => h.scopes,
    fun body params assigned redirects place s => ?_, fun name first params s => ?_⟩
  · have hparams : Keeps (same Shell.params)
        (callFunction (evaluatorOf depth) body params assigned redirects place) :=
      keeps_withRedirects _ _
    refine (((keeps_callFunction body params assigned redirects place).always s).mono ?_).and
      (hparams.always s)
    exact fun _ (h : Nests s _) => h.scopes
  · refine (((keeps_runDot _).always s).mono ?_).and ((keeps_params_runDot name first params).always s)
    exact fun _ (h : Nests s _) => h.scopes

end CommandShell.Shell
