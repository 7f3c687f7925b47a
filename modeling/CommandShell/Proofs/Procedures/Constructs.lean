import CommandShell.Execution.Evaluate
import CommandShell.Proofs.Procedures.Commands
import CommandShell.Proofs.Procedures.Ends
import CommandShell.Proofs.Reading.Laws

/-!
# Every command is a procedure

Loops, pipelines, subshells, functions and simple commands run the commands inside them by the evaluator,
and simple commands are the ones that a drain comes after. So an evaluator for scripts one level deeper
runs nothing but procedures of the evaluator that it is built on (`procedure_runNode` and its like).
-/

namespace CommandShell.Shell

open Script (Node Word Redirect CaseArm Input Parsed)
open Expansion

variable {σ α β : Type} {ev : Evaluator} {E : Exits}

/-! ## Loops -/

/-- A loop takes one level of what its commands go out of. -/
instance procedure_loopFlow (r : Except Stop Unit) :
    Procedure ev (.handed .within r .lowered) (loopFlow r) := by
  have hlower : ∀ {e e' : Stop} {n}, e.levels? = some n → 1 < n → e'.levels? = some (n - 1) →
      Procedure ev (.handed .within (.error e : Except Stop Unit) .lowered)
        (throw e' : ShellM LoopFlow) := by
    intro e e' n he hn he'
    refine .silent fun s => ⟨.error e', s, rfl, .refl s, fun e'' h hwithin k hk => ?_⟩
    cases h
    cases he'.symm.trans hk
    -- the loop is one of those around its round, so one level less stays within the others
    have hle := (hwithin e rfl n he).2
    omega
  unfold loopFlow
  split
  · infer_instance
  · split
    · exact hlower rfl ‹_› rfl
    · infer_instance
  · split
    · exact hlower rfl ‹_› rfl
    · infer_instance
  · rename_i e hbreaking hcontinuing
    refine .throw ?_
    cases e with
    | fault f line => rfl
    | jump j =>
        cases j with
        | breaking n => exact absurd rfl (hbreaking n)
        | continuing n => exact absurd rfl (hcontinuing n)
        | _ => rfl

/-- A list of a loop, and what the loop does after it. -/
theorem procedure_turn {x : ShellM Unit} [hx : Procedure ev .within x] {f : LoopFlow → ShellM β}
    (hf : ∀ flow, Procedure ev .lowered (f flow)) :
    Procedure ev .lowered (attempt x >>= fun r => loopFlow r >>= f) :=
  .caught hx fun r => .bind fun flow => (hf flow).mono (Exits.le_handed r)

instance procedure_loopRound (cond body : Node) (untilZero : Bool) (place : Place) (status : Int) :
    Procedure ev .lowered (loopRound ev cond body untilZero place status) := by
  refine procedure_turn fun flow => ?_
  cases flow with
  | leave => infer_instance
  | again => infer_instance
  | next =>
      refine .bind fun s => .ite inferInstance (procedure_turn fun flow => ?_)
      infer_instance

instance procedure_runLoop [hE : E.Open] (cond body : Node) (untilZero : Bool) (place : Place) :
    Procedure ev E (runLoop ev cond body untilZero place) :=
  .loop hE (.iterate (fun _ => inferInstance) 0)

instance procedure_forItems (var : Text) (body : Node) (place : Place) (status : Int) (items : List Text) :
    Procedure ev .lowered (forItems ev var body place status items) := by
  induction items generalizing status with
  | nil => exact procedure_pure _
  | cons item items ih => exact .bind fun _ => procedure_turn fun flow => .bind fun s => .ite inferInstance (ih _)

instance procedure_runFor [hE : E.Open] (var : Text) (items : List Text) (body : Node) (place : Place) :
    Procedure ev E (runFor ev var items body place) := .loop hE inferInstance

/-! ## Pipelines and subshells -/

instance procedure_closePipes (pipes : List (Nat × Nat)) : Procedure ev E (closePipes pipes) :=
  procedure_forM pipes

instance procedure_makePipes (n : Nat) (made : List (Nat × Nat)) : Procedure ev E (makePipes n made) := by
  induction n generalizing made with
  | zero => exact procedure_pure _
  | succ n ih =>
      refine .bind fun r => ?_
      cases r with
      | ok ends => infer_instance
      | error e => infer_instance

instance procedure_connect (source : Option Nat) (fd : Nat) : Procedure ev E (connect source fd) := by
  cases source with
  | none => exact procedure_pure ()
  | some source =>
      refine .bind fun r => ?_
      cases r with
      | ok u => infer_instance
      | error e => infer_instance

instance procedure_stageChild (pipes : List (Nat × Nat)) (input output : Option Nat)
    (group : Option ProcessId) (background : Bool) (stage : Node) :
    Procedure ev E (stageChild ev pipes input output group background stage : ShellM α) := by
  refine .bind fun _ => .bind fun wired => .bind fun _ => ?_
  cases wired with
  | ok u => infer_instance
  | error s => infer_instance

instance procedure_forkStages (pipes : List (Nat × Nat)) (background : Bool) (input : Option Nat)
    (ahead : List (Nat × Nat)) (started : List JobProcess) (stages : List Node) :
    Procedure ev E (forkStages ev pipes background input ahead started stages) := by
  induction stages generalizing input ahead started with
  | nil => exact procedure_pure _
  | cons stage stages ih =>
      refine .bind fun r => ?_
      rcases r with e | _ | child
      · infer_instance
      · infer_instance
      · infer_instance

instance procedure_launchStages (stages : List Node) (background : Bool) :
    Procedure ev E (launchStages ev stages background) := procedure_bind

instance procedure_runPipeline [E.Open] (stages : List Node) (place : Place) :
    Procedure ev E (runPipeline ev stages place) := by
  unfold runPipeline
  split
  · infer_instance
  · infer_instance

instance procedure_runBackground (body : Node) : Procedure ev E (runBackground ev body) := by
  have hjobs : ∀ jobs last, Procedure ev E
      (modify fun sh => { sh with jobs := jobs, lastBackground := last }) :=
    fun _ _ => .modify fun _ => .works rfl rfl rfl rfl rfl rfl
  exact procedure_bind

instance procedure_runSubshell [E.Open] (body : Node) (redirects : List Redirect) (place : Place) :
    Procedure ev E (runSubshell ev body redirects place) := procedure_bind

/-! ## Frames and functions -/

instance procedure_shadowAll (assigned : List (Text × Text)) :
    Procedure ev E (shadowAll assigned) := by
  induction assigned with
  | nil => exact procedure_pure _
  | cons a rest ih => exact procedure_bind

instance procedure_withinFunction (params : List Text) (assigned : List (Text × Text))
    (body : ShellM Unit) [Procedure ev .within body] :
    Procedure ev E (withinFunction params assigned body) := .function params assigned procedure_bind

/-! ## Simple commands -/

instance procedure_trace (assigned : List (Text × Text)) (args : List Text) :
    Procedure ev E (trace assigned args) := procedure_bind

instance procedure_callFunction (body : Node) (params : List Text) (assigned : List (Text × Text))
    (redirects : List Redirect) (place : Place) :
    Procedure ev E (callFunction ev body params assigned redirects place) :=
  procedure_withRedirects redirects _

instance procedure_callBuiltin [E.Open] (b : Builtin) (name : Text) (args : List Text)
    (assigned : List (Text × Text)) (redirects : List Redirect) :
    Procedure ev E (callBuiltin ev b name args assigned redirects) := by
  have hframe : Procedure ev E (withFrame assigned (withRedirects ev redirects (ev.builtin b name args))
      >>= resume) := by
    unfold withFrame
    simp only [bind_assoc, pure_bind]
    exact .bind fun _ => .caught (F := E) inferInstance fun r => inferInstance
  exact procedure_ite

instance procedure_runExternal (args : List Text) (assigned : List (Text × Text))
    (redirects : List Redirect) (place : Place) :
    Procedure ev E (runExternal ev args assigned redirects place) := by
  refine .bind fun r => ?_
  cases r with
  | error s => infer_instance
  | ok path => infer_instance

instance procedure_runArguments [E.Open] (functions : Table Node) (args : List Text)
    (assigned : List (Text × Text)) (redirects : List Redirect) (place : Place) :
    Procedure ev E (runArguments ev functions args assigned redirects place) := by
  unfold runArguments
  cases args with
  | nil => infer_instance
  | cons name operands =>
      refine .ite inferInstance ?_
      split
      · infer_instance
      · split
        · infer_instance
        · infer_instance

instance procedure_runSimple [E.Open] (assigns words : List Word) (redirects : List Redirect) (place : Place) :
    Procedure ev E (runSimple ev assigns words redirects place) := by
  have hnone : Procedure ev E (modify fun sh => { sh with substitutionStatus := none }) :=
    .modify fun _ => .works rfl rfl rfl rfl rfl rfl
  have hwords : ∀ ws, Procedure ev E (assignWords ev ws) := by
    intro ws
    induction ws with
    | nil => exact procedure_pure _
    | cons w ws ih => exact procedure_bind
  have hassign : Procedure ev E (runAssignments ev assigns redirects) := procedure_bind
  exact procedure_bind

/-! ## Kinds of commands -/

instance procedure_runArms [E.Open] (subject : Text) (place : Place) (arms : List CaseArm) :
    Procedure ev E (runArms ev subject place arms) := by
  have hfits : ∀ ws, Procedure ev E (fitsAny ev subject ws) := by
    intro ws
    induction ws with
    | nil => exact procedure_pure _
    | cons w ws ih => exact procedure_bind
  induction arms with
  | nil => exact procedure_setStatus 0
  | cons arm arms ih =>
      obtain ⟨patterns, body⟩ := arm
      cases body with
      | some body => exact procedure_bind
      | none => exact procedure_bind

instance procedure_runIf [E.Open] (cond thenBody : Node) (elseBody : Option Node) (place : Place) :
    Procedure ev E (runIf ev cond thenBody elseBody place) := by
  refine .bind fun _ => .bind fun s => .ite inferInstance ?_
  cases elseBody with
  | some body => infer_instance
  | none => infer_instance

instance procedure_loopItems (items : Option (List Word)) : Procedure ev E (loopItems ev items) := by
  cases items with
  | some words => exact procedure_arguments words
  | none => exact procedure_bind

instance procedure_runKind [E.Open] (place : Place) (c : Script.Command) :
    Procedure ev E (runKind ev place c) := by
  cases c with
  | _ =>
      unfold runKind
      infer_instance

instance procedure_runNode [E.Open] (node : Node) (place : Place) : Procedure ev E (runNode ev node place) := by
  have hline : Procedure ev E (modify fun sh => { sh with line := node.line }) :=
    .modify fun _ => .works rfl rfl rfl rfl rfl rfl
  have hcheck : Procedure ev E (checkErrexit node place) := procedure_bind
  exact procedure_bind

/-! ## Scripts -/

instance procedure_showLines (input : Input) : Procedure ev E (showLines input) := procedure_bind

/-- What the loop of commands does not take is handed on. -/
instance procedure_takeStop (top : Bool) (e : Stop) :
    Procedure ev (.handed E (.error e : Except Stop β) E) (takeStop top e) := by
  refine .bind fun _ => ?_
  split
  · infer_instance
  · infer_instance
  · infer_instance
  · infer_instance
  · infer_instance

instance procedure_runParsed [E.Open] (top : Bool) (node : Node) : Procedure ev E (runRead ev top node) := by
  refine .bind fun s => .ite inferInstance (.caught (F := E) inferInstance fun r => ?_)
  cases r with
  | ok u => infer_instance
  | error s => infer_instance

instance procedure_nextLine (src : ScriptSource) (first : Bool) : Procedure ev E (nextLine src first) := by
  have hshown : ∀ raw, Procedure ev E (prompt raw) := by
    refine fun raw => .bind fun s => ?_
    dsimp only
    split
    · infer_instance
    · infer_instance
  have hprompt : Procedure ev E (promptFor first) := procedure_bind
  have hline : ∀ fd, Procedure ev E (Shell.readLine fd) := by
    refine fun fd => .iterate (fun line => .bind fun r => ?_) []
    rcases r with e | bs
    · infer_instance
    · cases bs with
      | nil => infer_instance
      | cons b bs => infer_instance
  unfold nextLine
  split
  · infer_instance
  · infer_instance

instance procedure_readCommand (src : ScriptSource) : Procedure ev E (readCommand src) := by
  refine .iterate (fun input => ?_) src.input
  split
  · infer_instance
  · infer_instance
  · refine .bind fun r => ?_
    rcases r with s | _ | line
    · infer_instance
    · infer_instance
    · infer_instance

/-- No line that is read, and nothing in it, is a jump out of loops. -/
theorem yields_readCommand (src : ScriptSource) :
    Yields (fun read => ∀ e, read.1 = .error e → e.levels? = none) (readCommand src) := by
  have hfail : ∀ f : Fault, EndsFor .within (fail f : ShellM Unit) :=
    fun f => .throw fun depth => Exits.within.others depth rfl
  -- no command is run while lines are read, so any evaluator does, also one that only fails
  have hnothing : EndsWithin (evaluatorOf 0) :=
    ⟨fun _ _ => hfail _, fun _ => hfail _, fun _ => hfail _, fun _ _ _ => hfail _⟩
  have hline : ∀ first, EndsFor .outside (nextLine src first) :=
    fun first => (procedure_nextLine src first).ends hnothing
  let Fine : Input ⊕ (Except Stop Parsed × Input) → Prop := fun r =>
    (∀ input, r = .inl input → True) ∧
      ∀ read, r = .inr read → ∀ e, read.1 = .error e → e.levels? = none
  have hread : ∀ o rest, (∀ e, o = .error e → e.levels? = none) →
      Yields Fine (pure (.inr (o, rest))) :=
    fun o rest h => .pure ⟨fun _ _ => trivial, fun read hr => Sum.inr.inj hr ▸ h⟩
  have hagain : ∀ input, Yields Fine (pure (.inl input)) :=
    fun input => .pure ⟨fun _ _ => trivial, fun _ hr => nomatch hr⟩
  refine yields_iterate (I := fun _ => True) (fun input _ => ?_) trivial
  have hfault := Script.parseCommand_faults.fault input
  unfold Script.Reader.on at hfault
  generalize Script.parseCommand.run.run input = read at hfault ⊢
  obtain ⟨outcome, rest⟩ := read
  rcases outcome with stopped | parsed
  · cases stopped with
    | stop s =>
        refine hread _ rest fun e he => ?_
        cases he
        exact Stop.levels?_of_isJump (hfault s rfl)
    | needLine =>
        refine (hline rest.primary).yields.bind_of fun r hr => ?_
        rcases r with s | _ | line
        · refine hread _ rest fun e he => ?_
          cases he
          exact hr s rfl
        · exact hagain _
        · exact hagain _
  · exact hread _ rest fun e he => nomatch he

instance procedure_checkpoint [E.Open] : Procedure ev E (checkpoint ev) := by
  have hnotify : Procedure ev E notifyJobs := procedure_bind
  have hforget : Procedure ev E forgetDoneJobs := .modify fun _ => .works rfl rfl rfl rfl rfl rfl
  exact procedure_bind

instance procedure_sourceStep [E.Open] (top : Bool) (src : ScriptSource) :
    Procedure ev E (sourceStep ev top src) := by
  have hread : ∀ s : Shell, Procedure ev E (do
      let src := refreshSource s src
      let (result, input) ← readCommand src
      let input ← showLines input
      match result with
      | .ok .done => return .inr ()
      | .ok .empty => return .inl { src with input }
      | .ok (.command node) =>
        runRead ev top node
        return .inl { src with input }
      | .error s =>
        takeStop top s
        return if top then .inl { src with input := input.discardLine } else .inr () :
      ShellM (ScriptSource ⊕ Unit)) := by
    refine fun s => .sequence inferInstance (yields_readCommand _) fun read hread => ?_
    obtain ⟨result, input⟩ := read
    refine .bind fun input => ?_
    split
    · infer_instance
    · infer_instance
    · infer_instance
    · rename_i e
      have htake : Procedure ev E (takeStop top e) :=
        (procedure_takeStop top e).of_handed (r := (.error e : Except Stop Unit)) (E := E)
          fun e' he' => hread e' (by cases he'; rfl)
      infer_instance
  exact .ite (.bind fun _ => .bind hread) (.bind hread)

instance procedure_runSource [E.Open] (top : Bool) (src : ScriptSource) :
    Procedure ev E (runSource ev top src) := .iterateFor (fun _ => inferInstance) _ _

instance procedure_runText [E.Open] (t : Text) : Procedure ev E (runText ev t) := by
  have hline : ∀ {E : Exits} line, Procedure ev E (modify fun sh => { sh with line := line }) :=
    fun _ => .modify fun _ => .works rfl rfl rfl rfl rfl rfl
  exact .bind fun s => .caught (F := E) inferInstance fun r => inferInstance

/-- Commands end among the loops around them, at every depth of nesting. -/
theorem endsWithin_evaluatorOf (depth : Nat) : EndsWithin (evaluatorOf depth) := by
  induction depth with
  | zero =>
      have hfail : ∀ f : Fault, EndsFor .within (fail f : ShellM Unit) :=
        fun f => .throw fun depth => Exits.within.others depth rfl
      exact ⟨fun _ _ => hfail _, fun _ => hfail _, fun _ => hfail _, fun _ _ _ => hfail _⟩
  | succ depth ih =>
      exact ⟨fun node place => (procedure_runNode node place).ends ih,
        fun t => (procedure_runText t).ends ih,
        fun args => (procedure_runArguments .empty args [] [] {}).ends ih,
        fun b name args => (procedure_runBuiltin b name args).ends ih⟩

end CommandShell.Shell
