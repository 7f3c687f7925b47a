import CommandShell.Commands.Run
import CommandShell.Proofs.Lockstep.Expansion
import CommandShell.Proofs.Lockstep.Settings

/-!
# Lockstep of built-in commands
-/

namespace CommandShell.Shell

open Commands
open Host.Program (Follows)

variable {L : Likeness} {ev ev' : Evaluator}

instance alike_eachOperand {f : Text → ShellM Int} [∀ arg, Steady L (f arg)] (status : Int)
    (args : List Text) : Steady L (eachOperand f status args) := by
  induction args generalizing status with
  | nil => exact alike_setStatus status
  | cons arg args ih => exact alike_bind

/-! ## Conditions -/

instance alike_testNumber (t : Text) : Steady L (testNumber t) := by
  unfold testNumber
  split
  · infer_instance
  · infer_instance

instance alike_fileHas (path : Text) (follow : Bool) (p : Host.FileStatus → Bool) :
    Steady L (fileHas path follow p) := by
  refine .bind inferInstance fun r => ?_
  cases r with
  | ok st => infer_instance
  | error e => infer_instance

instance alike_isTerminal (n : Int) : Steady L (Commands.isTerminal n) := by
  cases n with
  | ofNat fd => exact alike_ite
  | negSucc n => exact alike_pure _

instance alike_unaryTest (op : UnaryTest) (arg : Text) : Steady L (op.eval arg) := by
  cases op <;> unfold UnaryTest.eval <;> infer_instance

instance alike_compareNumbers (p : Int → Int → Bool) (a b : Text) :
    Steady L (compareNumbers p a b) := alike_bind

instance alike_compareFiles (p : Option Host.FileStatus → Option Host.FileStatus → Bool)
    (a b : Text) : Steady L (compareFiles p a b) := alike_bind

instance alike_binaryTest (op : BinaryTest) (a b : Text) : Steady L (op.eval a b) := by
  cases op <;> unfold BinaryTest.eval <;> infer_instance

/-- What the reading of conditions does at each level, with a number of steps. -/
structure ConditionsAlike (L : Likeness) (n : Nat) : Prop where
  disjunction : ∀ args, Steady L (disjunction n args)
  disjunctionRest : ∀ a args, Steady L (disjunctionRest n a args)
  conjunction : ∀ args, Steady L (conjunction n args)
  conjunctionRest : ∀ a args, Steady L (conjunctionRest n a args)
  negation : ∀ args, Steady L (negation n args)
  primary : ∀ args, Steady L (primary n args)

theorem ConditionsAlike.succ {n : Nat} (h : ConditionsAlike L n) : ConditionsAlike L (n + 1) := by
  have hd := h.disjunction
  have hdr := h.disjunctionRest
  have hc := h.conjunction
  have hcr := h.conjunctionRest
  have hn := h.negation
  have hp := h.primary
  refine ⟨fun args => ?_, fun a args => ?_, fun args => ?_, fun a args => ?_, fun args => ?_,
    fun args => ?_⟩
  · unfold Commands.disjunction
    infer_instance
  · unfold Commands.disjunctionRest
    split
    · infer_instance
    · infer_instance
  · unfold Commands.conjunction
    infer_instance
  · unfold Commands.conjunctionRest
    split
    · infer_instance
    · infer_instance
  · unfold Commands.negation
    split
    · infer_instance
    · infer_instance
  · unfold Commands.primary
    split
    · infer_instance
    · infer_instance
    · split
      · infer_instance
      · refine .ite (.bind inferInstance fun r => ?_) ?_
        · obtain ⟨a, rest⟩ := r
          dsimp only
          split
          · infer_instance
          · infer_instance
          · infer_instance
        · split
          · infer_instance
          · infer_instance

theorem conditionsAlike (n : Nat) : ConditionsAlike L n := by
  induction n with
  | zero =>
      exact ⟨fun _ => alike_fail _, fun _ _ => alike_fail _, fun _ => alike_fail _,
        fun _ _ => alike_fail _, fun _ => alike_fail _, fun _ => alike_fail _⟩
  | succ n ih => exact ih.succ

instance alike_condition (args : List Text) : Steady L (condition args) := by
  unfold condition
  split
  · infer_instance
  · infer_instance
  · infer_instance
  · refine .bind ((conditionsAlike _).disjunction _) fun r => ?_
    obtain ⟨value, rest⟩ := r
    cases rest with
    | nil => infer_instance
    | cons extra rest => infer_instance

instance alike_runCondition (args : List Text) : Steady L (runCondition args) := alike_bind

instance alike_runBracket (args : List Text) : Steady L (runBracket args) := by
  unfold runBracket
  split
  · infer_instance
  · infer_instance

/-! ## Changes that keep the invariant -/

theorem alike_withParamsAround {params : List Text} {x y : ShellM (Except Stop Unit)}
    (h : Alike L x y) : Alike L (Commands.withParams params x) (Commands.withParams params y) :=
  .ite h (.get_bind (fun _ _ => rfl) fun _ => inferInstance)

/-- A change of the variables that may be refused, with all paths forgotten after it or none. -/
theorem alike_updateForgetting {f : Variables → Except Fault Variables} {forgets : Bool}
    (h : ∀ {all vs vs' ps}, L.inv all vs.bindings vs.frames ps → f vs = .ok vs' →
      L.inv all vs'.bindings vs'.frames (if forgets then .empty else ps)) :
    Steady L (do
      updateVariables f
      if forgets then modifyDefinitions (·.forgetAll)) :=
  ⟨fun {s t} hst => by
    obtain ⟨hs, ⟨on, rfl⟩, hex⟩ := hst
    let change : Except Fault Variables → ShellM Unit := fun r => do
      let vs ← ofExcept r
      modify fun sh => { sh with «variables» := vs }
    let after : Except Fault Variables → ShellM Unit := fun r => do
      change r
      if forgets then modifyDefinitions (·.forgetAll)
    show Follows _ _ ((after (f s.variables)).run.run s)
      ((after (f s.variables)).run.run (s.withErrexit on))
    cases hfs : f s.variables with
    | ok vs =>
        have hi := h hs hfs
        cases forgets with
        | true =>
            exact .done ⟨rfl, hi, ⟨on, rfl⟩, fun hx => congrArg (fun sh : Shell =>
              { sh with «variables» := vs, definitions := sh.definitions.forgetAll }) (hex hx)⟩
        | false =>
            exact .done ⟨rfl, hi, ⟨on, rfl⟩, fun hx => congrArg (fun sh : Shell =>
              { sh with «variables» := vs }) (hex hx)⟩
    | error e => exact .done ⟨rfl, hs, ⟨on, rfl⟩, hex⟩⟩

section

variable [hL : L.Kept]

/-! ## Aliases and directories -/

/-- A change of functions or aliases. -/
protected theorem Alike.define {f : Definitions → Definitions} (h : ∀ d, (f d).paths = d.paths) :
    Steady L (modifyDefinitions f) :=
  .modifyDefinitions fun d => by
    rw [h d]
    exact fun _ hb => hb

instance alike_aliasOperand (arg : Text) : Steady L (aliasOperand arg) := by
  unfold aliasOperand
  split
  · exact .bind (.define fun _ => rfl) fun _ => inferInstance
  · refine .get_bind (fun _ _ => rfl) fun s => ?_
    split
    · infer_instance
    · infer_instance

instance alike_unaliasOperand (name : Text) : Steady L (unaliasOperand name) :=
  .get_bind (fun _ _ => rfl) fun _ =>
    .ite (.bind (.define fun _ => rfl) fun _ => inferInstance) inferInstance

instance alike_runAlias (args : List Text) : Steady L (runAlias args) :=
  .ite (.get_bind (fun _ _ => rfl) fun _ => inferInstance) inferInstance

instance alike_runUnalias (args : List Text) : Steady L (runUnalias args) :=
  .bind inferInstance fun _ =>
    .ite (.bind (.define fun _ => rfl) fun _ => inferInstance) inferInstance

instance alike_directoryOperand (args : List Text) : Steady L (directoryOperand args) := by
  refine .get_bind (fun _ _ => rfl) fun s => ?_
  split
  · split
    · infer_instance
    · infer_instance
  · split
    · infer_instance
    · infer_instance
  · infer_instance

instance alike_changeDirectory (path : Text) : Steady L (changeDirectory path) := by
  unfold changeDirectory
  split
  · infer_instance
  · infer_instance

instance alike_tryDirectories (physical : Bool) (here : Text) (last : Errno)
    (paths : List (Text × Bool)) :
    Steady L (tryDirectories physical here last paths) := by
  induction paths generalizing last with
  | nil => exact alike_pure _
  | cons p paths ih =>
      refine .bind inferInstance fun r => ?_
      cases r with
      | ok u => infer_instance
      | error e => infer_instance

instance alike_physicalDirectory : Steady L physicalDirectory := by
  refine .bind inferInstance fun r => ?_
  cases r with
  | ok dir => infer_instance
  | error e => infer_instance

instance alike_logicalDirectory : Steady L logicalDirectory := by
  refine .get_bind (fun _ _ => rfl) fun s => ?_
  cases s.value? "PWD" with
  | some pwd => infer_instance
  | none => infer_instance

instance alike_runCd (args : List Text) : Steady L (runCd args) := by
  have hold := fun value => alike_exportValue value hL.workingDirectory.2
  have hnew := fun value => alike_exportValue value hL.workingDirectory.1
  have hforget : Steady L (modifyDefinitions (·.forgetRelative)) :=
    .modifyDefinitions fun _ _ hb => (List.mem_filter.mp hb).1
  refine .bind inferInstance fun _ => .bind inferInstance fun _ => .bind inferInstance fun _ =>
    .get_bind (fun _ _ => rfl) fun s => .bind inferInstance fun r => ?_
  rcases r with e | ⟨logical, fromSearch⟩
  · infer_instance
  · have hmove : ∀ (pwd here : Text) (shows : Bool), Alike L (α := Unit) (do
        updateVariables (·.exportValue "OLDPWD" here)
        updateVariables (·.exportValue "PWD" pwd)
        modifyDefinitions (·.forgetRelative)
        if shows then writeOut (pwd ++ "\n")
        setStatus 0) (do
        updateVariables (·.exportValue "OLDPWD" here)
        updateVariables (·.exportValue "PWD" pwd)
        modifyDefinitions (·.forgetRelative)
        if shows then writeOut (pwd ++ "\n")
        setStatus 0) := fun pwd here shows =>
      .bind (hold here) fun _ => .bind (hnew pwd) fun _ => .bind hforget fun _ => inferInstance
    exact .ite (.bind inferInstance fun pwd => hmove _ _ _) (hmove _ _ _)

instance alike_runPwd (args : List Text) : Steady L (runPwd args) := by
  refine .bind inferInstance fun _ => .get_bind (fun _ _ => rfl) fun s => ?_
  dsimp only
  split
  · infer_instance
  · infer_instance

instance alike_runUmask (args : List Text) : Steady L (runUmask args) := by
  refine .bind inferInstance fun r => .bind inferInstance fun mask => .bind inferInstance
    fun _ => ?_
  dsimp only
  split
  · infer_instance
  · split
    · infer_instance
    · infer_instance

/-! ## Control -/

instance alike_statusOperand (args : List Text) : Steady L (statusOperand args) := by
  unfold statusOperand
  split
  · exact .get_bind (fun _ _ => rfl) fun _ => inferInstance
  · split
    · infer_instance
    · infer_instance

instance alike_runExit (args : List Text) : Steady L (runExit args) := alike_bind

instance alike_runReturn (args : List Text) : Steady L (runReturn args) :=
  .bind inferInstance fun _ => .get_bind (fun _ _ => rfl) fun _ => inferInstance

instance alike_levelsOperand (args : List Text) : Steady L (levelsOperand args) := by
  unfold levelsOperand
  split
  · infer_instance
  · split
    · infer_instance
    · infer_instance

instance alike_leaveLoops (target : Nat → Jump) (args : List Text) :
    Steady L (leaveLoops target args) :=
  .bind inferInstance fun _ => .bind inferInstance fun _ =>
    .get_bind (fun _ _ => rfl) fun _ => inferInstance

instance alike_runShift (args : List Text) : Steady L (runShift args) := by
  have hshift : ∀ n, Alike L (α := Unit) (do
      updateVariables fun vs => match vs.shift? n with
        | none => .error (.execution "can't shift that many")
        | some vs => .ok vs
      setStatus 0) (do
      updateVariables fun vs => match vs.shift? n with
        | none => .error (.execution "can't shift that many")
        | some vs => .ok vs
      setStatus 0) := by
    refine fun n => .bind (.updateVariables fun {all vs vs' ps} hi h => ?_) fun _ => inferInstance
    unfold Variables.shift? at h
    split at h
    · cases h
    · rename_i shifted hshifted
      split at hshifted
      · cases hshifted
        cases h
        exact hi
      · cases hshifted
  unfold runShift
  dsimp only
  split
  · exact hshift _
  · split
    · exact hshift _
    · infer_instance

instance alike_runEval [EvaluatorsAlike L ev ev'] (args : List Text) :
    Alike L (runEval ev args) (runEval ev' args) := alike_bind

instance alike_firstRegular? (paths : List Text) : Steady L (firstRegular? paths) := by
  induction paths with
  | nil => exact alike_pure _
  | cons p paths ih => exact alike_bind

instance alike_sourcePath (name : Text) : Steady L (sourcePath name) :=
  .ite inferInstance (.get_bind (fun _ _ => rfl) fun _ => inferInstance)

instance alike_sourceText (name : Text) : Steady L (sourceText name) := by
  refine .bind inferInstance fun path => .bind inferInstance fun r => ?_
  cases r with
  | ok data => infer_instance
  | error e => infer_instance

instance alike_takeReturn (r : Except Stop Unit) : Steady L (takeReturn r) := by
  unfold takeReturn
  split
  · infer_instance
  · infer_instance

instance alike_runDot [EvaluatorsAlike L ev ev'] (args : List Text) :
    Alike L (runDot ev args) (runDot ev' args) := by
  have hdepth : ∀ f : Nat → Nat, Steady L
      (modify fun sh => { sh with sourceDepth := f sh.sourceDepth }) :=
    fun _ => .modify (fun _ _ => rfl) fun _ h => h
  unfold runDot
  split
  · infer_instance
  · refine .bind inferInstance fun text => .bind (alike_withParamsAround ?_) fun r => inferInstance
    exact .bind (hdepth (· + 1)) fun _ => .bind inferInstance fun _ => .bind inferInstance fun r =>
      .bind (hdepth (· - 1)) fun _ => inferInstance

/-! ## Variables -/

instance alike_declareOperand (flag : DeclareFlag) (arg : Text) :
    Steady L (declareOperand flag arg) := by
  unfold declareOperand
  obtain ⟨name, value⟩ := splitOperand arg
  have hflags : (flag == .exported) = true ∨ (flag == .readOnly) = true := by
    cases flag with
    | exported => exact .inl rfl
    | readOnly => exact .inr rfl
  have hupdate : Steady L (do
      updateVariables (·.assignWith name value (flag == .exported) (flag == .readOnly))
      if name = "PATH" && value.isSome then modifyDefinitions (·.forgetAll)) :=
    alike_updateForgetting fun hi hv => by
      simp only [Bool.and_eq_true, decide_eq_true_eq]
      exact hL.assignWith hi (.inr hflags) hv
  infer_instance

instance alike_runDeclare (flag : DeclareFlag) (args : List Text) :
    Steady L (runDeclare flag args) :=
  .bind inferInstance fun _ =>
    .ite (.get_bind (fun _ _ => rfl) fun _ => inferInstance) inferInstance

theorem alike_localOperand {arg : Text} (h : L.permits (splitOperand arg).1) :
    Steady L (localOperand arg) := by
  unfold localOperand
  generalize splitOperand arg = operand at h ⊢
  obtain ⟨name, value⟩ := operand
  have hshadow := alike_shadow h
  cases value with
  | some v => infer_instance
  | none => infer_instance

theorem alike_runLocal {args : List Text} (h : ∀ arg ∈ args, L.permits (splitOperand arg).1) :
    Steady L (runLocal args) := by
  have hall : Steady L (args.forM localOperand) := by
    induction args with
    | nil => exact alike_pure _
    | cons arg args ih =>
        have hargs := ih fun a ha => h a (List.mem_cons_of_mem _ ha)
        exact .bind (alike_localOperand (h arg List.mem_cons_self)) fun _ => hargs
  exact .get_bind (fun _ _ => rfl) fun _ => inferInstance

instance alike_unsetOperand (functionsOnly variablesOnly : Bool) (name : Text) :
    Steady L (unsetOperand functionsOnly variablesOnly name) := by
  have hfunction : Steady L (modifyDefinitions (·.removeFunction name)) := .define fun _ => rfl
  exact .get_bind (fun _ _ => rfl) fun _ => inferInstance

instance alike_runUnset (args : List Text) : Steady L (runUnset args) := alike_bind

instance alike_assignAll (assigned : List (Text × Text)) : Steady L (assignAll assigned) := by
  induction assigned with
  | nil => exact alike_pure _
  | cons a rest ih => exact alike_bind

/-! ## What names mean -/

instance alike_describe? (verbose : Bool) (name : Text) : Steady L (describe? verbose name) := by
  unfold describe?
  refine .get_bind (fun _ _ => rfl) fun s => ?_
  dsimp only
  refine .ite inferInstance ?_
  split
  · infer_instance
  · refine .ite inferInstance ?_
    split
    · infer_instance
    · refine .ite inferInstance ?_
      split
      · infer_instance
      · refine .bind inferInstance fun found => ?_
        cases found with
        | found path => infer_instance
        | _ => infer_instance

instance alike_describeAll (verbose : Bool) (status : Int) (names : List Text) :
    Steady L (describeAll verbose status names) := by
  induction names generalizing status with
  | nil => exact alike_setStatus status
  | cons name names ih =>
      refine .bind inferInstance fun r => ?_
      cases r with
      | some line => infer_instance
      | none => infer_instance

instance alike_runCommand [EvaluatorsAlike L ev ev'] (args : List Text) :
    Alike L (runCommand ev args) (runCommand ev' args) := alike_bind

instance alike_hashOperand (name : Text) : Steady L (hashOperand name) := by
  have hforget : Steady L (modifyDefinitions (·.forget name)) :=
    .modifyDefinitions fun _ _ hb => (List.mem_filter.mp hb).1
  refine .get_bind (fun _ _ => rfl) fun s => .ite inferInstance (.bind inferInstance fun _ =>
    .bind inferInstance fun r => ?_)
  cases r with
  | ok path => infer_instance
  | error s => infer_instance

instance alike_hashOperands (status : Int) (names : List Text) :
    Steady L (hashOperands status names) := by
  induction names generalizing status with
  | nil => exact alike_setStatus status
  | cons name names ih => exact alike_bind

instance alike_runHash (args : List Text) : Steady L (runHash args) := by
  have hforget : Steady L (modifyDefinitions (·.forgetAll)) :=
    .modifyDefinitions fun _ _ hb => absurd hb List.not_mem_nil
  have hrest : ∀ (opts : List Char) (names : List Text), Steady L (do
      if names.isEmpty then
        if !opts.contains 'r' then
          writeOut ((← get).definitions.paths.toList.flatMap fun b => Text.shown b.2 ++ "\n")
        setStatus 0
      else hashOperands 0 names) := fun opts names =>
    .ite (.ite (.get_bind (fun _ _ => rfl) fun _ => inferInstance) inferInstance) inferInstance
  refine .bind inferInstance fun r => ?_
  obtain ⟨opts, names⟩ := r
  exact .ite (.bind hforget fun _ => hrest opts names) (hrest opts names)

/-! ## Exec -/

instance alike_failExec (s : Stop) (code : Int) : Steady L (failExec s code) :=
  .bind inferInstance fun _ => .bind inferInstance fun _ =>
    .get_bind (fun _ _ => rfl) fun _ => inferInstance

theorem alike_runExec [EvaluatorsAlike L ev ev'] {args : List Text} {assigned : List (Text × Text)}
    {redirects : List Script.Redirect} (hr : L.AdmitsRedirects redirects)
    (ha : args ≠ [] → ∀ a ∈ assigned, L.permits a.1) :
    Alike L (runExec ev args assigned redirects) (runExec ev' args assigned redirects) := by
  have happly : Alike L (applyRedirects ev false redirects) (applyRedirects ev' false redirects) :=
    alike_applyRedirects hr false
  cases args with
  | nil =>
      refine .bind inferInstance fun r => ?_
      cases r with
      | ok u => infer_instance
      | error s => infer_instance
  | cons command args =>
      have hexport := alike_exportAll (ha (List.cons_ne_nil _ _))
      refine .bind inferInstance fun r => ?_
      cases r with
      | error s => infer_instance
      | ok path =>
          refine .bind inferInstance fun r => ?_
          cases r with
          | ok u => infer_instance
          | error s => infer_instance

/-! ## Input -/

instance alike_readLine (raw : Bool) : Steady L (Commands.readLine raw) := by
  refine .iterate (fun l => .bind inferInstance fun r => ?_) _
  rcases r with e | bs
  · infer_instance
  · cases bs with
    | nil => infer_instance
    | cons b bs => infer_instance

instance alike_assignFields (names fields : List Text) : Steady L (assignFields names fields) := by
  induction names generalizing fields with
  | nil => exact alike_pure _
  | cons name names ih => exact alike_bind

instance alike_runRead (args : List Text) : Steady L (Commands.runRead args) := by
  have hline : ∀ (names : List Text) (r : List Expansion.InputByte × LineEnd), Steady L (
      match r with
      | (_, .interrupted) => do
        setStatus (128 + (((← peekPending?).getD .int).number : Int))
      | (line, lineEnd) => do
        let ifs := Text.utf8 (((← get).value? "IFS").getD " \t\n")
        assignFields names (Expansion.splitLine ifs names.length line)
        setStatus (if lineEnd = .endOfInput then 1 else 0)) := by
    intro names r
    obtain ⟨line, lineEnd⟩ := r
    cases lineEnd with
    | interrupted => infer_instance
    | _ => exact .get_bind (fun _ _ => rfl) fun _ => inferInstance
  refine .bind inferInstance fun r => ?_
  obtain ⟨raw, prompt, operands⟩ := r
  dsimp only
  split
  · infer_instance
  · cases prompt with
    | some text =>
        refine .bind inferInstance fun terminal => .ite ?_ ?_
        · exact .bind inferInstance fun _ => .bind inferInstance fun r => hline _ r
        · exact .bind inferInstance fun r => hline _ r
    | none => exact .bind inferInstance fun r => hline _ r

/-! ## Jobs and signals -/

instance alike_jobOperand (arg : Text) : Steady L (jobOperand arg) := by
  refine .get_bind (fun _ _ => rfl) fun s => ?_
  split
  · infer_instance
  · infer_instance

instance alike_jobOperands (args : List Text) : Steady L (jobOperands args) := by
  induction args with
  | nil => exact alike_pure _
  | cons arg args ih => exact alike_bind

instance alike_runJobs (args : List Text) : Steady L (runJobs args) := by
  refine .bind inferInstance fun r => .get_bind (fun _ _ => rfl) fun s => .bind inferInstance
    fun _ => .get_bind (fun _ _ => rfl) fun s => ?_
  infer_instance

instance alike_signalEach (sig : Signal) (pids : List ProcessId) :
    Steady L (signalEach sig pids) := by
  induction pids with
  | nil => exact alike_pure _
  | cons pid pids ih =>
      refine .bind inferInstance fun r => ?_
      cases r with
      | ok u => infer_instance
      | error e => infer_instance

instance alike_signalJob (j : Job) (sig : Signal) : Steady L (signalJob j sig) := alike_ite

instance alike_runFg (args : List Text) : Steady L (runFg args) := by
  have hjob : ∀ spec : Text, Steady L (do
      let n ← jobOperand spec
      let (js, found) := (← get).jobs.remove n
      modifyJobs fun _ => js
      match found with
      | none => fail (noSuchJob spec)
      | some job =>
        writeOut (job.command ++ "\n")
        signalJob job .cont
        runForeground job.markContinued) := by
    refine fun spec => .bind inferInstance fun n => .get_bind (fun _ _ => rfl) fun s => ?_
    refine .bind inferInstance fun _ => ?_
    split
    · infer_instance
    · infer_instance
  exact .get_bind (fun _ _ => rfl) fun s => .ite (.bind inferInstance fun _ => hjob _) (hjob _)

instance alike_backgroundOperand (spec : Text) : Steady L (backgroundOperand spec) := by
  refine .bind inferInstance fun n => .get_bind (fun _ _ => rfl) fun s => ?_
  split
  · infer_instance
  · infer_instance

instance alike_runBg (args : List Text) : Steady L (runBg args) :=
  .get_bind (fun _ _ => rfl) fun _ => inferInstance

instance alike_waitJob (n : Nat) : Steady L (waitJob n) := by
  refine .iterate (fun _ => .get_bind (fun _ _ => rfl) fun s => ?_) _
  split
  · infer_instance
  · refine .bind inferInstance fun r => ?_
    rcases r with e | _ | pid
    · refine .ite (.bind inferInstance fun r => ?_) inferInstance
      cases r with
      | some sig => infer_instance
      | none => infer_instance
    · infer_instance
    · infer_instance

instance alike_waitJobs (ns : List Nat) : Steady L (waitJobs ns) := by
  induction ns with
  | nil => exact alike_pure _
  | cons n ns ih =>
      refine .bind inferInstance fun r => ?_
      cases r with
      | some status => infer_instance
      | none => infer_instance

instance alike_waitOperand (arg : Text) : Steady L (waitOperand arg) := by
  refine .get_bind (fun _ _ => rfl) fun s => .ite inferInstance ?_
  split
  · infer_instance
  · infer_instance

instance alike_waitOperands (status : Int) (args : List Text) :
    Steady L (waitOperands status args) := by
  induction args generalizing status with
  | nil => exact alike_setStatus status
  | cons arg args ih =>
      refine .bind inferInstance fun r => ?_
      cases r with
      | none => exact ih 127
      | some n =>
          refine .bind inferInstance fun r => ?_
          cases r with
          | some interrupted => infer_instance
          | none =>
              refine .get_bind (fun _ _ => rfl) fun s => ?_
              split
              · infer_instance
              · infer_instance

instance alike_runWait (args : List Text) : Steady L (runWait args) := by
  refine .ite (.get_bind (fun _ _ => rfl) fun s => .bind inferInstance fun r => ?_) inferInstance
  cases r with
  | some status => infer_instance
  | none => infer_instance

instance alike_killOperand (signal : Option Signal) (target : Text) :
    Steady L (killOperand signal target) := by
  refine .ite (.bind inferInstance fun n => .get_bind (fun _ _ => rfl) fun s => ?_) ?_
  · split
    · infer_instance
    · infer_instance
    · infer_instance
  · split
    · infer_instance
    · refine .bind inferInstance fun r => ?_
      cases r with
      | ok u => infer_instance
      | error e => infer_instance

instance alike_killOperands (signal : Option Signal) (status : Int) (targets : List Text) :
    Steady L (killOperands signal status targets) := by
  induction targets generalizing status with
  | nil => exact alike_setStatus status
  | cons target targets ih =>
      refine .bind inferInstance fun r => ?_
      cases r with
      | ok u => infer_instance
      | error s => infer_instance

instance alike_runKill (args : List Text) : Steady L (runKill args) := by
  unfold runKill
  split
  · infer_instance
  · infer_instance
  · refine .bind inferInstance fun r => ?_
    obtain ⟨number, operands⟩ := r
    cases number with
    | none => infer_instance
    | some number => infer_instance

/-! ## Traps -/

instance alike_setTrap (number : Nat) (action : Option TrapAction) :
    Steady L (setTrap number action) := by
  have hset : Steady L (modify fun sh => { sh with traps := sh.traps.set number action }) :=
    .modify (fun _ _ => rfl) fun _ h => h
  refine .get_bind (fun _ _ => rfl) fun s => .ite inferInstance (.bind hset fun _ => ?_)
  split
  · exact .get_bind (fun _ _ => rfl) fun _ => inferInstance
  · infer_instance

instance alike_setTraps (action : Option TrapAction) (status : Int) (conditions : List Text) :
    Steady L (setTraps action status conditions) := by
  induction conditions generalizing status with
  | nil => exact alike_pure _
  | cons condition conditions ih =>
      unfold setTraps
      split
      · infer_instance
      · infer_instance

instance alike_runTrapCommand (args : List Text) : Steady L (runTrapCommand args) :=
  .ite (.get_bind (fun _ _ => rfl) fun _ => inferInstance) inferInstance

/-! ## All built-in commands -/

/-- What a built-in command needs to be run alike: `local` names nothing that may not be given a
value for a while, options are not listed where they may differ, and those that are set keep the
invariant. -/
structure Likeness.AdmitsBuiltin (L : Likeness) (b : Builtin) (args : List Text) : Prop where
  names : b = .local_ → ∀ arg ∈ args, L.permits (splitOperand arg).1
  listing : b = .set → L.exact ∨ listsOptions args = false
  settings : b = .set → L.AdmitsSettings args

theorem alike_action [EvaluatorsAlike L ev ev'] {b : Builtin} {args : List Text}
    (h : L.AdmitsBuiltin b args) : Alike L (action ev b args) (action ev' b args) := by
  cases b with
  | local_ => exact alike_runLocal (h.names rfl)
  | set => exact alike_runSet (h.listing rfl) (h.settings rfl)
  | exec =>
      have hr : L.AdmitsRedirects [] := fun _ hr => absurd hr List.not_mem_nil
      exact alike_runExec hr fun _ _ ha => absurd ha List.not_mem_nil
  | test => exact alike_runCondition args
  | type => exact alike_describeAll true 0 args
  | echo => exact alike_bind
  | break_ => exact alike_leaveLoops .breaking args
  | continue_ => exact alike_leaveLoops .continuing args
  | _ =>
      unfold action
      infer_instance

theorem alike_runBuiltin [EvaluatorsAlike L ev ev'] {b : Builtin} {name : Text}
    {args : List Text} (h : L.AdmitsBuiltin b args) :
    Alike L (runBuiltin ev b name args) (runBuiltin ev' b name args) := by
  have haction : Alike L (action ev b args) (action ev' b args) := alike_action h
  refine .bind inferInstance fun r => ?_
  cases r with
  | ok u => infer_instance
  | error s =>
      have hend : Steady L (do
          if b.isSpecial && !(← get).isInteractive then jump (.exit s.status)) :=
        .get_bind (fun _ _ => rfl) fun _ => inferInstance
      exact .ite inferInstance (.bind inferInstance fun _ => .bind inferInstance fun _ => hend)

end

end CommandShell.Shell
