import CommandShell.Commands.Run
import CommandShell.Proofs.Procedures.Expansion

/-!
# Built-in commands are procedures

None of them takes a signal for handled. `trap` changes what is done with signals, `read` and `wait`
look at the marks and leave them; `.`, `eval` and `command` run further commands.
-/

namespace CommandShell.Shell

open Commands

variable {σ : Type} {ev : Evaluator} {E : Exits}

/-! ## Conditions -/

instance procedure_testNumber (t : Text) : Procedure ev E (testNumber t) := by
  unfold testNumber
  split
  · infer_instance
  · infer_instance

instance procedure_fileHas (path : Text) (follow : Bool) (p : Host.FileStatus → Bool) :
    Procedure ev E (fileHas path follow p) := by
  refine .bind fun r => ?_
  cases r with
  | ok st => infer_instance
  | error e => infer_instance

instance procedure_isTerminal (n : Int) : Procedure ev E (Commands.isTerminal n) := by
  cases n with
  | ofNat fd => exact procedure_ite
  | negSucc n => exact procedure_pure _

instance procedure_unaryTest (op : UnaryTest) (arg : Text) : Procedure ev E (op.eval arg) := by
  cases op <;> unfold UnaryTest.eval <;> infer_instance

instance procedure_compareNumbers (p : Int → Int → Bool) (a b : Text) :
    Procedure ev E (compareNumbers p a b) := procedure_bind

instance procedure_compareFiles (p : Option Host.FileStatus → Option Host.FileStatus → Bool)
    (a b : Text) : Procedure ev E (compareFiles p a b) := procedure_bind

instance procedure_binaryTest (op : BinaryTest) (a b : Text) : Procedure ev E (op.eval a b) := by
  cases op <;> unfold BinaryTest.eval <;> infer_instance

/-- The levels of a condition, with a number of steps. -/
structure ConditionProcedures (ev : Evaluator) (E : Exits) (n : Nat) : Prop where
  disjunction : ∀ args, Procedure ev E (disjunction n args)
  disjunctionRest : ∀ a args, Procedure ev E (disjunctionRest n a args)
  conjunction : ∀ args, Procedure ev E (conjunction n args)
  conjunctionRest : ∀ a args, Procedure ev E (conjunctionRest n a args)
  negation : ∀ args, Procedure ev E (negation n args)
  primary : ∀ args, Procedure ev E (primary n args)

theorem conditionProcedures (n : Nat) : ConditionProcedures ev E n := by
  induction n with
  | zero =>
      exact ⟨fun _ => procedure_fail _, fun _ _ => procedure_fail _, fun _ => procedure_fail _,
        fun _ _ => procedure_fail _, fun _ => procedure_fail _, fun _ => procedure_fail _⟩
  | succ n ih =>
      obtain ⟨hd, hdr, hc, hcr, hn, hp⟩ := ih
      refine ⟨fun args => procedure_bind, fun a args => ?_, fun args => procedure_bind, fun a args => ?_,
        fun args => ?_, fun args => ?_⟩
      · unfold Commands.disjunctionRest
        split
        · infer_instance
        · infer_instance
      · unfold Commands.conjunctionRest
        split
        · infer_instance
        · infer_instance
      · unfold Commands.negation
        split
        · infer_instance
        · infer_instance
      · unfold Commands.primary
        split
        · infer_instance
        · infer_instance
        · split
          · infer_instance
          · refine .ite (.bind fun r => ?_) ?_
            · obtain ⟨a, rest⟩ := r
              dsimp only
              split
              · infer_instance
              · infer_instance
              · infer_instance
            · split
              · infer_instance
              · infer_instance

instance procedure_condition (args : List Text) : Procedure ev E (condition args) := by
  unfold condition
  split
  · infer_instance
  · infer_instance
  · infer_instance
  · have h : ∀ n args, Procedure ev E (disjunction n args) := fun n => (conditionProcedures n).disjunction
    refine .bind fun r => ?_
    obtain ⟨value, rest⟩ := r
    cases rest with
    | nil => infer_instance
    | cons extra rest => infer_instance

/-! ## Names, files and settings -/

instance procedure_eachOperand (f : Text → ShellM Int) [∀ arg, Procedure ev E (f arg)] (status : Int)
    (args : List Text) : Procedure ev E (eachOperand f status args) := by
  induction args generalizing status with
  | nil => exact procedure_setStatus status
  | cons arg args ih => exact procedure_bind

instance procedure_runBracket (args : List Text) : Procedure ev E (runBracket args) := by
  have h : ∀ args, Procedure ev E (runCondition args) := fun _ => procedure_bind
  unfold runBracket
  split
  · infer_instance
  · infer_instance

instance procedure_runAlias (args : List Text) : Procedure ev E (runAlias args) := by
  have h : ∀ arg, Procedure ev E (aliasOperand arg) := by
    intro arg
    unfold aliasOperand
    split
    · infer_instance
    · refine .bind fun s => ?_
      split
      · infer_instance
      · infer_instance
  exact procedure_ite

instance procedure_runUnalias (args : List Text) : Procedure ev E (runUnalias args) := by
  have h : ∀ name, Procedure ev E (unaliasOperand name) := fun _ => procedure_bind
  exact procedure_bind

instance procedure_directoryOperand (args : List Text) : Procedure ev E (directoryOperand args) := by
  refine .bind fun s => ?_
  split
  · split
    · infer_instance
    · infer_instance
  · split
    · infer_instance
    · infer_instance
  · infer_instance

instance procedure_tryDirectories (physical : Bool) (here : Text) (last : Errno)
    (paths : List (Text × Bool)) : Procedure ev E (tryDirectories physical here last paths) := by
  have hchange : ∀ path, Procedure ev E (changeDirectory path) := by
    intro path
    unfold changeDirectory
    split
    · infer_instance
    · infer_instance
  induction paths generalizing last with
  | nil => exact procedure_pure _
  | cons p paths ih =>
      refine .bind fun r => ?_
      cases r with
      | ok u => infer_instance
      | error e => infer_instance

instance procedure_physicalDirectory : Procedure ev E physicalDirectory := by
  refine .bind fun r => ?_
  cases r with
  | ok dir => infer_instance
  | error e => infer_instance

instance procedure_logicalDirectory : Procedure ev E logicalDirectory := by
  refine .bind fun s => ?_
  cases s.value? "PWD" with
  | some pwd => infer_instance
  | none => infer_instance

instance procedure_runCd (args : List Text) : Procedure ev E (runCd args) := by
  refine .bind fun _ => .bind fun _ => .bind fun _ => .bind fun s => .bind fun r => ?_
  rcases r with e | ⟨logical, fromSearch⟩
  · infer_instance
  · exact .ite (.bind fun pwd => inferInstance) (.bind fun pwd => inferInstance)

instance procedure_runPwd (args : List Text) : Procedure ev E (runPwd args) := by
  refine .bind fun _ => .bind fun s => ?_
  dsimp only
  split
  · infer_instance
  · infer_instance

instance procedure_runUmask (args : List Text) : Procedure ev E (runUmask args) := by
  refine .bind fun r => .bind fun mask => .bind fun _ => ?_
  dsimp only
  split
  · infer_instance
  · split
    · infer_instance
    · infer_instance

instance procedure_statusOperand (args : List Text) : Procedure ev E (statusOperand args) := by
  unfold statusOperand
  split
  · infer_instance
  · split
    · infer_instance
    · infer_instance

instance procedure_runExit (args : List Text) : Procedure ev E (runExit args) := procedure_bind

instance procedure_runReturn (args : List Text) : Procedure ev E (runReturn args) := procedure_bind

/-- A jump out of loops goes out of no more than there are. -/
theorem procedure_leaveLoops [hE : E.Open] {target : Nat → Jump}
    (htarget : ∀ n, (Stop.jump (target n)).levels? = some n) (args : List Text) :
    Procedure ev E (leaveLoops target args) := by
  have hleave : ∀ n, Procedure ev E (do
      setStatus 0
      let depth := (← get).loopDepth
      if depth ≠ 0 then jump (target (min (n + 1) depth))) := by
    intro n
    have hstatus : ∀ s : Shell, Moves s { s with status := 0 } :=
      fun _ => .works rfl rfl rfl rfl rfl rfl
    refine .silent fun s => ?_
    show ∃ r t, (if s.loopDepth ≠ 0 then jump (target (min (n + 1) s.loopDepth)) else pure () :
      ShellM Unit).startedIn { s with status := 0 } = .done (r, t) ∧ _
    split
    · -- the levels asked for are cut to the loops that there are
      refine ⟨.error _, _, rfl, hstatus s, fun e he => hE.le fun levels hlevels => ?_⟩
      cases he
      cases (htarget _).symm.trans hlevels
      omega
    · exact ⟨.ok (), _, rfl, hstatus s, fun e he => nomatch he⟩
  unfold leaveLoops levelsOperand
  dsimp only
  split
  · exact hleave 0
  · split
    · exact hleave _
    · infer_instance

instance procedure_runDeclare (flag : DeclareFlag) (args : List Text) :
    Procedure ev E (runDeclare flag args) := by
  have hgive : ∀ name value, Procedure ev E (updateVariables
      (·.assignWith name value (flag == .exported) (flag == .readOnly))) := by
    refine fun name value => .updateVariables (.binding (.give name value _ _)) (fun _ => rfl)
      fun s => ?_
    cases value with
    | none => trivial
    | some value =>
        cases flag with
        | exported => exact .exported
        | readOnly => exact .readOnly
  have h : ∀ arg, Procedure ev E (declareOperand flag arg) := by
    intro arg
    unfold declareOperand
    obtain ⟨name, value⟩ := splitOperand arg
    infer_instance
  exact procedure_bind

instance procedure_runLocal (args : List Text) : Procedure ev E (runLocal args) := by
  have h : ∀ arg, Procedure ev E (localOperand arg) := by
    intro arg
    unfold localOperand
    obtain ⟨name, value⟩ := splitOperand arg
    cases value with
    | some v => infer_instance
    | none => infer_instance
  exact procedure_bind

instance procedure_runUnset (args : List Text) : Procedure ev E (runUnset args) := by
  have h : ∀ functionsOnly variablesOnly name,
      Procedure ev E (unsetOperand functionsOnly variablesOnly name) := fun _ _ _ => procedure_bind
  exact procedure_bind

instance procedure_assignAll (assigned : List (Text × Text)) : Procedure ev E (assignAll assigned) := by
  induction assigned with
  | nil => exact procedure_pure _
  | cons a rest ih => exact procedure_bind

instance procedure_describe? (verbose : Bool) (name : Text) : Procedure ev E (describe? verbose name) := by
  unfold describe?
  refine .bind fun s => ?_
  dsimp only
  refine .ite inferInstance ?_
  split
  · infer_instance
  · refine .ite inferInstance ?_
    split
    · infer_instance
    · refine .ite inferInstance ?_
      split
      · infer_instance
      · refine .bind fun found => ?_
        cases found with
        | found path => infer_instance
        | _ => infer_instance

instance procedure_describeAll (verbose : Bool) (status : Int) (names : List Text) :
    Procedure ev E (describeAll verbose status names) := by
  induction names generalizing status with
  | nil => exact procedure_setStatus status
  | cons name names ih =>
      refine .bind fun r => ?_
      cases r with
      | some line => infer_instance
      | none => infer_instance

instance procedure_hashOperands (status : Int) (names : List Text) :
    Procedure ev E (hashOperands status names) := by
  have h : ∀ name, Procedure ev E (hashOperand name) := by
    refine fun name => .bind fun s => .ite inferInstance (.bind fun _ => .bind fun r => ?_)
    cases r with
    | ok path => infer_instance
    | error s => infer_instance
  induction names generalizing status with
  | nil => exact procedure_setStatus status
  | cons name names ih => exact procedure_bind

instance procedure_runHash (args : List Text) : Procedure ev E (runHash args) := procedure_bind

instance procedure_runExec (args : List Text) (assigned : List (Text × Text))
    (redirects : List Script.Redirect) : Procedure ev E (runExec ev args assigned redirects) := by
  have hfail : ∀ s code, Procedure ev E (failExec s code) := fun _ _ => procedure_bind
  cases args with
  | nil =>
      refine .bind fun r => ?_
      cases r with
      | ok u => infer_instance
      | error s => infer_instance
  | cons command args =>
      refine .bind fun r => ?_
      cases r with
      | error s => infer_instance
      | ok path =>
          refine .bind fun r => ?_
          cases r with
          | ok u => infer_instance
          | error s => infer_instance

/-! ## Input -/

instance procedure_readLine (raw : Bool) : Procedure ev E (Commands.readLine raw) := by
  refine .iterate (fun l => .bind fun r => ?_) _
  rcases r with e | bs
  · infer_instance
  · cases bs with
    | nil => infer_instance
    | cons b bs => infer_instance

instance procedure_assignFields (names fields : List Text) : Procedure ev E (assignFields names fields) := by
  induction names generalizing fields with
  | nil => exact procedure_pure _
  | cons name names ih => exact procedure_bind

instance procedure_runRead (args : List Text) : Procedure ev E (Commands.runRead args) := by
  have hline : ∀ (names : List Text) (r : List Expansion.InputByte × LineEnd), Procedure ev E (
      match r with
      | (_, .interrupted) => do
        setStatus (128 + (((← peekPending?).getD .int).number : Int))
      | (line, lineEnd) => do
        let ifs := Text.utf8 (((← get).value? "IFS").getD " \t\n")
        assignFields names (Expansion.splitLine ifs names.length line)
        setStatus (if lineEnd = .endOfInput then 1 else 0)) := by
    intro names r
    obtain ⟨line, lineEnd⟩ := r
    cases lineEnd with
    | interrupted => infer_instance
    | _ => infer_instance
  refine .bind fun r => ?_
  obtain ⟨raw, prompt, operands⟩ := r
  dsimp only
  split
  · infer_instance
  · cases prompt with
    | some text =>
        refine .bind fun terminal => .ite ?_ (.bind fun r => hline _ r)
        exact .bind fun _ => .bind fun r => hline _ r
    | none => exact .bind fun r => hline _ r

/-! ## Jobs and signals -/

instance procedure_jobOperand (arg : Text) : Procedure ev E (jobOperand arg) := by
  refine .bind fun s => ?_
  split
  · infer_instance
  · infer_instance

instance procedure_jobOperands (args : List Text) : Procedure ev E (jobOperands args) := by
  induction args with
  | nil => exact procedure_pure _
  | cons arg args ih => exact procedure_bind

instance procedure_runJobs (args : List Text) : Procedure ev E (runJobs args) := by
  refine .bind fun r => .bind fun s => .bind fun _ => .bind fun s => ?_
  infer_instance

instance procedure_signalJob (j : Job) (sig : Signal) : Procedure ev E (signalJob j sig) := by
  have h : ∀ pids, Procedure ev E (signalEach sig pids) := by
    intro pids
    induction pids with
    | nil => exact procedure_pure _
    | cons pid pids ih =>
        refine .bind fun r => ?_
        cases r with
        | ok u => infer_instance
        | error e => infer_instance
  exact procedure_ite

instance procedure_runFg (args : List Text) : Procedure ev E (runFg args) := by
  have hjob : ∀ spec : Text, Procedure ev E (do
      let n ← jobOperand spec
      let (js, found) := (← get).jobs.remove n
      modifyJobs fun _ => js
      match found with
      | none => fail (noSuchJob spec)
      | some job =>
        writeOut (job.command ++ "\n")
        signalJob job .cont
        runForeground job.markContinued) := by
    refine fun spec => .bind fun n => .bind fun s => .bind fun _ => ?_
    split
    · infer_instance
    · infer_instance
  exact .bind fun s => .ite (.bind fun _ => hjob _) (hjob _)

instance procedure_backgroundOperand (spec : Text) : Procedure ev E (backgroundOperand spec) := by
  refine .bind fun n => .bind fun s => ?_
  split
  · infer_instance
  · infer_instance

instance procedure_runBg (args : List Text) : Procedure ev E (runBg args) := procedure_bind

instance procedure_waitJob (n : Nat) : Procedure ev E (waitJob n) := by
  refine .iterate (fun _ => .bind fun s => ?_) ()
  split
  · infer_instance
  · refine .bind fun r => ?_
    rcases r with e | _ | pid
    · refine .ite (.bind fun r => ?_) inferInstance
      cases r with
      | some sig => infer_instance
      | none => infer_instance
    · infer_instance
    · infer_instance

instance procedure_waitJobs (ns : List Nat) : Procedure ev E (waitJobs ns) := by
  induction ns with
  | nil => exact procedure_pure _
  | cons n ns ih =>
      refine .bind fun r => ?_
      cases r with
      | some status => infer_instance
      | none => infer_instance

instance procedure_waitOperand (arg : Text) : Procedure ev E (waitOperand arg) := by
  refine .bind fun s => .ite inferInstance ?_
  split
  · infer_instance
  · infer_instance

instance procedure_waitOperands (status : Int) (args : List Text) :
    Procedure ev E (waitOperands status args) := by
  induction args generalizing status with
  | nil => exact procedure_setStatus status
  | cons arg args ih =>
      refine .bind fun r => ?_
      cases r with
      | none => exact ih 127
      | some n =>
          refine .bind fun r => ?_
          cases r with
          | some interrupted => infer_instance
          | none =>
              refine .bind fun s => ?_
              split
              · infer_instance
              · infer_instance

instance procedure_runWait (args : List Text) : Procedure ev E (runWait args) := by
  refine .ite (.bind fun s => .bind fun r => ?_) inferInstance
  cases r with
  | some status => infer_instance
  | none => infer_instance

instance procedure_killOperand (signal : Option Signal) (target : Text) :
    Procedure ev E (killOperand signal target) := by
  refine .ite (.bind fun n => .bind fun s => ?_) ?_
  · split
    · infer_instance
    · infer_instance
    · infer_instance
  · split
    · infer_instance
    · refine .bind fun r => ?_
      cases r with
      | ok u => infer_instance
      | error e => infer_instance

instance procedure_killOperands (signal : Option Signal) (status : Int) (targets : List Text) :
    Procedure ev E (killOperands signal status targets) := by
  induction targets generalizing status with
  | nil => exact procedure_setStatus status
  | cons target targets ih =>
      refine .bind fun r => ?_
      cases r with
      | ok u => infer_instance
      | error s => infer_instance

instance procedure_runKill (args : List Text) : Procedure ev E (runKill args) := by
  unfold runKill
  split
  · infer_instance
  · infer_instance
  · refine .bind fun r => ?_
    obtain ⟨number, operands⟩ := r
    cases number with
    | none => infer_instance
    | some number => infer_instance

instance procedure_setTraps (action : Option TrapAction) (status : Int) (conditions : List Text) :
    Procedure ev E (setTraps action status conditions) := by
  induction conditions generalizing status with
  | nil => exact procedure_pure _
  | cons condition conditions ih =>
      unfold setTraps
      split
      · infer_instance
      · infer_instance

instance procedure_runTrapCommand (args : List Text) : Procedure ev E (runTrapCommand args) := procedure_ite

instance procedure_findTerminal : Procedure ev E findTerminal := by
  refine .bind fun r => ?_
  cases r with
  | ok fd => infer_instance
  | error e => infer_instance

instance procedure_setUpJobControl : Procedure ev E setUpJobControl := by
  have hfound : ∀ fd, Procedure ev E (modify fun sh => { sh with terminal := some fd }) :=
    fun fd => .modify fun s => .works rfl rfl rfl rfl rfl rfl
  have hoff : Procedure ev E (modify fun sh => { sh with options := sh.options.set .monitor false }) :=
    .modify fun s => .sets s _
  refine .bind fun terminal => ?_
  cases terminal with
  | some fd => exact hfound fd
  | none => exact hoff

instance procedure_applyOptions (options : CommandShell.Options) :
    Procedure ev E (applyOptions options) := by
  have hset : Procedure ev E (modify fun sh => { sh with options := options }) :=
    .modify fun s => .sets s options
  exact procedure_bind

/-- What is not a `return` is handed on. -/
instance procedure_takeReturn (r : Except Stop Unit) : Procedure ev (.handed E r E) (takeReturn r) := by
  unfold takeReturn
  split
  · infer_instance
  · infer_instance

instance procedure_sourceText (name : Text) : Procedure ev E (sourceText name) := by
  have hfirst : ∀ paths, Procedure ev E (firstRegular? paths) := by
    intro paths
    induction paths with
    | nil => exact procedure_pure _
    | cons p paths ih => exact procedure_bind
  have hpath : Procedure ev E (sourcePath name) := procedure_ite
  refine .bind fun path => .bind fun r => ?_
  cases r with
  | ok data => infer_instance
  | error e => infer_instance

instance procedure_runSet (args : List Text) : Procedure ev E (runSet args) := by
  have h : ∀ settings, Procedure ev E (applySettings settings) := by
    intro settings
    unfold applySettings
    cases settings.listing with
    | some asCommands =>
        cases settings.params with
        | some params => infer_instance
        | none => infer_instance
    | none =>
        cases settings.params with
        | some params => infer_instance
        | none => infer_instance
  exact procedure_ite

instance procedure_runShift (args : List Text) : Procedure ev E (runShift args) := by
  have hshift : ∀ n, Procedure ev E (updateVariables fun vs => match vs.shift? n with
      | none => .error (.execution "can't shift that many")
      | some vs => .ok vs) :=
    fun n => .updateVariables (.shift n) (fun _ => rfl) fun _ => trivial
  unfold runShift
  dsimp only
  split
  · infer_instance
  · split
    · infer_instance
    · infer_instance

/-- A sourced file stops for no other loops than its commands. -/
instance procedure_runDot [E.Open] (args : List Text) : Procedure ev E (runDot ev args) := by
  have hcount : ∀ {E : Exits} (f : Nat → Nat),
      Procedure ev E (modify fun sh => { sh with sourceDepth := f sh.sourceDepth } : ShellM Unit) :=
    fun _ => .modify fun _ => .works rfl rfl rfl rfl rfl rfl
  have hin : Procedure ev E (modify fun sh => { sh with sourceDepth := sh.sourceDepth + 1 }) :=
    hcount (· + 1)
  have hout : ∀ {E : Exits},
      Procedure ev E (modify fun sh => { sh with sourceDepth := sh.sourceDepth - 1 }) := hcount (· - 1)
  unfold runDot
  cases args with
  | nil => infer_instance
  | cons name params =>
      refine .bind fun text => ?_
      unfold Commands.withParams
      split
      · simp only [bind_assoc, pure_bind]
        exact .bind fun _ => .bind fun _ => .caught (F := E) inferInstance fun r => inferInstance
      · simp only [bind_assoc, pure_bind]
        exact .bind fun s => .bind fun _ => .bind fun _ => .bind fun _ =>
          .caught (F := E) inferInstance fun r => inferInstance

/-! ## All built-in commands -/

instance procedure_runEval [E.Open] (args : List Text) : Procedure ev E (runEval ev args) :=
  procedure_bind

instance procedure_runCommand [E.Open] (args : List Text) : Procedure ev E (runCommand ev args) :=
  procedure_bind

instance procedure_action [E.Open] (b : Builtin) (args : List Text) :
    Procedure ev E (action ev b args) := by
  cases b with
  | test => exact procedure_bind
  | type => exact procedure_describeAll true 0 args
  | echo => exact procedure_bind
  | break_ => exact procedure_leaveLoops (fun _ => rfl) args
  | continue_ => exact procedure_leaveLoops (fun _ => rfl) args
  | _ =>
      unfold action
      infer_instance

instance procedure_runBuiltin [E.Open] (b : Builtin) (name : Text) (args : List Text) :
    Procedure ev E (runBuiltin ev b name args) := by
  refine .caught (F := E) inferInstance fun r => ?_
  cases r with
  | ok u => infer_instance
  | error s => infer_instance

end CommandShell.Shell
