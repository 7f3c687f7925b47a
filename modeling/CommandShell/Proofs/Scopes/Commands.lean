import CommandShell.Commands.Run
import CommandShell.Proofs.Scopes.Expansion

/-!
# What built-in commands leave behind

`local` shadows names in the newest frame and opens none, `set` and `shift` change the parameters of
the scope that they run in, and `.` leaves the files that it counts. The other built-in commands
have nothing to do with scopes.
-/

namespace CommandShell.Shell

open Commands

variable {R : Bond} {ev : Evaluator}

/-- An evaluator that leaves every scope which it enters. -/
class Unwinds (ev : Evaluator) : Prop where
  node : ∀ n place, Keeps nests (ev.node n place)
  source : ∀ t, Keeps nests (ev.source t)
  command : ∀ args, Keeps nests (ev.command args)
  builtin : ∀ b name args, Keeps nests (ev.builtin b name args)

attribute [instance] Unwinds.node Unwinds.source Unwinds.command Unwinds.builtin

/-! ## Conditions -/

instance keeps_testNumber (t : Text) : Keeps R (testNumber t) := by
  unfold testNumber
  split
  · infer_instance
  · infer_instance

instance keeps_fileHas (path : Text) (follow : Bool) (p : Host.FileStatus → Bool) :
    Keeps R (fileHas path follow p) := by
  refine .bind fun r => ?_
  cases r with
  | ok st => infer_instance
  | error e => infer_instance

instance keeps_isTerminal (n : Int) : Keeps R (Commands.isTerminal n) := by
  cases n with
  | ofNat fd => exact keeps_ite
  | negSucc n => exact keeps_pure _

instance keeps_unaryTest (op : UnaryTest) (arg : Text) : Keeps R (op.eval arg) := by
  cases op <;> unfold UnaryTest.eval <;> infer_instance

instance keeps_compareNumbers (p : Int → Int → Bool) (a b : Text) :
    Keeps R (compareNumbers p a b) := keeps_bind

instance keeps_compareFiles (p : Option Host.FileStatus → Option Host.FileStatus → Bool)
    (a b : Text) : Keeps R (compareFiles p a b) := keeps_bind

instance keeps_binaryTest (op : BinaryTest) (a b : Text) : Keeps R (op.eval a b) := by
  cases op <;> unfold BinaryTest.eval <;> infer_instance

/-- The levels of a condition, with a number of steps. -/
structure ConditionsKeep (R : Bond) (n : Nat) : Prop where
  disjunction : ∀ args, Keeps R (disjunction n args)
  disjunctionRest : ∀ a args, Keeps R (disjunctionRest n a args)
  conjunction : ∀ args, Keeps R (conjunction n args)
  conjunctionRest : ∀ a args, Keeps R (conjunctionRest n a args)
  negation : ∀ args, Keeps R (negation n args)
  primary : ∀ args, Keeps R (primary n args)

theorem conditionsKeep (n : Nat) : ConditionsKeep R n := by
  induction n with
  | zero =>
      exact ⟨fun _ => keeps_fail _, fun _ _ => keeps_fail _, fun _ => keeps_fail _,
        fun _ _ => keeps_fail _, fun _ => keeps_fail _, fun _ => keeps_fail _⟩
  | succ n ih =>
      obtain ⟨hd, hdr, hc, hcr, hn, hp⟩ := ih
      refine ⟨fun args => keeps_bind, fun a args => ?_, fun args => keeps_bind, fun a args => ?_,
        fun args => ?_, fun args => ?_⟩
      · unfold Commands.disjunctionRest
        split
        · infer_instance
        · infer_instance
      · unfold Commands.conjunctionRest
        split
        · infer_instance
        · infer_instance
      · unfold Commands.negation
        split
        · infer_instance
        · infer_instance
      · unfold Commands.primary
        split
        · infer_instance
        · infer_instance
        · split
          · infer_instance
          · refine .ite (.bind fun r => ?_) ?_
            · obtain ⟨a, rest⟩ := r
              dsimp only
              split
              · infer_instance
              · infer_instance
              · infer_instance
            · split
              · infer_instance
              · infer_instance

instance keeps_condition (args : List Text) : Keeps R (condition args) := by
  unfold condition
  split
  · infer_instance
  · infer_instance
  · infer_instance
  · have h : ∀ n args, Keeps R (disjunction n args) := fun n => (conditionsKeep n).disjunction
    refine .bind fun r => ?_
    obtain ⟨value, rest⟩ := r
    cases rest with
    | nil => infer_instance
    | cons extra rest => infer_instance

/-! ## Commands that look at no scope -/

section

variable [Lenient R]

instance keeps_eachOperand (f : Text → ShellM Int) [∀ arg, Keeps R (f arg)] (status : Int)
    (args : List Text) : Keeps R (eachOperand f status args) := by
  induction args generalizing status with
  | nil => exact keeps_setStatus status
  | cons arg args ih => exact keeps_bind

instance keeps_runBracket (args : List Text) : Keeps R (runBracket args) := by
  have h : ∀ args, Keeps R (runCondition args) := fun _ => keeps_bind
  unfold runBracket
  split
  · infer_instance
  · infer_instance

instance keeps_runAlias (args : List Text) : Keeps R (runAlias args) := by
  have h : ∀ arg, Keeps R (aliasOperand arg) := by
    intro arg
    unfold aliasOperand
    split
    · infer_instance
    · refine .bind fun s => ?_
      split
      · infer_instance
      · infer_instance
  exact keeps_ite

instance keeps_runUnalias (args : List Text) : Keeps R (runUnalias args) := by
  have h : ∀ name, Keeps R (unaliasOperand name) := fun _ => keeps_bind
  exact keeps_bind

instance keeps_directoryOperand (args : List Text) : Keeps R (directoryOperand args) := by
  refine .bind fun s => ?_
  split
  · split
    · infer_instance
    · infer_instance
  · split
    · infer_instance
    · infer_instance
  · infer_instance

instance keeps_tryDirectories (physical : Bool) (here : Text) (last : Errno)
    (paths : List (Text × Bool)) : Keeps R (tryDirectories physical here last paths) := by
  have hchange : ∀ path, Keeps R (changeDirectory path) := by
    intro path
    unfold changeDirectory
    split
    · infer_instance
    · infer_instance
  induction paths generalizing last with
  | nil => exact keeps_pure _
  | cons p paths ih =>
      refine .bind fun r => ?_
      cases r with
      | ok u => infer_instance
      | error e => infer_instance

instance keeps_physicalDirectory : Keeps R physicalDirectory := by
  refine .bind fun r => ?_
  cases r with
  | ok dir => infer_instance
  | error e => infer_instance

instance keeps_logicalDirectory : Keeps R logicalDirectory := by
  refine .bind fun s => ?_
  cases s.value? "PWD" with
  | some pwd => infer_instance
  | none => infer_instance

instance keeps_runCd (args : List Text) : Keeps R (runCd args) := by
  refine .bind fun _ => .bind fun _ => .bind fun _ => .bind fun s => .bind fun r => ?_
  rcases r with e | ⟨logical, fromSearch⟩
  · infer_instance
  · exact .ite (.bind fun pwd => inferInstance) (.bind fun pwd => inferInstance)

instance keeps_runPwd (args : List Text) : Keeps R (runPwd args) := by
  refine .bind fun _ => .bind fun s => ?_
  dsimp only
  split
  · infer_instance
  · infer_instance

instance keeps_runUmask (args : List Text) : Keeps R (runUmask args) := by
  refine .bind fun r => .bind fun mask => .bind fun _ => ?_
  dsimp only
  split
  · infer_instance
  · split
    · infer_instance
    · infer_instance

instance keeps_statusOperand (args : List Text) : Keeps R (statusOperand args) := by
  unfold statusOperand
  split
  · infer_instance
  · split
    · infer_instance
    · infer_instance

instance keeps_runExit (args : List Text) : Keeps R (runExit args) := keeps_bind

instance keeps_runReturn (args : List Text) : Keeps R (runReturn args) := keeps_bind

instance keeps_leaveLoops (target : Nat → Jump) (args : List Text) :
    Keeps R (leaveLoops target args) := by
  have h : Keeps R (levelsOperand args) := by
    unfold levelsOperand
    split
    · infer_instance
    · split
      · infer_instance
      · infer_instance
  exact keeps_bind

instance keeps_runDeclare (flag : DeclareFlag) (args : List Text) :
    Keeps R (runDeclare flag args) := by
  have h : ∀ arg, Keeps R (declareOperand flag arg) := by
    intro arg
    unfold declareOperand
    obtain ⟨name, value⟩ := splitOperand arg
    infer_instance
  exact keeps_bind

instance keeps_runLocal (args : List Text) : Keeps R (runLocal args) := by
  have h : ∀ arg, Keeps R (localOperand arg) := by
    intro arg
    unfold localOperand
    obtain ⟨name, value⟩ := splitOperand arg
    cases value with
    | some v => infer_instance
    | none => infer_instance
  exact keeps_bind

instance keeps_runUnset (args : List Text) : Keeps R (runUnset args) := by
  have h : ∀ functionsOnly variablesOnly name,
      Keeps R (unsetOperand functionsOnly variablesOnly name) := fun _ _ _ => keeps_bind
  exact keeps_bind

instance keeps_assignAll (assigned : List (Text × Text)) : Keeps R (assignAll assigned) := by
  induction assigned with
  | nil => exact keeps_pure _
  | cons a rest ih => exact keeps_bind

instance keeps_describe? (verbose : Bool) (name : Text) : Keeps R (describe? verbose name) := by
  unfold describe?
  refine .bind fun s => ?_
  dsimp only
  refine .ite inferInstance ?_
  split
  · infer_instance
  · refine .ite inferInstance ?_
    split
    · infer_instance
    · refine .ite inferInstance ?_
      split
      · infer_instance
      · refine .bind fun found => ?_
        cases found with
        | found path => infer_instance
        | _ => infer_instance

instance keeps_describeAll (verbose : Bool) (status : Int) (names : List Text) :
    Keeps R (describeAll verbose status names) := by
  induction names generalizing status with
  | nil => exact keeps_setStatus status
  | cons name names ih =>
      refine .bind fun r => ?_
      cases r with
      | some line => infer_instance
      | none => infer_instance

instance keeps_hashOperands (status : Int) (names : List Text) :
    Keeps R (hashOperands status names) := by
  have h : ∀ name, Keeps R (hashOperand name) := by
    refine fun name => .bind fun s => .ite inferInstance (.bind fun _ => .bind fun r => ?_)
    cases r with
    | ok path => infer_instance
    | error s => infer_instance
  induction names generalizing status with
  | nil => exact keeps_setStatus status
  | cons name names ih => exact keeps_bind

instance keeps_runHash (args : List Text) : Keeps R (runHash args) := keeps_bind

instance keeps_runExec (args : List Text) (assigned : List (Text × Text))
    (redirects : List Script.Redirect) : Keeps R (runExec ev args assigned redirects) := by
  have hfail : ∀ s code, Keeps R (failExec s code) := fun _ _ => keeps_bind
  cases args with
  | nil =>
      refine .bind fun r => ?_
      cases r with
      | ok u => infer_instance
      | error s => infer_instance
  | cons command args =>
      refine .bind fun r => ?_
      cases r with
      | error s => infer_instance
      | ok path =>
          refine .bind fun r => ?_
          cases r with
          | ok u => infer_instance
          | error s => infer_instance

/-! ## Input -/

omit [Lenient R] in
instance keeps_readLine (raw : Bool) : Keeps R (Commands.readLine raw) := by
  refine .iterate (fun l => .bind fun r => ?_) _
  rcases r with e | bs
  · infer_instance
  · cases bs with
    | nil => infer_instance
    | cons b bs => infer_instance

instance keeps_assignFields (names fields : List Text) : Keeps R (assignFields names fields) := by
  induction names generalizing fields with
  | nil => exact keeps_pure _
  | cons name names ih => exact keeps_bind

instance keeps_runRead (args : List Text) : Keeps R (Commands.runRead args) := by
  have hline : ∀ (names : List Text) (r : List Expansion.InputByte × LineEnd), Keeps R (
      match r with
      | (_, .interrupted) => do
        setStatus (128 + (((← peekPending?).getD .int).number : Int))
      | (line, lineEnd) => do
        let ifs := Text.utf8 (((← get).value? "IFS").getD " \t\n")
        assignFields names (Expansion.splitLine ifs names.length line)
        setStatus (if lineEnd = .endOfInput then 1 else 0)) := by
    intro names r
    obtain ⟨line, lineEnd⟩ := r
    cases lineEnd with
    | interrupted => infer_instance
    | _ => infer_instance
  refine .bind fun r => ?_
  obtain ⟨raw, prompt, operands⟩ := r
  dsimp only
  split
  · infer_instance
  · cases prompt with
    | some text =>
        refine .bind fun terminal => .ite ?_ (.bind fun r => hline _ r)
        exact .bind fun _ => .bind fun r => hline _ r
    | none => exact .bind fun r => hline _ r

/-! ## Jobs and signals -/

instance keeps_jobOperand (arg : Text) : Keeps R (jobOperand arg) := by
  refine .bind fun s => ?_
  split
  · infer_instance
  · infer_instance

instance keeps_jobOperands (args : List Text) : Keeps R (jobOperands args) := by
  induction args with
  | nil => exact keeps_pure _
  | cons arg args ih => exact keeps_bind

instance keeps_runJobs (args : List Text) : Keeps R (runJobs args) := by
  refine .bind fun r => .bind fun s => .bind fun _ => .bind fun s => ?_
  infer_instance

instance keeps_signalJob (j : Job) (sig : Signal) : Keeps R (signalJob j sig) := by
  have h : ∀ pids, Keeps R (signalEach sig pids) := by
    intro pids
    induction pids with
    | nil => exact keeps_pure _
    | cons pid pids ih =>
        refine .bind fun r => ?_
        cases r with
        | ok u => infer_instance
        | error e => infer_instance
  exact keeps_ite

instance keeps_runFg (args : List Text) : Keeps R (runFg args) := by
  have hjob : ∀ spec : Text, Keeps R (do
      let n ← jobOperand spec
      let (js, found) := (← get).jobs.remove n
      modifyJobs fun _ => js
      match found with
      | none => fail (noSuchJob spec)
      | some job =>
        writeOut (job.command ++ "\n")
        signalJob job .cont
        runForeground job.markContinued) := by
    refine fun spec => .bind fun n => .bind fun s => .bind fun _ => ?_
    split
    · infer_instance
    · infer_instance
  exact .bind fun s => .ite (.bind fun _ => hjob _) (hjob _)

instance keeps_backgroundOperand (spec : Text) : Keeps R (backgroundOperand spec) := by
  refine .bind fun n => .bind fun s => ?_
  split
  · infer_instance
  · infer_instance

instance keeps_runBg (args : List Text) : Keeps R (runBg args) := keeps_bind

instance keeps_waitJob (n : Nat) : Keeps R (waitJob n) := by
  refine .iterate (fun _ => .bind fun s => ?_) ()
  split
  · infer_instance
  · refine .bind fun r => ?_
    rcases r with e | _ | pid
    · refine .ite (.bind fun r => ?_) inferInstance
      cases r with
      | some sig => infer_instance
      | none => infer_instance
    · infer_instance
    · infer_instance

instance keeps_waitJobs (ns : List Nat) : Keeps R (waitJobs ns) := by
  induction ns with
  | nil => exact keeps_pure _
  | cons n ns ih =>
      refine .bind fun r => ?_
      cases r with
      | some status => infer_instance
      | none => infer_instance

instance keeps_waitOperand (arg : Text) : Keeps R (waitOperand arg) := by
  refine .bind fun s => .ite inferInstance ?_
  split
  · infer_instance
  · infer_instance

instance keeps_waitOperands (status : Int) (args : List Text) :
    Keeps R (waitOperands status args) := by
  induction args generalizing status with
  | nil => exact keeps_setStatus status
  | cons arg args ih =>
      refine .bind fun r => ?_
      cases r with
      | none => exact ih 127
      | some n =>
          refine .bind fun r => ?_
          cases r with
          | some interrupted => infer_instance
          | none =>
              refine .bind fun s => ?_
              split
              · infer_instance
              · infer_instance

instance keeps_runWait (args : List Text) : Keeps R (runWait args) := by
  refine .ite (.bind fun s => .bind fun r => ?_) inferInstance
  cases r with
  | some status => infer_instance
  | none => infer_instance

instance keeps_killOperand (signal : Option Signal) (target : Text) :
    Keeps R (killOperand signal target) := by
  refine .ite (.bind fun n => .bind fun s => ?_) ?_
  · split
    · infer_instance
    · infer_instance
    · infer_instance
  · split
    · infer_instance
    · refine .bind fun r => ?_
      cases r with
      | ok u => infer_instance
      | error e => infer_instance

instance keeps_killOperands (signal : Option Signal) (status : Int) (targets : List Text) :
    Keeps R (killOperands signal status targets) := by
  induction targets generalizing status with
  | nil => exact keeps_setStatus status
  | cons target targets ih =>
      refine .bind fun r => ?_
      cases r with
      | ok u => infer_instance
      | error s => infer_instance

instance keeps_runKill (args : List Text) : Keeps R (runKill args) := by
  unfold runKill
  split
  · infer_instance
  · infer_instance
  · refine .bind fun r => ?_
    obtain ⟨number, operands⟩ := r
    cases number with
    | none => infer_instance
    | some number => infer_instance

instance keeps_setTraps (action : Option TrapAction) (status : Int) (conditions : List Text) :
    Keeps R (setTraps action status conditions) := by
  have hset : ∀ number, Keeps R (setTrap number action) := by
    intro number
    have hchange : Keeps R (modify fun sh => { sh with traps := sh.traps.set number action }) :=
      .modify (fun _ => rfl) fun _ => rfl
    refine .bind fun s => .ite inferInstance (.bind fun _ => ?_)
    split
    · infer_instance
    · infer_instance
  induction conditions generalizing status with
  | nil => exact keeps_pure _
  | cons condition conditions ih =>
      unfold setTraps
      split
      · infer_instance
      · infer_instance

instance keeps_runTrapCommand (args : List Text) : Keeps R (runTrapCommand args) := keeps_ite

instance keeps_applyOptions (options : CommandShell.Options) : Keeps R (applyOptions options) := by
  have hset : Keeps R (modify fun sh => { sh with options := options }) :=
    .modify (fun _ => rfl) fun _ => rfl
  have hoff : Keeps R (modify fun sh => { sh with options := sh.options.set .monitor false }) :=
    .modify (fun _ => rfl) fun _ => rfl
  have hfound : ∀ fd, Keeps R (modify fun sh => { sh with terminal := some fd }) :=
    fun fd => .modify (fun _ => rfl) fun _ => rfl
  have hfind : Keeps R findTerminal := by
    refine .bind fun r => ?_
    cases r with
    | ok fd => infer_instance
    | error e => infer_instance
  have hcontrol : Keeps R setUpJobControl := by
    refine .bind fun terminal => ?_
    cases terminal with
    | some fd => exact hfound fd
    | none => exact hoff
  exact keeps_bind

instance keeps_takeReturn (r : Except Stop Unit) : Keeps R (takeReturn r) := by
  unfold takeReturn
  split
  · infer_instance
  · infer_instance

instance keeps_sourceText (name : Text) : Keeps R (sourceText name) := by
  have hfirst : ∀ paths, Keeps R (firstRegular? paths) := by
    intro paths
    induction paths with
    | nil => exact keeps_pure _
    | cons p paths ih => exact keeps_bind
  have hpath : Keeps R (sourcePath name) := keeps_ite
  refine .bind fun path => .bind fun r => ?_
  cases r with
  | ok data => infer_instance
  | error e => infer_instance

end

/-! ## Commands that change parameters -/

/-- Parameters are in no scope. -/
instance keeps_withParams (ps : List Text) : Keeps nests (modifyVariables (·.withParams ps)) :=
  ⟨fun _ => ⟨rfl, .refl _⟩⟩

instance keeps_runSet (args : List Text) : Keeps nests (runSet args) := by
  have h : ∀ settings, Keeps nests (applySettings settings) := by
    intro settings
    unfold applySettings
    cases settings.listing with
    | some asCommands =>
        cases settings.params with
        | some params => infer_instance
        | none => infer_instance
    | none =>
        cases settings.params with
        | some params => infer_instance
        | none => infer_instance
  exact keeps_ite

theorem Variables.shift?_frames {vs vs' : Variables} {n : Nat} (h : vs.shift? n = some vs') :
    vs'.frames = vs.frames := by
  unfold Variables.shift? at h
  split at h
  · cases h
    rfl
  · cases h

instance keeps_runShift (args : List Text) : Keeps nests (runShift args) := by
  have hshift : ∀ n, Keeps nests (updateVariables fun vs => match vs.shift? n with
      | none => .error (.execution "can't shift that many")
      | some vs => .ok vs) := by
    refine fun n => .updateVariables fun s vs h => ?_
    split at h
    · cases h
    · cases h
      exact Nests.variables (.of_eq (Variables.shift?_frames ‹_›))
  unfold runShift
  dsimp only
  split
  · infer_instance
  · split
    · infer_instance
    · infer_instance

/-- A sourced file is counted for as long as it runs. -/
instance keeps_runDot [Unwinds ev] (args : List Text) : Keeps nests (runDot ev args) := by
  have hbody : ∀ text, Keeps nests (do
      modify fun sh => { sh with sourceDepth := sh.sourceDepth + 1 }
      setStatus 0
      let result ← attempt (ev.source text)
      modify fun sh => { sh with sourceDepth := sh.sourceDepth - 1 }
      return result : ShellM (Except Stop Unit)) := by
    refine fun text => .bracket
      (fun sh => { sh with sourceDepth := sh.sourceDepth + 1, status := 0 })
      (fun sh => { sh with sourceDepth := sh.sourceDepth - 1 }) ?_
    rintro s t ⟨hscopes, hframes⟩
    refine ⟨?_, hframes⟩
    have hsources : t.sourceDepth = s.sourceDepth + 1 := congrArg Scopes.sources hscopes
    show { t.scopes with sources := t.sourceDepth - 1 } = s.scopes
    rw [hscopes, hsources]
    rfl
  have hwith : ∀ params (body : ShellM (Except Stop Unit)) [Keeps nests body],
      Keeps nests (Commands.withParams params body) := fun _ _ _ => keeps_ite
  unfold runDot
  cases args with
  | nil => infer_instance
  | cons name params => infer_instance

/-- What runs with parameters of its own and cannot fail leaves those from before. -/
theorem keeps_params_withParams (first : Text) (params : List Text)
    (body : ShellM (Except Stop Unit)) [Unfailing body] :
    Keeps (same Shell.params) (Commands.withParams (first :: params) body) := by
  constructor
  intro s
  show ((body >>= fun result => modifyVariables (·.withParams s.params) >>= fun _ =>
    pure result : ShellM _).startedIn { s with
      «variables» := s.variables.withParams (first :: params) }).Always _
  exact always_unfailing_bind (P := fun _ => True) (Host.Program.always_of (fun _ => trivial) _)
    fun _ _ _ => rfl

/-- After a sourced file with arguments the parameters are those from before. -/
theorem keeps_params_runDot (name first : Text) (params : List Text) :
    Keeps (same Shell.params) (runDot ev (name :: first :: params)) := by
  have hwith : ∀ (body : ShellM (Except Stop Unit)) [Unfailing body],
      Keeps (same Shell.params) (Commands.withParams (first :: params) body) :=
    fun body _ => keeps_params_withParams first params body
  exact keeps_bind

/-! ## All built-in commands -/

instance keeps_runEval [Unwinds ev] (args : List Text) : Keeps nests (runEval ev args) :=
  keeps_bind

instance keeps_runCommand [Unwinds ev] (args : List Text) : Keeps nests (runCommand ev args) :=
  keeps_bind

instance keeps_action [Unwinds ev] (b : Builtin) (args : List Text) :
    Keeps nests (action ev b args) := by
  cases b with
  | test => exact keeps_bind
  | type => exact keeps_describeAll true 0 args
  | echo => exact keeps_bind
  | break_ => exact keeps_leaveLoops .breaking args
  | continue_ => exact keeps_leaveLoops .continuing args
  | _ =>
      unfold action
      infer_instance

instance keeps_runBuiltin [Unwinds ev] (b : Builtin) (name : Text) (args : List Text) :
    Keeps nests (runBuiltin ev b name args) := by
  refine .bind fun r => ?_
  cases r with
  | ok u => infer_instance
  | error s => infer_instance

end CommandShell.Shell
