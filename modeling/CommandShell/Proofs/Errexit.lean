import CommandShell.Proofs.ChildStatus
import CommandShell.Proofs.Lockstep.Constructs

/-!
# Where errexit does not matter

With `set -e` the shell ends after a command that failed, unless its status is asked for. A place where
it is asked for hands that on to the commands inside, with exceptions: texts that `eval`, `.` and traps
run, the stages of a pipeline, subshells, background jobs and command substitutions all start at a place
where it is not asked for.

`errexit_unobserved` says that there are no other exceptions. A run that comes upon none of them, and does
not look at the options, is the same run with `errexit` on and off, if it starts where the status is asked
for, or with a command in which everything that may fail is under a condition (`Node.IsTested`). The flag
gets everywhere in such a run, so a watch that gives up where it is missing never does
(`innerWatch_node`). `not_tested_imp_errexit_unobserved` shows that the exceptions do matter: a
subshell in a condition can end early.
-/

namespace CommandShell

open Script (Part Word Redirect Node Command CaseArm)

namespace Script

mutual

/-- Whether a part holds a command to be substituted. -/
def Part.runsCommand : Part → Bool
  | .doubleQuoted ps => Part.anyRunsCommand ps
  | .param _ _ _ arg _ => Part.anyRunsCommand arg
  | .arithmetic ps => Part.anyRunsCommand ps
  | .command _ => true
  | .literal _ | .escaped _ | .singleQuoted _ => false

/-- Whether one of the parts holds a command to be substituted. -/
def Part.anyRunsCommand : List Part → Bool
  | [] => false
  | p :: ps => p.runsCommand || Part.anyRunsCommand ps

end

/-- The words of a redirection. -/
def Redirect.words : Redirect → List Word
  | .word _ _ w => [w]
  | .hereDoc _ _ (.body w) => [w]
  | .hereDoc _ _ (.pending _) => []

/-- The own words of a command. Commands inside it are not looked at. -/
def Command.words : Command → List Word
  | .simple assigns words redirects => assigns ++ words ++ redirects.flatMap Redirect.words
  | .forIn _ (some words) _ => words
  | .caseOf subject arms => subject :: arms.flatMap fun | .mk patterns _ => patterns
  | .subshell _ redirects | .redirected _ redirects => redirects.flatMap Redirect.words
  | _ => []

/-- Whether a command runs those inside it in processes of their own. -/
def Command.parts : Command → Bool
  | .pipeline _ | .background _ | .subshell .. => true
  | _ => false

/-- Everything in a command that may fail is under a condition: in the list before `then` or `do`, in
front of `&&` or `||`, or after `!`. -/
inductive Node.IsTested : Node → Prop
  | not (body : Node) (line : Nat) : IsTested (.mk (.not body) line)
  | and {left right : Node} {line : Nat} (h : IsTested right) : IsTested (.mk (.and left right) line)
  | or {left right : Node} {line : Nat} (h : IsTested right) : IsTested (.mk (.or left right) line)
  | list {left right : Node} {line : Nat} (hl : IsTested left) (hr : IsTested right) :
    IsTested (.mk (.list left right) line)
  | ifThen {cond body : Node} {other : Option Node} {line : Nat} (h : IsTested body)
    (hother : ∀ n ∈ other, IsTested n) : IsTested (.mk (.ifThen cond body other) line)
  | whileDo {cond body : Node} {line : Nat} (h : IsTested body) : IsTested (.mk (.whileDo cond body) line)
  | untilDo {cond body : Node} {line : Nat} (h : IsTested body) : IsTested (.mk (.untilDo cond body) line)
  | forIn {var : Text} {items : Option (List Word)} {body : Node} {line : Nat} (h : IsTested body) :
    IsTested (.mk (.forIn var items body) line)
  | caseOf {subject : Word} {arms : List CaseArm} {line : Nat}
    (h : ∀ patterns body, .mk patterns (some body) ∈ arms → IsTested body) :
    IsTested (.mk (.caseOf subject arms) line)
  | brace {body : Node} {line : Nat} (h : IsTested body) : IsTested (.mk (.brace body) line)
  | redirected {body : Node} {redirects : List Redirect} {line : Nat} (h : IsTested body) :
    IsTested (.mk (.redirected body redirects) line)
  | function (name : Text) (body : Node) (line : Nat) : IsTested (.mk (.function name body) line)

theorem Node.IsTested.isSimple {node : Node} (h : node.IsTested) : node.isSimple = false := by
  cases h <;> rfl

end Script

namespace Shell

open Commands (listsOptions action runBuiltin runExec)
open Expansion
open Host (Call Event abandonCode)
open Host.Program (Comes Outcome Reaches)

variable {ev ev' : Evaluator} {f : Node → Place → ShellM Unit}

/-! ## Words without commands -/

mutual

theorem partPieces_congr (ev ev' : Evaluator) (q : Quoting) : ∀ p : Part, p.runsCommand = false →
    partPieces ev q p = partPieces ev' q p
  | .literal _, _ | .escaped _, _ | .singleQuoted _, _ => by
      unfold partPieces
      rfl
  | .doubleQuoted ps, h => by
      unfold partPieces
      rw [pieces_congr ev ev' .quoted ps h]
  | .param name op colon arg inQuotes, h => by
      have harg : (fun q => pieces ev q arg) = fun q => pieces ev' q arg :=
        funext fun q => pieces_congr ev ev' q arg h
      unfold partPieces
      rw [harg]
  | .command _, h => nomatch h
  | .arithmetic ps, h => by
      unfold partPieces
      rw [pieces_congr ev ev' .quoted ps h]

theorem pieces_congr (ev ev' : Evaluator) (q : Quoting) : ∀ ps : List Part,
    Part.anyRunsCommand ps = false → pieces ev q ps = pieces ev' q ps
  | [], _ => by
      unfold pieces
      rfl
  | p :: ps, h => by
      obtain ⟨hp, hps⟩ := Bool.or_eq_false_iff.mp h
      unfold pieces
      rw [partPieces_congr ev ev' q p hp, pieces_congr ev ev' q ps hps]

end

/-- No word of a list holds a command to be substituted. -/
def RunNoCommand (ws : List Word) : Prop := ∀ w ∈ ws, Part.anyRunsCommand w.parts = false

/-- What follows a tilde are parts of the word. -/
theorem yields_wordTilde {parts : List Part} (h : Part.anyRunsCommand parts = false) :
    Yields (fun r => ∀ home rest, r = some (home, rest) → Part.anyRunsCommand rest = false)
      (wordTilde parts) := by
  have hnone : Yields (fun r => ∀ home rest, r = some (home, rest) → Part.anyRunsCommand rest = false)
      (pure none : ShellM (Option (Text × List Part))) := by
    apply Yields.pure
    rintro _ _ ⟨⟩
  unfold wordTilde
  split
  · rename_i first rest
    split
    · exact hnone
    · split
      · exact hnone
      · apply Yields.bind
        intro home
        cases home with
        | none => exact hnone
        | some home =>
            apply Yields.pure
            rintro _ _ ⟨⟩
            split
            · exact h
            · exact h
  · exact hnone

theorem wordPieces_congr (ev ev' : Evaluator) {w : Word} (h : Part.anyRunsCommand w.parts = false) :
    wordPieces ev w = wordPieces ev' w := by
  apply (yields_wordTilde h).bind_congr
  intro r hr
  cases r with
  | none => exact pieces_congr ev ev' .bare _ h
  | some r => exact congrArg (· >>= _) (pieces_congr ev ev' .bare _ (hr r.1 r.2 rfl))

theorem wordText_congr (ev ev' : Evaluator) {w : Word} (h : Part.anyRunsCommand w.parts = false) :
    wordText ev w = wordText ev' w := by
  unfold wordText
  rw [wordPieces_congr ev ev' h]

theorem quotedText_congr (ev ev' : Evaluator) {ps : List Part} (h : Part.anyRunsCommand ps = false) :
    quotedText ev ps = quotedText ev' ps := by
  unfold quotedText
  rw [pieces_congr ev ev' .quoted ps h]

theorem arguments_congr (ev ev' : Evaluator) {ws : List Word} (h : RunNoCommand ws) :
    arguments ev ws = arguments ev' ws := by
  induction ws with
  | nil => rfl
  | cons w ws ih =>
      obtain ⟨hw, hws⟩ := List.forall_mem_cons.mp h
      unfold arguments
      rw [wordPieces_congr ev ev' hw, ih hws]

theorem assignedValue_congr (ev ev' : Evaluator) {ps : List Part} (h : Part.anyRunsCommand ps = false)
    (first : Bool) (done : Text) : assignedValue ev first done ps = assignedValue ev' first done ps := by
  induction ps generalizing first done with
  | nil => rfl
  | cons p ps ih =>
      obtain ⟨hp, hps⟩ := Bool.or_eq_false_iff.mp h
      have hquoted : quotedText ev [p] = quotedText ev' [p] :=
        quotedText_congr ev ev' (Bool.or_eq_false_iff.mpr ⟨hp, rfl⟩)
      have hnext : ∀ next, assignedValue ev false (done ++ next) ps =
          assignedValue ev' false (done ++ next) ps := fun next => ih hps false _
      unfold assignedValue
      cases p with
      | literal t => exact bind_congr hnext
      | _ => exact (congrArg (· >>= _) hquoted).trans (bind_congr hnext)

theorem assignment_congr (ev ev' : Evaluator) {w : Word} (h : Part.anyRunsCommand w.parts = false) :
    assignment ev w = assignment ev' w := by
  unfold assignment
  dsimp only
  split
  · rename_i t rest hparts
    rw [hparts] at h
    split
    · rfl
    · rename_i name start _
      have hvalue : Part.anyRunsCommand (if start.isEmpty then rest else .literal start :: rest) = false := by
        split
        · exact h
        · exact h
      rw [assignedValue_congr ev ev' hvalue]
  · rfl

theorem assignments_congr (ev ev' : Evaluator) {ws : List Word} (h : RunNoCommand ws) :
    assignments ev ws = assignments ev' ws := by
  induction ws with
  | nil => rfl
  | cons w ws ih =>
      obtain ⟨hw, hws⟩ := List.forall_mem_cons.mp h
      unfold assignments
      rw [assignment_congr ev ev' hw, ih hws]

theorem assignWords_congr (ev ev' : Evaluator) {ws : List Word} (h : RunNoCommand ws) :
    assignWords ev ws = assignWords ev' ws := by
  induction ws with
  | nil => rfl
  | cons w ws ih =>
      obtain ⟨hw, hws⟩ := List.forall_mem_cons.mp h
      unfold assignWords
      rw [assignment_congr ev ev' hw, ih hws]

theorem openTarget_congr (ev ev' : Evaluator) {r : Redirect} (h : RunNoCommand r.words) :
    openTarget ev r = openTarget ev' r := by
  cases r with
  | word fd op w =>
      have hw : wordText ev w = wordText ev' w := wordText_congr ev ev' (h w List.mem_cons_self)
      exact congrArg (· >>= openWord fd op) hw
  | hereDoc fd op doc =>
      cases doc with
      | pending n => rfl
      | body w =>
          have hw : hereDocText ev w = hereDocText ev' w := by
            unfold hereDocText
            split
            · rfl
            · exact quotedText_congr ev ev' (h w List.mem_cons_self)
          exact congrArg (· >>= fun t => some <$> hereDocPipe t) hw

theorem applyRedirects_congr (ev ev' : Evaluator) {rs : List Redirect}
    (h : RunNoCommand (rs.flatMap Redirect.words)) (save : Bool) :
    applyRedirects ev save rs = applyRedirects ev' save rs := by
  induction rs with
  | nil => rfl
  | cons r rs ih =>
      obtain ⟨hr, hrs⟩ := List.forall_mem_append.mp h
      unfold applyRedirects
      rw [openTarget_congr ev ev' hr, ih hrs]

theorem withRedirects_congr (ev ev' : Evaluator) {rs : List Redirect}
    (h : RunNoCommand (rs.flatMap Redirect.words)) (body : ShellM Unit) :
    withRedirects ev rs body = withRedirects ev' rs body := by
  unfold withRedirects
  rw [applyRedirects_congr ev ev' h]

/-! ## Where the flag gets to -/

/-- A way to run commands that is an evaluator's own where the status is asked for, and for commands in
which everything that may fail is under a condition. -/
def AgreesTested (ev : Evaluator) (f : Node → Place → ShellM Unit) : Prop :=
  ∀ node place, place.isTested = true ∨ node.IsTested → f node place = ev.node node place

theorem runExec_congr {redirects : List Redirect} (hr : RunNoCommand (redirects.flatMap Redirect.words))
    (args : List Text) (assigned : List (Text × Text)) :
    runExec { ev with node := f } args assigned redirects = runExec ev args assigned redirects := by
  unfold runExec
  rw [applyRedirects_congr { ev with node := f } ev hr]

theorem runExternal_congr {redirects : List Redirect}
    (hr : RunNoCommand (redirects.flatMap Redirect.words)) (args : List Text)
    (assigned : List (Text × Text)) (place : Place) :
    runExternal { ev with node := f } args assigned redirects place =
      runExternal ev args assigned redirects place := by
  have hreport : ∀ body, withRedirects { ev with node := f } redirects body = withRedirects ev redirects body :=
    withRedirects_congr _ _ hr
  have hfork : ∀ text body, forkJob { ev with node := f } text body = forkJob ev text body := fun _ _ => rfl
  unfold runExternal
  simp only [hreport, hfork, applyRedirects_congr { ev with node := f } ev hr]

theorem callBuiltin_congr {redirects : List Redirect}
    (hr : RunNoCommand (redirects.flatMap Redirect.words)) (b : Builtin) (name : Text) (args : List Text)
    (assigned : List (Text × Text)) :
    callBuiltin { ev with node := f } b name args assigned redirects =
      callBuiltin ev b name args assigned redirects := by
  unfold callBuiltin
  rw [runExec_congr hr, withRedirects_congr { ev with node := f } ev hr]

section

variable (h : AgreesTested ev f)

include h

/-- The body of a function is tested where the call is. -/
theorem callFunction_congr {redirects : List Redirect} {place : Place}
    (hr : RunNoCommand (redirects.flatMap Redirect.words)) (hplace : place.isTested = true) (body : Node)
    (params : List Text) (assigned : List (Text × Text)) :
    callFunction { ev with node := f } body params assigned redirects place =
      callFunction ev body params assigned redirects place := by
  have hbody : f body { isTested := place.isTested } = ev.node body { isTested := place.isTested } :=
    h body _ (.inl hplace)
  unfold callFunction
  simp only [withRedirects_congr { ev with node := f } ev hr, hbody]

theorem runArguments_congr {functions : Table Node} {redirects : List Redirect} {place : Place}
    (hr : RunNoCommand (redirects.flatMap Redirect.words))
    (hplace : ∀ name body, functions.get? name = some body → place.isTested = true) (args : List Text)
    (assigned : List (Text × Text)) :
    runArguments { ev with node := f } functions args assigned redirects place =
      runArguments ev functions args assigned redirects place := by
  have hexternal : runExternal { ev with node := f } args assigned redirects place =
      runExternal ev args assigned redirects place := runExternal_congr hr args assigned place
  unfold runArguments
  cases args with
  | nil => rfl
  | cons name operands =>
      dsimp only
      split
      · exact hexternal
      · split
        · exact callFunction_congr h hr (hplace name _ ‹_›) _ operands assigned
        · split
          · exact callBuiltin_congr hr _ name operands assigned
          · exact hexternal

theorem runSimple_congr {assigns words : List Word} {redirects : List Redirect} {place : Place}
    (hwords : RunNoCommand (Command.simple assigns words redirects).words) (hplace : place.isTested = true) :
    runSimple { ev with node := f } assigns words redirects place =
      runSimple ev assigns words redirects place := by
  obtain ⟨hrest, hr⟩ := List.forall_mem_append.mp hwords
  obtain ⟨ha, hw⟩ := List.forall_mem_append.mp hrest
  have hassigns : runAssignments { ev with node := f } assigns redirects =
      runAssignments ev assigns redirects := by
    unfold runAssignments
    simp only [assignWords_congr { ev with node := f } ev ha, withRedirects_congr { ev with node := f } ev hr]
  have hrun : ∀ functions args assigned,
      runArguments { ev with node := f } functions args assigned redirects place =
        runArguments ev functions args assigned redirects place :=
    fun functions args assigned => runArguments_congr h hr (fun _ _ _ => hplace) args assigned
  unfold runSimple
  simp only [arguments_congr { ev with node := f } ev hw, assignments_congr { ev with node := f } ev ha,
    hassigns, hrun]

theorem runLoop_congr {cond body : Node} {place : Place} (hbody : place.isTested = true ∨ body.IsTested)
    (untilZero : Bool) :
    runLoop { ev with node := f } cond body untilZero place = runLoop ev cond body untilZero place := by
  -- the condition is tested wherever the loop stands, the body as the loop is or by its own shape
  have hround : loopRound { ev with node := f } cond body untilZero place =
      loopRound ev cond body untilZero place := by
    funext status
    unfold loopRound
    simp only [h cond place.tested (.inl rfl), h body place.notLast hbody]
  unfold runLoop
  rw [hround]

theorem runFor_congr {body : Node} {place : Place} (hbody : place.isTested = true ∨ body.IsTested)
    (var : Text) (items : List Text) :
    runFor { ev with node := f } var items body place = runFor ev var items body place := by
  have hitems : ∀ status, forItems { ev with node := f } var body place status items =
      forItems ev var body place status items := by
    induction items with
    | nil => exact fun _ => rfl
    | cons item items ih =>
        intro status
        unfold forItems
        simp only [h body place.notLast hbody, ih]
  unfold runFor
  rw [hitems]

theorem runArms_congr {arms : List CaseArm} {place : Place}
    (hwords : RunNoCommand (arms.flatMap fun | .mk patterns _ => patterns))
    (hbody : ∀ patterns body, .mk patterns (some body) ∈ arms → place.isTested = true ∨ body.IsTested)
    (subject : Text) :
    runArms { ev with node := f } subject place arms = runArms ev subject place arms := by
  -- patterns are words, which run nothing; the bodies are what the induction on the arms is about
  have hfits : ∀ {ws : List Word}, RunNoCommand ws →
      fitsAny { ev with node := f } subject ws = fitsAny ev subject ws := by
    intro ws hws
    induction ws with
    | nil => rfl
    | cons w ws ih =>
        obtain ⟨hw, hws⟩ := List.forall_mem_cons.mp hws
        unfold fitsAny wordPattern
        rw [wordPieces_congr { ev with node := f } ev hw, ih hws]
  induction arms with
  | nil => rfl
  | cons arm arms ih =>
      obtain ⟨patterns, body⟩ := arm
      obtain ⟨hpatterns, hrest⟩ := List.forall_mem_append.mp hwords
      have harms := ih hrest fun ps b hb => hbody ps b (List.mem_cons_of_mem _ hb)
      unfold runArms
      rw [hfits hpatterns, harms]
      cases body with
      | none => rfl
      | some body =>
          dsimp only
          rw [h body place (hbody patterns body List.mem_cons_self)]

/-- A command that runs no other process hands the flag on to all that it runs. -/
theorem runKind_congr {node : Node} {place : Place} (hparts : node.command.parts = false)
    (hwords : RunNoCommand node.command.words) (hplace : place.isTested = true ∨ node.IsTested) :
    runKind { ev with node := f } place node.command = runKind ev place node.command := by
  have htested : ∀ body, f body place.tested = ev.node body place.tested := fun body => h body _ (.inl rfl)
  obtain ⟨c, line⟩ := node
  replace hparts : c.parts = false := hparts
  replace hwords : RunNoCommand c.words := hwords
  show runKind { ev with node := f } place c = runKind ev place c
  cases c with
  | simple assigns words redirects =>
      -- no simple command is `IsTested`, so the flag comes from its place
      have hflag : place.isTested = true := by
        rcases hplace with hplace | hnode
        · exact hplace
        · cases hnode
      exact congrArg (· >>= fun _ => runTraps ev) (runSimple_congr h hwords hflag)
  | pipeline | background | subshell => cases hparts
  | not body => exact congrArg (· >>= _) (htested body)
  | and left right =>
      have hright : f right place = ev.node right place :=
        h right place (hplace.imp_right fun | .and hr => hr)
      unfold runKind
      simp only [htested, hright]
  | or left right =>
      have hright : f right place = ev.node right place :=
        h right place (hplace.imp_right fun | .or hr => hr)
      unfold runKind
      simp only [htested, hright]
  | list left right =>
      have hleft : f left place.notLast = ev.node left place.notLast :=
        h left place.notLast (hplace.imp_right fun | .list hl _ => hl)
      have hright : f right place = ev.node right place :=
        h right place (hplace.imp_right fun | .list _ hr => hr)
      unfold runKind
      simp only [hleft, hright]
  | ifThen cond body other =>
      have hbody : f body place = ev.node body place :=
        h body place (hplace.imp_right fun | .ifThen hb _ => hb)
      have hother : ∀ n ∈ other, f n place = ev.node n place :=
        fun n hn => h n place (hplace.imp_right fun | .ifThen _ ho => ho n hn)
      unfold runKind runIf
      cases other with
      | none => simp only [htested, hbody]
      | some n => simp only [htested, hbody, hother n rfl]
  | whileDo cond body => exact runLoop_congr h (hplace.imp_right fun | .whileDo hb => hb) false
  | untilDo cond body => exact runLoop_congr h (hplace.imp_right fun | .untilDo hb => hb) true
  | forIn var items body =>
      have hbody : place.isTested = true ∨ body.IsTested := hplace.imp_right fun | .forIn hb => hb
      have hitems : loopItems { ev with node := f } items = loopItems ev items := by
        cases items with
        | none => rfl
        | some words => exact arguments_congr _ _ hwords
      unfold runKind
      simp only [hitems, runFor_congr h hbody]
  | caseOf subject arms =>
      obtain ⟨hsubject, hpatterns⟩ := List.forall_mem_cons.mp hwords
      have hbodies : ∀ patterns body, .mk patterns (some body) ∈ arms →
          place.isTested = true ∨ body.IsTested :=
        fun patterns body harm => hplace.imp_right fun | .caseOf hb => hb patterns body harm
      unfold runKind
      simp only [wordText_congr { ev with node := f } ev hsubject, runArms_congr h hpatterns hbodies]
  | brace body => exact h body place (hplace.imp_right fun | .brace hb => hb)
  | redirected body redirects =>
      have hbody : f body place.notLast = ev.node body place.notLast :=
        h body place.notLast (hplace.imp_right fun | .redirected hb => hb)
      have hrun : withRedirects { ev with node := f } redirects (f body place.notLast) =
          withRedirects ev redirects (f body place.notLast) := withRedirects_congr _ _ hwords _
      exact hrun.trans (congrArg (withRedirects ev redirects) hbody)
  | function name body => rfl

end

/-- Built-in commands run no commands but through texts and names. -/
theorem runBuiltin_congr (b : Builtin) (name : Text) (args : List Text) :
    runBuiltin { ev with node := f } b name args = runBuiltin ev b name args := by
  have haction : action { ev with node := f } b args = action ev b args := by
    cases b with
    | exec => exact runExec_congr (fun _ hw => absurd hw List.not_mem_nil) args []
    | _ => rfl
  unfold runBuiltin
  rw [haction]

/-! ## Watches -/

/-- Admits commands that start no process for commands inside them and run no command in their words, as
long as no text is run as a script, and does not admit what shows the options. -/
def innerWatch : Watch where
  admits _ node := !node.command.parts &&
    node.command.words.all fun w => !Part.anyRunsCommand w.parts && !w.shows ['-']
  admitsBuiltin b args := b != .set || !listsOptions args
  admitsTexts := false
  accepts _ _ _ := true

/-- The same watch, which also gives up after a command whose failure would count with `errexit`. -/
def testedWatch : Watch where
  admits := innerWatch.admits
  admitsBuiltin := innerWatch.admitsBuiltin
  admitsTexts := false
  accepts _ node place := !node.isSimple || place.isTested

/-- Nothing comes after a watch gave up. -/
theorem giveUpUnless_congr {α : Type} {b : Bool} {x y : ShellM α} (h : b = true → x = y) :
    (do giveUpUnless b; x) = (do giveUpUnless b; y) := by
  cases b with
  | true => exact h rfl
  | false =>
      have hleave : ∀ z : ShellM α, (do leave abandonCode; z) = leave abandonCode :=
        fun z => leave_bind abandonCode fun _ => z
      exact (hleave x).trans (hleave y).symm

theorem watchedNode_congr (h : AgreesTested ev f) {node : Node} {place : Place}
    (hplace : place.isTested = true ∨ node.IsTested) :
    watchedNode testedWatch { ev with node := f } node place = watchedNode innerWatch ev node place := by
  have haccepts : ∀ s : Shell, testedWatch.accepts s node place = true := by
    intro s
    rcases hplace with hplace | hnode
    · exact Bool.or_eq_true_iff.mpr (.inr hplace)
    · exact Bool.or_eq_true_iff.mpr (.inl ((Bool.not_eq_true' _).mpr hnode.isSimple))
  have hkind : (!node.command.parts &&
      node.command.words.all fun w => !Part.anyRunsCommand w.parts && !w.shows ['-']) = true →
      runKind { ev with node := f } place node.command = runKind ev place node.command := by
    intro hadmits
    obtain ⟨hparts, hwords⟩ := Bool.and_eq_true_iff.mp hadmits
    have hrun : RunNoCommand node.command.words := fun w hw =>
      (Bool.not_eq_true' _).mp (Bool.and_eq_true_iff.mp (List.all_eq_true.mp hwords w hw)).1
    exact runKind_congr h ((Bool.not_eq_true' _).mp hparts) hrun hplace
  unfold watchedNode
  simp only [haccepts]
  refine bind_congr fun s => giveUpUnless_congr fun hadmits => bind_congr fun _ => ?_
  rw [hkind hadmits]
  rfl

/-- The two watches differ in commands only, and not where the status is asked for, nor for commands in
which everything that may fail is under a condition. -/
theorem watchedOf_testedWatch (depth : Nat) : ∃ f, AgreesTested (watchedOf innerWatch depth) f ∧
    watchedOf testedWatch depth = { watchedOf innerWatch depth with node := f } := by
  induction depth with
  | zero => exact ⟨_, fun _ _ _ => rfl, rfl⟩
  | succ depth ih =>
      obtain ⟨f, hf, hev⟩ := ih
      -- a command that is called by its name starts without the flag, but can call no function
      have hnone : ∀ name body, (Table.empty : Table Node).get? name = some body →
          ({} : Place).isTested = true := by
        intro name body hget
        have hempty : (none : Option Node) = some body := hget
        cases hempty
      refine ⟨watchedNode testedWatch (watchedOf testedWatch depth), fun node place hplace => ?_, ?_⟩
      · rw [hev]
        exact watchedNode_congr hf hplace
      -- neither watch admits a text, so both give up before they run one
      · have hsource : ∀ t, (do giveUpUnless false; runText (watchedOf testedWatch depth) t) =
            (do giveUpUnless false; runText (watchedOf innerWatch depth) t) :=
          fun t => giveUpUnless_congr nofun
        have hcommand : ∀ args, runArguments (watchedOf testedWatch depth) .empty args [] [] {} =
            runArguments (watchedOf innerWatch depth) .empty args [] [] {} := by
          intro args
          rw [hev]
          exact runArguments_congr hf (fun _ hw => absurd hw List.not_mem_nil) hnone args []
        have hbuiltin : ∀ b name args, runBuiltin (watchedOf testedWatch depth) b name args =
            runBuiltin (watchedOf innerWatch depth) b name args := by
          intro b name args
          rw [hev]
          exact runBuiltin_congr b name args
        have hbuiltins : (fun b name args => do
            giveUpUnless (testedWatch.admitsBuiltin b args)
            runBuiltin (watchedOf testedWatch depth) b name args) = (watchedOf innerWatch (depth + 1)).builtin := by
          funext b name args
          exact congrArg (giveUpUnless (testedWatch.admitsBuiltin b args) >>= fun _ => ·)
            (hbuiltin b name args)
        exact (Evaluator.mk.injEq ..).mpr ⟨rfl, funext hsource, funext hcommand, hbuiltins⟩

/-- Where it starts so, a watched run does not give up where the flag is missing. -/
theorem innerWatch_node (depth : Nat) {node : Node} {place : Place}
    (h : place.isTested = true ∨ node.IsTested) :
    (watchedOf innerWatch depth).node node place = (watchedOf testedWatch depth).node node place := by
  obtain ⟨f, hf, hev⟩ := watchedOf_testedWatch depth
  rw [hev]
  exact (hf node place h).symm

/-! ## States that differ in the option -/

/-- States that differ in `errexit` or not at all, with nothing else known of them. -/
def upToErrexit (exact : Prop) : Likeness where
  exact := exact
  inv _ _ _ _ := True
  permits _ := True
  answers _ := True

instance upToErrexit_kept (exact : Prop) : (upToErrexit exact).Kept where
  assignWith _ _ _ := trivial
  unset _ _ := trivial
  exportValue _ _ _ := trivial
  shadow _ _ _ := trivial
  openFrame _ := trivial
  closeFrame _ := trivial
  forget _ _ := trivial
  search := alike_searchPath_of_forget fun _ => trivial
  workingDirectory := ⟨trivial, trivial⟩

section

variable {exact : Prop}

/-- No word of a list shows the options. -/
def HideOptions (ws : List Word) : Prop := ∀ w ∈ ws, w.shows ['-'] = false

theorem HideOptions.admitsWords {ws : List Word} (h : HideOptions ws) :
    (upToErrexit exact).AdmitsWords ws := fun w hw => .inr (h w hw)

theorem HideOptions.admitsRedirects {rs : List Redirect} (h : HideOptions (rs.flatMap Redirect.words)) :
    (upToErrexit exact).AdmitsRedirects rs := by
  intro r hr
  have hword : ∀ w ∈ r.words, w.shows ['-'] = false := fun w hw => h w (List.mem_flatMap.mpr ⟨r, hr, hw⟩)
  right
  cases r with
  | word fd op w => exact hword w List.mem_cons_self
  | hereDoc fd op doc =>
      cases doc with
      | pending n => rfl
      | body w => exact hword w List.mem_cons_self

theorem HideOptions.admitsCommand {c : Command} (h : HideOptions c.words) :
    (upToErrexit exact).AdmitsCommand c := by
  cases c with
  | simple assigns words redirects =>
      obtain ⟨hrest, hr⟩ := List.forall_mem_append.mp h
      obtain ⟨ha, hw⟩ := List.forall_mem_append.mp hrest
      exact ⟨HideOptions.admitsWords ha, HideOptions.admitsWords hw, HideOptions.admitsRedirects hr,
        fun _ _ _ _ _ => trivial⟩
  | forIn var items body =>
      cases items with
      | some words => exact HideOptions.admitsWords h
      | none => trivial
  | caseOf subject arms =>
      obtain ⟨hs, ha⟩ := List.forall_mem_cons.mp h
      refine ⟨.inr hs, fun patterns body harm => HideOptions.admitsWords fun w hw => ?_⟩
      exact ha w (List.mem_flatMap.mpr ⟨_, harm, hw⟩)
  | subshell body redirects => exact HideOptions.admitsRedirects h
  | redirected body redirects => exact HideOptions.admitsRedirects h
  | _ => trivial

theorem testedWatch_ensures (exact : Prop) : testedWatch.Ensures (upToErrexit exact) where
  admits {s node} h := by
    refine HideOptions.admitsCommand fun w hw => ?_
    have hall := List.all_eq_true.mp (Bool.and_eq_true_iff.mp h).2 w hw
    exact (Bool.not_eq_true' _).mp (Bool.and_eq_true_iff.mp hall).2
  admitsBuiltin {b args} h := by
    refine ⟨fun _ _ _ => trivial, fun hb => .inr ?_, fun _ _ _ _ _ _ _ => trivial⟩
    subst hb
    exact (Bool.not_eq_true' _).mp h
  accepts := .inr fun {s node place} h => by
    rcases Bool.or_eq_true_iff.mp h with hn | hp
    · rw [(Bool.not_eq_true' _).mp hn, Bool.and_false, Bool.false_and]
    · rw [hp, Bool.not_true, Bool.and_false]

end

theorem upToErrexit_like (s : Shell) (on on' : Bool) :
    (upToErrexit False).Like (s.withErrexit on) (s.withErrexit on') := by
  refine ⟨trivial, ⟨on', ?_⟩, False.elim⟩
  show { s with options := _ } = { s with options := (s.options.set .errexit on).set .errexit on' }
  rw [Options.set_set]

/-! ## Main result -/

/-- A run that runs no text as a script, starts no process for commands inside a command, substitutes no
command, and does not show the options: where its status is asked for, or if everything in it that may
fail is under a condition, it makes the same calls and comes to the same result with `errexit` on and off,
and to the same state but for the option. -/
theorem errexit_unobserved (depth : Nat) (node : Node) (place : Place) (s : Shell)
    (es : List Event) (o : Outcome (Except Stop Unit × Shell))
    (hplace : place.isTested = true ∨ node.IsTested)
    (h : (((watchedOf innerWatch depth).node node place).startedIn (s.withErrexit false)).Comes es o)
    (ho : o ≠ .asks (.exit abandonCode)) :
    (((evaluatorOf depth).node node place).startedIn (s.withErrexit false)).Comes es o ∧
      ∃ on, (((evaluatorOf depth).node node place).startedIn (s.withErrexit true)).Comes es
        (o.map fun r => (r.1, r.2.withErrexit on)) := by
  rw [innerWatch_node depth hplace] at h
  -- the run without the watch is the watched one, and the run with the option on differs in it alone
  have hsame := (watched_alike (testedWatch_ensures True) (testedWatch.implies_all _)
    depth).node node place
  have hother := (watched_alike (testedWatch_ensures False) (testedWatch.implies_all _)
    depth).node node place
  rw [watchedOf_all] at hsame hother
  constructor
  · exact (hsame.comes trivial trivial h (fun _ _ => trivial) ho).1
  · obtain ⟨o', ho', hrel⟩ :=
      (hother.follows (upToErrexit_like s false true)).comes h (fun _ _ => trivial) ho
    cases o with
    | done r =>
        cases o' with
        | done r' =>
            obtain ⟨hr, _, ⟨on, ht⟩, _⟩ := hrel
            have heq : r' = (r.1, r.2.withErrexit on) := Prod.ext hr.symm ht
            rw [heq] at ho'
            exact ⟨on, ho'⟩
        | asks c => exact hrel.elim
    | asks c =>
        cases o' with
        | done r' => exact hrel.elim
        | asks c' =>
            have heq : c' = c := hrel
            rw [heq] at ho'
            exact ⟨true, ho'⟩

/-- A command of plain words. -/
def plainCommand (ws : List Text) : Node :=
  .mk (.simple [] (ws.map fun t => .mk t [.literal t] 1) []) 1

/-- The commands `false; :`. -/
def failThenPass : Node :=
  .mk (.list (plainCommand ["false"]) (plainCommand [":"])) 1

/-- The commands of `body` in a subshell. -/
def subshellOf (body : Node) : Node :=
  .mk (.subshell body []) 1

/-- What a child is told before its commands run: that it is one, and that the signals the shell
handles are its own again. -/
def childEvents : List Event :=
  [⟨.fork, .ok .child⟩,
    ⟨.setDisposition .int .default, .default⟩, ⟨.setDisposition .quit .default, .default⟩,
    ⟨.setDisposition .term .default, .default⟩, ⟨.setDisposition .tstp .default, .default⟩,
    ⟨.setDisposition .ttin .default, .default⟩, ⟨.setDisposition .ttou .default, .default⟩]

/-- The commands `false; :` where their status is asked for, and `! { false; :; }` where it is not; no signal
arrives. -/
theorem errexit_unobserved_false_colon :
    (∃ o, (((watchedOf innerWatch 4).node failThenPass { isTested := true }).startedIn
        (({} : Shell).withErrexit false)).Comes
        [⟨.takeArrived, false⟩, ⟨.takeArrived, false⟩] o ∧ o ≠ .asks (.exit abandonCode) ∧
      (((evaluatorOf 4).node failThenPass { isTested := true }).startedIn
        (({} : Shell).withErrexit false)).Comes
        [⟨.takeArrived, false⟩, ⟨.takeArrived, false⟩] o ∧
      ∃ on, (((evaluatorOf 4).node failThenPass { isTested := true }).startedIn
        (({} : Shell).withErrexit true)).Comes
        [⟨.takeArrived, false⟩, ⟨.takeArrived, false⟩]
        (o.map fun r => (r.1, r.2.withErrexit on))) ∧
    Node.IsTested (.mk (.not failThenPass) 1) ∧
    ∃ (on : Bool) (r : Shell), (((evaluatorOf 5).node (.mk (.not failThenPass) 1) {}).startedIn
        (({} : Shell).withErrexit true)).Comes
        [⟨.takeArrived, false⟩, ⟨.takeArrived, false⟩] (.done (.ok (), r.withErrexit on)) := by
  constructor
  · refine ⟨.done (.ok (), _), .step (.step (.here _)), (nomatch ·), ?_⟩
    exact errexit_unobserved 4 _ _ _ _ _ (.inl rfl) (.step (.step (.here _))) (nomatch ·)
  · obtain ⟨-, on, hon⟩ := errexit_unobserved 5 (.mk (.not failThenPass) 1) {} {}
      [⟨.takeArrived, false⟩, ⟨.takeArrived, false⟩] (.done (.ok (), _)) (.inr (.not _ _))
      (.step (.step (.here _))) (nomatch ·)
    exact ⟨.not _ _, on, _, hon⟩

/-- With `errexit` off the child of a subshell goes on after `false` and ends with success. -/
theorem subshell_failThenPass_cleared :
    (((evaluatorOf 5).node (subshellOf failThenPass) { isTested := true }).startedIn
      (({} : Shell).withErrexit false)).Comes
      (childEvents ++ [⟨.takeArrived, false⟩, ⟨.takeArrived, false⟩]) (.asks (.exit 0)) :=
  ⟨_, .step (.step (.step (.step (.step (.step (.step (.step (.step (.here _)))))))))⟩

/-- With `errexit` on it ends after `false`, though the status of the subshell is asked for. -/
theorem subshell_failThenPass_set :
    (((evaluatorOf 5).node (subshellOf failThenPass) { isTested := true }).startedIn
      (({} : Shell).withErrexit true)).Comes (childEvents ++ [⟨.takeArrived, false⟩])
      (.asks (.exit 1)) :=
  ⟨_, .step (.step (.step (.step (.step (.step (.step (.step (.here _))))))))⟩

/-- A subshell whose first command fails, in a condition, ends early with `errexit` on. -/
theorem not_tested_imp_errexit_unobserved :
    ¬ ∀ (depth : Nat) (node : Node) (place : Place) (s : Shell) (es : List Event)
      (o : Outcome (Except Stop Unit × Shell)), place.isTested = true →
      (((evaluatorOf depth).node node place).startedIn (s.withErrexit false)).Comes es o →
      ∃ on, (((evaluatorOf depth).node node place).startedIn (s.withErrexit true)).Comes es
        (o.map fun r => (r.1, r.2.withErrexit on)) := by
  intro h
  obtain ⟨on, k, hk⟩ := h 5 (subshellOf failThenPass) { isTested := true } {} _ _ rfl
    subshell_failThenPass_cleared
  obtain ⟨k', hk'⟩ := subshell_failThenPass_set
  have hsplit : childEvents ++ [⟨.takeArrived, false⟩, ⟨.takeArrived, false⟩] =
      (childEvents ++ [⟨.takeArrived, false⟩]) ++ [(⟨.takeArrived, false⟩ : Event)] := by
    rw [List.append_assoc]; rfl
  rw [hsplit] at hk
  exact nomatch hk'.of_append hk

end Shell

end CommandShell
