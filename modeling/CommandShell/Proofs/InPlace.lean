import CommandShell.Proofs.InPlace.Awaiting

/-!
# The last command of a process

A child has nothing to do after its last command, so an external program takes the place of the
process, and a subshell is run without a fork. `lastCommand_in_place` compares this with the run
that forks as anywhere else. Up to that point the two runs make the same calls. From there on the
child of the second run does, once it is set up, what the process does in the first one, and its
parent waits for it and ends with its status, if no signal arrives in the meantime. The trap of a
signal that arrives would be run by the parent, and is lost in place (`not_lastCommand_in_place`).
-/

namespace CommandShell

/-- A program that makes a call is asked for the answer, or goes on with one. -/
theorem Host.Program.comes_call_iff {α : Type} {c : Host.Call}
    (k : Host.Reply c → Host.Program α) (es : List Host.Event) (d : Host.Call) :
    (Host.Program.call c k).Comes es (.asks d) ↔
      es = [] ∧ d = c ∨ ∃ r es', es = ⟨c, r⟩ :: es' ∧ (k r).Comes es' (.asks d) := by
  constructor
  · rintro ⟨k', h⟩
    cases h with
    | here => exact .inl ⟨rfl, rfl⟩
    | step h => exact .inr ⟨_, _, rfl, k', h⟩
  · rintro (⟨rfl, rfl⟩ | ⟨r, es, rfl, k', h⟩)
    · exact ⟨k, .here _⟩
    · exact ⟨k', .step h⟩

theorem Host.Program.comes_of_asksAfter {α : Type} {p : Host.Program α} {es : List Host.Event}
    {c : Host.Call} (h : p.asksAfter es = some c) : p.Comes es (.asks c) := by
  induction es generalizing p with
  | nil =>
      cases p with
      | done a => cases h
      | call c' k =>
          obtain rfl := Option.some.inj h
          exact ⟨k, .here _⟩
  | cons e es ih =>
      cases p with
      | done a => cases h
      | call c' k =>
          unfold asksAfter at h
          split at h
          · rename_i he
            subst he
            obtain ⟨k', hk⟩ := ih h
            exact ⟨k', .step hk⟩
          · cases h

namespace Shell

open Host (Event Program Reply)
open Host.Program (Comes Reaches Confined)
open Script (Node Redirect Word)

variable {α β : Type}

/-! ## Parts that may run in place -/

/-- Starts an external program. -/
def launch (ev : Evaluator) (path : Text) (args : List Text) (assigned : List (Text × Text))
    (redirects : List Redirect) : ShellM Unit := do
  applyRedirects ev false redirects
  exportAll assigned
  executeProgram path args

/-- Runs the commands of a subshell. -/
def enterSubshell (ev : Evaluator) (body : Node) (redirects : List Redirect) : ShellM Unit := do
  applyRedirects ev false redirects
  ev.node body { isLast := true }

/-- A part that runs in place or in a child, and the state from which it runs in place when the
shell is in the state `s`. -/
inductive InPlacePart (ev : Evaluator) (s : Shell) : Shell → ShellM Unit → Prop
  | program (path : Text) (args : List Text) (assigned : List (Text × Text))
    (redirects : List Redirect) : InPlacePart ev s s (launch ev path args assigned redirects)
  | subshell (body : Node) (redirects : List Redirect) :
    InPlacePart ev s s.asSubshell (enterSubshell ev body redirects)

theorem yields_leaveUnstarted (command reason : Text) (code : Int) :
    Yields (fun _ => False) (leaveUnstarted command reason code) :=
  .bind fun _ => .bind fun never => nomatch never

/-- A program that was started does not come back, and neither does a shell that cannot start it. -/
theorem yields_launch (ev : Evaluator) (path : Text) (args : List Text)
    (assigned : List (Text × Text)) (redirects : List Redirect) :
    Yields (fun _ => False) (launch ev path args assigned redirects) := by
  refine .bind fun _ => .bind fun _ => .bind fun _ => .bind fun e => ?_
  dsimp only
  split
  · exact .bind fun _ => yields_leaveUnstarted _ _ _
  · split
    · exact yields_leaveUnstarted _ _ _
    · split
      · exact yields_leaveUnstarted _ _ _
      · exact yields_leaveUnstarted _ _ _

/-! ## What follows a part -/

/-- A child that runs a part of a script and ends. -/
def endingWith (ev : Evaluator) (body : ShellM Unit) : ShellM α := do
  exitChild ev (← attempt body)

/-- The end of a child after an outcome. -/
def afterLast (ev : Evaluator) (o : Except Stop Unit × Shell) :
    Program (Except Stop Unit × Shell) :=
  (exitChild ev o.1).startedIn o.2

theorem startedIn_endingWith (ev : Evaluator) (body : ShellM Unit) (s : Shell) :
    (endingWith ev body : ShellM Unit).startedIn s = (body.startedIn s).bind (afterLast ev) := by
  show (((body.startedIn s).bind _).bind _) = _
  rw [Host.Program.bind_assoc]
  rfl

/-- An outcome is passed on without a call. It may become that of a shell which ends with the status
it has. -/
def Passes (o : Except Stop Unit × Shell) (p : Program (Except Stop Unit × Shell)) : Prop :=
  p = .done o ∨ o.1 = .ok () ∧ p = .done (.error (.jump (.exit o.2.status)), o.2)

theorem Passes.bind {o : Except Stop Unit × Shell} {p : Program (Except Stop Unit × Shell)}
    {h : Except Stop Unit × Shell → Program (Except Stop Unit × Shell)} (hp : Passes o p)
    (hh : ∀ o, Passes o (h o)) : Passes o (p.bind h) := by
  rcases hp with rfl | ⟨hok, rfl⟩
  · exact hh o
  · rcases hh (.error (.jump (.exit o.2.status)), o.2) with heq | ⟨hno, -⟩
    · exact .inr ⟨hok, heq⟩
    · exact nomatch hno

/-- A child ends alike after what was passed on. -/
theorem Passes.bind_afterLast {o : Except Stop Unit × Shell}
    {p : Program (Except Stop Unit × Shell)} (hp : Passes o p) (ev : Evaluator) :
    p.bind (afterLast ev) = afterLast ev o := by
  rcases hp with rfl | ⟨hok, rfl⟩
  · rfl
  · obtain ⟨r, t⟩ := o
    obtain rfl : r = .ok () := hok
    rfl

theorem Passes.endsWith {o : Except Stop Unit × Shell} {p : Program (Except Stop Unit × Shell)}
    (hp : Passes o p) {code : Int} (ho : EndsWith code o.1 o.2) {only : Host.Call → Prop}
    {ok : Event → Prop} : p.Confined only ok fun o => EndsWith code o.1 o.2 := by
  rcases hp with rfl | ⟨hok, rfl⟩
  · exact .done ho
  · refine .done ⟨?_, .inr ⟨_, rfl⟩, ho.untrapped⟩
    rw [← ho.code, hok]
    rfl

/-- After a child was waited for, the shell ends with the status that is left. -/
def TakesStatus (g : Except Stop Unit × Shell → Program (Except Stop Unit × Shell)) : Prop :=
  ∀ pid status t, t.traps.get? 0 = none → (g (.ok (), t)).Confined (relays pid t.status)
    (childEnded pid status) fun o => EndsWith t.status o.1 o.2

/-! ## Two runs of which one may fork -/

/-- The second program makes the calls of the first one, up to a part that runs in place in the
first one and in a child of its own in the second. -/
inductive Forks (depth : Nat) :
    Program (Except Stop Unit × Shell) → Program (Except Stop Unit × Shell) → Prop
  | same (p : Program (Except Stop Unit × Shell)) : Forks depth p p
  | call {c : Host.Call} {k k' : Reply c → Program (Except Stop Unit × Shell)}
    (h : ∀ r, Forks depth (k r) (k' r)) : Forks depth (.call c k) (.call c k')
  | part {d : Nat} {s t : Shell} {text : Text} {body : ShellM Unit}
    {f g : Except Stop Unit × Shell → Program (Except Stop Unit × Shell)} (hd : d < depth)
    (hpart : InPlacePart (evaluatorOf d) s t body) (huntrapped : s.traps.get? 0 = none)
    (hf : (body.startedIn t).Always fun o => Passes o (f o)) (hg : TakesStatus g) :
    Forks depth ((body.startedIn t).bind f)
      (((forkJob (evaluatorOf d) text body >>= runForeground).startedIn s).bind g)

variable {depth : Nat}

theorem Forks.bind {p q : Program (Except Stop Unit × Shell)}
    {h : Except Stop Unit × Shell → Program (Except Stop Unit × Shell)} (hpq : Forks depth p q)
    (hh : ∀ o, Passes o (h o)) : Forks depth (p.bind h) (q.bind h) := by
  induction hpq with
  | same p => exact .same _
  | call _ ih => exact .call ih
  | part hd hpart huntrapped hf hg =>
      rw [Host.Program.bind_assoc, Host.Program.bind_assoc]
      refine .part hd hpart huntrapped (hf.mono fun o ho => ho.bind hh) fun pid status t ht => ?_
      exact (hg pid status t ht).bind fun o ho => (hh o).endsWith ho

theorem Forks.bind_left {p : Program α} {f g : α → Program (Except Stop Unit × Shell)}
    (h : ∀ a, Forks depth (f a) (g a)) : Forks depth (p.bind f) (p.bind g) := by
  induction p with
  | done a => exact h a
  | call c k ih => exact .call ih

/-- Two computations of which one may fork, from every state. -/
def MayFork (depth : Nat) (x y : ShellM Unit) : Prop :=
  ∀ s, Forks depth (x.startedIn s) (y.startedIn s)

theorem MayFork.refl (x : ShellM Unit) : MayFork depth x x := fun _ => .same _

theorem MayFork.bind {x : ShellM α} {f g : α → ShellM Unit} (h : ∀ a, MayFork depth (f a) (g a)) :
    MayFork depth (x >>= f) (x >>= g) := by
  intro s
  refine Forks.bind_left ?_
  rintro ⟨r, t⟩
  cases r with
  | ok a => exact h a t
  | error e => exact .same _

theorem MayFork.ite {c : Prop} [Decidable c] {x y x' y' : ShellM Unit} (hx : MayFork depth x x')
    (hy : MayFork depth y y') : MayFork depth (if c then x else y) (if c then x' else y') := by
  split
  · exact hx
  · exact hy

theorem MayFork.checkErrexit {x y : ShellM Unit} (h : MayFork depth x y) (node : Node)
    (place : Place) :
    MayFork depth (x >>= fun _ => checkErrexit node place)
      (y >>= fun _ => checkErrexit node place) := by
  intro s
  refine (h s).bind ?_
  rintro ⟨r, t⟩
  cases r with
  | error e => exact .inl rfl
  | ok u =>
      show Passes _ ((Shell.checkErrexit node place).startedIn t)
      have hstep : (Shell.checkErrexit node place).startedIn t
          = if t.status ≠ 0 && node.isSimple && !place.isTested && t.has .errexit then
              .done (.error (.jump (.exit t.status)), t) else .done (.ok (), t) := by
        show ((if _ then _ else _ : ShellM Unit).startedIn t) = _
        split <;> rfl
      rw [hstep]
      split
      · exact .inr ⟨rfl, rfl⟩
      · exact .inl rfl

/-! ## Commands -/

/-- What a computation does with the outcome of what comes before it. -/
def following (k : ShellM Unit) (o : Except Stop Unit × Shell) :
    Program (Except Stop Unit × Shell) :=
  match o with
  | (.ok (), t) => k.startedIn t
  | (.error e, t) => .done (.error e, t)

theorem startedIn_seq (x k : ShellM Unit) (s : Shell) :
    (x >>= fun _ => k).startedIn s = (x.startedIn s).bind (following k) :=
  congrArg (x.startedIn s).bind (funext fun o => by
    obtain ⟨r, t⟩ := o
    cases r <;> rfl)

/-- A part, in place if nothing comes after it and no `EXIT` trap is set, else in a child. -/
def inPlaceOrForked (ev : Evaluator) (isLast : Bool) (inPlace : ShellM Unit) (text : Text)
    (body : ShellM Unit) : ShellM Unit := do
  if isLast && ((← get).traps.get? 0).isNone then inPlace
  else runForeground (← forkJob ev text body)

theorem mayFork_inPlaceOrForked {d : Nat} (hd : d < depth) {body k : ShellM Unit}
    (inPlace : ShellM Unit) (text : Text)
    (hpart : ∀ s, ∃ t, InPlacePart (evaluatorOf d) s t body ∧
      inPlace.startedIn s = body.startedIn t)
    (hf : ∀ t, (body.startedIn t).Always fun o => Passes o (following k o))
    (hg : TakesStatus (following k)) :
    MayFork depth (inPlaceOrForked (evaluatorOf d) true inPlace text body >>= fun _ => k)
      (inPlaceOrForked (evaluatorOf d) false inPlace text body >>= fun _ => k) := by
  intro s
  have hplain : (inPlaceOrForked (evaluatorOf d) false inPlace text body).startedIn s
      = (forkJob (evaluatorOf d) text body >>= runForeground).startedIn s := rfl
  by_cases huntrapped : s.traps.get? 0 = none
  · -- the process has nothing left to do after the part
    obtain ⟨t, hpart, hstart⟩ := hpart s
    have hlast : (inPlaceOrForked (evaluatorOf d) true inPlace text body).startedIn s
        = body.startedIn t := by
      show ((if _ then _ else _ : ShellM Unit).startedIn s) = _
      rw [huntrapped]
      exact hstart
    rw [startedIn_seq, startedIn_seq, hlast, hplain]
    exact .part hd hpart huntrapped (hf t) hg
  · -- the `EXIT` trap is still to be run, so both of them fork
    obtain ⟨a, ha⟩ := Option.ne_none_iff_exists'.mp huntrapped
    have hlast : (inPlaceOrForked (evaluatorOf d) true inPlace text body).startedIn s
        = (forkJob (evaluatorOf d) text body >>= runForeground).startedIn s := by
      show ((if _ then _ else _ : ShellM Unit).startedIn s) = _
      rw [ha]
      rfl
    rw [startedIn_seq, startedIn_seq, hlast, hplain]
    exact .same _

theorem mayFork_runSubshell {d : Nat} (hd : d < depth) (body : Node) (redirects : List Redirect)
    (isTested : Bool) :
    MayFork depth (runSubshell (evaluatorOf d) body redirects { isLast := true, isTested })
      (runSubshell (evaluatorOf d) body redirects { isTested }) := by
  have hpassed : ∀ o, Passes o (following (pure ()) o) := by
    rintro ⟨r, t⟩
    cases r <;> exact .inl rfl
  have h := mayFork_inPlaceOrForked (k := pure ()) hd
    (do modify asSubshell; enterSubshell (evaluatorOf d) body redirects)
    ("(" ++ body.source ++ ")")
    (fun s => ⟨_, .subshell body redirects, rfl⟩) (fun _ => Host.Program.always_of hpassed _)
    fun pid status t ht => .done ⟨rfl, .inl rfl, ht⟩
  rw [bind_pure, bind_pure] at h
  exact h

/-- With no signal waiting no trap is run. -/
theorem takesStatus_runTraps (ev : Evaluator) : TakesStatus (following (runTraps ev)) := by
  intro pid status t ht
  have hend : EndsWith t.status (.ok ()) t := ⟨rfl, .inl rfl, ht⟩
  show ((runTraps ev).startedIn t).Confined _ _ _
  refine confined_get_bind ?_
  split
  · exact .done hend
  · refine confined_bind_eq (a := false) (t := t) ?_ (.done hend)
    refine confined_ask trivial ?_
    rintro _ rfl
    rfl

theorem mayFork_runExternal {d : Nat} (hd : d < depth) (args : List Text)
    (assigned : List (Text × Text)) (redirects : List Redirect) (isTested : Bool) :
    MayFork depth
      (runExternal (evaluatorOf d) args assigned redirects { isLast := true, isTested } >>=
        fun _ => runTraps (evaluatorOf d))
      (runExternal (evaluatorOf d) args assigned redirects { isTested } >>=
        fun _ => runTraps (evaluatorOf d)) := by
  unfold runExternal
  rw [bind_assoc, bind_assoc]
  refine .bind fun path => ?_
  rcases path with e | path
  · exact .refl _
  · refine mayFork_inPlaceOrForked hd (launch (evaluatorOf d) path args assigned redirects)
      (Text.join " " args) (fun s => ⟨s, .program path args assigned redirects, rfl⟩)
      (fun t => ?_) (takesStatus_runTraps _)
    refine (yields_launch (evaluatorOf d) path args assigned redirects t).mono ?_
    rintro ⟨r, t⟩ hr
    cases r with
    | ok u => exact (hr u rfl).elim
    | error e => exact .inl rfl

theorem mayFork_runArguments {d : Nat} (hd : d < depth) (functions : Table Node) (args : List Text)
    (assigned : List (Text × Text)) (redirects : List Redirect) (isTested : Bool) :
    MayFork depth
      (runArguments (evaluatorOf d) functions args assigned redirects { isLast := true, isTested }
        >>= fun _ => runTraps (evaluatorOf d))
      (runArguments (evaluatorOf d) functions args assigned redirects { isTested } >>=
        fun _ => runTraps (evaluatorOf d)) := by
  unfold runArguments
  cases args with
  | nil => exact .refl _
  | cons name operands =>
      dsimp only
      split
      · exact mayFork_runExternal hd _ assigned redirects isTested
      · split
        · -- a function is called alike
          exact .refl _
        · split
          · exact .refl _
          · exact mayFork_runExternal hd _ assigned redirects isTested

theorem mayFork_runSimple {d : Nat} (hd : d < depth) (assigns words : List Word)
    (redirects : List Redirect) (isTested : Bool) :
    MayFork depth
      (runSimple (evaluatorOf d) assigns words redirects { isLast := true, isTested } >>=
        fun _ => runTraps (evaluatorOf d))
      (runSimple (evaluatorOf d) assigns words redirects { isTested } >>=
        fun _ => runTraps (evaluatorOf d)) := by
  unfold runSimple
  simp only [bind_assoc]
  refine .bind fun _ => .bind fun args => ?_
  split
  · exact .refl _
  · simp only [bind_assoc]
    refine .bind fun assigned => .bind fun _ => .bind fun s => ?_
    exact mayFork_runArguments hd _ args assigned redirects isTested

theorem mayFork_runArms {d : Nat} {isTested : Bool}
    (ih : ∀ node, MayFork depth ((evaluatorOf d).node node { isLast := true, isTested })
      ((evaluatorOf d).node node { isTested })) (subject : Text) (arms : List Script.CaseArm) :
    MayFork depth (runArms (evaluatorOf d) subject { isLast := true, isTested } arms)
      (runArms (evaluatorOf d) subject { isTested } arms) := by
  induction arms with
  | nil => exact .refl _
  | cons arm arms ihArms =>
      obtain ⟨patterns, body⟩ := arm
      refine .bind fun fits => .ite ?_ ihArms
      cases body with
      | some body => exact ih body
      | none => exact .refl _

/-- The body of a loop is never last. -/
theorem forItems_notLast (ev : Evaluator) (var : Text) (body : Node) (place : Place) (status : Int)
    (items : List Text) :
    forItems ev var body place status items = forItems ev var body place.notLast status items := by
  induction items generalizing status with
  | nil => rfl
  | cons item items ih =>
      unfold forItems
      simp only [ih]
      rfl

/-- Only in the place after which nothing comes is a command told so. -/
theorem mayFork_runKind {d : Nat} (hd : d < depth) {isTested : Bool}
    (ih : ∀ node, MayFork depth ((evaluatorOf d).node node { isLast := true, isTested })
      ((evaluatorOf d).node node { isTested })) (c : Script.Command) :
    MayFork depth (runKind (evaluatorOf d) { isLast := true, isTested } c)
      (runKind (evaluatorOf d) { isTested } c) := by
  cases c with
  | simple assigns words redirects => exact mayFork_runSimple hd assigns words redirects isTested
  | pipeline stages =>
      match stages with
      | [] => exact .refl _
      | [stage] => exact ih stage
      | _ :: _ :: _ => exact .refl _
  | not body => exact .refl _
  | and left right => exact .bind fun _ => .bind fun s => .ite (ih right) (.refl _)
  | or left right => exact .bind fun _ => .bind fun s => .ite (ih right) (.refl _)
  | list left right => exact .bind fun _ => ih right
  | background body => exact .refl _
  | ifThen cond thenBody elseBody =>
      refine .bind fun _ => .bind fun s => .ite (ih thenBody) ?_
      cases elseBody with
      | some body => exact ih body
      | none => exact .refl _
  | whileDo cond body => exact .refl _
  | untilDo cond body => exact .refl _
  | forIn var items body =>
      refine .bind fun items => ?_
      rw [runFor, forItems_notLast]
      exact .refl _
  | caseOf subject arms => exact .bind fun text => mayFork_runArms ih text arms
  | subshell body redirects => exact mayFork_runSubshell hd body redirects isTested
  | brace body => exact ih body
  | redirected body redirects => exact .refl _
  | function name body => exact .refl _

/-- A command forks for its last part at most, when it is not told that nothing comes after it. -/
theorem mayFork_node (node : Node) (isTested : Bool) :
    MayFork depth ((evaluatorOf depth).node node { isLast := true, isTested })
      ((evaluatorOf depth).node node { isTested }) := by
  have hle : ∀ d, d ≤ depth → ∀ node,
      MayFork depth ((evaluatorOf d).node node { isLast := true, isTested })
        ((evaluatorOf d).node node { isTested }) := by
    intro d
    induction d with
    | zero => exact fun _ _ => .refl _
    | succ d ih =>
        intro hd node
        have hkind := mayFork_runKind (Nat.lt_of_succ_le hd) (ih (Nat.le_of_succ_le hd))
          node.command
        exact .bind fun _ => hkind.checkErrexit node { isTested }
  exact hle depth (Nat.le_refl _) node

/-! ## The child and its parent -/

/-- What a child calls that is set up. -/
def setsUp : Host.Call → Prop
  | .processId | .setGroup .. | .setDisposition .. => True
  | _ => False

theorem confined_setDispositions (ds : List (Signal × Host.Disposition)) (s : Shell) :
    ((setDispositions ds).startedIn s).Confined setsUp (fun _ => True) (· = (.ok (), s)) := by
  induction ds with
  | nil => exact .done rfl
  | cons d ds ih => exact .call trivial fun _ _ => ih

theorem confined_prepareChild (s : Shell) :
    ((prepareChild none false).startedIn s).Confined setsUp (fun _ => True)
      (· = (.ok (), s.asSubshell)) := by
  have hsubshell : ((do becomeSubshell false; pure () : ShellM Unit).startedIn s).Confined setsUp
      (fun _ => True) (· = (.ok (), s.asSubshell)) := by
    refine confined_bind_eq (a := ()) (t := s.asSubshell) ?_ (confined_pure rfl)
    exact confined_bind_eq (.done rfl) (confined_get_bind (confined_setDispositions _ _))
  unfold prepareChild
  refine confined_get_bind ?_
  dsimp only
  split
  · exact .call trivial fun _ _ => .call trivial fun _ _ => hsubshell
  · exact hsubshell

instance unfailing_childStatus (r : Except Stop Unit) : Unfailing (childStatus r) :=
  ⟨fun t => (childStatus_always r t).mono fun _ h => ⟨_, h⟩⟩

/-- The end of a process is not survived. -/
theorem attempt_exitChild (ev : Evaluator) (r : Except Stop Unit) :
    attempt (exitChild ev r : ShellM α) = exitChild ev r := by
  have hleave : ∀ code, attempt (leave code : ShellM α) = leave code := fun code => by
    funext s
    exact congrArg (Host.Program.call (.exit code)) (funext fun never => nomatch never)
  unfold exitChild exitShell
  simp only [attempt_bind, hleave]

theorem startedIn_bind (x : ShellM α) (s : Shell)
    (f : Except Stop α × Shell → Program (Except Stop β × Shell)) : (x.startedIn s).bind f
      = (attempt x >>= fun r => (ExceptT.mk fun t => f (r, t) : ShellM β)).startedIn s := by
  show _ = ((x.startedIn s).bind _).bind _
  rw [Host.Program.bind_assoc]
  rfl

/-- Nothing follows a child. -/
theorem startedIn_child_bind (ev : Evaluator) (body : ShellM Unit) (s : Shell)
    (f : Except Stop α × Shell → Program (Except Stop β × Shell)) :
    ((do prepareChild none false; endingWith ev body : ShellM α).startedIn s).bind f
      = (do prepareChild none false; endingWith ev body : ShellM β).startedIn s := by
  rw [startedIn_bind]
  unfold endingWith
  simp only [attempt_bind, attempt_exitChild, bind_assoc, exitChild_bind]

/-- After the calls `es` the first run goes over to a part of the script. The second one forks
there: the child does the part, and its parent relays the status. -/
structure TakesOver (depth d : Nat) (last plain : Program (Except Stop Unit × Shell))
    (es : List Event) (s t : Shell) (body : ShellM Unit)
    (next : Reply .fork → Program (Except Stop Unit × Shell)) : Prop where
  nested : d < depth
  part : InPlacePart (evaluatorOf d) s t body
  untrapped : s.traps.get? 0 = none
  inPlace : Reaches last es ((endingWith (evaluatorOf depth) body).startedIn t)
  forks : Reaches plain es (.call .fork next)
  child : next (.ok .child)
    = (do prepareChild none false; endingWith (evaluatorOf d) body : ShellM Unit).startedIn s
  /-- The child is set up as a subshell, and does nothing else before the part. -/
  prepared : ((prepareChild none false).startedIn s).Confined setsUp (fun _ => True)
    (· = (.ok (), s.asSubshell))
  parent : ∀ pid status, status.isDone = true → (next (.ok (.parent pid))).Confined
    (relays pid status.code) (childEnded pid status) fun _ => False

theorem TakesOver.step {d : Nat} {c : Host.Call} {r : Reply c} {es : List Event} {s t : Shell}
    {body : ShellM Unit} {next : Reply .fork → Program (Except Stop Unit × Shell)}
    {k k' : Reply c → Program (Except Stop Unit × Shell)}
    (h : TakesOver depth d (k r) (k' r) es s t body next) :
    TakesOver depth d (.call c k) (.call c k') (⟨c, r⟩ :: es) s t body next :=
  { h with inPlace := .step h.inPlace, forks := .step h.forks }

theorem confined_forked (text : Text) {pid : ProcessId} {status : ProcessStatus}
    (hended : status.isDone = true) (s : Shell) :
    (((do
      if s.has .monitor then
        let _ ← ask (.setGroup pid pid)
      return Job.ofProcesses [{ pid, command := text }] (some pid) (s.has .monitor) (some text) :
        ShellM Job) >>= runForeground).startedIn s).Confined (relays pid status.code)
      (childEnded pid status) fun o =>
        o.1 = .ok () ∧ o.2.status = status.code ∧ o.2.traps = s.traps := by
  split
  · exact .call trivial fun _ _ => confined_runForeground rfl hended s
  · exact confined_runForeground rfl hended s

theorem takesOver_here {d : Nat} {s t : Shell} {text : Text} {body : ShellM Unit}
    {f g : Except Stop Unit × Shell → Program (Except Stop Unit × Shell)} (hd : d < depth)
    (hpart : InPlacePart (evaluatorOf d) s t body) (huntrapped : s.traps.get? 0 = none)
    (hf : (body.startedIn t).Always fun o => Passes o (f o)) (hg : TakesStatus g) :
    ∃ next, TakesOver depth d
      (((body.startedIn t).bind f).bind (afterLast (evaluatorOf depth)))
      ((((forkJob (evaluatorOf d) text body >>= runForeground).startedIn s).bind g).bind
        (afterLast (evaluatorOf depth))) [] s t body next := by
  refine ⟨_, {
    nested := hd
    part := hpart
    untrapped := huntrapped
    inPlace := ?inPlace
    forks := .here _
    child := ?child
    prepared := confined_prepareChild s
    parent := ?parent }⟩
  case inPlace =>
    -- the outcome of the part is passed on, up to the end of the process
    have hsame : ((body.startedIn t).bind f).bind (afterLast (evaluatorOf depth))
        = (endingWith (evaluatorOf depth) body : ShellM Unit).startedIn t := by
      rw [Host.Program.bind_assoc, startedIn_endingWith]
      exact Host.Program.bind_congr_always (hf.mono fun o ho => ho.bind_afterLast _)
    rw [hsame]
    exact .here _
  case child =>
    -- the child ends, so it comes neither to the wait of its parent nor to what follows that
    show ((((do prepareChild none false; endingWith (evaluatorOf d) body : ShellM Job) >>=
      runForeground).startedIn s).bind g).bind _ = _
    rw [Host.Program.bind_assoc]
    show (((do prepareChild none false; endingWith (evaluatorOf d) body : ShellM Job).startedIn
      s).bind _).bind _ = _
    rw [startedIn_child_bind, startedIn_child_bind]
  case parent =>
    intro pid status hended
    refine ((confined_forked text hended s).bind (Q := fun o =>
      EndsWith status.code o.1 o.2) ?_).bind fun o ho => ho.confined _
    rintro ⟨r, u⟩ ⟨rfl, hstatus, htraps⟩
    have hclosed := hg pid status u (htraps ▸ huntrapped)
    rw [show u.status = status.code from hstatus] at hclosed
    exact hclosed

/-- What one of the runs calls the other one calls too, unless the first one went over to a part. -/
theorem Forks.comes {p q : Program (Except Stop Unit × Shell)} (h : Forks depth p q)
    {es : List Event} {c : Host.Call}
    (hrun : (p.bind (afterLast (evaluatorOf depth))).Comes es (.asks c) ∨
      (q.bind (afterLast (evaluatorOf depth))).Comes es (.asks c)) :
    (p.bind (afterLast (evaluatorOf depth))).Comes es (.asks c) ∧
        (q.bind (afterLast (evaluatorOf depth))).Comes es (.asks c) ∨
      ∃ es₁ d s t body next, es₁ <+: es ∧
        TakesOver depth d (p.bind (afterLast (evaluatorOf depth)))
          (q.bind (afterLast (evaluatorOf depth))) es₁ s t body next := by
  induction h generalizing es with
  | same p => exact .inl ⟨hrun.elim id id, hrun.elim id id⟩
  | part hd hpart huntrapped hf hg =>
      obtain ⟨next, hnext⟩ := takesOver_here hd hpart huntrapped hf hg
      exact .inr ⟨[], _, _, _, _, next, List.nil_prefix, hnext⟩
  | @call c' k k' _ ih =>
      have hp := Host.Program.comes_call_iff
        (fun r => (k r).bind (afterLast (evaluatorOf depth))) es c
      have hq := Host.Program.comes_call_iff
        (fun r => (k' r).bind (afterLast (evaluatorOf depth))) es c
      have hrest : es = [] ∧ c = c' ∨ ∃ r es', es = ⟨c', r⟩ :: es' ∧
          (((k r).bind (afterLast (evaluatorOf depth))).Comes es' (.asks c) ∨
            ((k' r).bind (afterLast (evaluatorOf depth))).Comes es' (.asks c)) := by
        rcases hrun with h | h
        · exact (hp.mp h).imp id fun ⟨r, es', heq, h⟩ => ⟨r, es', heq, .inl h⟩
        · exact (hq.mp h).imp id fun ⟨r, es', heq, h⟩ => ⟨r, es', heq, .inr h⟩
      rcases hrest with hnone | ⟨r, es', rfl, hrest⟩
      · exact .inl ⟨hp.mpr (.inl hnone), hq.mpr (.inl hnone)⟩
      · rcases ih r hrest with ⟨hpr, hqr⟩ | ⟨es₁, d, s, t, body, next, hpre, hover⟩
        · exact .inl ⟨hp.mpr (.inr ⟨r, es', rfl, hpr⟩), hq.mpr (.inr ⟨r, es', rfl, hqr⟩)⟩
        · exact .inr ⟨_, d, s, t, body, next, List.cons_prefix_cons.mpr ⟨rfl, hpre⟩,
            hover.step⟩

/-- The run of a child that runs a command, which may be told that nothing comes after it. -/
def childRun (depth : Nat) (node : Node) (place : Place) (s : Shell) :
    Program (Except Stop Unit × Shell) :=
  (endingWith (evaluatorOf depth) ((evaluatorOf depth).node node place)).startedIn s

/-- A child whose last command may take its place makes the calls of one whose last command may not,
up to an external program or a subshell that the second one forks a child for. Once it is set up the
child does what comes in place in the first run, and its parent waits for it and ends with its
status, for as long as no signal arrives. -/
theorem lastCommand_in_place (depth : Nat) (node : Node) (isTested : Bool) (s : Shell)
    {es : List Event} {c : Host.Call}
    (hrun : (childRun depth node { isLast := true, isTested } s).Comes es (.asks c) ∨
      (childRun depth node { isTested } s).Comes es (.asks c)) :
    (childRun depth node { isLast := true, isTested } s).Comes es (.asks c) ∧
        (childRun depth node { isTested } s).Comes es (.asks c) ∨
      ∃ es₁ d u v body next, es₁ <+: es ∧
        TakesOver depth d (childRun depth node { isLast := true, isTested } s)
          (childRun depth node { isTested } s) es₁ u v body next := by
  unfold childRun at hrun ⊢
  rw [startedIn_endingWith, startedIn_endingWith] at hrun ⊢
  exact (mayFork_node node isTested s).comes hrun

/-- A subshell as the last command: the second run begins with the fork. -/
theorem lastCommand_in_place_subshell : ∃ d u v body next,
    TakesOver 3 d (childRun 3 (.mk (.subshell exitFive []) 1) { isLast := true } {})
      (childRun 3 (.mk (.subshell exitFive []) 1) {} {}) [] u v body next := by
  have hfork : (childRun 3 (.mk (.subshell exitFive []) 1) {} {}).Comes [] (.asks .fork) :=
    ⟨_, .here _⟩
  rcases lastCommand_in_place 3 (.mk (.subshell exitFive []) 1) false {} (.inr hfork) with
    ⟨hlast, -⟩ | ⟨es₁, d, u, v, body, next, hpre, hover⟩
  · have hasks := hlast.asksAfter_eq
    have hother : (childRun 3 (.mk (.subshell exitFive []) 1) { isLast := true } {}).asksAfter []
        ≠ some .fork := by decide +kernel
    exact absurd hasks hother
  · obtain rfl := List.prefix_nil.mp hpre
    exact ⟨d, u, v, body, next, hover⟩

/-- The command `/x`. -/
def externalCommand : Node := .mk (.simple [] [.mk "/x" [.literal "/x"] 1] []) 1

/-- A shell that ends with 7 when it is sent `USR1`. -/
def exitOnUsr1 : Shell := { traps := { actions := [(10, .command "exit 7")] } }

/-- What the parent of `/x` is answered when that ends with 0 and `USR1` arrives. -/
def disturbed : List Event :=
  [⟨.wait (some 1) false false, .ok (some (1, .exited 0))⟩, ⟨.takeArrived, true⟩]
    ++ (Signal.all.takeWhile (· ≠ .usr1)).map (fun sig => ⟨.takePending sig, false⟩)
    ++ [⟨.takePending .usr1, true⟩, ⟨.isPending .segv, true⟩, ⟨.markArrived, ()⟩]

/-- With `USR1` trapped the status of `/x` is not that of the child which would run it in place. -/
theorem not_lastCommand_in_place :
    ¬ ∀ (depth : Nat) (node : Node) (isTested : Bool) (s : Shell) (es es' : List Event)
        (path : Host.Bytes) (argv environment : List Host.Bytes) (pid : ProcessId)
        (status : ProcessStatus) (code : Int),
      (childRun depth node { isLast := true, isTested } s).Comes es
        (.asks (.execute path argv environment)) →
      (childRun depth node { isTested } s).Comes (es ++ ⟨.fork, .ok (.parent pid)⟩ :: es')
        (.asks (.exit code)) →
      (⟨.wait (some pid) false false, .ok (some (pid, status))⟩ : Event) ∈ es' →
      status.isDone = true → code = status.code := by
  intro h
  have hlast : (childRun 6 externalCommand { isLast := true } exitOnUsr1).Comes []
      (.asks (.execute [47, 120] [[47, 120]] [])) := ⟨_, .here _⟩
  have hplain := Host.Program.comes_of_asksAfter
    (show (childRun 6 externalCommand {} exitOnUsr1).asksAfter
      (⟨.fork, .ok (.parent 1)⟩ :: disturbed) = some (.exit 7) by decide +kernel)
  have hwait : (⟨.wait (some 1) false false, .ok (some (1, .exited 0))⟩ : Event) ∈ disturbed :=
    List.mem_cons_self
  have hcode : (7 : Int) = 0 := h _ _ _ _ [] _ _ _ _ _ _ _ hlast hplain hwait rfl
  exact absurd hcode (by decide)

end Shell

end CommandShell
