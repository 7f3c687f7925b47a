import CommandShell.Proofs.Routines
import CommandShell.Proofs.Surroundings
import CommandShell.Host.Arrivals

/-!
# Drains of signals

When the traps of signals run, and that none runs inside another one.
-/

/-!
## No trap runs inside another one

While the command of a trap runs, the shell is marked to be in a trap. A drain that comes then returns
at once, so the marks of signals stay as they are and the shell stays in the trap (`Still`). This holds
of everything that is put together from the parts of an evaluator if it holds of what the evaluator runs
(`Routine.still`), and by induction on the depth of nesting of every command (`staysStill_evaluatorOf`).
-/

namespace CommandShell

open Host (Call Program)

namespace Shell

variable {α β : Type} {ev : Evaluator}

/-- A call after which the marks are as before. -/
def LeavesMarks (c : Call) : Prop := c.leavesMarks = true

/-- In a trap a computation leaves the marks alone, and the trap goes on after it. -/
def Still (x : ShellM α) : Prop :=
  ∀ s, s.inTrap = true → (x.startedIn s).OnlyAsks LeavesMarks ∧
    (x.startedIn s).Always fun r => r.2.inTrap = true

namespace Still

theorem silent {x : ShellM α} (h : ∀ s, ∃ r t, x.startedIn s = .done (r, t) ∧ t.inTrap = s.inTrap) :
    Still x := by
  intro s hs
  obtain ⟨r, t, hx, ht⟩ := h s
  rw [hx]
  exact ⟨trivial, ht.trans hs⟩

protected theorem ask {c : Call} (h : c.leavesMarks = true) : Still (ask c) :=
  fun _ hs => ⟨⟨h, fun _ => trivial⟩, fun _ => hs⟩

protected theorem bind {x : ShellM α} {f : α → ShellM β} (hx : Still x) (hf : ∀ a, Still (f a)) :
    Still (x >>= f) := by
  intro s hs
  obtain ⟨hasks, halways⟩ := hx s hs
  refine ⟨hasks.bind_always ?_ halways, always_bind halways (fun a t ht => (hf a t ht).2) fun _ _ ht => ht⟩
  rintro ⟨r, t⟩ ht
  cases r with
  | ok a => exact (hf a t ht).1
  | error e => exact trivial

theorem setDispositions (ds : List (Signal × Host.Disposition)) : Still (setDispositions ds) := by
  induction ds with
  | nil => exact .silent fun s => ⟨.ok (), s, rfl, rfl⟩
  | cons d ds ih =>
      exact .bind (.bind (.ask rfl) fun _ => .silent fun s => ⟨.ok (), s, rfl, rfl⟩) fun _ => ih

protected theorem attempt {x : ShellM α} (hx : Still x) : Still (attempt x) := by
  intro s hs
  obtain ⟨hasks, halways⟩ := hx s hs
  constructor
  · show ((x.startedIn s).bind _).OnlyAsks _
    refine Host.Program.OnlyAsks.bind ?_ hasks
    exact fun _ => trivial
  · show ((x.startedIn s).bind _).Always _
    rw [Host.Program.always_bind]
    exact halways.mono fun _ ht => ht

/-- A drain returns at once. -/
theorem runTraps : Still (runTraps ev) := by
  intro s hs
  show ((if s.inTrap = true then _ else _ : ShellM Unit).startedIn s).OnlyAsks _ ∧
    ((if s.inTrap = true then _ else _ : ShellM Unit).startedIn s).Always _
  rw [if_pos hs]
  exact ⟨trivial, hs⟩

end Still

/-- An evaluator that runs nothing else. -/
structure StaysStill (ev : Evaluator) : Prop where
  node : ∀ node place, Still (ev.node node place)
  source : ∀ t, Still (ev.source t)
  command : ∀ args, Still (ev.command args)
  builtin : ∀ b name args, Still (ev.builtin b name args)

theorem Routine.still {x : ShellM α} (h : Routine ev x) (hev : StaysStill ev) : Still x := by
  induction h with
  | silent h =>
      refine .silent fun s => ?_
      obtain ⟨r, t, hx, ht⟩ := h s
      exact ⟨r, t, hx, ht.inTrap⟩
  | ask c h => exact .ask (Host.Call.leavesMarks_of_isPlain h)
  | orders halters h =>
      exact .bind (.silent fun s => ⟨_, _, rfl, (halters s).inTrap⟩) fun ds => .setDispositions ds
  | sequence _ _ ihx ihf => exact ihx.bind ihf
  | attempt _ ih => exact ih.attempt
  | node node place => exact hev.node node place
  | source t => exact hev.source t
  | command args => exact hev.command args
  | builtin b name args => exact hev.builtin b name args
  | drain => exact .runTraps

theorem staysStill_evaluatorOf (depth : Nat) : StaysStill (evaluatorOf depth) := by
  induction depth with
  | zero =>
      have hfail : ∀ f, Still (fail f : ShellM Unit) :=
        fun f => .silent fun s => ⟨.error (.ofFault f), s, rfl, rfl⟩
      exact ⟨fun _ _ => hfail _, fun _ => hfail _, fun _ => hfail _, fun _ _ _ => hfail _⟩
  | succ depth ih =>
      exact ⟨fun node place => (routine_runNode node place).still ih,
        fun t => (routine_runText t).still ih,
        fun args => (routine_runArguments .empty args [] [] {}).still ih,
        fun b name args => (routine_runBuiltin b name args).still ih⟩

end Shell

end CommandShell

/-!
## Drains

A signal that is caught only sets its mark and the mark for signals that arrived at all. A drain clears
the second mark, looks at one signal after the other, takes those that are marked and runs the commands
of their traps. Signals arrive between any two steps of this, also while such a command runs.

`Vigil.Step` is the drain as a machine whose control says how far it has come. Every step is a deed, which
tells of the call that was made, if there was one; so a path of the machine has the calls of a run. While a
drain is in progress the machine has no choice but the answers to its calls: it starts from the state that
the shell was in, and runs the command of a trap call by call (`Scope.drain`). Outside of drains it goes by
the acts of a shell (`Scope.shell`).

Three facts about paths follow from what each step does: `Path.announced`, that a marked signal is never
overlooked; `Path.takes`, that a signal is taken by the end of the next drain that gets through; and
`Path.stops_between`, that one trap ends before another one begins.
-/

namespace CommandShell

open Host (Arrivals Call Event Program Reply)

theorem Signal.mem_all (s : Signal) : s ∈ Signal.all := by
  cases s <;> decide

/-! ### Marks -/

namespace Host.Arrivals

/-- How a call is answered, and what the marks are then. -/
def answers (a : Arrivals) : (c : Call) → Reply c → Arrivals → Prop
  | .anyArrived, any, a' => any = a.any ∧ a' = a
  | .takeArrived, any, a' => any = a.any ∧ a' = { a with any := false }
  | .markArrived, _, a' => a' = { a with any := true }
  | .isPending s, pending, a' => pending = a.isPending s ∧ a' = a
  | .takePending s, pending, a' => pending = a.isPending s ∧ a' = a.take s
  | _, _, a' => a' = a

theorem eq_of_answers {a a' : Arrivals} {c : Call} {r : Reply c} (hc : c.leavesMarks = true)
    (h : a.answers c r a') : a' = a := by
  cases c with
  | takeArrived => cases hc
  | markArrived => cases hc
  | takePending s => cases hc
  | anyArrived => exact h.2
  | isPending s => exact h.2
  | _ => exact h

variable {a : Arrivals} {s s' : Signal}

theorem isPending_iff : a.isPending s = true ↔ s ∈ a.pending := List.contains_iff_mem

theorem isPending_note_self : (a.note s).isPending s = true := by
  rw [isPending_iff]
  unfold note
  dsimp only
  split
  · exact List.contains_iff_mem.mp ‹_›
  · exact List.mem_append_right _ (List.mem_singleton_self s)

theorem isPending_note (h : a.isPending s = true) : (a.note s').isPending s = true := by
  rw [isPending_iff] at h ⊢
  unfold note
  dsimp only
  split
  · exact h
  · exact List.mem_append_left _ h

theorem isPending_take : (a.take s').isPending s = true ↔ a.isPending s = true ∧ s ≠ s' := by
  rw [isPending_iff, isPending_iff]
  simp [take]

theorem take_eq_self (h : a.isPending s = false) : a.take s = a := by
  have hs : s ∉ a.pending := fun hmem => Bool.false_ne_true (h.symm.trans (isPending_iff.mpr hmem))
  have hkept : a.pending.filter (· != s) = a.pending := by
    refine List.filter_eq_self.mpr fun s' hs' => bne_iff_ne.mpr ?_
    rintro rfl
    exact hs hs'
  show ({ a with pending := a.pending.filter (· != s) } : Arrivals) = a
  rw [hkept]

/-- A signal that waits to be handled has been announced by the mark for signals that arrived. -/
def Announced (a : Arrivals) : Prop := ∀ s, a.isPending s = true → a.any = true

end Host.Arrivals

/-! ### The machine -/

namespace Vigil

/-- How far a drain has come. -/
inductive Control where
  /-- No drain is in progress. -/
  | rest (sh : Shell)
  /-- The drain has still to look at the given signals. -/
  | scanning (later : List Signal) (sh : Shell)
  /-- The command of a trap runs, and `body` is what is left of it; `$?` was `status` before. -/
  | running (later : List Signal) (status : Int) (body : Program (Except Stop Unit × Shell))
  /-- The command ended with an error, and `message` is what is left of telling about it. -/
  | telling (later : List Signal) (status : Int) (message : Program (Except Stop Unit × Shell))
  /-- The command jumped out of the drain, which looks whether one of the given signals is marked. -/
  | leaving (later : List Signal) (sh : Shell)
  /-- One of them is. -/
  | found (sh : Shell)

/-- What a shell does, and what happens to signals. -/
inductive Deed where
  | arrives (s : Signal)
  /-- Outside of drains the state changes. -/
  | works
  /-- Outside of drains a call is answered. -/
  | calls (e : Event)
  /-- A drain finds no signal announced. -/
  | idles
  /-- A drain begins. -/
  | begins
  /-- A drain looks at a signal that is not marked. -/
  | passes (s : Signal)
  /-- A drain takes a signal and begins to run the command of its trap. -/
  | runs (s : Signal) (command : Text)
  /-- A drain takes a signal that has no command. -/
  | drops (s : Signal)
  /-- A call of the command of a trap, or of the message about its error, is answered. -/
  | answers (e : Event)
  /-- The command of a trap ended with an error. -/
  | fails
  /-- The command of a trap comes to an end. -/
  | stops
  /-- A drain that is left sees that a signal is not marked. -/
  | misses (s : Signal)
  /-- A drain that is left sees that a signal is marked. -/
  | finds (s : Signal)
  /-- A drain that is left announces that there are marked signals. -/
  | announces
  /-- A drain ends; `through` tells whether it got through all signals. -/
  | ends (through : Bool)

/-- The signal that a drain takes. -/
def Deed.taken? : Deed → Option Signal
  | .runs s _ => some s
  | .drops s => some s
  | _ => none

/-- The call of a deed, with its answer. -/
def Deed.event? : Deed → Option Event
  | .calls e | .answers e => some e
  | .idles => some ⟨.takeArrived, false⟩
  | .begins => some ⟨.takeArrived, true⟩
  | .passes s => some ⟨.takePending s, false⟩
  | .runs s _ | .drops s => some ⟨.takePending s, true⟩
  | .misses s => some ⟨.isPending s, false⟩
  | .finds s => some ⟨.isPending s, true⟩
  | .announces => some ⟨.markArrived, ()⟩
  | _ => none

/-- What a path may contain. -/
structure Scope where
  /-- The depths of nesting at which the commands of traps are run. -/
  depths : Nat → Prop
  /-- Whether anything is done outside of drains. -/
  outside : Prop

/-- Drains alone, with commands that are run at a depth. -/
def Scope.drain (depth : Nat) : Scope := ⟨(· = depth), False⟩

/-- All that is done by a shell up to a depth. -/
def Scope.shell (depth : Nat) : Scope := ⟨(· ≤ depth), True⟩

end Vigil

/-- A shell, and the marks of its process. -/
structure Vigil where
  control : Vigil.Control
  marks : Arrivals

namespace Vigil

open Shell (evaluatorOf Alters LeavesMarks)

/-- One step of a shell. -/
inductive Step (W : Scope) : Vigil → Deed → Vigil → Prop where
  | arrives {c : Control} {a : Arrivals} (s : Signal) :
      Step W ⟨c, a⟩ (.arrives s) ⟨c, a.note s⟩
  | works {sh sh' : Shell} {a : Arrivals} (hW : W.outside) (h : Alters sh sh') :
      Step W ⟨.rest sh, a⟩ .works ⟨.rest sh', a⟩
  | calls {sh : Shell} {e : Event} {a a' : Arrivals} (hW : W.outside) (h : sh.Issues e.1)
      (hmarks : LeavesMarks e.1) (ha : a.answers e.1 e.2 a') :
      Step W ⟨.rest sh, a⟩ (.calls e) ⟨.rest sh, a'⟩
  | idles {sh : Shell} {a : Arrivals} (ha : a.any = false) : Step W ⟨.rest sh, a⟩ .idles ⟨.rest sh, a⟩
  | begins {sh : Shell} {a : Arrivals} (h : sh.inTrap = false) (ha : a.any = true) :
      Step W ⟨.rest sh, a⟩ .begins ⟨.scanning Signal.all sh, { a with any := false }⟩
  | passes {s : Signal} {later : List Signal} {sh : Shell} {a : Arrivals}
      (h : a.isPending s = false) :
      Step W ⟨.scanning (s :: later) sh, a⟩ (.passes s) ⟨.scanning later sh, a⟩
  | drops {s : Signal} {later : List Signal} {sh : Shell} {a : Arrivals}
      (h : a.isPending s = true) (hs : ∀ t, sh.traps.get? s.number ≠ some (.command t)) :
      Step W ⟨.scanning (s :: later) sh, a⟩ (.drops s) ⟨.scanning later sh, a.take s⟩
  | runs {depth : Nat} (hW : W.depths depth) {s : Signal} {later : List Signal} {sh : Shell}
      {a : Arrivals} {t : Text} (h : a.isPending s = true)
      (hs : sh.traps.get? s.number = some (.command t)) :
      Step W ⟨.scanning (s :: later) sh, a⟩ (.runs s t)
        ⟨.running later sh.status (((evaluatorOf depth).source t).startedIn { sh with inTrap := true }),
          a.take s⟩
  | answers {later : List Signal} {status : Int} {c : Call}
      {k : Reply c → Program (Except Stop Unit × Shell)} {r : Reply c} {a a' : Arrivals}
      (h : a.answers c r a') :
      Step W ⟨.running later status (.call c k), a⟩ (.answers ⟨c, r⟩) ⟨.running later status (k r), a'⟩
  | stops {later : List Signal} {status : Int} {sh : Shell} {a : Arrivals} :
      Step W ⟨.running later status (.done (.ok (), sh)), a⟩ .stops
        ⟨.scanning later { sh with inTrap := false, status := status }, a⟩
  | fails {later : List Signal} {status : Int} {e : Stop} {sh : Shell} {a : Arrivals}
      (h : e.isJump = false) :
      Step W ⟨.running later status (.done (.error e, sh)), a⟩ .fails
        ⟨.telling later status ((Shell.reportStop e).startedIn { sh with inTrap := false }), a⟩
  | tells {later : List Signal} {status : Int} {c : Call}
      {k : Reply c → Program (Except Stop Unit × Shell)} {r : Reply c} {a a' : Arrivals}
      (h : a.answers c r a') :
      Step W ⟨.telling later status (.call c k), a⟩ (.answers ⟨c, r⟩) ⟨.telling later status (k r), a'⟩
  | told {later : List Signal} {status : Int} {sh : Shell} {a : Arrivals} :
      Step W ⟨.telling later status (.done (.ok (), sh)), a⟩ .stops
        ⟨.scanning later { sh with status := status }, a⟩
  | jumps {later : List Signal} {status : Int} {e : Stop} {sh : Shell} {a : Arrivals}
      (h : e.isJump = true) :
      Step W ⟨.running later status (.done (.error e, sh)), a⟩ .stops
        ⟨.leaving later { sh with inTrap := false }, a⟩
  | misses {s : Signal} {later : List Signal} {sh : Shell} {a : Arrivals}
      (h : a.isPending s = false) :
      Step W ⟨.leaving (s :: later) sh, a⟩ (.misses s) ⟨.leaving later sh, a⟩
  | finds {s : Signal} {later : List Signal} {sh : Shell} {a : Arrivals}
      (h : a.isPending s = true) : Step W ⟨.leaving (s :: later) sh, a⟩ (.finds s) ⟨.found sh, a⟩
  | announces {sh : Shell} {a : Arrivals} :
      Step W ⟨.found sh, a⟩ .announces ⟨.rest sh, { a with any := true }⟩
  | leaves {sh : Shell} {a : Arrivals} :
      Step W ⟨.leaving [] sh, a⟩ (.ends false) ⟨.rest sh, a⟩
  | ends {sh : Shell} {a : Arrivals} :
      Step W ⟨.scanning [] sh, a⟩ (.ends true) ⟨.rest sh, a⟩

/-- Any number of steps, with their deeds. -/
inductive Path (W : Scope) : Vigil → List Deed → Vigil → Prop where
  | nil (m : Vigil) : Path W m [] m
  | step {m m' m'' : Vigil} {d : Deed} {ds : List Deed} :
      Step W m d m' → Path W m' ds m'' → Path W m (d :: ds) m''

variable {W W' : Scope} {m m' m'' : Vigil} {d : Deed} {ds ds' : List Deed} {s : Signal}

theorem Step.path (h : Step W m d m') : Path W m [d] m' := .step h (.nil m')

theorem Path.append (h : Path W m ds m') (h' : Path W m' ds' m'') : Path W m (ds ++ ds') m'' := by
  induction h with
  | nil m => exact h'
  | step hs _ ih => exact .step hs (ih h')

/-- A path up to some deeds, and from there on. -/
theorem Path.split (h : Path W m (ds ++ ds') m'') : ∃ m', Path W m ds m' ∧ Path W m' ds' m'' := by
  induction ds generalizing m with
  | nil => exact ⟨m, .nil m, h⟩
  | cons d ds ih =>
      cases h with
      | step hs h =>
          obtain ⟨m', hpath, hrest⟩ := ih h
          exact ⟨m', .step hs hpath, hrest⟩

/-- A path up to a deed, and the step that does it. -/
theorem Path.split_at (h : Path W m (ds ++ d :: ds') m'') :
    ∃ m₁ m₂, Path W m ds m₁ ∧ Step W m₁ d m₂ ∧ Path W m₂ ds' m'' := by
  obtain ⟨m₁, hpath, hrest⟩ := h.split
  cases hrest with
  | step hs hrest => exact ⟨m₁, _, hpath, hs, hrest⟩

/-- A step of a path is one of a path that may contain more. -/
theorem Step.mono (hdepths : ∀ n, W.depths n → W'.depths n) (houtside : W.outside → W'.outside)
    (h : Step W m d m') : Step W' m d m' := by
  cases h with
  | arrives s => exact .arrives s
  | works hW h => exact .works (houtside hW) h
  | calls hW h hmarks ha => exact .calls (houtside hW) h hmarks ha
  | idles ha => exact .idles ha
  | begins h ha => exact .begins h ha
  | passes h => exact .passes h
  | drops h hs => exact .drops h hs
  | runs hW h hs => exact .runs (hdepths _ hW) h hs
  | answers h => exact .answers h
  | stops => exact .stops
  | fails h => exact .fails h
  | tells h => exact .tells h
  | told => exact .told
  | jumps h => exact .jumps h
  | misses h => exact .misses h
  | finds h => exact .finds h
  | announces => exact .announces
  | leaves => exact .leaves
  | ends => exact .ends

theorem Path.mono (hdepths : ∀ n, W.depths n → W'.depths n) (houtside : W.outside → W'.outside)
    (h : Path W m ds m') : Path W' m ds m' := by
  induction h with
  | nil m => exact .nil m
  | step hs _ ih => exact .step (hs.mono hdepths houtside) ih

/-- What every step keeps is kept by a path. -/
theorem Path.keeps {P : Vigil → Prop} (hstep : ∀ m d m', d ∈ ds → Step W m d m' → P m → P m')
    (h : Path W m ds m') (hm : P m) : P m' := by
  induction h with
  | nil m => exact hm
  | step hs _ ih =>
      exact ih (fun m d m' hd => hstep m d m' (List.mem_cons_of_mem _ hd))
        (hstep _ _ _ List.mem_cons_self hs hm)

/-! ### No mark is overlooked -/

/-- The signals that a drain has still to look at. -/
def Control.ahead : Control → List Signal
  | .rest _ => []
  | .scanning later _ => later
  | .running later _ _ => later
  | .telling later _ _ => later
  | .leaving later _ => later
  | .found _ => Signal.all

/-- What is left of the command of a trap, or of the message about its error. -/
def Control.program? : Control → Option (Program (Except Stop Unit × Shell))
  | .running _ _ body => some body
  | .telling _ _ message => some message
  | _ => none

/-- A marked signal is one that the drain comes to, or is announced, and the command of a trap leaves
the marks alone. -/
structure Sound (m : Vigil) : Prop where
  announced : ∀ s, m.marks.isPending s = true → s ∈ m.control.ahead ∨ m.marks.any = true
  body : ∀ p, m.control.program? = some p → p.OnlyAsks LeavesMarks

theorem sound_rest (sh : Shell) {a : Arrivals} (h : a.Announced) : Sound ⟨.rest sh, a⟩ :=
  ⟨fun s hs => .inr (h s hs), fun _ heq => nomatch heq⟩

theorem onlyAsks_reportStop (e : Stop) : Shell.OnlyAsks LeavesMarks (Shell.reportStop e) := by
  unfold Shell.reportStop
  split
  · exact .pure _
  · exact .bind .get fun sh => .quietly (.writeBytes (fun _ => rfl) _)

theorem Sound.step (hm : m.Sound) (h : Step W m d m') : m'.Sound := by
  obtain ⟨hannounced, hbody⟩ := hm
  -- a marked signal that is ahead of a look at an unmarked one is ahead of what follows
  have hpass : ∀ {a : Arrivals} {s s' : Signal} {later : List Signal}, a.isPending s = false →
      a.isPending s' = true → s' ∈ s :: later ∨ a.any = true → s' ∈ later ∨ a.any = true := by
    intro a s s' later hs hs' hor
    rcases hor with hmem | hany
    · rcases List.mem_cons.mp hmem with rfl | hmem
      · exact absurd (hs.symm.trans hs') Bool.false_ne_true
      · exact .inl hmem
    · exact .inr hany
  have htake : ∀ {a : Arrivals} {s s' : Signal} {later : List Signal},
      (a.take s).isPending s' = true → (a.isPending s' = true → s' ∈ s :: later ∨ a.any = true) →
      s' ∈ later ∨ (a.take s).any = true := by
    intro a s s' later hs' hor
    obtain ⟨hs', hne⟩ := Host.Arrivals.isPending_take.mp hs'
    rcases hor hs' with hmem | hany
    · exact .inl ((List.mem_cons.mp hmem).resolve_left hne)
    · exact .inr hany
  have hanswered : ∀ {c : Call} {k : Reply c → Program (Except Stop Unit × Shell)} {r : Reply c}
      {a a' : Arrivals}, (Program.call c k).OnlyAsks LeavesMarks → a.answers c r a' →
      a' = a ∧ (k r).OnlyAsks LeavesMarks :=
    fun hc ha => ⟨Host.Arrivals.eq_of_answers hc.1 ha, hc.2 _⟩
  cases h with
  | arrives s => exact ⟨fun _ _ => .inr rfl, hbody⟩
  | works hW h => exact ⟨hannounced, fun _ heq => nomatch heq⟩
  | calls hW h hmarks ha =>
      obtain rfl := Host.Arrivals.eq_of_answers hmarks ha
      exact ⟨hannounced, fun _ heq => nomatch heq⟩
  | idles ha => exact ⟨hannounced, fun _ heq => nomatch heq⟩
  | begins h ha => exact ⟨fun s _ => .inl s.mem_all, fun _ heq => nomatch heq⟩
  | passes h => exact ⟨fun s hs => hpass h hs (hannounced s hs), fun _ heq => nomatch heq⟩
  | drops h hs => exact ⟨fun s hs => htake hs (hannounced s), fun _ heq => nomatch heq⟩
  | @runs depth hW s later sh a t h hs =>
      refine ⟨fun s hs => htake hs (hannounced s), ?_⟩
      rintro _ ⟨⟩
      exact ((Shell.staysStill_evaluatorOf depth).source _ _ rfl).1
  | answers h =>
      obtain ⟨rfl, hk⟩ := hanswered (hbody _ rfl) h
      exact ⟨hannounced, by rintro _ ⟨⟩; exact hk⟩
  | stops => exact ⟨hannounced, fun _ heq => nomatch heq⟩
  | fails h => exact ⟨hannounced, by rintro _ ⟨⟩; exact onlyAsks_reportStop _ _⟩
  | tells h =>
      obtain ⟨rfl, hk⟩ := hanswered (hbody _ rfl) h
      exact ⟨hannounced, by rintro _ ⟨⟩; exact hk⟩
  | told => exact ⟨hannounced, fun _ heq => nomatch heq⟩
  | jumps h => exact ⟨hannounced, fun _ heq => nomatch heq⟩
  | misses h => exact ⟨fun s hs => hpass h hs (hannounced s hs), fun _ heq => nomatch heq⟩
  | finds h => exact ⟨fun s _ => .inl s.mem_all, fun _ heq => nomatch heq⟩
  | announces => exact ⟨fun _ _ => .inr rfl, fun _ heq => nomatch heq⟩
  | leaves => exact ⟨hannounced, fun _ heq => nomatch heq⟩
  | ends => exact ⟨hannounced, fun _ heq => nomatch heq⟩

theorem Path.sound (h : Path W m ds m') (hm : m.Sound) : m'.Sound :=
  h.keeps (fun _ _ _ _ hs hm => hm.step hs) hm

/-- While no drain is in progress, a marked signal is announced. -/
theorem Path.announced (h : Path W m ds m') (hm : m.Sound) {sh : Shell} (hrest : m'.control = .rest sh) :
    m'.marks.Announced := by
  intro s hs
  rcases (h.sound hm).announced s hs with hmem | hany
  · rw [hrest] at hmem
    exact absurd hmem List.not_mem_nil
  · exact hany

/-! ### Signals are taken -/

/-- Every deed but the taking of a signal leaves it marked. -/
theorem Step.isPending (hm : m.Sound) (h : Step W m d m') (hs : m.marks.isPending s = true)
    (hd : d.taken? ≠ some s) : m'.marks.isPending s = true := by
  have htake : ∀ {a : Arrivals} {s' : Signal}, a.isPending s = true → some s' ≠ some s →
      (a.take s').isPending s = true :=
    fun hs hne => Host.Arrivals.isPending_take.mpr ⟨hs, fun heq => hne (congrArg some heq.symm)⟩
  cases h with
  | arrives s' => exact Host.Arrivals.isPending_note hs
  | calls hW h hmarks ha =>
      obtain rfl := Host.Arrivals.eq_of_answers hmarks ha
      exact hs
  | drops h _ => exact htake hs hd
  | runs hW h _ => exact htake hs hd
  | answers h =>
      obtain rfl := Host.Arrivals.eq_of_answers (hm.body _ rfl).1 h
      exact hs
  | tells h =>
      obtain rfl := Host.Arrivals.eq_of_answers (hm.body _ rfl).1 h
      exact hs
  | _ => exact hs

/-- A drain in progress has still to look at a signal. -/
def Control.ComesTo (s : Signal) : Control → Prop
  | .scanning later _ => s ∈ later
  | .running later _ _ => s ∈ later
  | .telling later _ _ => s ∈ later
  | _ => True

/-- A signal is marked, and no drain has gone past it. -/
structure Due (s : Signal) (m : Vigil) : Prop where
  isPending : m.marks.isPending s = true
  comes : m.control.ComesTo s

/-- A signal stays due until it is taken, so no drain gets through all signals before that. -/
theorem Step.due (hm : m.Sound) (h : Step W m d m') (hs : m.Due s) (hd : d.taken? ≠ some s) :
    m'.Due s ∧ d ≠ .ends true := by
  have hpending := h.isPending hm hs.isPending hd
  obtain ⟨hmarked, hcomes⟩ := hs
  have htail : ∀ {s' : Signal} {later : List Signal}, s ∈ s' :: later → some s' ≠ some s → s ∈ later :=
    fun hmem hne => (List.mem_cons.mp hmem).resolve_left fun heq => hne (congrArg some heq.symm)
  cases h with
  | begins h ha => exact ⟨⟨hpending, s.mem_all⟩, nofun⟩
  | passes h =>
      refine ⟨⟨hpending, htail hcomes ?_⟩, nofun⟩
      rintro ⟨⟩
      exact Bool.false_ne_true (h.symm.trans hmarked)
  | drops h _ => exact ⟨⟨hpending, htail hcomes hd⟩, nofun⟩
  | runs hW h _ => exact ⟨⟨hpending, htail hcomes hd⟩, nofun⟩
  | ends => exact absurd hcomes List.not_mem_nil
  | jumps h => exact ⟨⟨hpending, trivial⟩, nofun⟩
  | announces => exact ⟨⟨hpending, trivial⟩, nofun⟩
  | leaves => exact ⟨⟨hpending, trivial⟩, nofun⟩
  | finds h => exact ⟨⟨hpending, trivial⟩, nofun⟩
  | _ => exact ⟨⟨hpending, hcomes⟩, nofun⟩

theorem Path.isPending (h : Path W m ds m') (hm : m.Sound) (hs : m.marks.isPending s = true)
    (hds : ∀ e ∈ ds, e.taken? ≠ some s) : m'.marks.isPending s = true :=
  (h.keeps (P := fun m => m.Sound ∧ m.marks.isPending s = true) (fun _ _ _ hd hstep hm =>
    ⟨hm.1.step hstep, hstep.isPending hm.1 hm.2 (hds _ hd)⟩) ⟨hm, hs⟩).2

theorem Path.due (h : Path W m ds m') (hm : m.Sound) (hs : m.Due s)
    (hds : ∀ e ∈ ds, e.taken? ≠ some s) : m'.Due s :=
  (h.keeps (P := fun m => m.Sound ∧ m.Due s) (fun _ _ _ hd hstep hm =>
    ⟨hm.1.step hstep, (hstep.due hm.1 hm.2 (hds _ hd)).1⟩) ⟨hm, hs⟩).2

/-- Whatever happens after the arrival of a signal, it is taken by the end of the next drain that gets
through all signals. -/
theorem Path.takes {ds₀ : List Deed} (hm : m.Sound)
    (h : Path W m (ds₀ ++ .arrives s :: ds ++ .begins :: ds' ++ [.ends true]) m') :
    ∃ e ∈ ds ++ ds', e.taken? = some s := by
  refine Classical.byContradiction fun hnot => ?_
  have hds : ∀ e ∈ ds ++ ds', e.taken? ≠ some s := fun e he heq => hnot ⟨e, he, heq⟩
  -- the path is taken apart at the arrival, at the beginning of the drain and at its end
  rw [show ds₀ ++ Deed.arrives s :: ds ++ .begins :: ds' ++ [.ends true] =
    ds₀ ++ .arrives s :: (ds ++ .begins :: (ds' ++ [.ends true])) by simp] at h
  obtain ⟨m₀, m₁, hbefore, harrives, h⟩ := h.split_at
  obtain ⟨m₂, m₃, hwaits, hbegins, h⟩ := h.split_at
  obtain ⟨m₄, m₅, hdrain, hends, -⟩ := h.split_at
  have hsound₁ := (hbefore.sound hm).step harrives
  have hsound₂ := hwaits.sound hsound₁
  have hpending₁ : m₁.marks.isPending s = true := by
    cases harrives with
    | arrives s => exact Host.Arrivals.isPending_note_self
  have hpending₂ := hwaits.isPending hsound₁ hpending₁ fun e he => hds e (List.mem_append_left _ he)
  have hdue₃ : m₃.Due s := by
    cases hbegins with
    | begins h ha => exact ⟨hpending₂, s.mem_all⟩
  have hsound₃ := hsound₂.step hbegins
  have hdue₄ := hdrain.due hsound₃ hdue₃ fun e he => hds e (List.mem_append_right _ he)
  exact (hends.due (hdrain.sound hsound₃) hdue₄ nofun).2 rfl

/-! ### One trap at a time -/

/-- While the command of a trap runs, it goes on running until it stops. -/
def Control.IsRunning : Control → Prop
  | .running _ _ _ => True
  | .telling _ _ _ => True
  | _ => False

theorem Path.isRunning (h : Path W m ds m') (hm : m.control.IsRunning) (hds : Deed.stops ∉ ds) :
    m'.control.IsRunning := by
  refine h.keeps (P := fun m => m.control.IsRunning) (fun m d m' hd hs hm => ?_) hm
  cases hs with
  | stops => exact absurd hd hds
  | told => exact absurd hd hds
  | jumps h => exact absurd hd hds
  | arrives s => exact hm
  | answers h => exact trivial
  | fails h => exact trivial
  | tells h => exact trivial
  | _ => exact hm.elim

/-- Between the beginnings of two traps the first one comes to an end. -/
theorem Path.stops_between {ds₀ : List Deed} {s' : Signal} {t t' : Text}
    (h : Path W m (ds₀ ++ .runs s t :: ds ++ [.runs s' t']) m') : Deed.stops ∈ ds := by
  refine Classical.byContradiction fun hds => ?_
  rw [show ds₀ ++ Deed.runs s t :: ds ++ [.runs s' t'] = ds₀ ++ .runs s t :: (ds ++ [.runs s' t']) by
    simp] at h
  obtain ⟨m₀, m₁, -, hfirst, h⟩ := h.split_at
  obtain ⟨m₂, m₃, hbetween, hsecond, -⟩ := h.split_at
  have hrunning₁ : m₁.control.IsRunning := by
    cases hfirst with
    | runs hW h hs => exact trivial
  have hrunning₂ := hbetween.isRunning hrunning₁ hds
  cases hsecond with
  | runs hW h hs => exact hrunning₂

/-! ### What a taken signal comes to -/

/-- The command that a trap has when its signal is taken is started then, in a shell that is in a trap. -/
theorem Path.starts {c : Control} {a : Arrivals} {t : Text} (h : Path W m (ds ++ [.runs s t]) ⟨c, a⟩) :
    ∃ (depth : Nat) (later : List Signal) (sh : Shell), W.depths depth ∧
      sh.traps.get? s.number = some (.command t) ∧
      c = .running later sh.status (((evaluatorOf depth).source t).startedIn { sh with inTrap := true }) := by
  obtain ⟨m₁, m₂, -, hruns, hnil⟩ := h.split_at
  cases hnil
  cases hruns with
  | runs hW h hs => exact ⟨_, _, _, hW, hs, rfl⟩

/-- A signal without a run had no command when it was taken. -/
theorem Path.lacks {c : Control} {a : Arrivals} (h : Path W m (ds ++ [.drops s]) ⟨c, a⟩) :
    ∃ (later : List Signal) (sh : Shell), c = .scanning later sh ∧ ∀ t, sh.traps.get? s.number ≠ some (.command t) := by
  obtain ⟨m₁, m₂, -, hdrops, hnil⟩ := h.split_at
  cases hnil
  cases hdrops with
  | drops h hs => exact ⟨_, _, rfl, hs⟩

end Vigil

end CommandShell
