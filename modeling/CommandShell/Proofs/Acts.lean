import CommandShell.Execution.Child
import CommandShell.Proofs.ReadOnly

/-!
# What a shell does, step by step

Whatever a shell runs, it does few kinds of things: it makes calls, changes variables, sets options
and traps, becomes a subshell, takes the command for its end. `Acts` says what each of them does to
the state, and when it is done; all else that changes is of no concern for variables, options, traps
and the end of the shell. A `Trail` is a run of acts with the states that it goes through.

`Moves` is what becomes of a state without a call, where no construct is entered or left. `Traces`
says of a program that it goes on from a state by acts, whatever the answers to its calls are: so
however far it came, a trail leads there with the same calls (`Traces.reaches`).
-/

namespace CommandShell

open Host (Call Disposition Event Program)
open Host.Program (Reaches)

namespace Shell

/-! ## Acts -/

/-- What a shell has the system do with a signal. -/
inductive Orders (sh : Shell) (s : Signal) : Disposition → Prop where
  /-- What traps and options ask for, if the signal was not ignored from the start. -/
  | own (h : sh.traps.isLocked s.number = false) :
      Orders sh s (sh.traps.disposition sh.signalMode s)
  /-- What a child should do. -/
  | child {d : Disposition} (quiet : Bool) (h : (s, d) ∈ sh.traps.childDispositions quiet) :
      Orders sh s d

/-- The calls that a shell makes. -/
def Issues (sh : Shell) : Call → Prop
  | .setDisposition s d => sh.Orders s d
  | _ => True

/-- The flags that come with a value. -/
inductive Flags (sh : Shell) : (exported readOnly : Bool) → Prop where
  | assignment : Flags sh (sh.has .allexport) false
  /-- An `export`, or an assignment before a command. -/
  | exported : Flags sh true false
  /-- A `readonly`. -/
  | readOnly : Flags sh false true

/-- The changes of variables that a shell tries. It takes no export flag away. -/
def Tries (sh : Shell) : Variables.Change → Prop
  | .binding (.give _ (some _) exported readOnly) => sh.Flags exported readOnly
  | .binding (.unexport _) => False
  | _ => True

/-- What a shell does in one step. -/
inductive Act where
  /-- A call, with the answer to it. -/
  | calls (e : Event)
  /-- A change of the variables that is not refused. -/
  | changes (c : Variables.Change)
  | sets (options : CommandShell.Options)
  /-- A trap is set or cleared. -/
  | traps (number : Nat) (action : Option TrapAction)
  /-- The shell becomes a subshell. -/
  | parts
  /-- The command for the end of the shell is taken. -/
  | ends
  /-- Something else changes. -/
  | works

/-- The call that an act is. -/
def Act.event? : Act → Option Event
  | .calls e => some e
  | _ => none

/-- What an act does to the state of a shell that does it. -/
inductive Acts : Shell → Act → Shell → Prop where
  | calls {s : Shell} {e : Event} (h : s.Issues e.1) : Acts s (.calls e) s
  /-- A new search path makes remembered paths worthless, so definitions may change too. -/
  | changes {s : Shell} {c : Variables.Change} {vs : Variables} (hc : s.variables.change c = .ok vs)
      (h : s.Tries c) (definitions : Definitions) :
      Acts s (.changes c) { s with «variables» := vs, definitions }
  | sets (s : Shell) (options : CommandShell.Options) : Acts s (.sets options) { s with options }
  | traps {s : Shell} {number : Nat} (h : s.traps.isLocked number = false)
      (action : Option TrapAction) :
      Acts s (.traps number action) { s with traps := s.traps.set number action }
  | parts (s : Shell) : Acts s .parts s.asSubshell
  | ends (s : Shell) : Acts s .ends (takeExitCommand s).2
  | works {s t : Shell} (hvariables : t.variables = s.variables) (hoptions : t.options = s.options)
      (htraps : t.traps = s.traps) (hexiting : t.isExiting = s.isExiting) : Acts s .works t

/-- A run of acts from one state to another. -/
inductive Trail : Shell → List Act → Shell → Prop where
  | nil (s : Shell) : Trail s [] s
  | cons {s t u : Shell} {a : Act} {as : List Act} : Acts s a t → Trail t as u → Trail s (a :: as) u

/-- The calls of a run. -/
def events (as : List Act) : List Event := as.filterMap Act.event?

variable {s t u : Shell} {a : Act} {as as' : List Act}

theorem Acts.trail (h : Acts s a t) : Trail s [a] t := .cons h (.nil t)

theorem Trail.append (h : Trail s as t) (h' : Trail t as' u) : Trail s (as ++ as') u := by
  induction h with
  | nil s => exact h'
  | cons ha _ ih => exact .cons ha (ih h')

theorem Trail.split (h : Trail s (as ++ as') u) : ∃ t, Trail s as t ∧ Trail t as' u := by
  induction as generalizing s with
  | nil => exact ⟨s, .nil s, h⟩
  | cons a as ih =>
      cases h with
      | cons ha h =>
          obtain ⟨t, ht, hu⟩ := ih h
          exact ⟨t, .cons ha ht, hu⟩

theorem events_append (as as' : List Act) : events (as ++ as') = events as ++ events as' :=
  List.filterMap_append

/-! ## Moves -/

/-- What becomes of a state without a call, among the constructs that the shell is in. -/
structure Moves (s t : Shell) : Prop where
  trail : ∃ as, Trail s as t ∧ events as = []
  loopDepth : t.loopDepth = s.loopDepth
  inTrap : t.inTrap = s.inTrap
  /-- A shell does not begin to end. -/
  running : s.isExiting = false → t.isExiting = false

namespace Moves

theorem refl (s : Shell) : Moves s s := ⟨⟨[], .nil s, rfl⟩, rfl, rfl, id⟩

theorem trans (h : Moves s t) (h' : Moves t u) : Moves s u := by
  obtain ⟨as, hs, has⟩ := h.trail
  obtain ⟨as', ht, has'⟩ := h'.trail
  refine ⟨⟨as ++ as', hs.append ht, ?_⟩, h'.loopDepth.trans h.loopDepth, h'.inTrap.trans h.inTrap,
    fun hrun => h'.running (h.running hrun)⟩
  rw [events_append, has, has']
  rfl

/-- Something that the acts are not about. -/
theorem works (hvariables : t.variables = s.variables) (hoptions : t.options = s.options)
    (htraps : t.traps = s.traps) (hexiting : t.isExiting = s.isExiting)
    (hloops : t.loopDepth = s.loopDepth) (hinTrap : t.inTrap = s.inTrap) : Moves s t where
  trail := ⟨[.works], (Acts.works hvariables hoptions htraps hexiting).trail, rfl⟩
  loopDepth := hloops
  inTrap := hinTrap
  running h := hexiting.trans h

theorem changes {c : Variables.Change} {vs : Variables} (hc : s.variables.change c = .ok vs)
    (h : s.Tries c) (definitions : Definitions) :
    Moves s { s with «variables» := vs, definitions } :=
  ⟨⟨[.changes c], (Acts.changes hc h definitions).trail, rfl⟩, rfl, rfl, id⟩

theorem sets (s : Shell) (options : CommandShell.Options) : Moves s { s with options } :=
  ⟨⟨[.sets options], (Acts.sets s options).trail, rfl⟩, rfl, rfl, id⟩

theorem traps {number : Nat} (h : s.traps.isLocked number = false) (action : Option TrapAction) :
    Moves s { s with traps := s.traps.set number action } :=
  ⟨⟨[.traps number action], (Acts.traps h action).trail, rfl⟩, rfl, rfl, id⟩

theorem parts (s : Shell) : Moves s s.asSubshell :=
  ⟨⟨[.parts], (Acts.parts s).trail, rfl⟩, rfl, rfl, fun _ => rfl⟩

theorem assign {name value : Text} (h : s.assign name value = .ok t) : Moves s t := by
  unfold Shell.assign at h
  cases ha : s.variables.assignWith name (some value) (s.has .allexport) false with
  | error e =>
      rw [ha] at h
      cases h
  | ok vs =>
      rw [ha] at h
      cases h
      exact changes (c := .binding (.give name (some value) (s.has .allexport) false)) ha
        Flags.assignment _

theorem unset {name : Text} (h : s.unset name = .ok t) : Moves s t := by
  unfold Shell.unset at h
  cases hu : s.variables.unset name with
  | error e =>
      rw [hu] at h
      cases h
  | ok vs =>
      rw [hu] at h
      cases h
      exact changes (c := .binding (.unset name)) hu trivial _

end Moves

/-! ## Programs -/

variable {α β : Type}

/-- A program that goes on from a state by acts, and comes to the state that it is in then. -/
inductive Traces : Shell → Program (Except Stop α × Shell) → Prop where
  | done (r : Except Stop α) (s : Shell) : Traces s (.done (r, s))
  | call {s : Shell} {c : Call} {k : Host.Reply c → Program (Except Stop α × Shell)} :
      s.Issues c → (∀ r, Traces s (k r)) → Traces s (.call c k)
  | act {s t : Shell} {a : Act} {p : Program (Except Stop α × Shell)} :
      Acts s a t → a.event? = none → Traces t p → Traces s p

namespace Traces

variable {p q : Program (Except Stop α × Shell)} {es : List Event}

theorem of_trail (h : Trail s as t) (hs : events as = []) (hp : Traces t p) : Traces s p := by
  induction h with
  | nil s => exact hp
  | cons ha _ ih =>
      rw [events, List.filterMap_cons] at hs
      split at hs
      · rename_i hcall
        exact .act ha hcall (ih hs hp)
      · cases hs

theorem of_moves (h : Moves s t) (hp : Traces t p) : Traces s p := by
  obtain ⟨as, has, hs⟩ := h.trail
  exact of_trail has hs hp

/-- A program goes on from results that are known to satisfy something. -/
theorem bind_always {Q : Except Stop α × Shell → Prop}
    {f : Except Stop α × Shell → Program (Except Stop β × Shell)} (hp : Traces s p) (hQ : p.Always Q)
    (hf : ∀ r t, Q (r, t) → Traces t (f (r, t))) : Traces s (p.bind f) := by
  -- on the way `hQ` is about the results that are still to come
  induction hp with
  | done r s => exact hf r s hQ
  | call hc _ ih => exact .call hc fun r => ih r (hQ r)
  | act ha hcall _ ih => exact .act ha hcall (ih hQ)

protected theorem bind {f : Except Stop α × Shell → Program (Except Stop β × Shell)}
    (hp : Traces s p) (hf : ∀ r t, Traces t (f (r, t))) : Traces s (p.bind f) :=
  hp.bind_always (Program.always_of (fun _ => trivial) p) fun r t _ => hf r t

/-- However far a program came, a trail leads there. -/
theorem reaches (hp : Traces s p) (h : Reaches p es q) :
    ∃ as t, Trail s as t ∧ events as = es ∧ Traces t q := by
  induction hp generalizing es with
  | done r s =>
      cases h
      exact ⟨[], s, .nil s, rfl, .done r s⟩
  | call hc hk ih =>
      rename_i s c k
      cases h with
      | here => exact ⟨[], s, .nil s, rfl, .call hc hk⟩
      | step h =>
          obtain ⟨as, t, hs, has, hq⟩ := ih _ h
          exact ⟨_ :: as, t, .cons (.calls hc) hs, by rw [← has]; rfl, hq⟩
  | act ha hcall _ ih =>
      obtain ⟨as, t, hs, has, hq⟩ := ih h
      refine ⟨_ :: as, t, .cons ha hs, ?_, hq⟩
      rw [events, List.filterMap_cons_none hcall]
      exact has

/-- A program that is done came to the end of the trail. -/
theorem comes {r : Except Stop α} (hp : Traces s p) (h : p.Comes es (.done (r, u))) :
    ∃ as, Trail s as u ∧ events as = es := by
  obtain ⟨as, t, hs, has, hq⟩ := hp.reaches h
  -- after the last call there may be acts left that are no calls
  generalize hr : Program.done (r, u) = q at hq
  induction hq generalizing as with
  | done r s =>
      cases hr
      exact ⟨as, hs, has⟩
  | call => cases hr
  | act ha hcall _ ih =>
      refine ih _ (hs.append ha.trail) ?_ hr
      rw [events_append, has, events, List.filterMap_cons_none hcall]
      exact List.append_nil _

end Traces

end Shell

end CommandShell
