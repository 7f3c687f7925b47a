import CommandShell.Proofs.LocalFrames
import CommandShell.Proofs.Lockstep

/-!
# Read-only variables

A read-only variable keeps its value whatever is tried on the variables, and stays read-only:
assigning and removing are refused, and a frame that shadows it has nothing else to put back than
what it was all the time. Only a frame that was open before, and that remembers the name from a time
when it was not read-only, could bring back something else; `readOnly_stays` starts without one.

The invariant is `Guarded`: the variable is fixed, and so is every binding of its name that an open
frame remembers. One change keeps it (`Guarded.tryChange`), and so does a run of changes of any
length. A change that is refused changes nothing, neither the variables nor anything else in the
state of a shell that tries it (`change_eq_error_iff`, `startedIn_updateVariables`).
-/

namespace CommandShell.Variables

/-- A change of bindings, of frames, or of the positional parameters. -/
inductive Change where
  | binding (op : Operation)
  | params (ps : List Text)
  | shift (n : Nat)
  deriving DecidableEq

/-- The variables after a change, or why it is refused. -/
def change (vs : Variables) : Change → Except Fault Variables
  | .binding (.give name value exported readOnly) => vs.assignWith name value exported readOnly
  | .binding (.unset name) => vs.unset name
  | .binding (.unexport name) => .ok (vs.unexport name)
  | .binding (.shadow name) => vs.shadow name
  | .binding .openFrame => .ok vs.openFrame
  | .binding .closeFrame => .ok vs.closeFrame
  | .params ps => .ok (vs.withParams ps)
  | .shift n => match vs.shift? n with
    | none => .error (.execution "can't shift that many")
    | some vs => .ok vs

/-- The variables after a change was tried. -/
def tryChange (vs : Variables) (c : Change) : Variables := vs.settle (vs.change c)

/-- The variables after changes were tried in turn. -/
def tryAll (vs : Variables) (cs : List Change) : Variables := cs.foldl tryChange vs

/-- When a change is refused: a value for a read-only variable, its removal, shadowing outside of
every frame, and dropping more parameters than there are. -/
def Refuses (vs : Variables) : Change → Prop
  | .binding (.give name value _ _) => value.isSome = true ∧ vs.isReadOnly name = true
  | .binding (.unset name) => vs.isReadOnly name = true
  | .binding (.shadow _) => vs.frames = []
  | .shift n => vs.params.length < n
  | _ => False

/-- A binding that is read-only and has the given value, or no value if none is given. -/
def Fixes (value : Option Text) (b : Option Variable) : Prop :=
  ∃ v, b = some v ∧ v.readOnly = true ∧ v.value = value

/-- The name is fixed, and no open frame remembers it otherwise. -/
structure Guarded (name : Text) (value : Option Text) (vs : Variables) : Prop where
  bound : Fixes value (vs.get? name)
  remembered : ∀ frame ∈ vs.frames, ∀ s ∈ frame, s.name = name → Fixes value s.prior

section

variable {vs : Variables} {name x : Text} {value new : Option Text} {frame : List Shadowed}

/-! ## Refusals -/

theorem isReadOnly_eq (vs : Variables) (name : Text) :
    vs.isReadOnly name = ((vs.get? name).getD {}).readOnly := by
  unfold isReadOnly
  cases vs.get? name with
  | none => rfl
  | some v => rfl

/-- What is refused, and only that. -/
theorem change_eq_error_iff (vs : Variables) (c : Change) :
    (∃ f, vs.change c = .error f) ↔ vs.Refuses c := by
  cases c with
  | params ps => simp [change, Refuses]
  | shift n => by_cases h : n ≤ vs.params.length <;> simp [change, Refuses, shift?, h]; omega
  | binding op =>
      cases op with
      | give name value exported readOnly =>
          simp only [change, Refuses, assignWith, isReadOnly_eq]
          by_cases h : (value.isSome && ((vs.get? name).getD {}).readOnly) = true
          · rw [if_pos h]
            simpa using h
          · rw [if_neg h]
            simpa using h
      | unset name => by_cases h : vs.isReadOnly name = true <;> simp [change, Refuses, unset, h]
      | shadow name =>
          unfold change Refuses shadow
          cases vs.frames with
          | nil => simp
          | cons frame rest =>
              by_cases h : frame.any (fun s => s.name == name) = true
              · simp [h]
              · simp [h]
      | unexport name => simp [change, Refuses]
      | openFrame => simp [change, Refuses]
      | closeFrame => simp [change, Refuses]

/-! ## What one change keeps -/

theorem tryChange_binding (vs : Variables) (op : Operation) :
    vs.tryChange (.binding op) = vs.perform op := by
  cases op <;> rfl

/-- What a frame puts back is one of the bindings that it remembers. -/
theorem exists_of_prior? {b : Option Variable} (h : prior? name frame = some b) :
    ∃ s ∈ frame, s.name = name ∧ s.prior = b := by
  induction frame with
  | nil => cases h
  | cons s older ih =>
      rcases Option.or_eq_some_iff.mp h with hold | ⟨-, hs⟩
      · obtain ⟨s', hs', hname, hprior⟩ := ih hold
        exact ⟨s', List.mem_cons_of_mem _ hs', hname, hprior⟩
      · by_cases hname : s.name = name
        · rw [if_pos hname] at hs
          exact ⟨s, List.mem_cons_self, hname, Option.some.inj hs⟩
        · rw [if_neg hname] at hs
          cases hs

/-- A change that leaves the frames alone has to keep the binding only. -/
theorem Guarded.of_frames_eq {vs' : Variables} (h : Guarded x value vs)
    (hframes : vs'.frames = vs.frames) (hbound : Fixes value (vs'.get? x)) :
    Guarded x value vs' where
  bound := hbound
  remembered := by
    rw [hframes]
    exact h.remembered

theorem Guarded.isReadOnly (h : Guarded x value vs) : vs.isReadOnly x = true := by
  obtain ⟨v, hv, hfixed, -⟩ := h.bound
  rw [isReadOnly_eq, hv]
  exact hfixed

/-- Flags can be added, a value is refused. -/
theorem Guarded.give (h : Guarded x value vs) (name : Text) (new : Option Text)
    (exported readOnly : Bool) :
    Guarded x value (vs.perform (.give name new exported readOnly)) := by
  apply h.of_frames_eq (frames_settle_assignWith vs new exported readOnly)
  show Fixes value ((vs.settle (vs.assignWith name new exported readOnly)).get? x)
  unfold assignWith
  dsimp only
  split
  · exact h.bound
  · rename_i hgoes
    show Fixes value ((vs.bindings.insert name _).get? x)
    by_cases hx : x = name
    · subst hx
      obtain ⟨v, hv, hfixed, hvalue⟩ := h.bound
      rw [Table.get?_insert_self, hv]
      rw [hv, Option.getD_some, hfixed, Bool.and_true] at hgoes
      obtain rfl : new = none := by simpa using hgoes
      refine ⟨_, rfl, ?_, hvalue⟩
      show (v.readOnly || readOnly) = true
      rw [hfixed, Bool.true_or]
    · rw [Table.get?_insert_of_ne hx]
      exact h.bound

theorem Guarded.unset (h : Guarded x value vs) (name : Text) :
    Guarded x value (vs.perform (.unset name)) := by
  apply h.of_frames_eq (frames_settle_unset vs)
  show Fixes value ((vs.settle (vs.unset name)).get? x)
  unfold Variables.unset
  by_cases hname : vs.isReadOnly name = true
  · rw [if_pos hname]
    exact h.bound
  · rw [if_neg hname]
    have hx : x ≠ name := by
      rintro rfl
      exact hname h.isReadOnly
    show Fixes value ((vs.bindings.erase name).get? x)
    rw [Table.get?_erase_of_ne hx]
    exact h.bound

theorem Guarded.unexport (h : Guarded x value vs) (name : Text) :
    Guarded x value (vs.perform (.unexport name)) := by
  apply h.of_frames_eq (frames_unexport vs)
  show Fixes value ((vs.unexport name).get? x)
  unfold Variables.unexport
  split
  · rename_i v hv
    show Fixes value ((vs.bindings.insert name _).get? x)
    by_cases hx : x = name
    · subst hx
      obtain ⟨w, hw, hfixed, hvalue⟩ := h.bound
      obtain rfl : v = w := Option.some.inj (hv.symm.trans hw)
      rw [Table.get?_insert_self]
      exact ⟨_, rfl, hfixed, hvalue⟩
    · rw [Table.get?_insert_of_ne hx]
      exact h.bound
  · exact h.bound

/-- A frame that shadows the name remembers the fixed binding. -/
theorem Guarded.shadow (h : Guarded x value vs) (name : Text) :
    Guarded x value (vs.perform (.shadow name)) := by
  show Guarded x value (vs.settle (vs.shadow name))
  unfold Variables.shadow
  split
  · exact h
  · rename_i frame rest hframes
    by_cases hany : frame.any (fun s => s.name == name) = true
    · rw [if_pos hany]
      exact h
    · rw [if_neg hany]
      have hremembered := h.remembered
      rw [hframes] at hremembered
      refine ⟨h.bound, fun newest hnewest s hs hname => ?_⟩
      rcases List.mem_cons.mp hnewest with rfl | hrest
      · rcases List.mem_cons.mp hs with rfl | hs
        · -- the name itself is shadowed, from the binding it has now
          subst hname
          exact h.bound
        · exact hremembered frame List.mem_cons_self s hs hname
      · exact hremembered newest (List.mem_cons_of_mem _ hrest) s hs hname

theorem Guarded.openFrame (h : Guarded x value vs) : Guarded x value vs.openFrame := by
  refine ⟨h.bound, fun frame hframe s hs hname => ?_⟩
  rcases List.mem_cons.mp hframe with rfl | hrest
  · cases hs
  · exact h.remembered frame hrest s hs hname

/-- A frame that closes puts back the fixed binding, or nothing. -/
theorem Guarded.closeFrame (h : Guarded x value vs) : Guarded x value vs.closeFrame := by
  cases hframes : vs.frames with
  | nil =>
      unfold Variables.closeFrame
      rw [hframes]
      exact h
  | cons frame rest =>
      have hremembered := h.remembered
      rw [hframes] at hremembered
      have hnested : Nested rest 0 frame vs := ⟨[], hframes, rfl⟩
      obtain ⟨hrest, hget⟩ := hnested.closeFrame
      constructor
      · rw [hget]
        cases hprior : prior? x frame with
        | none => exact h.bound
        | some b =>
            obtain ⟨s, hs, hname, rfl⟩ := exists_of_prior? hprior
            exact hremembered frame List.mem_cons_self s hs hname
      · rw [hrest]
        intro older holder
        exact hremembered older (List.mem_cons_of_mem _ holder)

/-- Every change keeps a guarded name. -/
theorem Guarded.tryChange (h : Guarded x value vs) (c : Change) :
    Guarded x value (vs.tryChange c) := by
  cases c with
  | params ps => exact h.of_frames_eq rfl h.bound
  | shift n =>
      show Guarded x value (vs.settle (match vs.shift? n with | none => _ | some vs => _))
      unfold shift?
      by_cases hn : n ≤ vs.params.length
      · rw [if_pos hn]
        exact h.of_frames_eq rfl h.bound
      · rw [if_neg hn]
        exact h
  | binding op =>
      rw [tryChange_binding]
      cases op with
      | give name new exported readOnly => exact h.give name new exported readOnly
      | unset name => exact h.unset name
      | unexport name => exact h.unexport name
      | shadow name => exact h.shadow name
      | openFrame => exact h.openFrame
      | closeFrame => exact h.closeFrame

/-- A run of changes keeps a guarded name. -/
theorem Guarded.tryAll (h : Guarded x value vs) (cs : List Change) :
    Guarded x value (vs.tryAll cs) := by
  induction cs generalizing vs with
  | nil => exact h
  | cons c cs ih => exact ih (h.tryChange c)

/-! ## What a refusal leaves -/

/-- A shell that changes its variables has the new ones, or stops with everything as it was. -/
theorem startedIn_updateVariables (f : Variables → Except Fault Variables) (sh : Shell) :
    (Shell.updateVariables f).startedIn sh = .done (match f sh.variables with
      | .ok vs => (.ok (), { sh with «variables» := vs })
      | .error e => (.error (.ofFault e), sh)) := by
  show (Shell.ofExcept (f sh.variables) >>= fun vs => _ : ShellM Unit).startedIn sh = _
  cases f sh.variables with
  | ok vs => rfl
  | error e => rfl

/-- A shell that tries one change after the other comes to the variables after them. -/
theorem startedIn_tryAll (cs : List Change) (sh : Shell) :
    (cs.forM fun c => Shell.quietly (Shell.updateVariables (·.change c))).startedIn sh =
      .done (.ok (), { sh with «variables» := sh.variables.tryAll cs }) := by
  induction cs generalizing sh with
  | nil => rfl
  | cons c cs ih =>
      have hone : (Shell.quietly (Shell.updateVariables (·.change c))).startedIn sh =
          .done (.ok (), { sh with «variables» := sh.variables.tryChange c }) := by
        show (((Shell.updateVariables (·.change c)).startedIn sh).bind _).bind _ = _
        rw [startedIn_updateVariables]
        unfold tryChange settle
        cases sh.variables.change c with
        | ok vs => rfl
        | error e => rfl
      show ((Shell.quietly (Shell.updateVariables (·.change c))).startedIn sh).bind _ = _
      rw [hone]
      exact ih _

/-- Assigning to a read-only variable stops with everything as it was. -/
theorem startedIn_assignVariable {sh : Shell} (h : sh.variables.isReadOnly x = true) (t : Text) :
    (Shell.assignVariable x t).startedIn sh = .done (.error (.ofFault (.readOnly x)), sh) := by
  show (Shell.ofExcept (sh.assign x t) >>= fun sh' => set sh' : ShellM Unit).startedIn sh = _
  have hrefused : sh.assign x t = .error (.readOnly x) := by
    rw [isReadOnly_eq] at h
    simp [Shell.assign, assignWith, h, Except.map]
  rw [hrefused]
  rfl

/-- Removing a read-only variable stops with everything as it was. -/
theorem startedIn_unsetVariable {sh : Shell} (h : sh.variables.isReadOnly x = true) :
    (Shell.unsetVariable x).startedIn sh = .done (.error (.ofFault (.readOnly x)), sh) := by
  show (Shell.ofExcept (sh.unset x) >>= fun sh' => set sh' : ShellM Unit).startedIn sh = _
  have hrefused : sh.unset x = .error (.readOnly x) := by
    simp [Shell.unset, Variables.unset, h, Except.map]
  rw [hrefused]
  rfl

end

/-- Read-only means read-only. From variables in which `x` is read-only and no open frame remembers
it, every sequence of changes leads to variables in which it is read-only with the same value, and
a shell that tries them in turn comes to just these. What is refused is known beforehand, and the
refusal leaves the variables and all of the shell's state as they were; in particular nothing is
assigned to a read-only variable, and it is not removed. -/
theorem readOnly_stays {vs : Variables} {x : Text} {v : Variable} (hv : vs.get? x = some v)
    (hfixed : v.readOnly = true) (hframes : ∀ frame ∈ vs.frames, ∀ s ∈ frame, s.name ≠ x)
    (cs : List Change) :
    (∃ w, (vs.tryAll cs).get? x = some w ∧ w.readOnly = true ∧ w.value = v.value) ∧
    (∀ sh : Shell, sh.variables = vs →
      (cs.forM fun c => Shell.quietly (Shell.updateVariables (·.change c))).startedIn sh =
        .done (.ok (), { sh with «variables» := vs.tryAll cs })) ∧
    (∀ (ws : Variables) (c : Change), (∃ f, ws.change c = .error f) ↔ ws.Refuses c) ∧
    (∀ (ws : Variables) (c : Change) (f : Fault), ws.change c = .error f →
      ws.tryChange c = ws ∧ ∀ sh : Shell, sh.variables = ws →
        (Shell.updateVariables (·.change c)).startedIn sh = .done (.error (.ofFault f), sh)) ∧
    ∀ sh : Shell, sh.variables = vs.tryAll cs →
      (∀ t, (Shell.assignVariable x t).startedIn sh =
        .done (.error (.ofFault (.readOnly x)), sh)) ∧
      (Shell.unsetVariable x).startedIn sh = .done (.error (.ofFault (.readOnly x)), sh) := by
  have hguarded : Guarded x v.value vs := by
    refine ⟨⟨v, hv, hfixed, rfl⟩, fun frame hframe s hs hname => ?_⟩
    exact absurd hname (hframes frame hframe s hs)
  have hafter := hguarded.tryAll cs
  refine ⟨hafter.bound, ?_, change_eq_error_iff, ?_, ?_⟩
  · rintro sh rfl
    exact startedIn_tryAll cs sh
  · intro ws c f hf
    constructor
    · rw [tryChange, hf]
      rfl
    · rintro sh rfl
      rw [startedIn_updateVariables, hf]
  · intro sh hsh
    have hsame : sh.variables.isReadOnly x = true := hsh ▸ hafter.isReadOnly
    exact ⟨startedIn_assignVariable hsame, startedIn_unsetVariable hsame⟩

/-- Variables in which `x` is read-only, with a frame open in which `y` is shadowed. -/
def fixedInFrame : Variables where
  bindings := Table.empty.insert "x" { value := some "1", readOnly := true }
  frames := [[⟨"y", none⟩]]

/-- Shadowing `x` in two frames, assigning, exporting, removing, and closing all frames. -/
def attemptsOnFixed : List Change :=
  [.binding (.shadow "x"), .binding .openFrame, .binding (.shadow "x"),
    .binding (.give "x" (some "2") false false), .binding (.give "x" none true false),
    .binding (.unset "x"), .params ["a"], .shift 2, .binding .closeFrame, .binding .closeFrame,
    .binding .closeFrame, .binding (.shadow "x")]

/-- None of them gives `x` another value, also when its frames are closed again. -/
theorem readOnly_stays_shadowed :
    fixedInFrame.get? "x" = some { value := some "1", readOnly := true } ∧
    (∀ frame ∈ fixedInFrame.frames, ∀ s ∈ frame, s.name ≠ "x") ∧
    ∃ w, (fixedInFrame.tryAll attemptsOnFixed).get? "x" = some w ∧ w.readOnly = true ∧
      w.value = some "1" := by
  have hframes : ∀ frame ∈ fixedInFrame.frames, ∀ s ∈ frame, s.name ≠ "x" := by
    intro frame hframe s hs
    obtain rfl := List.mem_singleton.mp hframe
    obtain rfl := List.mem_singleton.mp hs
    decide
  exact ⟨rfl, hframes, (readOnly_stays rfl rfl hframes attemptsOnFixed).1⟩

end CommandShell.Variables
