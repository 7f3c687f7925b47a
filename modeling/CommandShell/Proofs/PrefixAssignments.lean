import CommandShell.Proofs.BuiltinErrors
import CommandShell.Proofs.LocalFrames
import CommandShell.Proofs.Scopes.Constructs

/-!
# Assignments before built-in commands

A regular built-in command with assignments before it runs in a frame of variables, in which they are
made. Whatever the command does, and however it ends, the frame is closed after it: the assigned names
have the bindings from before the command again, the frames around are as they were, and names that were
not shadowed in the frame are bound as the command left them (`prefix_assignments_temporary`). The
invariant is `Marks`: a frame that puts back nothing but bindings from before it was opened.

The frame is one like those of functions, and the newest one while the command runs. So `local` takes it
for the frame of the function that it is called in, and the names that it declares get their bindings
back when the command ends, and not when the function does (`not_prefix_assignments_temporary`).
-/

namespace CommandShell

open Host (Event Program)
open Host.Program (Comes)

namespace Variables

variable {vs vs' vs'' : Variables} {frame added : List Shadowed} {name : Text}

/-! ## What frames put back -/

/-- The names that a frame puts back. -/
def marked (frame : List Shadowed) : List Text := frame.map Shadowed.name

/-- In a frame that was opened when the variables were `vs`, and has to put back what they were. All names
that it does not put back are still bound as then. -/
structure Marks (vs : Variables) (frame : List Shadowed) (vs' : Variables) : Prop where
  frames : vs'.frames = frame :: vs.frames
  priors : ∀ m ∈ frame, m.prior = vs.get? m.name
  others : ∀ n, n ∉ marked frame → vs'.get? n = vs.get? n

theorem prior?_append (name : Text) (added frame : List Shadowed) :
    prior? name (added ++ frame) = (prior? name frame).or (prior? name added) := by
  induction added with
  | nil => exact (Option.or_none).symm
  | cons s added ih =>
      show (prior? name (added ++ frame)).or _ = (prior? name frame).or ((prior? name added).or _)
      rw [ih, Option.or_assoc]

theorem prior?_of_notMem (h : name ∉ marked frame) : prior? name frame = none := by
  induction frame with
  | nil => rfl
  | cons s frame ih =>
      have hne : name ≠ s.name := fun heq => h (heq ▸ List.mem_cons_self)
      have hrest : name ∉ marked frame := fun hmem => h (List.mem_cons_of_mem _ hmem)
      show (prior? name frame).or _ = none
      rw [ih hrest, if_neg (Ne.symm hne)]
      rfl

theorem Marks.prior? (h : Marks vs frame vs') (hname : name ∈ marked frame) :
    prior? name frame = some (vs.get? name) := by
  have hpriors := h.priors
  clear h
  induction frame with
  | nil => exact absurd hname List.not_mem_nil
  | cons s frame ih =>
      show (Variables.prior? name frame).or (if s.name = name then some s.prior else none) = _
      by_cases hold : name ∈ marked frame
      · rw [ih hold fun m hm => hpriors m (List.mem_cons_of_mem _ hm)]
        rfl
      · obtain rfl : name = s.name := (List.mem_cons.mp hname).resolve_right hold
        rw [prior?_of_notMem hold, if_pos rfl, hpriors s List.mem_cons_self]
        rfl

/-- Closing the frame, in which names may have been shadowed since. -/
theorem Marks.closeFrame (h : Marks vs frame vs') (hframes : vs''.frames = (added ++ frame) :: vs.frames) :
    vs''.closeFrame.frames = vs.frames ∧
      (∀ n ∈ marked frame, vs''.closeFrame.get? n = vs.get? n) ∧
      ∀ n, n ∉ marked frame → n ∉ marked added → vs''.closeFrame.get? n = vs''.get? n := by
  have hnested : Nested vs.frames 0 (added ++ frame) vs'' := ⟨[], hframes, rfl⟩
  obtain ⟨houter, hget⟩ := hnested.closeFrame
  refine ⟨houter, fun n hn => ?_, fun n hn hnew => ?_⟩
  · rw [hget, prior?_append, h.prior? hn]
    rfl
  · rw [hget, prior?_append, prior?_of_notMem hn, prior?_of_notMem hnew]
    rfl

theorem marks_openFrame (vs : Variables) : Marks vs [] vs.openFrame :=
  ⟨rfl, List.forall_mem_nil _, fun _ _ => rfl⟩

/-- A name is shadowed in the frame. What is put back is its binding from before the frame, since it is
not yet assigned to unless it is marked already. -/
theorem Marks.shadow (h : Marks vs frame vs') (name : Text) : ∃ vs'' frame',
    vs'.shadow name = .ok vs'' ∧ Marks vs frame' vs'' ∧
      (∀ n, n ∈ marked frame' ↔ n = name ∨ n ∈ marked frame) ∧ ∀ n, vs''.get? n = vs'.get? n := by
  unfold Variables.shadow
  rw [h.frames]
  dsimp only
  split
  · rename_i hany
    obtain ⟨m, hm, hname⟩ := List.any_eq_true.mp hany
    refine ⟨vs', frame, rfl, h, fun n => ⟨.inr, ?_⟩, fun _ => rfl⟩
    rintro (rfl | hn)
    · exact List.mem_map.mpr ⟨m, hm, eq_of_beq hname⟩
    · exact hn
  · rename_i hany
    have hfree : name ∉ marked frame := by
      intro hname
      obtain ⟨m, hm, rfl⟩ := List.mem_map.mp hname
      exact hany (List.any_eq_true.mpr ⟨m, hm, beq_self_eq_true m.name⟩)
    refine ⟨_, ⟨name, vs'.get? name⟩ :: frame, rfl, ⟨rfl, ?_, ?_⟩, fun n => List.mem_cons, fun _ => rfl⟩
    · rw [List.forall_mem_cons]
      exact ⟨h.others name hfree, h.priors⟩
    · intro n hn
      exact h.others n fun hmem => hn (List.mem_cons_of_mem _ hmem)

/-- A shadowed name is given a value. -/
theorem Marks.exportValue {value : Text} (h : Marks vs frame vs') (hname : name ∈ marked frame)
    (hvalue : vs'.exportValue name value = .ok vs'') :
    Marks vs frame vs'' ∧ vs''.value? name = some value ∧ ∀ n, n ≠ name → vs''.get? n = vs'.get? n := by
  unfold Variables.exportValue assignWith at hvalue
  dsimp only at hvalue
  split at hvalue
  · cases hvalue
  · cases hvalue
    refine ⟨⟨h.frames, h.priors, fun n hn => ?_⟩, ?_, fun n hn => Table.get?_insert_of_ne hn _ _⟩
    · have hne : n ≠ name := fun heq => hn (heq ▸ hname)
      exact (Table.get?_insert_of_ne hne vs'.bindings _).trans (h.others n hn)
    · unfold value? get?
      rw [Table.get?_insert_self]
      rfl

end Variables

open Variables (Marks marked)

namespace Shell

open Script (Redirect)

variable {ev : Evaluator} {assigned : List (Text × Text)} {frame frame' : List Shadowed}
  {vs vs' : Variables} {s t v : Shell} {r : Except Stop Unit}

/-! ## Assignments in a frame -/

/-- Every name has the value that was assigned to it last. -/
def Hold (assigned : List (Text × Text)) (vs : Variables) : Prop :=
  ∀ name value, assigned.reverse.lookup name = some value → vs.value? name = some value

/-- An assignment counts unless a later one is to the same name. -/
theorem Hold.cons {name value : Text} (h : Hold assigned vs') (hvalue : vs.value? name = some value)
    (hothers : ∀ n, n ∉ assigned.map Prod.fst → vs'.get? n = vs.get? n) :
    Hold ((name, value) :: assigned) vs' := by
  intro n x hx
  rw [List.reverse_cons, List.lookup_append] at hx
  rcases Option.or_eq_some_iff.mp hx with hlater | ⟨hnone, hhere⟩
  · exact h n x hlater
  · by_cases hn : n = name
    swap
    · simp [List.lookup_cons, beq_eq_false_iff_ne.mpr hn] at hhere
    subst hn
    obtain rfl : value = x := Option.some.inj (List.lookup_cons_self.symm.trans hhere)
    have hlast : n ∉ assigned.map Prod.fst := by
      intro hmem
      obtain ⟨b, hb, rfl⟩ := List.mem_map.mp hmem
      have hne := List.lookup_eq_none_iff.mp hnone b (List.mem_reverse.mpr hb)
      exact absurd rfl (bne_iff_ne.mp hne)
    unfold Variables.value?
    rw [hothers n hlast]
    exact hvalue

/-- What assignments in a frame come to: all of them are made, unless one is refused. -/
structure Made (assigned : List (Text × Text)) (frame frame' : List Shadowed) (vs vs' : Variables)
    (r : Except Stop Unit) : Prop where
  keeps : ∀ n ∈ marked frame, n ∈ marked frame'
  names : ∀ n ∈ marked frame', n ∈ marked frame ∨ n ∈ assigned.map Prod.fst
  others : ∀ n, n ∉ assigned.map Prod.fst → vs'.get? n = vs.get? n
  all : r = .ok () → ∀ n ∈ assigned.map Prod.fst, n ∈ marked frame'
  values : r = .ok () → Hold assigned vs'

theorem shadowAll_makes (assigned : List (Text × Text)) (h : Marks vs frame s.variables) : ∃ r t frame',
    (shadowAll assigned).startedIn s = .done (r, t) ∧ Marks vs frame' t.variables ∧
      Made assigned frame frame' s.variables t.variables r := by
  induction assigned generalizing s frame with
  | nil =>
      refine ⟨.ok (), s, frame, rfl, h, fun _ => id, fun _ => .inl, fun _ _ => rfl, fun _ n hn => ?_,
        fun _ n x hx => ?_⟩
      · exact absurd hn List.not_mem_nil
      · exact absurd hx (by simp)
  | cons a assigned ih =>
      obtain ⟨name, value⟩ := a
      obtain ⟨vs₁, frame₁, hshadow, h₁, hmarked, hsame⟩ := h.shadow name
      show ∃ r t frame', ((updateVariables (·.shadow name)).startedIn s).bind _ = .done (r, t) ∧ _
      rw [Variables.startedIn_updateVariables, hshadow]
      show ∃ r t frame', ((updateVariables (·.exportValue name value)).startedIn
        { s with «variables» := vs₁ }).bind _ = .done (r, t) ∧ _
      rw [Variables.startedIn_updateVariables]
      have hkeeps : ∀ n ∈ marked frame, n ∈ marked frame₁ := fun n hn => (hmarked n).mpr (.inr hn)
      have hnames : ∀ n ∈ marked frame₁, n ∈ marked frame ∨ n ∈ name :: assigned.map Prod.fst :=
        fun n hn => ((hmarked n).mp hn).symm.imp_right fun heq : n = name => heq ▸ List.mem_cons_self
      cases hvalue : vs₁.exportValue name value with
      | error f =>
          exact ⟨_, _, frame₁, rfl, h₁, hkeeps, hnames, fun n _ => hsame n, by simp, by simp⟩
      | ok vs₂ =>
          obtain ⟨h₂, hset, hkept⟩ := h₁.exportValue ((hmarked name).mpr (.inl rfl)) hvalue
          obtain ⟨r, t, frame', hrun, ht, hmade⟩ := ih (s := { s with «variables» := vs₂ }) h₂
          refine ⟨r, t, frame', hrun, ht, fun n hn => hmade.keeps n (hkeeps n hn), fun n hn => ?_,
            fun n hn => ?_, fun hr => ?_, fun hr => (hmade.values hr).cons hset hmade.others⟩
          · rcases hmade.names n hn with hold | hnew
            · exact hnames n hold
            · exact .inr (List.mem_cons_of_mem _ hnew)
          · have hne : n ≠ name := fun heq => hn (heq ▸ List.mem_cons_self)
            have hrest : n ∉ assigned.map Prod.fst := fun hmem => hn (List.mem_cons_of_mem _ hmem)
            exact ((hmade.others n hrest).trans (hkept n hne)).trans (hsame n)
          · exact List.forall_mem_cons.mpr
              ⟨hmade.keeps name ((hmarked name).mpr (.inl rfl)), hmade.all hr⟩

/-! ## Built-in commands -/

theorem nests_body (depth : Nat) (b : Builtin) (name : Text) (args : List Text)
    (redirects : List Redirect) : Keeps nests
      (withRedirects (evaluatorOf depth) redirects ((evaluatorOf depth).builtin b name args)) := by
  have hev := unwinds_evaluatorOf depth
  infer_instance

/-- Assignments before a regular built-in command hold for as long as it runs. However the command ends,
the assigned names are bound afterwards as they were before it, with value and flags or not at all, and
the frames around are those from before. If an assignment is refused, the command is not run and all names
are bound as before. Otherwise it ran in a frame in which the assignments held and all other names were
bound as before, and any name that it did not shadow in this frame is bound as it left it. -/
theorem prefix_assignments_temporary (depth : Nat) {b : Builtin} (hb : b.isSpecial = false) (name : Text)
    (args : List Text) (hassigned : assigned ≠ []) (redirects : List Redirect) {es : List Event}
    (h : ((callBuiltin (evaluatorOf depth) b name args assigned redirects).startedIn s).Comes es
      (.done (r, t))) :
    (∀ n ∈ assigned.map Prod.fst, t.variables.get? n = s.variables.get? n) ∧
    t.variables.frames = s.variables.frames ∧
    ((∃ e, r = .error e ∧ e.stopClass = .execution ∧ es = [] ∧
        ∀ n, t.variables.get? n = s.variables.get? n) ∨
      ∃ (v u : Shell) (frame added : List Shadowed),
        (openAssigned assigned).startedIn s = .done (.ok (), v) ∧
        Hold assigned v.variables ∧
        (∀ n, n ∉ assigned.map Prod.fst → v.variables.get? n = s.variables.get? n) ∧
        v.variables.frames = frame :: s.variables.frames ∧
        ((withRedirects (evaluatorOf depth) redirects
          ((evaluatorOf depth).builtin b name args)).startedIn v).Comes es (.done (r, u)) ∧
        u.variables.frames = (added ++ frame) :: s.variables.frames ∧
        t = { u with «variables» := u.variables.closeFrame } ∧
        ∀ n, n ∉ assigned.map Prod.fst → n ∉ marked added →
          t.variables.get? n = u.variables.get? n) := by
  have hisEmpty : assigned.isEmpty = false := List.isEmpty_eq_false_iff.mpr hassigned
  obtain ⟨r', v, frame, hrun, hmarks, hmade⟩ := shadowAll_makes assigned
    (s := { s with «variables» := s.variables.openFrame }) (Variables.marks_openFrame s.variables)
  have hnames : ∀ n ∈ marked frame, n ∈ assigned.map Prod.fst := fun n hn =>
    (hmade.names n hn).resolve_left List.not_mem_nil
  have hopen : (openAssigned assigned).startedIn s = .done (r', v) := by
    unfold openAssigned
    rw [hisEmpty]
    exact hrun
  cases r' with
  | error e =>
      obtain ⟨hclass, hrefused⟩ : _ ∧
          (callBuiltin (evaluatorOf depth) b name args assigned redirects).startedIn s = _ :=
        callBuiltin_refused hb name args redirects hopen
      rw [hrefused] at h
      cases h
      have hframes : v.variables.frames = ([] ++ frame) :: s.variables.frames := hmarks.frames
      obtain ⟨houter, hback, hleft⟩ := hmarks.closeFrame hframes
      have hall : ∀ n, v.variables.closeFrame.get? n = s.variables.get? n := by
        intro n
        by_cases hn : n ∈ marked frame
        · exact hback n hn
        · exact (hleft n hn List.not_mem_nil).trans (hmarks.others n hn)
      exact ⟨fun n _ => hall n, houter, .inl ⟨e, rfl, hclass, rfl, hall⟩⟩
  | ok u =>
      rw [callBuiltin_eq hb name args hisEmpty, startedIn_withFrame] at h
      obtain ⟨es₁, es₂, ⟨r₁, u⟩, rfl, hbody, hclosed⟩ := Comes.of_bind h
      cases hclosed
      have hshadowed : ((do
          shadowAll assigned
          withRedirects (evaluatorOf depth) redirects ((evaluatorOf depth).builtin b name args) :
            ShellM Unit).startedIn { s with «variables» := s.variables.openFrame }) =
          (withRedirects (evaluatorOf depth) redirects
            ((evaluatorOf depth).builtin b name args)).startedIn v := by
        show (((shadowAll assigned).startedIn _).bind _) = _
        rw [hrun]
        rfl
      rw [hshadowed] at hbody
      obtain ⟨-, hgrown⟩ : Nests v u := ((nests_body depth b name args redirects).always v).of_comes hbody
      rw [hmarks.frames] at hgrown
      generalize hframes : u.variables.frames = frames at hgrown
      cases hgrown with
      | newest added =>
          obtain ⟨houter, hback, hleft⟩ := hmarks.closeFrame hframes
          refine ⟨fun n hn => hback n (hmade.all rfl n hn), houter, .inr ⟨v, u, frame, added, hopen,
            hmade.values rfl, hmade.others, hmarks.frames, ?_, hframes, rfl, fun n hn hnew => ?_⟩⟩
          · rw [List.append_nil]
            exact hbody
          · exact hleft n (fun hmem => hn (hnames n hmem)) hnew

/-- A shell in which `x` is 0. -/
def withZero : Shell := { «variables» := { bindings := Table.empty.insert "x" { value := some "0" } } }

/-- In `x=1 command eval 'y=$x'` the assignment holds while the text is run, and `y` stays. -/
theorem prefix_assignments_temporary_eval :
    ∃ t, ((callBuiltin (evaluatorOf 5) .command "command" ["eval", "y=$x"] [("x", "1")] []).startedIn
        withZero).Comes [⟨.takeArrived, false⟩] (.done (.ok (), t)) ∧
      t.variables.get? "x" = some { value := some "0" } ∧ t.variables.value? "y" = some "1" := by
  obtain ⟨t, hcomes, hy⟩ := comes_ok_of_endsIn
    (callBuiltin (evaluatorOf 5) .command "command" ["eval", "y=$x"] [("x", "1")] []) withZero
    [⟨.takeArrived, false⟩] (fun t => t.variables.value? "y" == some "1") (by decide +kernel)
  have hx := (prefix_assignments_temporary 5 rfl "command" ["eval", "y=$x"] (List.cons_ne_nil _ _) []
    hcomes).1 "x" List.mem_cons_self
  exact ⟨t, hcomes, hx, eq_of_beq hy⟩

/-- A shell in a function that has made no name local. -/
def inFunction (bindings : Table Variable) : Shell :=
  { «variables» := { bindings, frames := [[]] }, functionDepth := 1 }

/-- In a function `x=1 local y=2` leaves `y` as it was before, and `local y=2` with 1 in `x` already gives
it a value for as long as the function runs. -/
theorem not_prefix_assignments_temporary :
    (∃ t, ((callBuiltin (evaluatorOf 1) .local_ "local" ["y=2"] [("x", "1")] []).startedIn
        (inFunction .empty)).Comes [] (.done (.ok (), t)) ∧ t.variables.value? "y" = none) ∧
      ∃ t, ((callBuiltin (evaluatorOf 1) .local_ "local" ["y=2"] [] []).startedIn
        (inFunction (Table.empty.insert "x" { value := some "1" }))).Comes [] (.done (.ok (), t)) ∧
        t.variables.value? "y" = some "2" := by
  obtain ⟨t, hframed, ht⟩ := comes_ok_of_endsIn
    (callBuiltin (evaluatorOf 1) .local_ "local" ["y=2"] [("x", "1")] []) (inFunction .empty) []
    (fun t => t.variables.value? "y" == none) (by decide +kernel)
  obtain ⟨u, hbare, hu⟩ := comes_ok_of_endsIn
    (callBuiltin (evaluatorOf 1) .local_ "local" ["y=2"] [] [])
    (inFunction (Table.empty.insert "x" { value := some "1" })) []
    (fun t => t.variables.value? "y" == some "2") (by decide +kernel)
  exact ⟨⟨t, hframed, eq_of_beq ht⟩, u, hbare, eq_of_beq hu⟩

end Shell

end CommandShell
