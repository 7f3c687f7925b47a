import CommandShell.Variables

/-!
# Frames of variables

A function shadows names in a frame, and closing the frame puts the names back. In between anything
may happen to the variables, frames may be opened and closed inside, and a name may be shadowed at
any moment and more than once. `closeFrame_restores` says what is left of all that: a name that was
shadowed in the frame has the binding from just before it was first shadowed there, every other name
the one from just before the frame was closed, and the frames outside are what they were.

The invariant is `prior?`, what closing a frame would put back. Of all operations only `shadow` in the
frame itself changes it (`Nested.perform`), and never for a name that the frame has already.
-/

namespace CommandShell.Variables

/-- An operation on variables. A value given with no flags is an assignment, and with the export
flag an `export`. -/
inductive Operation where
  | give (name : Text) (value : Option Text) (exported readOnly : Bool)
  | unset (name : Text)
  | unexport (name : Text)
  | shadow (name : Text)
  | openFrame
  | closeFrame
  deriving DecidableEq

/-- The variables after an operation that may be refused. -/
def settle (vs : Variables) : Except Fault Variables → Variables
  | .ok vs' => vs'
  | .error _ => vs

/-- The variables after an operation. -/
def perform (vs : Variables) : Operation → Variables
  | .give name value exported readOnly => vs.settle (vs.assignWith name value exported readOnly)
  | .unset name => vs.settle (vs.unset name)
  | .unexport name => vs.unexport name
  | .shadow name => vs.settle (vs.shadow name)
  | .openFrame => vs.openFrame
  | .closeFrame => vs.closeFrame

/-- The variables after operations in turn. -/
def performAll (vs : Variables) (ops : List Operation) : Variables := ops.foldl perform vs

/-- How many frames are open after an operation, of those opened since some moment; none if there is
none to be closed. -/
def depth? (d : Nat) : Operation → Option Nat
  | .openFrame => some (d + 1)
  | .closeFrame => if d = 0 then none else some (d - 1)
  | _ => some d

/-- Every frame that the operations open they close, and no other. -/
def Balanced (ops : List Operation) : Prop := ops.foldlM depth? 0 = some 0

/-- The name is shadowed in the frame that is open before the operations. -/
def ShadowsHere (name : Text) (ops : List Operation) : Prop :=
  ∃ before after, ops = before ++ .shadow name :: after ∧ Balanced before

/-- What comes before a name is shadowed in that frame for the first time. -/
structure FirstShadows (name : Text) (before ops : List Operation) : Prop where
  next : ∃ after, ops = before ++ .shadow name :: after
  here : Balanced before
  first : ¬ ShadowsHere name before

section

variable {vs : Variables} {op : Operation} {ops ops' : List Operation} {d d' e : Nat}
  {frame frame' : List Shadowed} {outer : List (List Shadowed)} {name : Text}
  {bindings : Table Variable}

/-! ## What a frame puts back -/

/-- The binding that closing a frame gives to a name. What was shadowed first counts. -/
def prior? (name : Text) : List Shadowed → Option (Option Variable)
  | [] => none
  | s :: older => (prior? name older).or (if s.name = name then some s.prior else none)

theorem prior?_isSome_of_any (h : frame.any (fun s => s.name == name) = true) :
    (prior? name frame).isSome := by
  induction frame with
  | nil => cases h
  | cons s older ih =>
      show ((prior? name older).or _).isSome = true
      rw [Option.isSome_or, Bool.or_eq_true]
      rw [List.any_cons, Bool.or_eq_true] at h
      rcases h with hs | hold
      · right
        rw [if_pos (eq_of_beq hs)]
        rfl
      · exact .inl (ih hold)

theorem get?_restore (bindings : Table Variable) (s : Shadowed) (name : Text) :
    (restore bindings s).get? name = if s.name = name then s.prior else bindings.get? name := by
  obtain ⟨key, prior⟩ := s
  by_cases hk : key = name
  · subst hk
    rw [if_pos rfl]
    cases prior with
    | some v => exact bindings.get?_insert_self key v
    | none => exact bindings.get?_erase_self key
  · rw [if_neg hk]
    cases prior with
    | some v => exact Table.get?_insert_of_ne (Ne.symm hk) bindings v
    | none => exact Table.get?_erase_of_ne (Ne.symm hk) bindings

/-- Closing a frame gives a name the binding that the frame has for it, if any. -/
theorem get?_foldl_restore (bindings : Table Variable) (name : Text) (frame : List Shadowed) :
    (frame.foldl restore bindings).get? name = (prior? name frame).getD (bindings.get? name) := by
  induction frame generalizing bindings with
  | nil => rfl
  | cons s older ih =>
      rw [List.foldl_cons, ih, get?_restore]
      show _ = ((prior? name older).or _).getD _
      cases prior? name older with
      | some b => rfl
      | none =>
          by_cases hs : s.name = name
          · rw [if_pos hs, if_pos hs]
            rfl
          · rw [if_neg hs, if_neg hs]
            rfl

/-! ## Operations -/

/-- Inside a frame, with `d` more frames open in it and the frames `outer` around it. -/
def Nested (outer : List (List Shadowed)) (d : Nat) (frame : List Shadowed) (vs : Variables) :
    Prop :=
  ∃ inner, vs.frames = inner ++ frame :: outer ∧ inner.length = d

/-- An operation that leaves the frames alone leaves what they put back. -/
theorem Nested.of_frames_eq {vs' : Variables} (h : Nested outer d frame vs)
    (hframes : vs'.frames = vs.frames) : Nested outer d frame vs' := by
  obtain ⟨inner, hvs, hd⟩ := h
  exact ⟨inner, hframes.trans hvs, hd⟩

theorem frames_settle_assignWith (vs : Variables) (value : Option Text) (exported readOnly : Bool) :
    (vs.settle (vs.assignWith name value exported readOnly)).frames = vs.frames := by
  unfold assignWith
  dsimp only
  split
  · rfl
  · rfl

theorem frames_settle_unset (vs : Variables) : (vs.settle (vs.unset name)).frames = vs.frames := by
  unfold unset
  split
  · rfl
  · rfl

theorem frames_unexport (vs : Variables) : (vs.unexport name).frames = vs.frames := by
  unfold unexport
  split
  · rfl
  · rfl

/-- Shadowing a name is a matter of the newest frame. There the first time counts. -/
theorem frames_shadow {rest : List (List Shadowed)} (h : vs.frames = frame :: rest) (name : Text) :
    ∃ frame', (vs.settle (vs.shadow name)).frames = frame' :: rest ∧ ∀ n, prior? n frame' =
      (prior? n frame).or (if name = n then some (vs.get? n) else none) := by
  unfold shadow
  rw [h]
  dsimp only
  by_cases hany : frame.any (fun s => s.name == name) = true
  · rw [if_pos hany]
    refine ⟨frame, h, fun n => ?_⟩
    by_cases hn : name = n
    · subst hn
      obtain ⟨b, hb⟩ := Option.isSome_iff_exists.mp (prior?_isSome_of_any hany)
      rw [hb]
      rfl
    · rw [if_neg hn, Option.or_none]
  · rw [if_neg hany]
    refine ⟨⟨name, vs.get? name⟩ :: frame, rfl, fun n => ?_⟩
    show (prior? n frame).or (if name = n then some (vs.get? name) else none) = _
    by_cases hn : name = n
    · subst hn
      rfl
    · rw [if_neg hn, if_neg hn]

/-- One operation inside a frame. What the frame puts back changes only if a name is shadowed in the
frame itself for the first time. -/
theorem Nested.perform (h : Nested outer d frame vs) (hop : depth? d op = some d') :
    ∃ frame', Nested outer d' frame' (vs.perform op) ∧ ∀ n, prior? n frame' =
      (prior? n frame).or (if d = 0 ∧ op = .shadow n then some (vs.get? n) else none) := by
  have hkept : (∀ n, op ≠ .shadow n) → ∀ n, prior? n frame = (prior? n frame).or
      (if d = 0 ∧ op = .shadow n then some (vs.get? n) else none) := fun hne n => by
    rw [if_neg fun hd => hne n hd.2, Option.or_none]
  cases op with
  | give name value exported readOnly =>
      cases hop
      exact ⟨frame, h.of_frames_eq (frames_settle_assignWith vs ..), hkept fun _ => nofun⟩
  | unset name =>
      cases hop
      exact ⟨frame, h.of_frames_eq (frames_settle_unset vs), hkept fun _ => nofun⟩
  | unexport name =>
      cases hop
      exact ⟨frame, h.of_frames_eq (frames_unexport vs), hkept fun _ => nofun⟩
  | openFrame =>
      cases hop
      obtain ⟨inner, hvs, rfl⟩ := h
      exact ⟨frame, ⟨[] :: inner, congrArg ([] :: ·) hvs, rfl⟩, hkept fun _ => nofun⟩
  | closeFrame =>
      obtain ⟨inner, hvs, rfl⟩ := h
      cases inner with
      | nil => cases hop
      | cons newest inner =>
          cases hop
          refine ⟨frame, ⟨inner, ?_, rfl⟩, hkept fun _ => nofun⟩
          show vs.closeFrame.frames = _
          unfold closeFrame
          rw [hvs]
          rfl
  | shadow name =>
      cases hop
      obtain ⟨inner, hvs, rfl⟩ := h
      cases inner with
      | nil =>
          obtain ⟨frame', hframes, hprior⟩ := frames_shadow hvs name
          refine ⟨frame', ⟨[], hframes, rfl⟩, fun n => ?_⟩
          simpa using hprior n
      | cons newest inner =>
          -- the frame that changes is one inside
          obtain ⟨newest', hframes, -⟩ := frames_shadow hvs name
          refine ⟨frame, ⟨newest' :: inner, hframes, rfl⟩, fun n => ?_⟩
          rw [if_neg fun hd => Nat.succ_ne_zero _ hd.1, Option.or_none]

/-- Operations inside a frame. What it puts back for a name stays, and comes to be only if the name is
shadowed in the frame itself. -/
theorem Nested.performAll (h : Nested outer d frame vs) (hops : ops.foldlM depth? d = some e) :
    ∃ frame', Nested outer e frame' (vs.performAll ops) ∧
      (∀ n b, prior? n frame = some b → prior? n frame' = some b) ∧
      ∀ n, prior? n frame = none →
        (∀ before after, ops = before ++ .shadow n :: after →
          before.foldlM depth? d ≠ some 0) →
        prior? n frame' = none := by
  induction ops generalizing vs d frame with
  | nil =>
      cases hops
      exact ⟨frame, h, fun _ _ hb => hb, fun _ hn _ => hn⟩
  | cons op ops ih =>
      obtain ⟨d₁, hop, hops⟩ := Option.bind_eq_some_iff.mp (List.foldlM_cons.symm.trans hops)
      obtain ⟨frame₁, h₁, hprior⟩ := h.perform hop
      obtain ⟨frame₂, h₂, hsome, hnone⟩ := ih h₁ hops
      refine ⟨frame₂, h₂, fun n b hb => hsome n b ?_, fun n hn hnot => hnone n ?_ ?_⟩
      · rw [hprior, hb]
        rfl
      · rw [hprior, hn, if_neg]
        · rfl
        · rintro ⟨rfl, rfl⟩
          exact hnot [] ops rfl rfl
      · rintro before after rfl hbefore
        exact hnot (op :: before) after rfl
          (List.foldlM_cons.trans (Option.bind_eq_some_iff.mpr ⟨d₁, hop, hbefore⟩))

theorem ShadowsHere.exists_first (h : ShadowsHere name ops) :
    ∃ before, FirstShadows name before ops := by
  obtain ⟨before, after, hops, hbefore⟩ := h
  induction hn : before.length using Nat.strongRecOn generalizing before after with
  | _ n ih =>
      by_cases hagain : ShadowsHere name before
      · obtain ⟨earlier, between, rfl, hearlier⟩ := hagain
        refine ih earlier.length ?_ earlier (between ++ .shadow name :: after) ?_ hearlier rfl
        · rw [← hn, List.length_append, List.length_cons]
          omega
        · rw [hops, List.append_assoc]
          rfl
      · exact ⟨before, ⟨after, hops⟩, hbefore, hagain⟩

/-! ## Closing the frame -/

/-- Closing the frame gives every name what the frame has for it. -/
theorem Nested.closeFrame (h : Nested outer 0 frame vs) :
    vs.closeFrame.frames = outer ∧
      ∀ name, vs.closeFrame.get? name = (prior? name frame).getD (vs.get? name) := by
  obtain ⟨inner, hframes, hinner⟩ := h
  obtain rfl := List.length_eq_zero_iff.mp hinner
  unfold Variables.closeFrame
  rw [hframes]
  exact ⟨rfl, fun name => get?_foldl_restore vs.bindings name frame⟩

theorem nested_openFrame (vs : Variables) : Nested vs.frames 0 [] vs.openFrame := ⟨[], rfl, rfl⟩

/-- Up to the first time nothing is put back for the name, from then on the binding of that moment. -/
theorem get?_closeFrame_of_firstShadows {before : List Operation} (h : Balanced ops)
    (hfirst : FirstShadows name before ops) :
    (vs.openFrame.performAll ops).closeFrame.get? name =
      (vs.openFrame.performAll before).get? name := by
  obtain ⟨⟨after, rfl⟩, hbefore, hnot⟩ := hfirst
  obtain ⟨frame₁, h₁, -, hfree⟩ := (nested_openFrame vs).performAll hbefore
  have hnone := hfree name rfl fun b a heq hb => hnot ⟨b, a, heq, hb⟩
  obtain ⟨frame₂, h₂, hprior⟩ := h₁.perform (show depth? 0 (.shadow name) = some 0 from rfl)
  have hmarked : prior? name frame₂ = some ((vs.openFrame.performAll before).get? name) := by
    rw [hprior, hnone, if_pos ⟨rfl, rfl⟩]
    rfl
  have hafter : after.foldlM depth? 0 = some 0 := by
    have hops : (before ++ .shadow name :: after).foldlM depth? 0 = some 0 := h
    rw [List.foldlM_append, hbefore] at hops
    exact hops
  obtain ⟨frame₃, h₃, hkept, -⟩ := h₂.performAll hafter
  have hall : vs.openFrame.performAll (before ++ .shadow name :: after) =
      ((vs.openFrame.performAll before).perform (.shadow name)).performAll after :=
    List.foldl_append
  rw [hall, h₃.closeFrame.2, hkept name _ hmarked]
  rfl

end

/-- What is left of a frame when it is closed, whatever was done in it. The frames outside are as
before. A name that was shadowed in the frame is bound to what it was bound to just before that was
first done there, with value and flags, or to nothing if it was not bound; every other name keeps
its binding. -/
theorem closeFrame_restores (vs : Variables) (ops : List Operation) (h : Balanced ops) :
    (vs.openFrame.performAll ops).closeFrame.frames = vs.frames ∧
    (∀ name, ShadowsHere name ops → ∃ before, FirstShadows name before ops) ∧
    (∀ name before, FirstShadows name before ops →
      (vs.openFrame.performAll ops).closeFrame.get? name =
        (vs.openFrame.performAll before).get? name) ∧
    ∀ name, ¬ ShadowsHere name ops →
      (vs.openFrame.performAll ops).closeFrame.get? name =
        (vs.openFrame.performAll ops).get? name := by
  obtain ⟨frame, hframe, -, hnone⟩ := (nested_openFrame vs).performAll h
  refine ⟨hframe.closeFrame.1, fun name => ShadowsHere.exists_first,
    fun name before => get?_closeFrame_of_firstShadows h, fun name hnot => ?_⟩
  rw [hframe.closeFrame.2, hnone name rfl fun b a heq hb => hnot ⟨b, a, heq, hb⟩]
  rfl

/-- A frame in which `x` is shadowed, given a value and taken out of the environment, with a frame
inside it in which `x` is shadowed and removed. -/
def shadowTwice : List Operation :=
  [.shadow "x", .give "x" (some "inner") false false, .unexport "x", .openFrame, .shadow "x",
    .unset "x", .closeFrame, .give "z" (some "kept") false false]

/-- The outer frame gives `x` its value and its flag back, and leaves `z` as it is. -/
theorem closeFrame_restores_shadowTwice :
    Balanced shadowTwice ∧
    ((({} : Variables).settle (({} : Variables).exportValue "x" "global")).openFrame.performAll
      shadowTwice).closeFrame.get? "x" = some { value := some "global", exported := true } ∧
    ((({} : Variables).settle (({} : Variables).exportValue "x" "global")).openFrame.performAll
      shadowTwice).closeFrame.get? "z" = some { value := some "kept" } := by
  have h : Balanced shadowTwice := rfl
  obtain ⟨-, -, hfirst, hother⟩ := closeFrame_restores
    (({} : Variables).settle (({} : Variables).exportValue "x" "global")) shadowTwice h
  refine ⟨h, ?_, ?_⟩
  · rw [hfirst "x" [] ⟨⟨_, rfl⟩, rfl, ?_⟩]
    · rfl
    · rintro ⟨before, after, heq, -⟩
      exact List.cons_ne_nil _ _ (List.append_eq_nil_iff.mp heq.symm).2
  · rw [hother "z" ?_]
    · rfl
    · rintro ⟨before, after, heq, -⟩
      have hmem : Operation.shadow "z" ∈ shadowTwice :=
        heq ▸ List.mem_append_right before List.mem_cons_self
      exact absurd hmem (by decide)

end CommandShell.Variables
