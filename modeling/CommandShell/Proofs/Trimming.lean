import CommandShell.Proofs.PatternMeaning.QuotedPieces

/-!
# Trimming

`${x#p}`, `${x##p}`, `${x%p}` and `${x%%p}` remove an end of the value of `x` that the pattern `p`
matches. `Pattern.Leaves` says which one: of all ends that are accepted the shortest or the longest,
and nothing if there is none. `trim` does this for every pattern (`trim_eq_iff`), also for one that is
invalid: it is compiled once more with its special characters in brackets, and matches itself only.
-/

namespace CommandShell.Pattern

namespace Trim

/-- The text is removed from the start of the value, else from its end. -/
def isAtStart : Trim → Bool
  | shortestPrefix | longestPrefix => true
  | shortestSuffix | longestSuffix => false

/-- As little as possible is removed, else as much as possible. -/
def isShortest : Trim → Bool
  | shortestPrefix | shortestSuffix => true
  | longestPrefix | longestSuffix => false

/-- The value is the text `w`, at the end that is trimmed, and the rest `r`. -/
def Cuts (op : Trim) (v w r : Text) : Prop := if op.isAtStart then v = w ++ r else v = r ++ w

/-- One text is removed rather than another one. -/
def Prefers (op : Trim) (w w' : Text) : Prop :=
  if op.isShortest then w.length ≤ w'.length else w'.length ≤ w.length

end Trim

/-- What is left of a value without the text at its end that is accepted. -/
inductive Leaves (op : Trim) (p v : Text) : Text → Prop
  | removed {w r : Text} : op.Cuts v w r → accepts p w = true →
    (∀ w' r', op.Cuts v w' r' → accepts p w' = true → op.Prefers w w') → Leaves op p v r
  | unchanged : (∀ w r, op.Cuts v w r → accepts p w = false) → Leaves op p v v

/-! ## Invalid patterns -/

theorem tidy_quoted (start : Bool) (p : Text) : Tidy start (p.map (⟨·, true⟩)) := by
  induction p generalizing start with
  | nil => exact .nil
  | cons c p ih => exact .itself (Or.inl rfl) (ih _)

/-- Quoted characters mean their text. -/
theorem means_quoted (p t : Text) : Means (p.map (⟨·, true⟩)) t ↔ t = p := by
  induction p generalizing t with
  | nil => exact means_nil
  | cons c p ih =>
      rw [List.map_cons, means_itself (Or.inl rfl)]
      constructor
      · rintro ⟨u, rfl, hu⟩
        rw [(ih u).mp hu]
      · rintro rfl
        exact ⟨p, rfl, (ih p).mpr rfl⟩

/-- Trimming works with elements that match what the pattern accepts. -/
theorem exists_compiled (p : Text) : ∃ ps,
    ((compile? p).orElse fun _ => compile? (escape p)) = some ps ∧
      ∀ t, matchesWith anywhere ps t = accepts p t := by
  cases hp : compile? p with
  | some ps =>
      refine ⟨ps, rfl, fun t => ?_⟩
      rw [accepts, hp]
  | none =>
      -- the escaped pattern is the text with all its characters quoted
      obtain ⟨ps, hps, hsome⟩ := compile_written (tidy_quoted true p)
      refine ⟨ps, ?_, fun t => ?_⟩
      · rw [← Expansion.written_quoted]
        exact hsome
      · have haccepts : accepts p t = (p == t) := by rw [accepts, hp]
        rw [haccepts, Bool.eq_iff_iff, beq_iff_eq, matchesWith, beq_iff_eq, hps.hit, means_quoted]
        exact eq_comm

/-! ## The search -/

namespace Trim

/-- The text that is removed when the value is cut after `k` characters, and what is left. -/
def cutAt (op : Trim) (v : Text) (k : Nat) : Text × Text :=
  if op.isAtStart then (v.take k, v.drop k) else (v.drop k, v.take k)

/-- The places where the value may be cut, in the order in which they are tried. -/
def places (op : Trim) (v : Text) : List Nat :=
  if op.isAtStart = op.isShortest then List.range (v.length + 1)
  else (List.range (v.length + 1)).reverse

variable {op : Trim} {v w w' r r' : Text} {k : Nat}

theorem mem_places : k ∈ op.places v ↔ k ≤ v.length := by
  unfold places
  split
  · rw [List.mem_range, Nat.lt_succ_iff]
  · rw [List.mem_reverse, List.mem_range, Nat.lt_succ_iff]

theorem cuts_cutAt (op : Trim) (v : Text) (k : Nat) :
    op.Cuts v (op.cutAt v k).1 (op.cutAt v k).2 := by
  unfold Cuts cutAt
  split
  · exact (List.take_append_drop k v).symm
  · exact (List.take_append_drop k v).symm

/-- Every way to cut the value is one at a place. -/
theorem Cuts.exists_place (h : op.Cuts v w r) : ∃ k ∈ op.places v, op.cutAt v k = (w, r) := by
  unfold Cuts at h
  split at h
  next hstart =>
    subst h
    refine ⟨w.length, mem_places.mpr (by simp), ?_⟩
    simp [cutAt, hstart]
  next hstart =>
    subst h
    refine ⟨r.length, mem_places.mpr (by simp), ?_⟩
    simp [cutAt, hstart]

/-- A cut is known by the length of the text that is removed. -/
theorem Cuts.eq_of_length (h : op.Cuts v w r) (h' : op.Cuts v w' r') (hlength : w.length = w'.length) :
    r = r' := by
  unfold Cuts at h h'
  split at h
  next hstart =>
    rw [if_pos hstart, h] at h'
    exact (List.append_inj h' hlength).2
  next hstart =>
    rw [if_neg hstart, h] at h'
    exact (List.append_inj' h' hlength).1

/-- What is tried first is preferred. -/
theorem places_pairwise (op : Trim) (v : Text) :
    (op.places v).Pairwise fun j k => op.Prefers (op.cutAt v j).1 (op.cutAt v k).1 := by
  have hrange : (List.range (v.length + 1)).Pairwise fun j k => j < k ∧ k ≤ v.length := by
    rw [List.pairwise_iff_getElem]
    intro i j hi hj hij
    simp at hi hj ⊢
    omega
  cases op with
  | shortestPrefix =>
      refine hrange.imp fun ⟨hjk, hk⟩ => ?_
      simp only [Prefers, cutAt, isShortest, isAtStart, if_true, List.length_take]
      omega
  | longestPrefix =>
      refine (List.pairwise_reverse.mpr (hrange.imp fun ⟨hjk, hk⟩ => ?_))
      simp only [Prefers, cutAt, isShortest, isAtStart, if_true, Bool.false_eq_true, if_false,
        List.length_take]
      omega
  | shortestSuffix =>
      refine (List.pairwise_reverse.mpr (hrange.imp fun ⟨hjk, hk⟩ => ?_))
      simp only [Prefers, cutAt, isShortest, isAtStart, if_true, Bool.false_eq_true, if_false,
        List.length_drop]
      omega
  | longestSuffix =>
      refine hrange.imp fun ⟨hjk, hk⟩ => ?_
      simp only [Prefers, cutAt, isShortest, isAtStart, Bool.false_eq_true, if_false,
        List.length_drop]
      omega

theorem Prefers.refl (op : Trim) (w : Text) : op.Prefers w w := by
  unfold Prefers
  split <;> exact Nat.le_refl _

theorem Prefers.antisymm (h : op.Prefers w w') (h' : op.Prefers w' w) : w.length = w'.length := by
  unfold Prefers at h h'
  split at h
  next hshort =>
    rw [if_pos hshort] at h'
    exact Nat.le_antisymm h h'
  next hshort =>
    rw [if_neg hshort] at h'
    exact Nat.le_antisymm h' h

end Trim

section

variable {op : Trim} {p v r r' : Text}

/-- The first place where the pattern accepts what would be removed decides. -/
theorem trim_eq_find (op : Trim) (v p : Text) : trim op v p =
    (((op.places v).find? fun k => accepts p (op.cutAt v k).1).map
      fun k => (op.cutAt v k).2).getD v := by
  obtain ⟨ps, hps, haccepts⟩ := exists_compiled p
  unfold trim
  rw [hps]
  simp only [haccepts]
  cases op with
  | shortestPrefix => rfl
  | longestPrefix => rfl
  | shortestSuffix => rfl
  | longestSuffix => rfl

theorem leaves_trim (op : Trim) (p v : Text) : Leaves op p v (trim op v p) := by
  rw [trim_eq_find]
  cases hfind : (op.places v).find? fun k => accepts p (op.cutAt v k).1 with
  | none =>
      refine .unchanged fun w r hcut => ?_
      obtain ⟨k, hk, hcutAt⟩ := hcut.exists_place
      have hnot := List.find?_eq_none.mp hfind k hk
      rw [hcutAt] at hnot
      exact Bool.eq_false_iff.mpr hnot
  | some k =>
      obtain ⟨hhit, before, after, hplaces, hbefore⟩ := List.find?_eq_some_iff_append.mp hfind
      refine .removed (op.cuts_cutAt v k) hhit fun w r hcut haccepts => ?_
      obtain ⟨j, hj, hcutAt⟩ := hcut.exists_place
      have hw : (op.cutAt v j).1 = w := congrArg Prod.fst hcutAt
      have hordered := op.places_pairwise v
      rw [hplaces] at hj hordered
      -- a place before the first hit is none, and those after it are less preferred
      rcases List.mem_append.mp hj with hj | hj
      · have hnot := hbefore j hj
        rw [hw, haccepts] at hnot
        cases hnot
      · rcases List.mem_cons.mp hj with rfl | hj
        · exact hw ▸ .refl op _
        · have hafter := (List.pairwise_cons.mp (List.pairwise_append.mp hordered).2.1).1 j hj
          exact hw ▸ hafter

/-- Only one text is left. -/
theorem Leaves.unique (h : Leaves op p v r) (h' : Leaves op p v r') : r = r' := by
  cases h with
  | removed hcut haccepts hbest =>
      cases h' with
      | removed hcut' haccepts' hbest' =>
          have hlength := (hbest _ _ hcut' haccepts').antisymm (hbest' _ _ hcut haccepts)
          exact hcut.eq_of_length hcut' hlength
      | unchanged hnone =>
          rw [hnone _ _ hcut] at haccepts
          cases haccepts
  | unchanged hnone =>
      cases h' with
      | removed hcut' haccepts' _ =>
          rw [hnone _ _ hcut'] at haccepts'
          cases haccepts'
      | unchanged => rfl

/-- Trimming removes the shortest or the longest text at an end of the value that the pattern accepts,
whether the pattern is valid or not, and nothing if it accepts none. -/
theorem trim_eq_iff (op : Trim) (v p r : Text) : trim op v p = r ↔ Leaves op p v r := by
  constructor
  · rintro rfl
    exact leaves_trim op p v
  · intro h
    exact (leaves_trim op p v).unique h

end

/-- A pattern with a bracket that is not closed removes nothing but itself. -/
example : trim .shortestPrefix "a[*b" "a[*" = "b" ∧ trim .longestPrefix "a[xb" "a[*" = "a[xb" := by
  constructor <;> cbv

end CommandShell.Pattern
