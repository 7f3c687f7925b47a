import CommandShell.Proofs.Reading
import Mathlib.Algebra.Ring.Nat
import Mathlib.Data.List.Basic

/-!
# The weight of an input

Reading ends because the input gets lighter. A character of a line weighs as much as all that
expanding aliases can make of it: no alias is expanded inside its own text, so a text inside the
texts of some aliases can be multiplied only by the others, at most by `growth` for each (`level`).
A literal word weighs as much as the character that ended it, since it may name an alias.

This holds as long as no script that is found in an alias is read from an input of its own, where
the aliases around it would not count. `Plain` texts hold no back-quote, which starts such a script,
and no newline, after which the bodies of here-documents come.
-/

namespace CommandShell.Script

open Reader

/-! ## Levels -/

/-- A text that starts no script of its own. -/
def Plain (t : Text) : Prop := ∀ c ∈ t, c ≠ '\x60' ∧ c ≠ '\n'

instance (t : Text) : Decidable (Plain t) :=
  List.decidableBAll (fun c => c ≠ '\x60' ∧ c ≠ '\n') t

/-- By how much one alias can multiply a text. -/
def growth (aliases : Table Text) : Nat :=
  (aliases.toList.map fun b => b.2.length).foldl Nat.max 0 + 2

/-- The number of aliases that may be expanded inside the given ones. -/
def unused (aliases : Table Text) (frames : List AliasFrame) : Nat :=
  (aliases.toList.filter fun b => !frames.any fun f => f.name == b.1).length

/-- What a character inside the texts of aliases weighs. -/
def level (aliases : Table Text) (frames : List AliasFrame) : Nat :=
  growth aliases ^ unused aliases frames

theorem growth_pos (aliases : Table Text) : 0 < growth aliases := by
  unfold growth
  omega

theorem level_pos (aliases : Table Text) (frames : List AliasFrame) : 0 < level aliases frames :=
  Nat.pow_pos (growth_pos aliases)

theorem le_foldl_max {l : List Nat} {x m : Nat} (h : x ∈ l ∨ x ≤ m) : x ≤ l.foldl Nat.max m := by
  induction l generalizing m with
  | nil => exact h.resolve_left List.not_mem_nil
  | cons y l ih =>
      refine ih ?_
      rcases h with h | h
      · rcases List.mem_cons.mp h with rfl | h
        · exact .inr (Nat.le_max_right m x)
        · exact .inl h
      · exact .inr (Nat.le_trans h (Nat.le_max_left m y))

/-- The text of an alias, with the blank after it and one more, is outgrown. -/
theorem length_add_two_le_growth {aliases : Table Text} {name text : Text}
    (h : (name, text) ∈ aliases.toList) : text.length + 2 ≤ growth aliases := by
  have hmem : text.length ∈ aliases.toList.map fun b => b.2.length :=
    List.mem_map.mpr ⟨(name, text), h, rfl⟩
  have hle := le_foldl_max (m := 0) (.inl hmem)
  unfold growth
  omega

/-- An alias that is entered cannot be expanded any more. -/
theorem unused_cons_lt {aliases : Table Text} {f : AliasFrame} {outer inner : List AliasFrame}
    {text : Text} (htext : (f.name, text) ∈ aliases.toList) (hsub : outer ⊆ inner)
    (hnew : inner.any (fun g => g.name == f.name) = false) :
    unused aliases (f :: inner) < unused aliases outer := by
  have hfresh : ∀ g ∈ inner, g.name ≠ f.name := by
    intro g hg
    have h := List.any_eq_false.mp hnew g hg
    simpa using h
  -- the entry of the alias itself is the one that is lost
  have hsub' : (aliases.toList.filter fun b => !(f :: inner).any fun g => g.name == b.1).Sublist
      ((aliases.toList.filter fun b => !outer.any fun g => g.name == b.1).filter
        fun b => !(f.name == b.1)) := by
    rw [List.filter_filter]
    refine List.monotone_filter_right _ fun b hb => ?_
    simp only [List.any_cons, Bool.not_or, Bool.and_eq_true, Bool.not_eq_true'] at hb ⊢
    refine ⟨hb.1, List.any_eq_false.mpr fun g hg => ?_⟩
    exact List.any_eq_false.mp hb.2 g (hsub hg)
  have hmem : (f.name, text) ∈
      aliases.toList.filter fun b => !outer.any fun g => g.name == b.1 := by
    refine List.mem_filter.mpr ⟨htext, ?_⟩
    simp only [Bool.not_eq_true', List.any_eq_false, beq_iff_eq]
    exact fun g hg => hfresh g (hsub hg)
  refine Nat.lt_of_le_of_lt hsub'.length_le ?_
  exact List.length_filter_lt_length_iff_exists.mpr ⟨_, hmem, by simp⟩

/-- What the text of an alias weighs is no more than its name did. -/
theorem level_cons_mul_growth_le {aliases : Table Text} {f : AliasFrame}
    {outer inner : List AliasFrame} {text : Text} (htext : (f.name, text) ∈ aliases.toList)
    (hsub : outer ⊆ inner) (hnew : inner.any (fun g => g.name == f.name) = false) :
    level aliases (f :: inner) * growth aliases ≤ level aliases outer := by
  have hlt := unused_cons_lt htext hsub hnew
  unfold level
  rw [← Nat.pow_succ]
  exact Nat.pow_le_pow_right (growth_pos aliases) hlt

theorem level_le_nil (aliases : Table Text) (frames : List AliasFrame) :
    level aliases frames ≤ level aliases [] := by
  refine Nat.pow_le_pow_right (growth_pos aliases) (List.Sublist.length_le ?_)
  exact List.monotone_filter_right _ fun b _ => rfl

/-! ## Lines -/

theorem lines_flatten (t : Text) : t.lines.flatten = t := by
  induction t with
  | nil => rfl
  | cons c r ih =>
      unfold Text.lines
      split
      · rw [List.flatten_cons, ih]
        rfl
      · cases hr : Text.lines r with
        | nil =>
            rw [hr] at ih
            simp [← ih]
        | cons l ls =>
            rw [hr] at ih
            simp [← ih]

theorem nil_notMem_lines (t : Text) : [] ∉ t.lines := by
  induction t with
  | nil => exact List.not_mem_nil
  | cons c r ih =>
      unfold Text.lines
      split
      · simpa using ih
      · cases hr : Text.lines r with
        | nil => simp
        | cons l ls =>
            rw [hr] at ih
            simpa using fun h => ih (List.mem_cons_of_mem _ h)

/-! ## Inputs -/

/-- The frames of aliases that have not been read to the end. -/
def live : List AliasFrame → List AliasFrame
  | [] => []
  | f :: fs => if f.rest.isEmpty && f.spent then live fs else f :: fs

theorem dropSpent_fst (b : Bool) (fs : List AliasFrame) : (Input.dropSpent b fs).1 = live fs := by
  induction fs generalizing b with
  | nil => rfl
  | cons f fs ih =>
      unfold Input.dropSpent live
      split
      · exact ih _
      · rfl

theorem dropSpent_live (b : Bool) (fs : List AliasFrame) :
    Input.dropSpent b (live fs) = (live fs, b) := by
  induction fs with
  | nil => rfl
  | cons f fs ih =>
      by_cases h : (f.rest.isEmpty && f.spent) = true
      · rw [live, if_pos h, ih]
      · rw [live, if_neg h, Input.dropSpent, if_neg h]

theorem live_sublist (fs : List AliasFrame) : (live fs).Sublist fs := by
  induction fs with
  | nil => exact List.Sublist.refl _
  | cons f fs ih =>
      unfold live
      split
      · exact ih.cons f
      · exact List.Sublist.refl _

theorem live_subset (fs : List AliasFrame) : live fs ⊆ fs := (live_sublist fs).subset

@[simp]
theorem live_live (fs : List AliasFrame) : live (live fs) = live fs := by
  induction fs with
  | nil => rfl
  | cons f fs ih =>
      by_cases h : (f.rest.isEmpty && f.spent) = true
      · rw [live, if_pos h, ih]
      · rw [live, if_neg h, live, if_neg h]

/-- How many characters are to be read in the text of an alias, with the blank after it. -/
def AliasFrame.size (f : AliasFrame) : Nat := f.rest.length + if f.spent then 0 else 1

/-- The weight of the texts of aliases. -/
def framesWeight (aliases : Table Text) : List AliasFrame → Nat
  | [] => 0
  | f :: fs => f.size * level aliases (f :: fs) + framesWeight aliases fs

/-- Levels depend on the names of the aliases. -/
theorem level_congr {aliases : Table Text} {f g : AliasFrame} (h : g.name = f.name)
    (fs : List AliasFrame) : level aliases (g :: fs) = level aliases (f :: fs) := by
  unfold level unused
  simp only [List.any_cons, h]

theorem framesWeight_live (aliases : Table Text) (fs : List AliasFrame) :
    framesWeight aliases (live fs) = framesWeight aliases fs := by
  induction fs with
  | nil => rfl
  | cons f fs ih =>
      by_cases h : (f.rest.isEmpty && f.spent) = true
      · obtain ⟨hrest, hspent⟩ := Bool.and_eq_true_iff.mp h
        rw [live, if_pos h, ih, framesWeight, AliasFrame.size, if_pos hspent,
          List.isEmpty_iff.mp hrest]
        simp
      · rw [live, if_neg h]

/-- The weight of a word: of one run of literal text that of the character which ended it. -/
def wordWeight (lvl : Nat) : List Part → Nat
  | [.literal _] => lvl
  | _ => 1

theorem wordWeight_pos {lvl : Nat} (h : 0 < lvl) (ps : List Part) : 0 < wordWeight lvl ps := by
  unfold wordWeight
  split
  · exact h
  · exact Nat.one_pos

theorem wordWeight_le {lvl : Nat} (h : 0 < lvl) (ps : List Part) : wordWeight lvl ps ≤ lvl := by
  unfold wordWeight
  split
  · exact Nat.le_refl _
  · exact h

theorem wordWeight_of_length {lvl : Nat} {ps : List Part} (h : 2 ≤ ps.length) :
    wordWeight lvl ps = 1 := by
  unfold wordWeight
  split
  · simp at h
  · rfl

/-- A part that makes any word more than one run of literal text. -/
def Part.Compound (p : Part) : Prop := ∀ lvl ps, wordWeight lvl (p :: ps) = 1

@[simp]
theorem wordWeight_escaped (lvl : Nat) (c : Char) (ps : PartsSoFar) :
    wordWeight lvl (ps.escaped c) = 1 := by
  unfold PartsSoFar.escaped
  split <;> rfl

@[simp]
theorem wordWeight_sealed (lvl : Nat) (ps : PartsSoFar) :
    wordWeight lvl ps.sealed = wordWeight lvl ps := by
  match ps with
  | [] => rfl
  | [p] => cases p <;> rfl
  | p :: q :: ps =>
      have hlen : 2 ≤ (p :: q :: ps).length := by simp
      rw [wordWeight_of_length hlen, wordWeight_of_length]
      simp [PartsSoFar.sealed]

/-- The weight of a token. -/
def Token.weight (lvl : Nat) (tk : Token) : Nat :=
  match tk.kind with
  | .endOfInput => 0
  | .word w => wordWeight lvl w.parts
  | _ => 1

namespace Input

/-- What a character weighs that is read next. -/
def lvl (i : Input) : Nat := level i.aliases (live i.frames)

/-- The weight of an input: of its characters, a token put back, and the here-documents to come. -/
def weight (i : Input) : Nat :=
  i.unread.length * i.lvl + framesWeight i.aliases i.frames
    + (i.current.length + i.queue.flatten.length) * level i.aliases []
    + (i.pushback.elim 0 (Token.weight i.lvl)) + i.pending.length

theorem lvl_pos (i : Input) : 0 < i.lvl := level_pos _ _

end Input

end CommandShell.Script
