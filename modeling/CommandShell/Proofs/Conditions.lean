import CommandShell.Commands.Condition

/-!
# Conditions and their connectives

A condition on texts is a tree of comparisons, tests of one text, `!`, `-a` and `-o`. `Written` says
which rows of words spell it: `!` binds tighter than `-a` and `-a` tighter than `-o`, and a condition
that binds too loosely for its place stands in parentheses. Parentheses that nothing asks for are
welcome, and so are both ways to nest what one connective joins.

The operands are words that mean nothing by themselves (`Operand`). That is why a reader never takes a
word of a condition for an operator that it is not (`Written.head`).

The readers of the two connectives are alike. `Series` is what they have in common: an operand comes
first, and as long as the connective follows, so does another one. Where a row of words stands in a
series, at its beginning or after what was read before, does not matter for what it adds (`Adds`).

The main statement is `condition_of_written`: every condition can be spelled, and however it is
spelled, what comes of its words is its truth, without a call and without a change of the shell.
-/

namespace CommandShell.Commands

open Shell

/-! ## Readers, one case at a time -/

section

variable {n : Nat} {a b w : Text} {rest args : List Text}

theorem disjunction_succ (n : Nat) (args : List Text) :
    disjunction (n + 1) args = conjunction n args >>= fun p => disjunctionRest n p.1 p.2 := rfl

theorem disjunctionRest_sign (n : Nat) (v : Bool) (rest : List Text) :
    disjunctionRest (n + 1) v (['-', 'o'] :: rest) =
      conjunction n rest >>= fun p => disjunctionRest n (v || p.1) p.2 := rfl

theorem conjunction_succ (n : Nat) (args : List Text) :
    conjunction (n + 1) args = negation n args >>= fun p => conjunctionRest n p.1 p.2 := rfl

theorem conjunctionRest_sign (n : Nat) (v : Bool) (rest : List Text) :
    conjunctionRest (n + 1) v (['-', 'a'] :: rest) =
      negation n rest >>= fun p => conjunctionRest n (v && p.1) p.2 := rfl

theorem disjunctionRest_stop (h : rest.head? ≠ some ['-', 'o']) (n : Nat) (v : Bool) :
    disjunctionRest (n + 1) v rest = pure (v, rest) := by
  simp only [disjunctionRest]
  split
  · exact absurd rfl h
  · rfl

theorem conjunctionRest_stop (h : rest.head? ≠ some ['-', 'a']) (n : Nat) (v : Bool) :
    conjunctionRest (n + 1) v rest = pure (v, rest) := by
  simp only [conjunctionRest]
  split
  · exact absurd rfl h
  · rfl

theorem negation_not (h : binaryFollows (['!'] :: rest) = false) (n : Nat) :
    negation (n + 1) (['!'] :: rest) = negation n rest >>= fun p => pure (!p.1, p.2) := by
  simp only [negation, h]
  rfl

theorem negation_plain (h : args.head? ≠ some ['!'] ∨ binaryFollows args = true) (n : Nat) :
    negation (n + 1) args = primary n args := by
  simp only [negation]
  split
  · rcases h with h | h
    · exact absurd rfl h
    · rw [if_pos h]
  · rfl

theorem primary_binary {op : BinaryTest} (h : BinaryTest.ofText? w = some op) (n : Nat) :
    primary (n + 1) (a :: w :: b :: rest) = op.eval a b >>= fun v => pure (v, rest) := by
  simp only [primary, h]

/-- What becomes of a condition in parentheses that was read up to its last word. -/
def closeParen (v : Bool) : List Text → Condition
  | [] => fail argumentExpected
  | [')'] :: rest => return (v, rest)
  | _ => fail (.usage "closing paren expected")

/-- A word is no operator between two operands, or there is no second one. -/
def StandsAlone (w : Text) (rest : List Text) : Prop := BinaryTest.ofText? w = none ∨ rest = []

theorem primary_enclosed (h : StandsAlone w rest) (n : Nat) :
    primary (n + 1) (['('] :: w :: rest) =
      disjunction n (w :: rest) >>= fun p => closeParen p.1 p.2 := by
  rcases h with h | rfl
  · simp only [primary, h]
    rfl
  · cases hw : BinaryTest.ofText? w with
    | none =>
        simp only [primary, hw]
        rfl
    | some op =>
        simp only [primary, hw]
        rfl

/-- A word before others: it asks something about the next one, or it has only to be there. -/
def wordTest (a w : Text) (rest : List Text) : Condition :=
  match UnaryTest.ofText? a with
  | some op => op.eval w >>= fun v => pure (v, rest)
  | none => pure (!a.isEmpty, w :: rest)

theorem primary_word (ha : a ≠ ['(']) (h : StandsAlone w rest) (n : Nat) :
    primary (n + 1) (a :: w :: rest) = wordTest a w rest := by
  rcases h with h | rfl
  · simp only [primary, h, if_neg ha]
    rfl
  · cases hw : BinaryTest.ofText? w with
    | none =>
        simp only [primary, hw, if_neg ha]
        rfl
    | some op =>
        simp only [primary, hw, if_neg ha]
        rfl

theorem primary_unary {op : UnaryTest} (hop : UnaryTest.ofText? a = some op)
    (h : StandsAlone w rest) (n : Nat) :
    primary (n + 1) (a :: w :: rest) = op.eval w >>= fun v => pure (v, rest) := by
  have ha : a ≠ ['('] := by
    rintro rfl
    cases hop
  simp only [primary_word ha h, wordTest, hop]

theorem primary_plain (ha : a ≠ ['(']) (hop : UnaryTest.ofText? a = none)
    (h : StandsAlone w rest) (n : Nat) :
    primary (n + 1) (a :: w :: rest) = pure (!a.isEmpty, w :: rest) := by
  simp only [primary_word ha h, wordTest, hop]

end

/-! ## Conditions on texts -/

/-- Whether a word means something in a condition by itself. -/
def isSign (t : Text) : Bool :=
  [['('], [')'], ['!'], ['-', 'a'], ['-', 'o']].contains t || (UnaryTest.ofText? t).isSome
    || (BinaryTest.ofText? t).isSome

/-- A word that means nothing by itself. -/
abbrev Operand := { t : Text // isSign t = false }

/-- A condition on texts. -/
inductive Formula where
  | same (a b : Operand)
  | different (a b : Operand)
  | nonEmpty (a : Operand)
  | empty (a : Operand)
  | not (p : Formula)
  | and (p q : Formula)
  | or (p q : Formula)

/-- Whether a condition is met. -/
def Formula.truth : Formula → Bool
  | same a b => a.1 == b.1
  | different a b => a.1 != b.1
  | nonEmpty a => !a.1.isEmpty
  | empty a => a.1.isEmpty
  | not p => !p.truth
  | and p q => p.truth && q.truth
  | or p q => p.truth || q.truth

/-! ## Spelling -/

/-- How tightly a condition binds, the loosest first. -/
inductive Tightness where
  | disjunction | conjunction | negation | primary
  deriving DecidableEq, Repr

/-- The rows of words that spell a condition in a place for what binds at least so tightly. -/
inductive Written : Tightness → Formula → List Text → Prop where
  | same (a b : Operand) : Written .primary (.same a b) [a.1, ['='], b.1]
  | different (a b : Operand) : Written .primary (.different a b) [a.1, ['!', '='], b.1]
  | nonEmpty (a : Operand) : Written .primary (.nonEmpty a) [['-', 'n'], a.1]
  | empty (a : Operand) : Written .primary (.empty a) [['-', 'z'], a.1]
  | enclosed {p : Formula} {u : List Text} (h : Written .disjunction p u) :
      Written .primary p (['('] :: (u ++ [[')']]))
  | plain {p : Formula} {u : List Text} (h : Written .primary p u) : Written .negation p u
  | not {p : Formula} {u : List Text} (h : Written .negation p u) :
      Written .negation p.not (['!'] :: u)
  | operand {p : Formula} {u : List Text} (h : Written .negation p u) : Written .conjunction p u
  | and {p q : Formula} {u v : List Text} (hp : Written .conjunction p u)
      (hq : Written .conjunction q v) : Written .conjunction (.and p q) (u ++ ['-', 'a'] :: v)
  | alternative {p : Formula} {u : List Text} (h : Written .conjunction p u) :
      Written .disjunction p u
  | or {p q : Formula} {u v : List Text} (hp : Written .disjunction p u)
      (hq : Written .disjunction q v) : Written .disjunction (.or p q) (u ++ ['-', 'o'] :: v)

/-- How tightly the connective of a condition binds. -/
def Formula.tightness : Formula → Tightness
  | or _ _ => .disjunction
  | and _ _ => .conjunction
  | not _ => .negation
  | _ => .primary

/-- Words in parentheses, if they have to be. -/
def parenthesized (needed : Bool) (u : List Text) : List Text :=
  if needed then ['('] :: (u ++ [[')']]) else u

/-- The words of a condition, with parentheses only where they have to be. -/
def Formula.words : Formula → List Text
  | same a b => [a.1, ['='], b.1]
  | different a b => [a.1, ['!', '='], b.1]
  | nonEmpty a => [['-', 'n'], a.1]
  | empty a => [['-', 'z'], a.1]
  | not p =>
    ['!'] :: parenthesized (p.tightness = .disjunction ∨ p.tightness = .conjunction) p.words
  | and p q =>
    parenthesized (p.tightness = .disjunction) p.words ++
      ['-', 'a'] :: parenthesized (q.tightness = .disjunction) q.words
  | or p q => p.words ++ ['-', 'o'] :: q.words

namespace Written

variable {k : Tightness} {p q : Formula} {u v : List Text}

/-- What is written in any place is written in the loosest one. -/
theorem loosest (h : Written k p u) : Written .disjunction p u := by
  cases k with
  | disjunction => exact h
  | conjunction => exact h.alternative
  | negation => exact h.operand.alternative
  | primary => exact h.plain.operand.alternative

/-- Parentheses make every place possible. -/
theorem inParentheses (h : Written k p u) : Written .negation p (parenthesized true u) :=
  h.loosest.enclosed.plain

theorem toNegation (h : Written p.tightness p u) : Written .negation p
    (parenthesized (p.tightness = .disjunction ∨ p.tightness = .conjunction) u) := by
  cases hk : p.tightness with
  | disjunction => exact h.inParentheses
  | conjunction => exact h.inParentheses
  | negation =>
      rw [hk] at h
      exact h
  | primary =>
      rw [hk] at h
      exact h.plain

theorem toConjunction (h : Written p.tightness p u) :
    Written .conjunction p (parenthesized (p.tightness = .disjunction) u) := by
  cases hk : p.tightness with
  | disjunction => exact h.inParentheses.operand
  | conjunction =>
      rw [hk] at h
      exact h
  | negation =>
      rw [hk] at h
      exact h.operand
  | primary =>
      rw [hk] at h
      exact h.plain.operand

end Written

/-- Every condition can be spelled. -/
theorem Formula.written_words (p : Formula) : Written p.tightness p p.words := by
  induction p with
  | same a b => exact .same a b
  | different a b => exact .different a b
  | nonEmpty a => exact .nonEmpty a
  | empty a => exact .empty a
  | not p ih => exact ih.toNegation.not
  | and p q ihp ihq => exact ihp.toConjunction.and ihq.toConjunction
  | or p q ihp ihq => exact ihp.loosest.or ihq.loosest

theorem Operand.ofText?_eq_none (a : Operand) :
    UnaryTest.ofText? a.1 = none ∧ BinaryTest.ofText? a.1 = none := by
  have h := a.2
  simp only [isSign, Bool.or_eq_false_iff, Option.isSome_eq_false_iff, Option.isNone_iff_eq_none]
    at h
  exact ⟨h.1.2, h.2⟩

theorem Operand.ne_not (a : Operand) : a.1 ≠ ['!'] := by
  intro ha
  have h := a.2
  rw [ha] at h
  cases h

/-- No condition begins with an operator between two operands. One that begins with `!` has at least
two more words. -/
theorem Written.head {k : Tightness} {p : Formula} {u : List Text} (h : Written k p u) :
    ∃ w x r, u = w :: x :: r ∧ BinaryTest.ofText? w = none ∧ (w = ['!'] → r ≠ []) := by
  induction h with
  | same a b => exact ⟨_, _, _, rfl, a.ofText?_eq_none.2, nofun⟩
  | different a b => exact ⟨_, _, _, rfl, a.ofText?_eq_none.2, nofun⟩
  | nonEmpty a => exact ⟨_, _, _, rfl, rfl, nofun⟩
  | empty a => exact ⟨_, _, _, rfl, rfl, nofun⟩
  | enclosed h ih =>
      obtain ⟨w, x, r, rfl, -, -⟩ := ih
      exact ⟨_, _, _, rfl, rfl, nofun⟩
  | not h ih =>
      obtain ⟨w, x, r, rfl, -, -⟩ := ih
      exact ⟨_, _, _, rfl, rfl, nofun⟩
  | plain h ih => exact ih
  | operand h ih => exact ih
  | and hp hq ihp ihq =>
      obtain ⟨w, x, r, rfl, hw, hr⟩ := ihp
      exact ⟨w, x, _, rfl, hw, fun _ => by simp⟩
  | alternative h ih => exact ih
  | or hp hq ihp ihq =>
      obtain ⟨w, x, r, rfl, hw, hr⟩ := ihp
      exact ⟨w, x, _, rfl, hw, fun _ => by simp⟩

/-- What binds most tightly does not begin with `!`. -/
theorem Written.head?_append {p : Formula} {u : List Text} (h : Written .primary p u)
    (rest : List Text) : (u ++ rest).head? ≠ some ['!'] := by
  intro hhead
  cases h with
  | same a b => exact a.ne_not (Option.some.inj hhead)
  | different a b => exact a.ne_not (Option.some.inj hhead)
  | nonEmpty a => cases hhead
  | empty a => cases hhead
  | enclosed h => cases hhead

/-! ## Reading -/

/-- A reader takes some words for a condition with a value, whatever follows that may follow. A reader
needs a round through all levels for every word, and `k` steps for the levels below its own. -/
def Reads (read : Nat → List Text → Condition) (k : Nat) (Clear : List Text → Prop)
    (u : List Text) (v : Bool) : Prop :=
  ∀ rest n, Clear rest → 6 * u.length + k ≤ n → read n (u ++ rest) = pure (v, rest)

/-- Conditions that are joined by a connective. -/
structure Series where
  /-- The connective. -/
  sign : Text
  /-- What the connective makes of two values. -/
  combine : Bool → Bool → Bool
  /-- The reader of one of the conditions, and the number of steps for the levels below it. -/
  operand : Nat → List Text → Condition
  depth : Nat
  /-- What may follow one of the conditions. -/
  Clear : List Text → Prop
  /-- The reader of all of them. -/
  whole : Nat → List Text → Condition
  /-- The reader of those that are left, after some were read. -/
  more : Nat → Bool → List Text → Condition
  combine_assoc : ∀ a b c, combine (combine a b) c = combine a (combine b c)
  clear_sign : ∀ rest, Clear (sign :: rest)
  whole_succ : ∀ n args, whole (n + 1) args = operand n args >>= fun p => more n p.1 p.2
  more_sign : ∀ n v rest, more (n + 1) v (sign :: rest) =
    operand n rest >>= fun p => more n (combine v p.1) p.2
  more_stop : ∀ n v rest, rest.head? ≠ some sign → more (n + 1) v rest = pure (v, rest)

/-- Negations joined by `-a`. -/
def conjunctions : Series where
  sign := ['-', 'a']
  combine := and
  operand := negation
  depth := 2
  Clear _ := True
  whole := conjunction
  more := conjunctionRest
  combine_assoc := Bool.and_assoc
  clear_sign _ := trivial
  whole_succ := conjunction_succ
  more_sign := conjunctionRest_sign
  more_stop n v _ h := conjunctionRest_stop h n v

/-- Conjunctions joined by `-o`. -/
def disjunctions : Series where
  sign := ['-', 'o']
  combine := or
  operand := conjunction
  depth := 3
  Clear rest := rest.head? ≠ some ['-', 'a']
  whole := disjunction
  more := disjunctionRest
  combine_assoc := Bool.or_assoc
  clear_sign _ := by simp
  whole_succ := disjunction_succ
  more_sign := disjunctionRest_sign
  more_stop n v _ h := disjunctionRest_stop h n v

namespace Series

variable {S : Series} {u w : List Text} {v v' : Bool}

/-- Words of a series with their value: they may begin a series, or follow the connective in one.
A reader that took them has at most a step for each of the words less. -/
structure Adds (S : Series) (u : List Text) (v : Bool) : Prop where
  begins : ∀ rest n, S.Clear rest → 6 * u.length + S.depth + 1 ≤ n →
    ∃ m, n ≤ m + u.length ∧ S.whole n (u ++ rest) = S.more m v rest
  follows : ∀ a rest n, S.Clear rest → 6 * u.length + S.depth + 1 ≤ n →
    ∃ m, n ≤ m + u.length ∧ S.more n a (S.sign :: (u ++ rest)) = S.more m (S.combine a v) rest

/-- One operand. -/
theorem Adds.of_reads (hu : u ≠ []) (h : Reads S.operand S.depth S.Clear u v) : S.Adds u v := by
  have hlen := List.length_pos_iff.mpr hu
  constructor
  · intro rest n hrest hn
    obtain ⟨n, rfl⟩ : ∃ m, n = m + 1 := ⟨n - 1, by omega⟩
    refine ⟨n, by omega, ?_⟩
    rw [S.whole_succ, h rest n hrest (by omega), pure_bind]
  · intro a rest n hrest hn
    obtain ⟨n, rfl⟩ : ∃ m, n = m + 1 := ⟨n - 1, by omega⟩
    refine ⟨n, by omega, ?_⟩
    rw [S.more_sign, h rest n hrest (by omega), pure_bind]

/-- Two parts of a series with the connective between them. -/
theorem Adds.join (hu : S.Adds u v) (hw : S.Adds w v') :
    S.Adds (u ++ S.sign :: w) (S.combine v v') := by
  constructor
  · intro rest n hrest hn
    simp only [List.length_append, List.length_cons] at hn ⊢
    -- the connective may follow the first part, and what follows the second part is as before
    obtain ⟨m, hm, hfirst⟩ := hu.begins (S.sign :: (w ++ rest)) n (S.clear_sign _) (by omega)
    obtain ⟨l, hl, hsecond⟩ := hw.follows v rest m hrest (by omega)
    refine ⟨l, by omega, ?_⟩
    rw [List.append_assoc, List.cons_append, hfirst, hsecond]
  · intro a rest n hrest hn
    simp only [List.length_append, List.length_cons] at hn ⊢
    obtain ⟨m, hm, hfirst⟩ := hu.follows a (S.sign :: (w ++ rest)) n (S.clear_sign _) (by omega)
    obtain ⟨l, hl, hsecond⟩ := hw.follows (S.combine a v) rest m hrest (by omega)
    refine ⟨l, by omega, ?_⟩
    rw [List.append_assoc, List.cons_append, hfirst, hsecond, S.combine_assoc]

/-- Words of a series that nothing of the series follows. -/
theorem Adds.reads (h : S.Adds u v) :
    Reads S.whole (S.depth + 1) (fun rest => S.Clear rest ∧ rest.head? ≠ some S.sign) u v := by
  intro rest n hrest hn
  obtain ⟨m, hm, hwhole⟩ := h.begins rest n hrest.1 (by omega)
  obtain ⟨m, rfl⟩ : ∃ l, m = l + 1 := ⟨m - 1, by omega⟩
  rw [hwhole, S.more_stop m v rest hrest.2]

end Series

/-- What a row of words is for the reader of its place. -/
def ReadsAt (v : Bool) (u : List Text) : Tightness → Prop
  | .disjunction => disjunctions.Adds u v
  | .conjunction => conjunctions.Adds u v
  | .negation => Reads negation 2 (fun _ => True) u v
  | .primary => Reads primary 1 (fun _ => True) u v

/-- A condition that nothing of a condition follows. -/
theorem reads_disjunction {u : List Text} {v : Bool} (h : disjunctions.Adds u v) :
    Reads disjunction 4 (fun rest => rest.head? ≠ some ['-', 'a'] ∧ rest.head? ≠ some ['-', 'o'])
      u v :=
  h.reads

/-- A reader of some place takes the words of a condition for its truth. -/
theorem Written.reads {k : Tightness} {p : Formula} {u : List Text} (h : Written k p u) :
    ReadsAt p.truth u k := by
  induction h with
  | same a b =>
      intro rest n _ hn
      obtain ⟨n, rfl⟩ : ∃ m, n = m + 1 := ⟨n - 1, by omega⟩
      have hop : BinaryTest.ofText? "=" = some .same := rfl
      exact primary_binary hop n
  | different a b =>
      intro rest n _ hn
      obtain ⟨n, rfl⟩ : ∃ m, n = m + 1 := ⟨n - 1, by omega⟩
      have hop : BinaryTest.ofText? "!=" = some .different := rfl
      exact primary_binary hop n
  | nonEmpty a =>
      intro rest n _ hn
      obtain ⟨n, rfl⟩ : ∃ m, n = m + 1 := ⟨n - 1, by omega⟩
      have hop : UnaryTest.ofText? "-n" = some .nonEmpty := rfl
      exact primary_unary hop (.inl a.ofText?_eq_none.2) n
  | empty a =>
      intro rest n _ hn
      obtain ⟨n, rfl⟩ : ∃ m, n = m + 1 := ⟨n - 1, by omega⟩
      have hop : UnaryTest.ofText? "-z" = some .empty := rfl
      exact primary_unary hop (.inl a.ofText?_eq_none.2) n
  | @enclosed p u h ih =>
      intro rest n _ hn
      obtain ⟨n, rfl⟩ : ∃ m, n = m + 1 := ⟨n - 1, by omega⟩
      -- the closing parenthesis is no connective, so that all between the two is read
      simp only [List.length_cons, List.length_append, List.length_nil] at hn
      have hinside : disjunction n (u ++ [')'] :: rest) = pure (p.truth, [')'] :: rest) :=
        reads_disjunction ih _ n (by simp) (by omega)
      obtain ⟨w, x, r, hu, hw, -⟩ := h.head
      subst hu
      simp only [List.cons_append, List.append_assoc, List.nil_append] at hinside ⊢
      rw [primary_enclosed (.inl hw), hinside, pure_bind]
      rfl
  | @plain p u h ih =>
      intro rest n _ hn
      obtain ⟨n, rfl⟩ : ∃ m, n = m + 1 := ⟨n - 1, by omega⟩
      rw [negation_plain (.inl (h.head?_append rest)), ih rest n trivial (by omega)]
  | @not p u h ih =>
      intro rest n _ hn
      obtain ⟨n, rfl⟩ : ∃ m, n = m + 1 := ⟨n - 1, by omega⟩
      obtain ⟨w, x, r, hu, hw, -⟩ := h.head
      -- the word after `!` is no operator, so that `!` is no operand
      have hfollows : binaryFollows (['!'] :: (u ++ rest)) = false := by
        rw [hu]
        show (BinaryTest.ofText? w).isSome = false
        rw [hw]
        rfl
      rw [List.length_cons] at hn
      rw [List.cons_append, negation_not hfollows, ih rest n trivial (by omega), pure_bind]
      rfl
  | operand h ih =>
      -- a series of one, for which it has to have a word
      obtain ⟨w, x, r, rfl, -⟩ := h.head
      exact .of_reads (List.cons_ne_nil _ _) ih
  | and hp hq ihp ihq => exact Series.Adds.join ihp ihq
  | alternative h ih =>
      obtain ⟨w, x, r, rfl, -⟩ := h.head
      refine .of_reads (List.cons_ne_nil _ _) fun rest n hrest hn => ?_
      exact Series.Adds.reads ih rest n ⟨trivial, hrest⟩ hn
  | or hp hq ihp ihq => exact Series.Adds.join ihp ihq

/-- What becomes of a condition that was read up to some words. -/
def endCondition (v : Bool) : List Text → ShellM Bool
  | [] => return v
  | extra :: _ => fail (.usage (extra ++ ": unexpected operator"))

/-- More than two words are read as a condition, and so are two of which the first is not `!`. -/
theorem condition_eq {w x : Text} {r : List Text} (h : w = ['!'] → r ≠ []) :
    condition (w :: x :: r) =
      disjunction (conditionBound (w :: x :: r)) (w :: x :: r) >>= fun p =>
        endCondition p.1 p.2 := by
  simp only [condition]
  split
  · rename_i heq
    cases heq
  · rename_i heq
    cases heq
  -- two words that begin with `!` are excluded by the hypothesis
  · rename_i heq
    cases heq
    exact absurd rfl (h rfl)
  · rfl

/-- A condition is evaluated as its connectives bind. There are words that spell it, and however it is
spelled, its words come to its truth at once. -/
theorem condition_of_written (p : Formula) :
    Written .disjunction p p.words ∧
      ∀ args, Written .disjunction p args → condition args = pure p.truth := by
  constructor
  · exact p.written_words.loosest
  · intro args h
    have hread : disjunction (conditionBound args) (args ++ []) = pure (p.truth, []) := by
      apply reads_disjunction h.reads
      · simp
      · simp only [conditionBound]
        omega
    obtain ⟨w, x, r, rfl, -, hnot⟩ := h.head
    rw [List.append_nil] at hread
    rw [condition_eq hnot, hread, pure_bind]
    rfl

/-- `a = a -o ! ( -z a ) -a -n b -a a = b` is true as `-a` binds tighter than `-o`. -/
theorem condition_of_written_alternative :
    condition [['a'], ['='], ['a'], ['-', 'o'], ['!'], ['('], ['-', 'z'], ['a'], [')'], ['-', 'a'],
      ['-', 'n'], ['b'], ['-', 'a'], ['a'], ['='], ['b']] = pure true := by
  let a : Operand := ⟨['a'], rfl⟩
  let b : Operand := ⟨['b'], rfl⟩
  -- parentheses that are not needed, and conjunctions nested to the right
  have hfirst : Written .disjunction (.same a a) _ := (Written.same a a).loosest
  have hnot : Written .conjunction (.not (.empty a)) _ :=
    (Written.empty a).loosest.enclosed.plain.not.operand
  have hlast : Written .conjunction (.and (.nonEmpty b) (.same a b)) _ :=
    (Written.nonEmpty b).plain.operand.and (Written.same a b).plain.operand
  exact (condition_of_written _).2 _ (hfirst.or (hnot.and hlast).alternative)

end CommandShell.Commands
