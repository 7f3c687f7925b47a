import CommandShell.Proofs.Arithmetic.Words

/-!
# Precedence

A tree is written with brackets only where its operators need them: an operand that binds less tightly
than its place asks for stands in brackets. The operators between two operands bind to the left, so that
a right operand has to bind more tightly than its operator; assignments and `?:` bind to the right.

The result is `evalText_spaced`: the value of a tree that is written so is its meaning.
-/

namespace CommandShell.Arith

/-! ## Writing -/

/-- How tightly an operator between two operands binds. -/
def BinaryOp.precedence : BinaryOp → Nat
  | bitOr => 5
  | bitXor => 6
  | bitAnd => 7
  | eq | ne => 8
  | lt | le | gt | ge => 9
  | shl | shr => 10
  | add | sub => 11
  | mul | div | rem => 12

/-- How tightly the operator of a tree binds, from 1 for an assignment up to 13 for what needs no
brackets anywhere. -/
def Tree.precedence : Tree → Nat
  | assign _ _ _ => 1
  | cond _ _ _ => 2
  | or _ _ => 3
  | and _ _ => 4
  | binary op _ _ => op.precedence
  | signed _ _ | numeral _ _ | var _ => 13

def BinaryOp.mark : BinaryOp → Mark
  | mul => ⟨"*", by decide⟩
  | div => ⟨"/", by decide⟩
  | rem => ⟨"%", by decide⟩
  | add => ⟨"+", by decide⟩
  | sub => ⟨"-", by decide⟩
  | shl => ⟨"<<", by decide⟩
  | shr => ⟨">>", by decide⟩
  | lt => ⟨"<", by decide⟩
  | le => ⟨"<=", by decide⟩
  | gt => ⟨">", by decide⟩
  | ge => ⟨">=", by decide⟩
  | eq => ⟨"==", by decide⟩
  | ne => ⟨"!=", by decide⟩
  | bitAnd => ⟨"&", by decide⟩
  | bitXor => ⟨"^", by decide⟩
  | bitOr => ⟨"|", by decide⟩

def Sign.mark : Sign → Mark
  | minus => ⟨"-", by decide⟩
  | not => ⟨"!", by decide⟩
  | complement => ⟨"~", by decide⟩

def Compound.mark : Compound → Mark
  | mul => ⟨"*=", by decide⟩
  | div => ⟨"/=", by decide⟩
  | rem => ⟨"%=", by decide⟩
  | add => ⟨"+=", by decide⟩
  | sub => ⟨"-=", by decide⟩
  | shl => ⟨"<<=", by decide⟩
  | shr => ⟨">>=", by decide⟩
  | bitAnd => ⟨"&=", by decide⟩
  | bitXor => ⟨"^=", by decide⟩
  | bitOr => ⟨"|=", by decide⟩

/-- The operator of an assignment. -/
def assignMark : Option Compound → Mark
  | none => ⟨"=", by decide⟩
  | some op => op.mark

/-- The words of a tree with brackets around them unless it binds at least as tightly as `k`. -/
def Tree.enclosed (e : Tree) (k : Nat) (ws : List Word) : List Word :=
  if k ≤ e.precedence then ws
  else .mark ⟨"(", by decide⟩ :: ws ++ [.mark ⟨")", by decide⟩]

/-- The words of a tree, with brackets around an operand only where its place needs them. -/
def Tree.words : Tree → List Word
  | numeral radix n => [.numeral radix n]
  | var x => [.name x]
  | signed s a => .mark s.mark :: a.enclosed 13 a.words
  | binary op a b =>
    a.enclosed op.precedence a.words ++ .mark op.mark :: b.enclosed (op.precedence + 1) b.words
  | and a b => a.enclosed 4 a.words ++ .mark ⟨"&&", by decide⟩ :: b.enclosed 5 b.words
  | or a b => a.enclosed 3 a.words ++ .mark ⟨"||", by decide⟩ :: b.enclosed 4 b.words
  | cond c a b =>
    c.enclosed 3 c.words ++ .mark ⟨"?", by decide⟩ :: a.enclosed 1 a.words ++
      .mark ⟨":", by decide⟩ :: b.enclosed 2 b.words
  | assign x op a => .name x :: .mark (assignMark op) :: a.enclosed 1 a.words

/-- The words of a tree in a place for what binds at least as tightly as `k`, as tokens. -/
def Tree.tokens (e : Tree) (k : Nat) : List Token := (e.enclosed k e.words).map Word.token

/-! ## What may follow -/

/-- How tightly an operator binds what stands before it; 0 when it is none that takes an operand
there. -/
def binding (o : Text) : Nat :=
  if o = "=" || (compoundOp? o).isSome then 14
  else match levels.findIdx? (·.contains o) with
    | some i => i + 3
    | none => if o = "?" then 2 else 0

/-- No operator at the head of some tokens takes an operand that binds at least as tightly as `k`. -/
def Stops (k : Nat) : List Token → Prop
  | .op o :: _ => binding o < k
  | _ => True

theorem Stops.mono {k l : Nat} {ts : List Token} (h : Stops k ts) (hkl : k ≤ l) : Stops l ts := by
  unfold Stops at h ⊢
  split
  · exact Nat.lt_of_lt_of_le h hkl
  · trivial

/-- The operators of a level, and the levels that bind more tightly. -/
def level (i : Nat) : List Text := levels.getD i []

theorem levels_drop {i : Nat} (hi : i < 10) : levels.drop i = level i :: levels.drop (i + 1) := by
  have hall : ∀ i < 10, levels.drop i = level i :: levels.drop (i + 1) := by decide
  exact hall i hi

theorem binding_of_mem_level {i : Nat} {o : Text} (hi : i < 10) (ho : o ∈ level i) :
    binding o = i + 3 := by
  have hall : ∀ i < 10, ∀ o ∈ level i, binding o = i + 3 := by decide
  exact hall i hi o ho

theorem binding_mark (op : BinaryOp) : binding op.mark.1 = op.precedence := by
  cases op <;> rfl

/-! ## Reading -/

/-- Reads what binds at least as tightly as `k`. -/
def readAt : Nat → Nat → List Token → Reading
  | 0, n, ts | 1, n, ts => parseAssignment n ts
  | 2, n, ts => parseConditional n ts
  | i + 3, n, ts => parseBinary n (levels.drop i) ts

/-- The tokens are read as the expression in a place for `k`, up to where it stops. The steps that
suffice are one round through the levels for every token and what is left of one for the place. -/
def Reads (k : Nat) (ts : List Token) (e : Expr) : Prop :=
  ∀ rest n, Stops k rest → 14 * ts.length + 1 ≤ n + k → readAt k n (ts ++ rest) = .ok (e, rest)

/-- The tokens are read as the first operand of a level, with further ones still to come. -/
def Leads (i : Nat) (ts : List Token) (e : Expr) : Prop :=
  ∀ rest n, Stops (i + 4) rest → 14 * ts.length + 1 ≤ n + (i + 3) → ∃ m, n ≤ m + ts.length + 1 ∧
    readAt (i + 3) n (ts ++ rest) = parseBinaryRest m (level i) (levels.drop (i + 1)) e rest

theorem readAt_level {i n : Nat} {ts : List Token} (hi : i < 10) :
    readAt (i + 3) (n + 1) ts = (readAt (i + 4) n ts).bind fun (a, r) =>
      parseBinaryRest n (level i) (levels.drop (i + 1)) a r := by
  show parseBinary (n + 1) (levels.drop i) ts = _
  rw [levels_drop hi]
  rfl

/-- Where no operator of the level comes next, its last operand has been read. -/
theorem parseBinaryRest_stop {i n : Nat} {e : Expr} {rest : List Token} (hi : i < 10)
    (h : Stops (i + 3) rest) :
    parseBinaryRest (n + 1) (level i) (levels.drop (i + 1)) e rest = .ok (e, rest) := by
  cases rest with
  | nil => rfl
  | cons t rest =>
    cases t with
    | number k => rfl
    | name x => rfl
    | op o =>
        have hnot : (level i).contains o = false := by
          by_contra hmem
          have ho : o ∈ level i := by simpa using hmem
          exact absurd h (by simp [Stops, binding_of_mem_level hi ho])
        simp only [parseBinaryRest, hnot]
        rfl

/-- What is read in a tight place is read in a looser one. -/
theorem Reads.leads {i : Nat} {ts : List Token} {e : Expr} (hi : i < 10) (hts : ts ≠ [])
    (h : Reads (i + 4) ts e) : Leads i ts e := by
  have hlen := List.length_pos_of_ne_nil hts
  intro rest n hrest hn
  obtain ⟨n, rfl⟩ : ∃ m, n = m + 1 := ⟨n - 1, by omega⟩
  refine ⟨n, by omega, ?_⟩
  rw [readAt_level hi, h rest n hrest (by omega)]
  rfl

theorem Leads.reads {i : Nat} {ts : List Token} {e : Expr} (hi : i < 10) (hts : ts ≠ [])
    (h : Leads i ts e) : Reads (i + 3) ts e := by
  have hlen := List.length_pos_of_ne_nil hts
  intro rest n hrest hn
  obtain ⟨m, hm, heq⟩ := h rest n (hrest.mono (Nat.le_succ _)) hn
  obtain ⟨m, rfl⟩ : ∃ l, m = l + 1 := ⟨m - 1, by omega⟩
  rw [heq]
  exact parseBinaryRest_stop hi hrest

/-- An operator joins operands of its level. -/
def Joins (o : Text) (i : Nat) (f : Expr → Expr → Expr) : Prop :=
  ∀ n a ts, parseBinaryRest (n + 1) (level i) (levels.drop (i + 1)) a (.op o :: ts) =
    (readAt (i + 4) n ts).bind fun (b, r) =>
      parseBinaryRest n (level i) (levels.drop (i + 1)) (f a b) r

theorem joins_binary (op : BinaryOp) : Joins op.mark.1 (op.precedence - 3) (.binary op) := by
  cases op <;> exact fun _ _ _ => rfl

theorem joins_and : Joins "&&" 1 .and := fun _ _ _ => rfl

theorem joins_or : Joins "||" 0 .or := fun _ _ _ => rfl

/-- One more operand of a level. -/
theorem Leads.join {o : Text} {i : Nat} {f : Expr → Expr → Expr} {ts us : List Token} {a b : Expr}
    (ho : Joins o i f) (hbind : binding o = i + 3) (hi : i < 10) (hts : ts ≠ []) (ha : Leads i ts a)
    (hb : Reads (i + 4) us b) : Leads i (ts ++ .op o :: us) (f a b) := by
  have hlen := List.length_pos_of_ne_nil hts
  intro rest n hrest hn
  rw [List.length_append, List.length_cons] at hn ⊢
  have hstop : Stops (i + 4) (.op o :: (us ++ rest)) := by
    simp [Stops, hbind]
  obtain ⟨m, hm, heq⟩ := ha _ n hstop (by omega)
  obtain ⟨m, rfl⟩ : ∃ l, m = l + 1 := ⟨m - 1, by omega⟩
  refine ⟨m, by omega, ?_⟩
  rw [List.append_assoc, List.cons_append, heq, ho, hb rest m hrest (by omega)]
  rfl

theorem Reads.of_conditional {ts : List Token} {e : Expr} (hts : ts ≠ []) (h : Reads 2 ts e)
    (hnone : ∀ rest, Stops 14 rest → assignment? (ts ++ rest) = none) : Reads 1 ts e := by
  have hlen := List.length_pos_of_ne_nil hts
  intro rest n hrest hn
  obtain ⟨n, rfl⟩ : ∃ m, n = m + 1 := ⟨n - 1, by omega⟩
  show parseAssignment (n + 1) (ts ++ rest) = _
  rw [parseAssignment, hnone rest (hrest.mono (by decide))]
  exact h rest n (hrest.mono (by decide)) (by omega)

/-- Without a `?` after it an expression is no condition. -/
theorem parseConditional_eq {n : Nat} {e : Expr} {ts rest : List Token} (hrest : Stops 2 rest)
    (h : parseBinary n levels ts = .ok (e, rest)) : parseConditional (n + 1) ts = .ok (e, rest) := by
  rw [parseConditional, h]
  dsimp only [bind, Except.bind]
  split
  · exact absurd hrest (by decide : ¬binding "?" < 2)
  · rfl

theorem Reads.of_disjunction {ts : List Token} {e : Expr} (hts : ts ≠ []) (h : Reads 3 ts e) :
    Reads 2 ts e := by
  have hlen := List.length_pos_of_ne_nil hts
  intro rest n hrest hn
  obtain ⟨n, rfl⟩ : ∃ m, n = m + 1 := ⟨n - 1, by omega⟩
  exact parseConditional_eq hrest (h rest n (hrest.mono (by decide)) (by omega))

/-- What is read in a tight place is read in every looser one. -/
theorem Reads.loosen {j k : Nat} {ts : List Token} {e : Expr} (h : Reads k ts e) (hts : ts ≠ [])
    (hj : 1 ≤ j) (hjk : j ≤ k) (hk : k ≤ 13)
    (hnone : 2 ≤ k → ∀ rest, Stops 14 rest → assignment? (ts ++ rest) = none) : Reads j ts e := by
  induction k, hjk using Nat.le_induction with
  | base => exact h
  | succ k hjk ih =>
    have hlookup := hnone (by omega)
    have hread : Reads k ts e := by
      rcases k with - | - | - | i
      · omega
      · exact h.of_conditional hts hlookup
      · exact h.of_disjunction hts
      · exact (h.leads (by omega) hts).reads (by omega) hts
    exact ih hread (by omega) (fun _ => hlookup)

/-- A bracketed expression needs no further brackets. -/
theorem Reads.bracketed {ts : List Token} {e : Expr} (h : Reads 1 ts e) :
    Reads 13 (.op "(" :: (ts ++ [.op ")"])) e := by
  intro rest n hrest hn
  simp only [List.length_cons, List.length_append, List.length_nil] at hn
  obtain ⟨n, rfl⟩ : ∃ m, n = m + 2 := ⟨n - 2, by omega⟩
  have hstop : Stops 1 (.op ")" :: rest) := (by decide : binding ")" < 1)
  have hread : parseAssignment n (ts ++ .op ")" :: rest) = .ok (e, .op ")" :: rest) :=
    h (.op ")" :: rest) n hstop (by omega)
  show (parseAssignment n (ts ++ [.op ")"] ++ rest)).bind _ = _
  rw [List.append_assoc, List.cons_append, List.nil_append, hread]
  rfl

theorem Reads.signed {s : Sign} {ts : List Token} {a : Tree} (h : Reads 13 ts a.toExpr) :
    Reads 13 (.op s.mark.1 :: ts) (Tree.signed s a).toExpr := by
  intro rest n hrest hn
  rw [List.length_cons] at hn
  obtain ⟨n, rfl⟩ : ∃ m, n = m + 2 := ⟨n - 2, by omega⟩
  have hread : parseUnary n (ts ++ rest) = .ok (a.toExpr, rest) := h rest (n + 1) hrest (by omega)
  cases s with
  | minus =>
      show (parseUnary n (ts ++ rest)).map _ = _
      rw [hread]
      rfl
  | not =>
      show (parseUnary n (ts ++ rest)).map _ = _
      rw [hread]
      rfl
  | complement =>
      show (parseUnary n (ts ++ rest)).map _ = _
      rw [hread]
      rfl

theorem Reads.cond {ts us vs : List Token} {c a b : Expr} (hts : ts ≠ []) (hc : Reads 3 ts c)
    (ha : Reads 1 us a) (hb : Reads 2 vs b) :
    Reads 2 (ts ++ .op "?" :: (us ++ .op ":" :: vs)) (.cond c a b) := by
  have hlen := List.length_pos_of_ne_nil hts
  intro rest n hrest hn
  simp only [List.length_append, List.length_cons] at hn
  obtain ⟨n, rfl⟩ : ∃ m, n = m + 1 := ⟨n - 1, by omega⟩
  have hquestion : ∀ r, Stops 3 (.op "?" :: r) := fun _ => (by decide : binding "?" < 3)
  have hcolon : ∀ r, Stops 1 (.op ":" :: r) := fun _ => (by decide : binding ":" < 1)
  have hc : parseBinary n levels _ = _ := hc _ n (hquestion (us ++ .op ":" :: (vs ++ rest))) (by omega)
  have ha : parseAssignment n _ = _ := ha _ n (hcolon (vs ++ rest)) (by omega)
  have hb : parseConditional n _ = _ := hb rest n hrest (by omega)
  simp only [List.append_assoc, List.cons_append]
  show parseConditional (n + 1) _ = _
  rw [parseConditional, hc]
  show (parseAssignment n (us ++ _)).bind _ = _
  rw [ha]
  show (parseConditional n (vs ++ rest)).bind _ = _
  rw [hb]
  rfl

theorem Reads.assign {x : Name} {op : Option Compound} {ts : List Token} {a : Expr}
    (ha : Reads 1 ts a) :
    Reads 1 (.name x.1 :: .op (assignMark op).1 :: ts) (.assign x.1 (op.map Compound.op) a) := by
  intro rest n hrest hn
  simp only [List.length_cons] at hn
  obtain ⟨n, rfl⟩ : ∃ m, n = m + 1 := ⟨n - 1, by omega⟩
  have hassign : assignment? (.name x.1 :: .op (assignMark op).1 :: (ts ++ rest)) =
      some (x.1, op.map Compound.op, ts ++ rest) := by
    cases op with
    | none => rfl
    | some op => cases op <;> rfl
  have ha : parseAssignment n (ts ++ rest) = _ := ha rest n hrest (by omega)
  show parseAssignment (n + 1) (.name x.1 :: .op (assignMark op).1 :: (ts ++ rest)) = _
  rw [parseAssignment, hassign]
  show (parseAssignment n (ts ++ rest)).map _ = _
  rw [ha]
  rfl

theorem reads_number (n : Value) : Reads 13 [.number n] (.number n) := by
  intro rest m _ hm
  obtain ⟨m, rfl⟩ : ∃ l, m = l + 2 := ⟨m - 2, by simp at hm; omega⟩
  rfl

theorem reads_var (x : Text) : Reads 13 [.name x] (.var x) := by
  intro rest m _ hm
  obtain ⟨m, rfl⟩ : ∃ l, m = l + 2 := ⟨m - 2, by simp at hm; omega⟩
  rfl

/-! ## Trees -/

theorem words_ne_nil (e : Tree) : e.words ≠ [] := by
  cases e <;> simp [Tree.words]

theorem Tree.tokens_of_le {e : Tree} {k : Nat} (h : k ≤ e.precedence) :
    e.tokens k = e.words.map Word.token := by
  rw [tokens, enclosed, if_pos h]

theorem Tree.tokens_of_lt {e : Tree} {k : Nat} (h : e.precedence < k) :
    e.tokens k = .op "(" :: (e.words.map Word.token ++ [.op ")"]) := by
  rw [tokens, enclosed, if_neg (Nat.not_le_of_lt h)]
  simp [Word.token]

theorem Tree.tokens_ne_nil (e : Tree) (k : Nat) : e.tokens k ≠ [] := by
  unfold tokens enclosed
  split
  · simpa using words_ne_nil e
  · simp

section

variable (op : BinaryOp) (a b c : Tree)

theorem map_words_signed (s : Sign) :
    (Tree.signed s a).words.map Word.token = .op s.mark.1 :: a.tokens 13 := rfl

theorem map_words_binary : (Tree.binary op a b).words.map Word.token =
    a.tokens op.precedence ++ .op op.mark.1 :: b.tokens (op.precedence + 1) := by
  simp [Tree.words, Tree.tokens, Word.token]

theorem map_words_and :
    (Tree.and a b).words.map Word.token = a.tokens 4 ++ .op "&&" :: b.tokens 5 := by
  simp [Tree.words, Tree.tokens, Word.token]

theorem map_words_or : (Tree.or a b).words.map Word.token = a.tokens 3 ++ .op "||" :: b.tokens 4 := by
  simp [Tree.words, Tree.tokens, Word.token]

theorem map_words_cond : (Tree.cond c a b).words.map Word.token =
    c.tokens 3 ++ .op "?" :: (a.tokens 1 ++ .op ":" :: b.tokens 2) := by
  simp [Tree.words, Tree.tokens, Word.token]

theorem map_words_assign (x : Name) (op : Option Compound) :
    (Tree.assign x op a).words.map Word.token =
      .name x.1 :: .op (assignMark op).1 :: a.tokens 1 := rfl

end

theorem BinaryOp.precedence_bounds (op : BinaryOp) : 5 ≤ op.precedence ∧ op.precedence ≤ 12 := by
  cases op <;> decide

theorem Tree.precedence_bounds (e : Tree) : 1 ≤ e.precedence ∧ e.precedence ≤ 13 := by
  cases e with
  | binary op a b =>
      obtain ⟨hlow, hhigh⟩ := op.precedence_bounds
      exact ⟨Nat.le_trans (by decide) hlow, Nat.le_trans hhigh (by decide)⟩
  | _ => exact ⟨by simp [precedence], by simp [precedence]⟩

/-- A variable is assigned to only where an assignment operator follows. -/
theorem assignment?_var {x : Text} {rest : List Token} (hrest : Stops 14 rest) :
    assignment? (.name x :: rest) = none := by
  cases rest with
  | nil => rfl
  | cons t rest =>
    cases t with
    | number n => rfl
    | name y => rfl
    | op o =>
        have hnot : ¬(o = "=" || (compoundOp? o).isSome) = true := by
          intro ho
          have hlt : binding o < 14 := hrest
          rw [binding, if_pos ho] at hlt
          exact absurd hlt (by decide)
        simp only [Bool.or_eq_true, decide_eq_true_eq, not_or, Bool.not_eq_true,
          Option.isSome_eq_false_iff, Option.isNone_iff_eq_none] at hnot
        simpa [assignment?, hnot.2] using hnot.1

/-- Only an assignment looks like one. -/
theorem assignment?_words {e : Tree} (he : 2 ≤ e.precedence) {rest : List Token}
    (hrest : Stops 14 rest) : assignment? (e.words.map Word.token ++ rest) = none := by
  -- the first operand of an operator stands in brackets when it is an assignment
  have hfirst : ∀ {a : Tree} {k rest}, 2 ≤ k →
      (2 ≤ a.precedence → assignment? (a.words.map Word.token ++ rest) = none) →
      assignment? (a.tokens k ++ rest) = none := by
    intro a k rest hk ih
    rcases Nat.lt_or_ge a.precedence k with hlt | hle
    · rw [Tree.tokens_of_lt hlt]
      rfl
    · rw [Tree.tokens_of_le hle]
      exact ih (Nat.le_trans hk hle)
  induction e generalizing rest with
  | numeral radix n => rfl
  | var x => exact assignment?_var hrest
  | signed s a ih => rfl
  | binary op a b iha ihb =>
      obtain ⟨hlow, hhigh⟩ := op.precedence_bounds
      rw [map_words_binary, List.append_assoc]
      apply hfirst (by omega)
      intro ha
      apply iha ha
      show binding op.mark.1 < 14
      rw [binding_mark]
      omega
  | and a b iha ihb =>
      rw [map_words_and, List.append_assoc]
      apply hfirst (by decide)
      intro ha
      exact iha ha (by decide : binding "&&" < 14)
  | or a b iha ihb =>
      rw [map_words_or, List.append_assoc]
      apply hfirst (by decide)
      intro ha
      exact iha ha (by decide : binding "||" < 14)
  | cond c a b ihc iha ihb =>
      rw [map_words_cond, List.append_assoc]
      apply hfirst (by decide)
      intro hc
      exact ihc hc (by decide : binding "?" < 14)
  | assign x op a ih => exact absurd he (by simp [Tree.precedence])

/-- A tree that is read without brackets where it needs none is read in every place. -/
theorem reads_tokens {e : Tree} (h : Reads e.precedence (e.words.map Word.token) e.toExpr) {k : Nat}
    (hk : 1 ≤ k) (hk' : k ≤ 13) : Reads k (e.tokens k) e.toExpr := by
  obtain ⟨hlow, hhigh⟩ := e.precedence_bounds
  have hwords : e.words.map Word.token ≠ [] := by simpa using words_ne_nil e
  have hloose : ∀ {j}, 1 ≤ j → j ≤ e.precedence → Reads j (e.words.map Word.token) e.toExpr := by
    intro j hj hje
    exact h.loosen hwords hj hje hhigh fun he _ => assignment?_words he
  rcases Nat.lt_or_ge e.precedence k with hlt | hle
  · rw [Tree.tokens_of_lt hlt]
    apply (hloose (Nat.le_refl 1) hlow).bracketed.loosen (List.cons_ne_nil _ _) hk hk' (Nat.le_refl 13)
    intro _ _ _
    rfl
  · rw [Tree.tokens_of_le hle]
    exact hloose hk hle

/-- A tree is read back in every place, and as the first operand of every level. -/
structure Readable (e : Tree) : Prop where
  reads : ∀ k, 1 ≤ k → k ≤ 13 → Reads k (e.tokens k) e.toExpr
  leads : ∀ i < 10, Leads i (e.tokens (i + 3)) e.toExpr

theorem Readable.of_reads {e : Tree} (h : Reads e.precedence (e.words.map Word.token) e.toExpr)
    (hleads : ∀ i < 10, e.precedence = i + 3 → Leads i (e.words.map Word.token) e.toExpr) :
    Readable e := by
  refine ⟨fun k hk hk' => reads_tokens h hk hk', fun i hi => ?_⟩
  by_cases hown : e.precedence = i + 3
  · rw [Tree.tokens_of_le hown.ge]
    exact hleads i hi hown
  · -- the place is as tight for the tree as the next one
    have hsame : e.tokens (i + 3) = e.tokens (i + 4) := by
      rcases Nat.lt_or_gt_of_ne hown with hlt | hgt
      · rw [Tree.tokens_of_lt hlt, Tree.tokens_of_lt (Nat.lt_succ_of_lt hlt)]
      · rw [Tree.tokens_of_le (Nat.le_of_lt hgt), Tree.tokens_of_le hgt]
    rw [hsame]
    exact (reads_tokens h (by omega) (by omega)).leads hi (e.tokens_ne_nil _)

/-- A tree whose operator joins two operands of a level. -/
theorem Readable.of_joins {e a b : Tree} {o : Text} {i : Nat} {f : Expr → Expr → Expr}
    (ha : Readable a) (hb : Readable b) (ho : Joins o i f) (hi : i < 10) (hbind : binding o = i + 3)
    (hown : e.precedence = i + 3) (hexpr : e.toExpr = f a.toExpr b.toExpr)
    (hwords : e.words.map Word.token = a.tokens (i + 3) ++ .op o :: b.tokens (i + 4)) : Readable e := by
  have hleads : Leads i (e.words.map Word.token) e.toExpr := by
    rw [hwords, hexpr]
    exact (ha.leads i hi).join ho hbind hi (a.tokens_ne_nil _) (hb.reads (i + 4) (by omega) (by omega))
  have hne : e.words.map Word.token ≠ [] := by simpa using words_ne_nil e
  apply Readable.of_reads
  · rw [hown]
    exact hleads.reads hi hne
  · intro j _ hj
    obtain rfl : i = j := by omega
    exact hleads

/-- Every tree is read back. -/
theorem readable (e : Tree) : Readable e := by
  induction e with
  | numeral radix n => exact .of_reads (reads_number _) (by simp [Tree.precedence]; omega)
  | var x => exact .of_reads (reads_var _) (by simp [Tree.precedence]; omega)
  | signed s a ih =>
      exact .of_reads (ih.reads 13 (by decide) (by decide)).signed (by simp [Tree.precedence]; omega)
  | binary op a b iha ihb =>
      obtain ⟨hlow, hhigh⟩ := op.precedence_bounds
      obtain ⟨i, hi⟩ : ∃ i, op.precedence = i + 3 := ⟨op.precedence - 3, by omega⟩
      have hwords := map_words_binary op a b
      have hjoins := joins_binary op
      rw [hi] at hwords hjoins
      exact iha.of_joins ihb hjoins (by omega) ((binding_mark op).trans hi) hi rfl hwords
  | and a b iha ihb => exact iha.of_joins ihb joins_and (by decide) rfl rfl rfl (map_words_and a b)
  | or a b iha ihb => exact iha.of_joins ihb joins_or (by decide) rfl rfl rfl (map_words_or a b)
  | cond c a b ihc iha ihb =>
      apply Readable.of_reads
      · rw [map_words_cond]
        exact (ihc.reads 3 (by decide) (by decide)).cond (c.tokens_ne_nil 3)
          (iha.reads 1 (by decide) (by decide)) (ihb.reads 2 (by decide) (by decide))
      · simp [Tree.precedence]
  | assign x op a ih =>
      exact .of_reads (ih.reads 1 (by decide) (by decide)).assign (by simp [Tree.precedence])

/-! ## The text of a tree -/

/-- The words of a tree are read as its expression. -/
theorem parse_of_tokens {e : Tree} {t : Text} (h : tokens t = .ok (e.words.map Word.token)) :
    parse t = .ok (some e.toExpr) := by
  have hread : parseAssignment (stepBound (e.words.map Word.token)) (e.words.map Word.token ++ []) =
      .ok (e.toExpr, []) := by
    have hown : e.tokens 1 = e.words.map Word.token := Tree.tokens_of_le e.precedence_bounds.1
    rw [← hown]
    exact (readable e).reads 1 (by decide) (by decide) [] (stepBound (e.tokens 1)) trivial
      (by unfold stepBound; omega)
  have hne : (e.words.map Word.token).isEmpty = false := by simpa using words_ne_nil e
  rw [List.append_nil] at hread
  rw [parse, h]
  show (if (e.words.map Word.token).isEmpty then _ else _) = _
  rw [hne, if_neg Bool.false_ne_true]
  show (parseAssignment (stepBound _) _).bind _ = _
  rw [hread]
  rfl

/-- The text of a tree is read as its expression. -/
theorem parse_spaced {e : Tree} {t : Text} (h : Spaced e.words t) : parse t = .ok (some e.toExpr) :=
  parse_of_tokens (tokens_spaced h)

/-- The text of a tree has the meaning of the tree: the same number or error, and the same assignments
made on the way. -/
theorem evalText_spaced {σ : Type} (access : Access σ) (e : Tree) (t : Text)
    (h : Spaced e.words t) : Int64.toInt <$> evalText access t = e.meaning access := by
  rw [evalText, parse_spaced h]
  exact e.eval_toExpr access

/-- Variables in a list, the latest value first. -/
def listed : Access (List (Text × Text)) where
  read s x := s.lookup x
  write s x v := .ok ((x, v) :: s)

/-- Gives `x` three times the sum of 1 and 2. -/
def product : Tree :=
  .assign ⟨"x", by decide⟩ none
    (.binary .mul (.binary .add (.numeral .decimal 1) (.numeral .decimal 2)) (.numeral .decimal 3))

theorem evalText_product :
    Spaced product.words "x = ( 1 + 2 ) * 3" ∧
      Int64.toInt <$> evalText listed "x = ( 1 + 2 ) * 3" = product.meaning listed ∧
      ((product.meaning listed).run.run []).2 = [(['x'], ['9'])] :=
  have hspaced := spaced_join product.words
  ⟨hspaced, evalText_spaced listed product _ hspaced, by decide +kernel⟩

end CommandShell.Arith
