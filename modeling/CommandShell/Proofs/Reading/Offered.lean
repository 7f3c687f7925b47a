import CommandShell.Proofs.Reading.Characters

/-!
# Reading a text that is known

What a reader makes of a text that lies before it in the lines. `Reads r t a rest` says that `r`
takes from `t` what stands before `rest` and gives `a`; such facts are put together as the readers
are. They are first stated for single characters, and then for what stands in double quotes.
-/

namespace CommandShell.Script

open Reader

variable {α β : Type}

/-- What is left of an input is a text, and it stands in no alias. -/
structure Offers (t : Text) (i : Input) : Prop where
  bare : Bare i
  lines : [] ∉ i.queue
  text : i.current ++ i.queue.flatten = t
  ended : i.atEnd = true → i.queue = []

/-- A text is what is left of an input of its own. -/
theorem offers_ofText (t : Text) (line : Nat) (aliases : Table Text) :
    Offers t (.ofText t line aliases) :=
  ⟨⟨rfl, rfl⟩, nil_notMem_lines t, lines_flatten t, nofun⟩

/-- Before a text the reader gives `a` and leaves `rest`. -/
def Reads (r : Reader α) (t : Text) (a : α) (rest : Text) : Prop :=
  ∀ i, Offers t i → Meets (fun _ _ => False) (fun b j => b = a ∧ Offers rest j) r i

section

variable {t u v : Text} {a : α} {b : β}

theorem Reads.bind {x : Reader α} {f : α → Reader β} (hx : Reads x t a u)
    (hf : Reads (f a) u b v) : Reads (x >>= f) t b v := by
  intro i hi
  apply (hx i hi).bind
  rintro _ j ⟨rfl, hj⟩
  exact hf j hj

theorem reads_pure (a : α) (t : Text) : Reads (pure a) t a t := fun _ hi => ⟨rfl, hi⟩

theorem Reads.ite_true {c : Prop} [Decidable c] {x y : Reader α} (hc : c) (hx : Reads x t a u) :
    Reads (if c then x else y) t a u := by
  rw [if_pos hc]
  exact hx

theorem Reads.ite_false {c : Prop} [Decidable c] {x y : Reader α} (hc : ¬ c)
    (hy : Reads y t a u) : Reads (if c then x else y) t a u := by
  rw [if_neg hc]
  exact hy

end

/-! ## Single characters -/

section

variable {c : Char} {t : Text} {i : Input}

/-- The character comes from the current line, after the next one was taken if need be. -/
theorem fill_offers (hi : Offers (c :: t) i) :
    Meets (fun _ _ => False) (fun _ j => Offers (c :: t) j ∧ ∃ r, j.current = c :: r) fill i := by
  have hsettled : settled i = i := by
    obtain ⟨hframes, -⟩ := hi.bare
    cases i
    cases hframes
    rfl
  show Meets _ _ fillLine (settled i)
  rw [hsettled]
  show Meets _ _ (if !i.frames.isEmpty || !i.current.isEmpty || i.atEnd then return else _ :
    Reader Unit) i
  have htext := hi.text
  -- the character starts what is left of the current line, or the next line
  cases hc : i.current with
  | cons d r =>
      rw [if_pos (by simp)]
      rw [hc] at htext
      obtain ⟨rfl, -⟩ := List.cons.inj htext
      exact ⟨hi, r, hc⟩
  | nil =>
      cases hq : i.queue with
      | nil =>
          rw [hc, hq] at htext
          cases htext
      | cons l ls =>
          have hend : i.atEnd = false := by
            by_contra hend
            rw [hi.ended (by simpa using hend)] at hq
            cases hq
          have hne : l ≠ [] := fun hl => hi.lines (by rw [hq, hl]; exact List.mem_cons_self)
          obtain ⟨d, r, rfl⟩ := List.exists_cons_of_ne_nil hne
          rw [hc, hq] at htext
          obtain ⟨rfl, -⟩ := List.cons.inj htext
          rw [if_neg (by simp [hi.bare.1, hend])]
          refine ⟨⟨hi.bare, fun h => ?_, htext, fun h => ?_⟩, r, rfl⟩
          · exact hi.lines (hq ▸ List.mem_cons_of_mem _ h)
          · exact absurd (hend.symm.trans h) Bool.false_ne_true

/-- The next character is taken. -/
theorem reads_next (c : Char) (t : Text) : Reads next (c :: t) (some c) t := by
  intro i hi
  unfold Meets
  rw [next_on_filled hi.bare.2]
  apply (fill_offers hi).bind
  rintro _ j ⟨hj, r, hr⟩
  have htext := hj.text
  rw [hr] at htext
  unfold Meets
  rw [takeFront_on_line hj.bare.1 hr]
  exact ⟨rfl, hj.bare, hj.lines, (List.cons.inj htext).2, hj.ended⟩

/-- The next character is looked at, and stays. -/
theorem reads_peek (c : Char) (t : Text) : Reads peek (c :: t) (some c) (c :: t) := by
  intro i hi
  unfold Meets
  rw [peek_on_filled hi.bare.2]
  apply (fill_offers hi).bind
  rintro _ j ⟨hj, r, hr⟩
  refine ⟨?_, hj⟩
  rw [hj.bare.1, hr]
  rfl

end

/-! ## In double quotes -/

/-- The characters that a backslash stands before in double quotes. -/
def isDoubleQuoteSpecial (c : Char) : Bool := c = '$' || c = '\x60' || c = '"' || c = '\\'

/-- Plain text as it is written in double quotes. -/
def writtenInQuotes : Text → Text
  | [] => []
  | c :: t =>
    if isDoubleQuoteSpecial c then '\\' :: c :: writtenInQuotes t else c :: writtenInQuotes t

/-- Adds plain text to parts. -/
def PartsSoFar.plain (ps : PartsSoFar) (t : Text) : PartsSoFar := t.foldl (fun ps c => ps.literal c) ps

section

variable {start n : Nat} {ps : PartsSoFar} {qs : List Part} {t rest : Text}

/-- A quote closes the text. -/
theorem reads_closingQuote (start n : Nat) (ps : PartsSoFar) (rest : Text) :
    Reads (readDoubleQuoted start (n + 1) ps) ('"' :: rest) ps.sealed rest := by
  unfold readDoubleQuoted
  apply (reads_next '"' rest).bind
  exact reads_pure _ _

/-- A character that means something in double quotes is taken for itself after a backslash, and
every other one is taken as it stands. -/
theorem reads_plainChar {c : Char} {u : Text}
    (h : Reads (readDoubleQuoted start n (ps.literal c)) u qs rest) :
    Reads (readDoubleQuoted start (n + 1) ps)
      (if isDoubleQuoteSpecial c then '\\' :: c :: u else c :: u) qs rest := by
  unfold readDoubleQuoted
  split
  · rename_i hspecial
    apply (reads_next '\\' _).bind
    apply (reads_next c _).bind
    have hc : ((c = '$' ∨ c = '\x60') ∨ c = '"') ∨ c = '\\' := by
      simpa [isDoubleQuoteSpecial] using hspecial
    rcases hc with ((rfl | rfl) | rfl) | rfl <;> exact h
  · rename_i hplain
    apply (reads_next c _).bind
    split
    · contradiction
    -- the characters with a meaning of their own are the special ones
    all_goals first
      | (rename_i heq; cases heq; exact absurd rfl hplain)
      | skip
    rename_i heq
    cases heq
    exact h

/-- Plain text in double quotes is added to the parts before it. -/
theorem reads_plain {u : Text}
    (h : Reads (readDoubleQuoted start n (ps.plain t)) u qs rest) :
    Reads (readDoubleQuoted start (n + t.length) ps) (writtenInQuotes t ++ u) qs rest := by
  induction t generalizing ps with
  | nil => exact h
  | cons c t ih =>
      have hc := reads_plainChar (ih h)
      unfold writtenInQuotes
      split
      · rename_i hspecial
        rw [if_pos hspecial] at hc
        exact hc
      · rename_i hplain
        rw [if_neg hplain] at hc
        exact hc

theorem isSpecialParam_cases {c : Char} (hc : isSpecialParam c = true) :
    c ≠ '\x7b' ∧ c ≠ '(' ∧ Text.isNameStart c = false := by
  have hmem : c ∈ ['@', '*', '#', '?', '-', '$', '!'] := List.contains_iff_mem.mp hc
  simp only [List.mem_cons, List.not_mem_nil, or_false] at hmem
  rcases hmem with rfl | rfl | rfl | rfl | rfl | rfl | rfl <;> decide

theorem reads_dollar {c : Char} (hc : isSpecialParam c = true) (q : Bool) (u : Text) :
    Reads (readDollar (n + 1) q) (c :: u) (some (.param [c] .plain false [] q)) u := by
  obtain ⟨hbrace, hparen, hname⟩ := isSpecialParam_cases hc
  unfold readDollar
  apply (reads_peek c u).bind
  apply Reads.ite_false hbrace
  apply Reads.ite_false hparen
  apply Reads.ite_false (by simp [hname])
  apply Reads.ite_true (by simp [hc])
  apply (reads_next c u).bind
  exact reads_pure _ u

/-- A parameter with a special character for a name is one part. -/
theorem reads_specialParam {c : Char} (hc : isSpecialParam c = true) (hn : n ≠ 0) {u : Text}
    (h : Reads (readDoubleQuoted start n (.param [c] .plain false [] true :: ps)) u qs rest) :
    Reads (readDoubleQuoted start (n + 1) ps) ('$' :: c :: u) qs rest := by
  obtain ⟨n, rfl⟩ := Nat.exists_eq_succ_of_ne_zero hn
  unfold readDoubleQuoted
  apply (reads_next '$' _).bind
  apply (reads_dollar hc true u).bind
  exact h

theorem plain_literal (r t : Text) :
    PartsSoFar.plain (.literal r :: ps) t = .literal (t.reverse ++ r) :: ps := by
  induction t generalizing r with
  | nil => rfl
  | cons c t ih =>
      show PartsSoFar.plain (.literal (c :: r) :: ps) t = _
      rw [ih, List.reverse_cons, List.append_assoc]
      rfl

/-- Plain text makes one literal part, if it is not empty and no other one stands before it. -/
theorem plain_eq (hps : ∀ r qs, ps ≠ .literal r :: qs) (t : Text) :
    ps.plain t = if t.isEmpty then ps else .literal t.reverse :: ps := by
  cases t with
  | nil => rfl
  | cons c t =>
      have hfirst : ps.literal c = .literal [c] :: ps := by
        unfold PartsSoFar.literal
        split
        · exact absurd rfl (hps _ _)
        · rfl
      show (ps.literal c).plain t = .literal (c :: t).reverse :: ps
      rw [hfirst, plain_literal, List.reverse_cons]

end

end CommandShell.Script
