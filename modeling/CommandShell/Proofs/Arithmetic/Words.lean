import Mathlib.Data.List.Find
import CommandShell.Proofs.Arithmetic
import CommandShell.Proofs.Waiting

/-!
# The words of an expression

An expression is written as words with blanks between them: numerals, names and marks. A word may be
the beginning of another one, as `<` is of `<<=`, but the blank after it says where it ends.
`tokens_spaced` is the result: cutting up such a text gives the words back, one token for each.
-/

namespace CommandShell.Arith

/-! ## Words -/

/-- The texts that stand for operators and brackets. -/
def marks : List Text := "(" :: ")" :: "=" :: operators

/-- An operator or a bracket. -/
abbrev Mark := { o : Text // o ∈ marks }

/-- A word of an expression. -/
inductive Word where
  | numeral (radix : Radix) (n : Fin (2 ^ 64))
  | name (x : Name)
  | mark (o : Mark)

/-- A number written in a base. -/
def Radix.spell : Radix → Nat → Text
  | decimal, n => Nat.toDigits 10 n
  | octal, n => '0' :: Nat.toDigits 8 n
  | hexadecimal, n => '0' :: 'x' :: Nat.toDigits 16 n

/-- How a word is written. -/
def Word.text : Word → Text
  | numeral radix n => radix.spell n.val
  | name x => x.1
  | mark o => o.1

/-- The token that a word is. -/
def Word.token : Word → Token
  | numeral _ n => .number (Int64.ofNat n.val)
  | name x => .name x.1
  | mark o => .op o.1

/-- A text that nothing stands in front of: it is empty or starts with white space. -/
def Apart (t : Text) : Prop := ∀ c ∈ t.head?, Text.isSpace c = true

/-- Texts that spell some words, with white space between neighbours. -/
inductive Spaced : List Word → Text → Prop where
  | nil : Spaced [] []
  | space {ws : List Word} {c : Char} {t : Text} : Text.isSpace c = true → Spaced ws t →
      Spaced ws (c :: t)
  | word {ws : List Word} {t : Text} (w : Word) : Apart t → Spaced ws t →
      Spaced (w :: ws) (w.text ++ t)

/-- Words can always be written, with one blank between neighbours. -/
theorem spaced_join (ws : List Word) : Spaced ws (Text.join " " (ws.map Word.text)) := by
  induction ws with
  | nil => exact .nil
  | cons w ws ih =>
    cases ws with
    | nil =>
        have hlast := Spaced.word w (t := []) nofun .nil
        rwa [List.append_nil] at hlast
    | cons v ws =>
        have hblank : Apart (" " ++ Text.join " " ((v :: ws).map Word.text)) := by
          rintro c ⟨rfl⟩
          rfl
        show Spaced (w :: v :: ws) (w.text ++ " " ++ Text.join " " ((v :: ws).map Word.text))
        rw [List.append_assoc]
        exact .word w hblank (.space rfl ih)

/-! ## Numerals -/

/-- Every digit of a number is the digit of something below the base. -/
theorem exists_digitChar_of_mem {base : Nat} (hone : 1 < base) (n : Nat) {c : Char}
    (hc : c ∈ Nat.toDigits base n) : ∃ d < base, c = d.digitChar := by
  induction n using Nat.strongRecOn with
  | _ n ih =>
    by_cases hn : n < base
    · rw [Nat.toDigits_of_lt_base hn] at hc
      exact ⟨n, hn, List.mem_singleton.mp hc⟩
    · rw [Nat.toDigits_of_base_le hone (Nat.le_of_not_lt hn)] at hc
      rcases List.mem_append.mp hc with hc | hc
      · exact ih (n / base) (Nat.div_lt_self (by omega) hone) hc
      · exact ⟨n % base, Nat.mod_lt n (by omega), List.mem_singleton.mp hc⟩

theorem isDigit_of_mem_toDigits {base n : Nat} (hone : 1 < base) (hbase : base ≤ 10) {c : Char}
    (hc : c ∈ Nat.toDigits base n) : Text.isDigit c = true := by
  obtain ⟨d, hd, rfl⟩ := exists_digitChar_of_mem hone n hc
  have hall : ∀ d < 10, Text.isDigit d.digitChar = true := by decide
  exact hall d (Nat.lt_of_lt_of_le hd hbase)

theorem isAlphanumeric_of_mem_toDigits {base n : Nat} (hone : 1 < base) (hbase : base ≤ 16)
    {c : Char} (hc : c ∈ Nat.toDigits base n) : isAlphanumeric c = true := by
  obtain ⟨d, hd, rfl⟩ := exists_digitChar_of_mem hone n hc
  have hall : ∀ d < 16, isAlphanumeric d.digitChar = true := by decide
  exact hall d (Nat.lt_of_lt_of_le hd hbase)

/-- Only 0 has a first digit 0. -/
theorem head?_toDigits_ten {n : Nat} (hn : 0 < n) : (Nat.toDigits 10 n).head? ≠ some '0' := by
  induction n using Nat.strongRecOn with
  | _ n ih =>
    by_cases hlt : n < 10
    · simpa [Nat.toDigits_of_lt_base hlt] using Nat.ne_of_gt hn
    · rw [Nat.toDigits_of_base_le (by decide) (Nat.le_of_not_lt hlt),
        List.head?_append_of_ne_nil _ Nat.toDigits_ne_nil]
      exact ih (n / 10) (by omega) (by omega)

theorem below?_toDigits {b n : Nat} (hone : 1 < b) (hbase : b ≤ 16) (hn : n < 2 ^ 64) :
    Numeral.below? b 0x10000000000000000 (Nat.toDigits b n) = some n := by
  have hdigits := Numeral.digits?_toDigits hone hbase n
  have hsign : ∀ c ∈ Nat.toDigits b n, isAlphanumeric c = true := fun _ hc =>
    isAlphanumeric_of_mem_toDigits hone hbase hc
  obtain ⟨c, r, hcr⟩ := List.exists_cons_of_ne_nil (Nat.toDigits_ne_nil (n := n) (b := b))
  rw [hcr] at hdigits hsign ⊢
  unfold Numeral.below?
  split
  · -- no digit is a sign
    rename_i heq
    cases heq
    exact absurd (hsign '+' List.mem_cons_self) (by decide)
  · show (Numeral.digits? b 0 (c :: r)).filter _ = _
    rw [hdigits]
    exact if_pos (decide_eq_true hn)

/-- A numeral starts with a digit. -/
theorem exists_spell_eq_cons (radix : Radix) (n : Nat) :
    ∃ c r, radix.spell n = c :: r ∧ Text.isDigit c = true := by
  cases radix with
  | decimal =>
      obtain ⟨c, r, hcr⟩ := List.exists_cons_of_ne_nil (Nat.toDigits_ne_nil (n := n) (b := 10))
      have hc : c ∈ Nat.toDigits 10 n := by
        rw [hcr]
        exact List.mem_cons_self
      exact ⟨c, r, hcr, isDigit_of_mem_toDigits (by decide) (by decide) hc⟩
  | octal => exact ⟨'0', _, rfl, rfl⟩
  | hexadecimal => exact ⟨'0', _, rfl, rfl⟩

theorem isAlphanumeric_of_mem_spell {radix : Radix} {n : Nat} {c : Char} (hc : c ∈ radix.spell n) :
    isAlphanumeric c = true := by
  have hdigits : ∀ {base}, 1 < base → base ≤ 16 → c ∈ Nat.toDigits base n →
      isAlphanumeric c = true := fun hone hbase => isAlphanumeric_of_mem_toDigits hone hbase
  cases radix with
  | decimal => exact hdigits (by decide) (by decide) hc
  | octal =>
      rcases List.mem_cons.mp hc with rfl | hc
      · rfl
      · exact hdigits (by decide) (by decide) hc
  | hexadecimal =>
      rcases List.mem_cons.mp hc with rfl | hc
      · rfl
      · rcases List.mem_cons.mp hc with rfl | hc
        · rfl
        · exact hdigits (by decide) (by decide) hc

theorem number?_decimal {c : Char} {r : Text} (hc : Text.isDigit c = true) (hzero : c ≠ '0') :
    number? (c :: r) = (Numeral.below? 10 0x10000000000000000 (c :: r)).map Int64.ofNat := by
  have hminus : c ≠ '-' := by
    rintro rfl
    exact absurd hc (by decide)
  have hplus : c ≠ '+' := by
    rintro rfl
    exact absurd hc (by decide)
  simp [number?, hminus, hplus, hzero]

theorem number?_octal {c : Char} {r : Text} (hc : Text.isDigit c = true) :
    number? ('0' :: c :: r) = (Numeral.below? 8 0x10000000000000000 (c :: r)).map Int64.ofNat := by
  have hsmall : c ≠ 'x' := by
    rintro rfl
    exact absurd hc (by decide)
  have hcapital : c ≠ 'X' := by
    rintro rfl
    exact absurd hc (by decide)
  simp [number?, *]

/-- A numeral is read as the number it spells. -/
theorem number?_spell (radix : Radix) {n : Nat} (hn : n < 2 ^ 64) :
    number? (radix.spell n) = some (Int64.ofNat n) := by
  cases radix with
  | decimal =>
      rcases Nat.eq_zero_or_pos n with rfl | hpos
      · rfl
      · obtain ⟨c, r, hcr, hc⟩ := exists_spell_eq_cons .decimal n
        have hzero : c ≠ '0' := by
          rintro rfl
          exact head?_toDigits_ten hpos (congrArg List.head? hcr)
        rw [hcr, number?_decimal hc hzero, ← hcr]
        exact congrArg _ (below?_toDigits (by decide) (by decide) hn)
  | octal =>
      have hbelow := below?_toDigits (b := 8) (by decide) (by decide) hn
      obtain ⟨c, r, hcr⟩ := List.exists_cons_of_ne_nil (Nat.toDigits_ne_nil (n := n) (b := 8))
      have hc : c ∈ Nat.toDigits 8 n := by
        rw [hcr]
        exact List.mem_cons_self
      show number? ('0' :: Nat.toDigits 8 n) = _
      rw [hcr, number?_octal (isDigit_of_mem_toDigits (by decide) (by decide) hc), ← hcr, hbelow]
      rfl
  | hexadecimal =>
      have hbelow := below?_toDigits (b := 16) (by decide) (by decide) hn
      simp [number?, Radix.spell, hbelow]

/-! ## Where a word ends -/

theorem not_isSpace_of_isNameChar {c : Char} (h : Text.isNameChar c = true) :
    Text.isSpace c = false := by
  simp [Text.isNameChar, Text.isNameStart, Text.isLetter, Text.isDigit, Text.isSpace, Char.le_def,
    UInt32.le_iff_toNat_le] at h ⊢
  rcases h with ((hsmall | hcapital) | rfl) | hdigit
  · omega
  · omega
  · decide
  · omega

theorem not_isDigit_of_isNameStart {c : Char} (h : Text.isNameStart c = true) :
    Text.isDigit c = false := by
  simp [Text.isNameStart, Text.isLetter, Text.isDigit, Char.le_def, UInt32.le_iff_toNat_le] at h ⊢
  rcases h with (hsmall | hcapital) | rfl
  · omega
  · omega
  · decide

theorem isNameChar_of_isAlphanumeric {c : Char} (h : isAlphanumeric c = true) :
    Text.isNameChar c = true := by
  rcases Bool.or_eq_true_iff.mp h with h | h
  · simp [Text.isNameChar, Text.isNameStart, h]
  · simp [Text.isNameChar, h]

/-- Characters that no white space is among are a word up to a text apart from it. -/
theorem span_append {p : Char → Bool} {w t : Text} (hw : ∀ c ∈ w, p c = true) (ht : Apart t)
    (hp : ∀ c, p c = true → Text.isNameChar c = true) :
    (w ++ t).takeWhile p = w ∧ (w ++ t).dropWhile p = t := by
  have hstop : ∀ c ∈ t.head?, p c = false := by
    intro c hc
    by_contra hne
    have hspace := not_isSpace_of_isNameChar (hp c (Bool.not_eq_false _ ▸ hne))
    exact absurd (ht c hc) (by simp [hspace])
  rw [List.takeWhile_append_of_pos hw, List.dropWhile_append_of_pos hw]
  cases t with
  | nil => simp
  | cons c t => simp [hstop c rfl]

/-- Whether a mark is found before white space depends on the characters before it only. -/
theorem isSome_dropPrefix?_append {o w t : Text} (ho : ∀ c ∈ o, Text.isSpace c = false)
    (ht : Apart t) : (Text.dropPrefix? o (w ++ t)).isSome = o.isPrefixOf w := by
  induction o generalizing w with
  | nil => cases w <;> rfl
  | cons p ps ih =>
    have hps := fun w => @ih w (fun c hc => ho c (List.mem_cons_of_mem p hc))
    cases w with
    | nil =>
        cases t with
        | nil => rfl
        | cons c t =>
            have hne : p ≠ c := by
              rintro rfl
              exact absurd (ht p rfl) (by simp [ho p List.mem_cons_self])
            simp [Text.dropPrefix?, hne]
    | cons c w =>
        by_cases hpc : p = c
        · simpa [Text.dropPrefix?, hpc] using hps w
        · simp [Text.dropPrefix?, List.isPrefixOf, hpc]

/-- An operator before white space is the first one that fits. -/
theorem find?_operators {o t : Text} (ho : o ∈ operators) (ht : Apart t) :
    operators.find? (fun p => (Text.dropPrefix? p (o ++ t)).isSome) = some o := by
  have hspace : (operators.all fun p => p.all fun c => !Text.isSpace c) = true := by decide
  have hfirst : ∀ o ∈ operators, operators.find? (·.isPrefixOf o) = some o := by decide
  rw [← hfirst o ho]
  apply List.find?_congr
  intro p hp
  have hp' : ∀ c ∈ p, Text.isSpace c = false := by
    simpa using List.all_eq_true.mp hspace p hp
  exact isSome_dropPrefix?_append hp' ht

/-! ## Cutting -/

/-- A character that starts an operator, with what follows it in the operator, starts nothing else. -/
theorem operator_head {o : Text} (ho : o ∈ operators) :
    ∃ c r, o = c :: r ∧ Text.isNameChar c = false ∧ Text.isSpace c = false ∧ c ≠ '(' ∧ c ≠ ')' ∧
      (c = '=' → r.head? = some '=') := by
  have hall : (operators.all fun o => o.head?.any fun c => !Text.isNameChar c && !Text.isSpace c &&
      c != '(' && c != ')' && (c != '=' || o.tail.head? == some '=')) = true := by decide
  have h := List.all_eq_true.mp hall o ho
  cases o with
  | nil => exact nomatch h
  | cons c r =>
      refine ⟨c, r, rfl, ?_⟩
      simpa [and_assoc, or_iff_not_imp_left] using h

theorem firstToken_operator {o t : Text} (ho : o ∈ operators) (ht : Apart t) :
    ∃ c r, o = c :: r ∧ Text.isSpace c = false ∧ firstToken c (r ++ t) = .ok (.op o, t) := by
  have hfind := find?_operators ho ht
  obtain ⟨c, r, rfl, hname, hspace, hopen, hclose, heq⟩ := operator_head ho
  refine ⟨c, r, rfl, hspace, ?_⟩
  have hstart : Text.isDigit c = false ∧ Text.isNameStart c = false := by
    simpa [Text.isNameChar, and_comm] using hname
  -- the one operator that starts with `=` has another one after it
  have hnone : ¬(c = '(' || c = ')' || (c = '=' && (r ++ t).head? ≠ some '=')) = true := by
    by_cases hc : c = '='
    · simp [hc, List.head?_append, heq hc]
    · simp [hc, hopen, hclose]
  have hfind' : operators.find? (fun p => (Text.dropPrefix? p (c :: (r ++ t))).isSome) =
      some (c :: r) := hfind
  unfold firstToken
  rw [if_neg (by simp [hstart]), if_neg (by simp [hstart]), if_neg hnone, hfind']
  simp

/-- A word before white space is cut off as its token. -/
theorem firstToken_word (w : Word) {t : Text} (ht : Apart t) :
    ∃ c r, w.text = c :: r ∧ Text.isSpace c = false ∧
      firstToken c (r ++ t) = .ok (w.token, t) := by
  cases w with
  | numeral radix n =>
      obtain ⟨c, r, hcr, hc⟩ := exists_spell_eq_cons radix n.val
      obtain ⟨htake, hdrop⟩ := span_append (fun _ => isAlphanumeric_of_mem_spell) ht
        (fun _ => isNameChar_of_isAlphanumeric) (w := radix.spell n.val)
      have hread := number?_spell radix n.isLt
      have halpha : isAlphanumeric c = true := by simp [isAlphanumeric, hc]
      refine ⟨c, r, hcr, not_isSpace_of_isNameChar (isNameChar_of_isAlphanumeric halpha), ?_⟩
      rw [hcr, List.cons_append] at htake hdrop
      rw [hcr] at hread
      rw [List.dropWhile_cons_of_pos halpha] at hdrop
      simp [firstToken, hc, htake, hdrop, hread, Word.token]
  | name x =>
      obtain ⟨x, hx⟩ := x
      cases x with
      | nil => exact absurd hx (by decide)
      | cons c x =>
          obtain ⟨hc, hx⟩ := Bool.and_eq_true_iff.mp hx
          have hdigit := not_isDigit_of_isNameStart hc
          have hname : Text.isNameChar c = true := by simp [Text.isNameChar, hc]
          have hall : ∀ d ∈ c :: x, Text.isNameChar d = true := by
            simpa [hname] using hx
          obtain ⟨htake, hdrop⟩ := span_append hall ht (fun _ h => h)
          refine ⟨c, x, rfl, not_isSpace_of_isNameChar hname, ?_⟩
          rw [List.cons_append] at htake hdrop
          rw [List.dropWhile_cons_of_pos hname] at hdrop
          simp [firstToken, hdigit, hc, htake, hdrop, Word.token]
  | mark o =>
      obtain ⟨o, ho⟩ := o
      rcases List.mem_cons.mp ho with rfl | ho
      · exact ⟨'(', [], rfl, rfl, rfl⟩
      rcases List.mem_cons.mp ho with rfl | ho
      · exact ⟨')', [], rfl, rfl, rfl⟩
      rcases List.mem_cons.mp ho with rfl | ho
      · have hhead : t.head? ≠ some '=' := by
          intro heq
          exact absurd (ht '=' heq) (by decide)
        have hstart : Text.isDigit '=' = false ∧ Text.isNameStart '=' = false := ⟨rfl, rfl⟩
        exact ⟨'=', [], rfl, rfl, by simp [firstToken, hhead, hstart, Word.token]⟩
      · exact firstToken_operator ho ht

/-- Cutting up a text gives back the words that it spells. -/
theorem tokensWithin_spaced {ws : List Word} {t : Text} (h : Spaced ws t) :
    ∀ n > t.length, tokensWithin n t = .ok (ws.map Word.token) := by
  induction h with
  | nil =>
      intro n hn
      obtain ⟨n, rfl⟩ := Nat.exists_eq_succ_of_ne_zero (Nat.ne_of_gt hn)
      rfl
  | space hc h ih =>
      intro n hn
      obtain ⟨n, rfl⟩ := Nat.exists_eq_succ_of_ne_zero (Nat.ne_of_gt (Nat.zero_lt_of_lt hn))
      rw [tokensWithin, if_pos hc]
      exact ih n (by simpa using hn)
  | word w ht h ih =>
      intro n hn
      obtain ⟨n, rfl⟩ := Nat.exists_eq_succ_of_ne_zero (Nat.ne_of_gt (Nat.zero_lt_of_lt hn))
      obtain ⟨c, r, hcr, hspace, hfirst⟩ := firstToken_word w ht
      rw [hcr, List.cons_append] at hn ⊢
      rw [List.length_cons, List.length_append] at hn
      simp only [tokensWithin, hspace, hfirst, Bool.false_eq_true, if_false, ih n (by omega)]
      rfl

theorem tokens_spaced {ws : List Word} {t : Text} (h : Spaced ws t) :
    tokens t = .ok (ws.map Word.token) :=
  tokensWithin_spaced h _ (Nat.lt_succ_self _)

end CommandShell.Arith
