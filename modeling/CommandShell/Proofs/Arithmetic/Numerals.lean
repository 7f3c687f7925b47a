import Mathlib.Data.List.Forall2
import Mathlib.Data.Nat.Digits.Defs
import CommandShell.Arith.Expr

/-!
# Numerals in variables

The value of a variable counts as a number if it spells one: after an optional sign hexadecimal digits
behind `0x`, octal digits behind `0`, or decimal digits. `Arith.Spells` says this without the reader, with
the value modulo `2 ^ 64`.

`number?` reads these texts as their values and refuses all others, apart from texts with one more `+`
right before their first digit (`number_iff_spells`). It reads those as well, so that `++5` is 5
(`not_number_iff_spells`).
-/

namespace CommandShell

namespace Numeral

/-! ## Digits -/

/-- The character is the digit `d` of the base, small or capital. -/
def IsDigit (base d : Nat) (c : Char) : Prop := d < base ∧ (c = d.digitChar ∨ c = d.digitChar.toUpper)

/-- The text is one or more digits of the base, and they make the number `m`. -/
def Digits (base : Nat) (t : Text) (m : Nat) : Prop :=
  t ≠ [] ∧ ∃ ds, List.Forall₂ (IsDigit base) ds t ∧ Nat.ofDigits base ds.reverse = m

section

variable {base d m : Nat} {c : Char} {t : Text}

theorem isDigit_of_digit? (h : digit? base c = some d) (hbase : base ≤ 16) : IsDigit base d c := by
  have hlt : d < base := by
    have hfilter := (Option.filter_eq_some_iff.mp h).2
    simpa using hfilter
  -- a digit in any base is one of few characters, which are looked at one by one
  have hnat : c.toNat < 123 := by
    simp only [digit?] at h
    split_ifs at h with hdec hlow hcap
    · have hle := (Bool.and_eq_true_iff.mp hdec).2
      exact Nat.lt_of_le_of_lt (Char.le_def.mp (of_decide_eq_true hle)) (by decide)
    · have hle := (Bool.and_eq_true_iff.mp hlow).2
      exact Nat.lt_of_le_of_lt (Char.le_def.mp (of_decide_eq_true hle)) (by decide)
    · have hle := (Bool.and_eq_true_iff.mp hcap).2
      exact Nat.lt_of_le_of_lt (Char.le_def.mp (of_decide_eq_true hle)) (by decide)
    · cases h
  have hhex : digit? 16 c = some d := by
    obtain ⟨hvalue, -⟩ := Option.filter_eq_some_iff.mp h
    exact Option.filter_eq_some_iff.mpr ⟨hvalue, by simpa using Nat.lt_of_lt_of_le hlt hbase⟩
  have hall : ∀ n < 123, ∀ e < 16, digit? 16 (Char.ofNat n) = some e →
      Char.ofNat n = e.digitChar ∨ Char.ofNat n = e.digitChar.toUpper := by decide +kernel
  have hchar := hall c.toNat hnat d (Nat.lt_of_lt_of_le hlt hbase)
  rw [Char.ofNat_toNat] at hchar
  exact ⟨hlt, hchar hhex⟩

theorem digit?_eq_some_iff (hbase : base ≤ 16) : digit? base c = some d ↔ IsDigit base d c := by
  constructor
  · intro h
    exact isDigit_of_digit? h hbase
  · rintro ⟨hlt, hchar⟩
    have hall : ∀ b ≤ 16, ∀ e < b, digit? b e.digitChar = some e ∧
        digit? b e.digitChar.toUpper = some e := by decide +kernel
    obtain ⟨hsmall, hcapital⟩ := hall base hbase d hlt
    rcases hchar with rfl | rfl
    · exact hsmall
    · exact hcapital

/-- Digits are added from the left on. -/
theorem digits?_eq_some_iff (hbase : base ≤ 16) (acc : Nat) : digits? base acc t = some m ↔
    ∃ ds, List.Forall₂ (IsDigit base) ds t ∧ ds.foldl (fun n d => n * base + d) acc = m := by
  induction t generalizing acc with
  | nil => simp [digits?]
  | cons c t ih =>
      simp only [digits?, Option.bind_eq_some_iff, digit?_eq_some_iff hbase, ih,
        List.forall₂_cons_right_iff]
      constructor
      · rintro ⟨d, hd, ds, hds, hvalue⟩
        exact ⟨d :: ds, ⟨d, ds, hd, hds, rfl⟩, hvalue⟩
      · rintro ⟨_, ⟨d, ds, hd, hds, rfl⟩, hvalue⟩
        exact ⟨d, hd, ds, hds, hvalue⟩

theorem foldl_eq_ofDigits (base : Nat) (ds : List Nat) :
    ds.foldl (fun n d => n * base + d) 0 = Nat.ofDigits base ds.reverse := by
  rw [Nat.ofDigits_eq_foldr, List.foldr_reverse]
  congr 1
  funext n d
  simp [Nat.add_comm, Nat.mul_comm]

theorem unsigned?_eq_some_iff (hbase : base ≤ 16) : unsigned? base t = some m ↔ Digits base t m := by
  cases t with
  | nil => simp [unsigned?, Digits]
  | cons c t =>
      simp only [unsigned?, digits?_eq_some_iff hbase, foldl_eq_ofDigits, Digits, ne_eq,
        List.cons_ne_nil, not_false_eq_true, true_and]

/-- A digit of a base up to 16 is no sign. -/
theorem IsDigit.ne_plus (hbase : base ≤ 16) (h : IsDigit base d c) : c ≠ '+' := by
  have hall : ∀ e < 16, e.digitChar ≠ '+' ∧ e.digitChar.toUpper ≠ '+' := by decide
  obtain ⟨hsmall, hcapital⟩ := hall d (Nat.lt_of_lt_of_le h.1 hbase)
  rcases h.2 with rfl | rfl
  · exact hsmall
  · exact hcapital

theorem Digits.exists_isDigit (h : Digits base t m) (hc : c ∈ t) : ∃ d, IsDigit base d c := by
  obtain ⟨-, ds, hds, -⟩ := h
  obtain ⟨i, hi, rfl⟩ := List.getElem_of_mem hc
  have hlength := hds.length_eq
  exact ⟨ds[i], (List.forall₂_iff_get.mp hds).2 i (by omega) hi⟩

theorem Digits.not_mem_plus (hbase : base ≤ 16) (h : Digits base t m) : '+' ∉ t := by
  intro hplus
  obtain ⟨d, hd⟩ := h.exists_isDigit hplus
  exact hd.ne_plus hbase rfl

/-- A `+` before the digits is read over. -/
theorem below?_eq_some_iff (hbase : base ≤ 16) (bound : Nat) : below? base bound t = some m ↔
    m < bound ∧ (Digits base t m ∨ ∃ r, t = '+' :: r ∧ Digits base r m) := by
  have hread : ∀ u, (unsigned? base u).filter (· < bound) = some m ↔ m < bound ∧ Digits base u m := by
    intro u
    rw [Option.filter_eq_some_iff, unsigned?_eq_some_iff hbase, decide_eq_true_eq, and_comm]
  simp only [below?]
  split
  next r =>
    have hnot : ¬ Digits base ('+' :: r) m := fun h => h.not_mem_plus hbase List.mem_cons_self
    simp [hread, hnot]
  next hplus =>
    have hnot : ¬ ∃ r, t = '+' :: r ∧ Digits base r m := fun ⟨r, hr, _⟩ => hplus r hr
    simp [hread, hnot]

end

end Numeral

namespace Arith

open Numeral (Digits IsDigit)

/-! ## Numerals without a sign -/

/-- The text is a numeral without a sign and means `m`. -/
inductive Magnitude : Text → Nat → Prop
  | hexadecimal {x : Char} {t : Text} {m : Nat} : x = 'x' ∨ x = 'X' → Digits 16 t m →
    Magnitude ('0' :: x :: t) m
  | octal {t : Text} {m : Nat} : Digits 8 t m → Magnitude ('0' :: t) m
  | decimal {t : Text} {m : Nat} : Digits 10 t m → (t.head? = some '0' → t = ['0']) → Magnitude t m

/-- The same with a `+` before the digits. A decimal numeral may start with 0 then. -/
inductive MagnitudeAfterPlus : Text → Nat → Prop
  | hexadecimal {x : Char} {t : Text} {m : Nat} : x = 'x' ∨ x = 'X' → Digits 16 t m →
    MagnitudeAfterPlus ('0' :: x :: '+' :: t) m
  | octal {t : Text} {m : Nat} : Digits 8 t m → MagnitudeAfterPlus ('0' :: '+' :: t) m
  | decimal {t : Text} {m : Nat} : Digits 10 t m → MagnitudeAfterPlus ('+' :: t) m

/-- The number that a numeral without a sign means, if it fits into 64 bits. -/
def magnitude? : Text → Option Nat
  | '0' :: 'x' :: r | '0' :: 'X' :: r => Numeral.below? 16 0x10000000000000000 r
  | '0' :: c :: r => Numeral.below? 8 0x10000000000000000 (c :: r)
  | t => Numeral.below? 10 0x10000000000000000 t

section

variable {t u : Text} {m : Nat}

theorem Magnitude.not_mem_plus (h : Magnitude t m) : '+' ∉ t := by
  cases h with
  | hexadecimal hx h =>
      have hdigits := h.not_mem_plus (by decide)
      rcases hx with rfl | rfl
      · simpa using hdigits
      · simpa using hdigits
  | octal h => simpa using h.not_mem_plus (by decide)
  | decimal h _ => exact h.not_mem_plus (by decide)

theorem Magnitude.ne_nil (h : Magnitude t m) : t ≠ [] := by
  cases h with
  | hexadecimal => simp
  | octal => simp
  | decimal h _ => exact h.1

/-- A digit below 8 does not mark a hexadecimal numeral. -/
theorem not_digits_of_mark {x : Char} (hx : x = 'x' ∨ x = 'X') : ¬ Digits 8 (x :: t) m := by
  intro h
  obtain ⟨d, hd, hchar⟩ := h.exists_isDigit List.mem_cons_self
  have hall : ∀ e < 8, ¬ (e.digitChar = 'x' ∨ e.digitChar = 'X') ∧
      ¬ (e.digitChar.toUpper = 'x' ∨ e.digitChar.toUpper = 'X') := by decide
  obtain ⟨hsmall, hcapital⟩ := hall d hd
  rcases hchar with rfl | rfl
  · exact hsmall hx
  · exact hcapital hx

theorem magnitude_hexadecimal_iff {x : Char} (hx : x = 'x' ∨ x = 'X') :
    Magnitude ('0' :: x :: t) m ↔ Digits 16 t m := by
  constructor
  · intro h
    cases h with
    | hexadecimal _ h => exact h
    | octal h => exact absurd h (not_digits_of_mark hx)
    | decimal _ hzero => cases hzero rfl
  · intro h
    exact .hexadecimal hx h

theorem magnitudeAfterPlus_hexadecimal_iff {x : Char} (hx : x = 'x' ∨ x = 'X') :
    MagnitudeAfterPlus ('0' :: x :: t) m ↔ ∃ r, t = '+' :: r ∧ Digits 16 r m := by
  constructor
  · intro h
    cases h with
    | hexadecimal _ h => exact ⟨_, rfl, h⟩
    | octal => simp at hx
  · rintro ⟨r, rfl, h⟩
    exact .hexadecimal hx h

theorem magnitude_octal_iff {c : Char} (hx : c ≠ 'x') (hX : c ≠ 'X') :
    Magnitude ('0' :: c :: t) m ↔ Digits 8 (c :: t) m := by
  constructor
  · intro h
    cases h with
    | hexadecimal hc _ => exact absurd hc (by simp [hx, hX])
    | octal h => exact h
    | decimal _ hzero => cases hzero rfl
  · intro h
    exact .octal h

theorem magnitudeAfterPlus_octal_iff {c : Char} (hx : c ≠ 'x') (hX : c ≠ 'X') :
    MagnitudeAfterPlus ('0' :: c :: t) m ↔ ∃ r, c :: t = '+' :: r ∧ Digits 8 r m := by
  constructor
  · intro h
    cases h with
    | hexadecimal hc _ => exact absurd hc (by simp [hx, hX])
    | octal h => exact ⟨_, rfl, h⟩
  · rintro ⟨r, hr, h⟩
    rw [hr]
    exact .octal h

theorem magnitude_decimal_iff (h : ∀ c r, t ≠ '0' :: c :: r) : Magnitude t m ↔ Digits 10 t m := by
  constructor
  · intro hm
    cases hm with
    | hexadecimal => exact absurd rfl (h _ _)
    | octal hdigits =>
        obtain ⟨c, r, rfl⟩ := List.exists_cons_of_ne_nil hdigits.1
        exact absurd rfl (h _ _)
    | decimal hdigits _ => exact hdigits
  · intro hdigits
    refine .decimal hdigits fun hzero => ?_
    obtain ⟨r, rfl⟩ := List.head?_eq_some_iff.mp hzero
    cases r with
    | nil => rfl
    | cons c r => exact absurd rfl (h c r)

theorem magnitudeAfterPlus_decimal_iff (h : ∀ c r, t ≠ '0' :: c :: r) :
    MagnitudeAfterPlus t m ↔ ∃ r, t = '+' :: r ∧ Digits 10 r m := by
  constructor
  · intro hm
    cases hm with
    | hexadecimal => exact absurd rfl (h _ _)
    | octal => exact absurd rfl (h _ _)
    | decimal hdigits => exact ⟨_, rfl, hdigits⟩
  · rintro ⟨r, rfl, hdigits⟩
    exact .decimal hdigits

theorem magnitude?_eq_some_iff (t : Text) (m : Nat) : magnitude? t = some m ↔
    m < 2 ^ 64 ∧ (Magnitude t m ∨ MagnitudeAfterPlus t m) := by
  -- the cases are those of the reader: two marks of a hexadecimal numeral, octal, decimal
  unfold magnitude?
  split
  next r =>
    rw [Numeral.below?_eq_some_iff (by decide), magnitude_hexadecimal_iff (.inl rfl),
      magnitudeAfterPlus_hexadecimal_iff (.inl rfl)]
    exact Iff.rfl
  next r =>
    rw [Numeral.below?_eq_some_iff (by decide), magnitude_hexadecimal_iff (.inr rfl),
      magnitudeAfterPlus_hexadecimal_iff (.inr rfl)]
    exact Iff.rfl
  next c r hx hX =>
    rw [Numeral.below?_eq_some_iff (by decide), magnitude_octal_iff hx hX,
      magnitudeAfterPlus_octal_iff hx hX]
    exact Iff.rfl
  next hx hX hzero =>
    rw [Numeral.below?_eq_some_iff (by decide), magnitude_decimal_iff hzero,
      magnitudeAfterPlus_decimal_iff hzero]
    exact Iff.rfl

/-! ## Numerals with a sign -/

/-- The text is an optional sign, which may be `-`, and what follows it. -/
inductive Signed : Text → Bool → Text → Prop
  | minus (t : Text) : Signed ('-' :: t) true t
  | plus (t : Text) : Signed ('+' :: t) false t
  | none {t : Text} : t.head? ≠ some '-' → t.head? ≠ some '+' → Signed t false t

/-- The text spells the number: its magnitude, told by `M`, fits into 64 bits, and with its sign it is
the number modulo `2 ^ 64`. -/
def Spells (M : Text → Nat → Prop) (t : Text) (n : Value) : Prop :=
  ∃ negative u m, Signed t negative u ∧ M u m ∧ m < 2 ^ 64 ∧
    n.toInt = Numeral.wrap64 (if negative then -(m : Int) else m)

theorem toInt_ofMagnitude (m : Nat) : (Int64.ofNat m).toInt = Numeral.wrap64 m :=
  Int64.toInt_ofNat'

theorem toInt_negMagnitude (m : Nat) : (-Int64.ofNat m).toInt = Numeral.wrap64 (-m) := by
  rw [Int64.toInt_neg, toInt_ofMagnitude]
  exact Int.bmod_neg_bmod

/-- Reading takes the sign off and reads the rest. -/
theorem number?_of_signed {negative : Bool} (hsign : Signed t negative u) : number? t =
    (magnitude? u).map fun m => if negative then -(Int64.ofNat m) else Int64.ofNat m := by
  cases hsign with
  | minus => rfl
  | plus => rfl
  | none hminus hplus =>
      cases t with
      | nil => rfl
      | cons c r =>
          simp only [number?]
          split
          next heq => exact absurd (congrArg List.head? heq) hminus
          next heq => exact absurd (congrArg List.head? heq) hplus
          next => rfl

theorem exists_signed (t : Text) : ∃ negative u, Signed t negative u := by
  by_cases hminus : t.head? = some '-'
  · obtain ⟨u, rfl⟩ := List.head?_eq_some_iff.mp hminus
    exact ⟨true, u, .minus u⟩
  · by_cases hplus : t.head? = some '+'
    · obtain ⟨u, rfl⟩ := List.head?_eq_some_iff.mp hplus
      exact ⟨false, u, .plus u⟩
    · exact ⟨false, t, .none hminus hplus⟩

/-- A text has one sign at most. -/
theorem Signed.unique {a b : Bool} {v : Text} (h : Signed t a u) (h' : Signed t b v) : a = b ∧ u = v := by
  cases h with
  | minus =>
      cases h' with
      | minus => exact ⟨rfl, rfl⟩
      | none hminus _ => exact absurd rfl hminus
  | plus =>
      cases h' with
      | plus => exact ⟨rfl, rfl⟩
      | none _ hplus => exact absurd rfl hplus
  | none hminus hplus =>
      cases h' with
      | minus => exact absurd rfl hminus
      | plus => exact absurd rfl hplus
      | none => exact ⟨rfl, rfl⟩

theorem Spells.or {M M' : Text → Nat → Prop} {n : Value} :
    Spells (fun t m => M t m ∨ M' t m) t n ↔ Spells M t n ∨ Spells M' t n := by
  constructor
  · rintro ⟨negative, u, m, hsign, hm | hm, hvalue⟩
    · exact .inl ⟨negative, u, m, hsign, hm, hvalue⟩
    · exact .inr ⟨negative, u, m, hsign, hm, hvalue⟩
  · rintro (⟨negative, u, m, hsign, hm, hvalue⟩ | ⟨negative, u, m, hsign, hm, hvalue⟩)
    · exact ⟨negative, u, m, hsign, .inl hm, hvalue⟩
    · exact ⟨negative, u, m, hsign, .inr hm, hvalue⟩

/-- What is read is what the text spells, with or without a `+` before its digits. -/
theorem number?_spells (t : Text) (n : Value) : number? t = some n ↔
    Spells Magnitude t n ∨ Spells MagnitudeAfterPlus t n := by
  obtain ⟨negative, u, hsign⟩ := exists_signed t
  have hvalue : ∀ m : Nat, (if negative then -(Int64.ofNat m) else Int64.ofNat m) = n ↔
      n.toInt = Numeral.wrap64 (if negative then -(m : Int) else m) := by
    intro m
    rw [← Int64.toInt_inj]
    cases negative with
    | true => simp only [if_true, toInt_negMagnitude, eq_comm]
    | false => simp only [Bool.false_eq_true, if_false, toInt_ofMagnitude, eq_comm]
  simp only [number?_of_signed hsign, Option.map_eq_some_iff, magnitude?_eq_some_iff, hvalue,
    ← Spells.or]
  constructor
  · rintro ⟨m, ⟨hm, hu⟩, hn⟩
    exact ⟨negative, u, m, hsign, hu, hm, hn⟩
  · rintro ⟨negative', u', m, hsign', hu, hm, hn⟩
    obtain ⟨rfl, rfl⟩ := hsign.unique hsign'
    exact ⟨m, ⟨hm, hu⟩, hn⟩

/-- A text with a numeral has no `+` but a sign at its start. -/
theorem Spells.not_mem_tail {n : Value} (h : Spells Magnitude t n) : '+' ∉ t.tail := by
  obtain ⟨negative, u, m, hsign, hu, -⟩ := h
  have hplus := hu.not_mem_plus
  cases hsign with
  | minus => exact hplus
  | plus => exact hplus
  | none =>
      intro hmem
      exact hplus (List.mem_of_mem_tail hmem)

theorem Spells.mem_tail {n : Value} (h : Spells MagnitudeAfterPlus t n) : '+' ∈ t.tail := by
  obtain ⟨negative, u, m, hsign, hu, -⟩ := h
  have hplus : '+' ∈ u := by
    cases hu with
    | hexadecimal => simp
    | octal => simp
    | decimal => simp
  cases hsign with
  | minus => exact hplus
  | plus => exact hplus
  | none _ hhead =>
      cases hu with
      | hexadecimal => simp
      | octal => simp
      | decimal => exact absurd rfl hhead

/-- A text is read as a number if it spells the number, or does so but for a `+` right before its digits.
Without a `+` behind its start it is read just if it spells a number, and as this one. -/
theorem number_iff_spells (t : Text) (n : Value) :
    (number? t = some n ↔ Spells Magnitude t n ∨ Spells MagnitudeAfterPlus t n) ∧
      ('+' ∉ t.tail → (number? t = some n ↔ Spells Magnitude t n)) := by
  refine ⟨number?_spells t n, fun hplus => ?_⟩
  rw [number?_spells]
  constructor
  · rintro (h | h)
    · exact h
    · exact absurd h.mem_tail hplus
  · intro h
    exact .inl h

/-- The least number, with both marks and a capital digit, and a text that spells none. -/
theorem number_iff_spells_least :
    ('+' ∉ "-0X8000000000000000".toList.tail ∧ Spells Magnitude "-0X8000000000000000" Int64.minValue) ∧
      '+' ∉ "0x".toList.tail ∧ ∀ n, ¬ Spells Magnitude "0x" n := by
  have hleast : '+' ∉ "-0X8000000000000000".toList.tail := by decide
  have hnone : '+' ∉ "0x".toList.tail := by decide
  refine ⟨⟨hleast, ?_⟩, hnone, fun n h => ?_⟩
  · exact ((number_iff_spells "-0X8000000000000000" Int64.minValue).2 hleast).mp (by decide)
  · have hread := ((number_iff_spells "0x" n).2 hnone).mpr h
    cases hread

/-- One more `+` is read over, behind a sign or the mark of a base; a 0 behind it marks no base. -/
theorem not_number_iff_spells :
    (¬ ∀ n, number? "++5" = some n ↔ Spells Magnitude "++5" n) ∧
      (¬ ∀ n, number? "-+5" = some n ↔ Spells Magnitude "-+5" n) ∧
        (¬ ∀ n, number? "0x+5" = some n ↔ Spells Magnitude "0x+5" n) ∧
          (¬ ∀ n, number? "0+7" = some n ↔ Spells Magnitude "0+7" n) ∧
            ¬ ∀ n, number? "++010" = some n ↔ Spells Magnitude "++010" n := by
  have hnot : ∀ {t : Text} {n : Value}, number? t = some n → '+' ∈ t.tail →
      ¬ ∀ n, number? t = some n ↔ Spells Magnitude t n :=
    fun {_ n} hread hplus h => ((h n).mp hread).not_mem_tail hplus
  refine ⟨hnot (n := 5) ?_ ?_, hnot (n := -5) ?_ ?_, hnot (n := 5) ?_ ?_, hnot (n := 7) ?_ ?_,
    hnot (n := 10) ?_ ?_⟩
  all_goals decide

end

end Arith

end CommandShell
