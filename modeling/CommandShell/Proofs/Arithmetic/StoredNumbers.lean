import CommandShell.Proofs.Arithmetic.Numerals
import CommandShell.Proofs.Arithmetic.Precedence
import CommandShell.Proofs.Lockstep.Expansion
import CommandShell.Proofs.ReadOnly

/-!
# Numbers kept in variables

An assignment of the arithmetic keeps its number in a variable as a signed decimal numeral. There are
two ways back from the numeral to a number. A name in an expression stands for the number that
`number?` reads from the value, sign and all. Where the value stands in the text of an expression, the
sign is an operator before a numeral without one.

Both ways lead back to the number that was kept (`numbers_kept`), to the least one too, whose numeral
without the sign is no signed number of 64 bits.
-/

namespace CommandShell.Arith

/-! ## The numeral of a number -/

/-- A number is written as a numeral below `2 ^ 64`, with a sign before it if it is negative. -/
theorem exists_numeral (v : Value) : ∃ n : Fin (2 ^ 64),
    (Text.ofInt v.toInt = Radix.decimal.spell n ∧ v = Int64.ofNat n) ∨
      (Text.ofInt v.toInt = '-' :: Radix.decimal.spell n ∧ v = -Int64.ofNat n) := by
  have hlow : -(2 ^ 63) ≤ v.toInt := v.le_toInt
  have hhigh : v.toInt < 2 ^ 63 := v.toInt_lt
  cases hv : v.toInt with
  | ofNat n =>
      have hn : n < 2 ^ 63 := by
        rw [hv] at hhigh
        exact Int.ofNat_lt.mp hhigh
      refine ⟨⟨n, by omega⟩, .inl ⟨rfl, Int64.toInt_inj.mp ?_⟩⟩
      rw [hv, toInt_ofMagnitude, Numeral.wrap64, Int.bmod_eq_of_le (by simp) (by simpa using hn)]
      rfl
  | negSucc n =>
      have hn : n + 1 ≤ 2 ^ 63 := by
        rw [hv] at hlow
        omega
      refine ⟨⟨n + 1, by omega⟩, .inr ⟨rfl, Int64.toInt_inj.mp ?_⟩⟩
      -- the magnitude of the least number is out of range, and its negation is not
      rw [hv, toInt_negMagnitude, Numeral.wrap64, Int.bmod_eq_of_le (by simp; omega) (by simp; omega)]
      rfl

/-- A sign before a numeral negates it. -/
theorem number?_minus {t : Text} (hminus : t.head? ≠ some '-') (hplus : t.head? ≠ some '+') :
    number? ('-' :: t) = (number? t).map fun n => -n := by
  rw [number?_of_signed (.minus t), number?_of_signed (.none hminus hplus), Option.map_map]
  rfl

theorem head?_spell_ne (radix : Radix) (n : Nat) {sign : Char} (hsign : Text.isDigit sign = false) :
    (radix.spell n).head? ≠ some sign := by
  obtain ⟨c, r, hcr, hc⟩ := exists_spell_eq_cons radix n
  rw [hcr]
  rintro heq
  obtain rfl : c = sign := Option.some.inj heq
  rw [hsign] at hc
  cases hc

/-- The numeral of a number is read as the number. -/
theorem number?_ofInt (v : Value) : number? (Text.ofInt v.toInt) = some v := by
  obtain ⟨n, ⟨hnumeral, hvalue⟩ | ⟨hnumeral, hvalue⟩⟩ := exists_numeral v
  · rw [hnumeral, number?_spell .decimal n.isLt, ← hvalue]
  · rw [hnumeral, number?_minus (head?_spell_ne _ _ rfl) (head?_spell_ne _ _ rfl),
      number?_spell .decimal n.isLt, Option.map_some, ← hvalue]

/-- A numeral has no blanks, and so none at its ends. -/
theorem trim_ofInt (x : Int) : Text.trim (Text.ofInt x) = Text.ofInt x := by
  have hspell : ∀ n : Nat, ∀ c ∈ Radix.decimal.spell n, Text.isSpace c = false := fun _ _ hc =>
    not_isSpace_of_isNameChar (isNameChar_of_isAlphanumeric (isAlphanumeric_of_mem_spell hc))
  have hspace : ∀ c ∈ Text.ofInt x, Text.isSpace c = false := by
    cases x with
    | ofNat n => exact hspell n
    | negSucc n =>
        intro c hc
        rcases List.mem_cons.mp hc with rfl | hc
        · rfl
        · exact hspell (n + 1) c hc
  have hkept : ∀ t : Text, (∀ c ∈ t, Text.isSpace c = false) → t.dropWhile Text.isSpace = t := by
    intro t ht
    cases t with
    | nil => rfl
    | cons c t => rw [List.dropWhile_cons_of_neg (by simp [ht c List.mem_cons_self])]
  rw [Text.trim, Text.trimStart, hkept _ hspace, Text.trimEnd, hkept, List.reverse_reverse]
  intro c hc
  exact hspace c (List.mem_reverse.mp hc)

/-! ## The numeral in an expression -/

theorem spaced_alone (w : Word) : Spaced [w] w.text := by
  have hspaced := Spaced.word w (t := []) nofun .nil
  rwa [List.append_nil] at hspaced

/-- No longer operator than the sign fits what is before a numeral. -/
theorem firstToken_minus {c : Char} (hc : c ≠ '=') (r : Text) :
    firstToken '-' (c :: r) = .ok (.op "-", c :: r) := by
  have hfind : operators.find? (fun op => (Text.dropPrefix? op ('-' :: c :: r)).isSome) =
      some "-" := by
    simp [operators, Text.dropPrefix?, Ne.symm hc]
  rw [firstToken, if_neg (by decide), if_neg (by decide), if_neg (by simp), hfind]
  rfl

theorem tokens_minus (radix : Radix) (n : Fin (2 ^ 64)) :
    tokens ('-' :: radix.spell n) = .ok [.op "-", .number (Int64.ofNat n)] := by
  have hrest : tokens (radix.spell n) = .ok [.number (Int64.ofNat n)] :=
    tokens_spaced (spaced_alone (.numeral radix n))
  obtain ⟨c, r, hcr, hc⟩ := exists_spell_eq_cons radix n
  have hequals : c ≠ '=' := by
    rintro rfl
    exact absurd hc (by decide)
  rw [hcr] at hrest ⊢
  rw [tokens, List.length_cons, tokensWithin, if_neg (by decide), firstToken_minus hequals]
  show (tokens (c :: r)).map _ = _
  rw [hrest]
  rfl

/-- The numeral of a number in an expression stands for the number. -/
theorem evalText_ofInt {σ : Type} (access : Access σ) (v : Value) :
    evalText access (Text.ofInt v.toInt) = pure v := by
  obtain ⟨n, ⟨hnumeral, hvalue⟩ | ⟨hnumeral, hvalue⟩⟩ := exists_numeral v
  · have hparse : parse (Radix.decimal.spell n) = .ok (some (.number (Int64.ofNat n))) :=
      parse_spaced (e := .numeral .decimal n) (spaced_alone (.numeral .decimal n))
    rw [evalText, hnumeral, hparse, hvalue]
    rfl
  · have hparse : parse ('-' :: Radix.decimal.spell n) = .ok (some (.neg (.number (Int64.ofNat n)))) :=
      parse_of_tokens (e := .signed .minus (.numeral .decimal n)) (tokens_minus .decimal n)
    rw [evalText, hnumeral, hparse, hvalue]
    rfl

/-- A name in an expression stands for the number in its variable. -/
theorem evalText_name {σ : Type} (access : Access σ) {x : Text} (hx : Text.isName x = true) :
    evalText access x = readNumber access x := by
  have hparse : parse x = .ok (some (.var x)) :=
    parse_spaced (e := .var ⟨x, hx⟩) (spaced_alone (.name ⟨x, hx⟩))
  rw [evalText, hparse]
  rfl

/-- A variable that has the numeral of a number as its value is read as the number. -/
theorem number_of_read {σ : Type} {access : Access σ} {s : σ} {x : Text} {v : Value}
    (h : access.read s x = some (Text.ofInt v.toInt)) : access.number s x = .ok v := by
  have hne : (Text.ofInt v.toInt).isEmpty = false := by
    obtain ⟨n, ⟨hnumeral, -⟩ | ⟨hnumeral, -⟩⟩ := exists_numeral v
    · obtain ⟨c, r, hcr, -⟩ := exists_spell_eq_cons .decimal n
      rw [hnumeral, hcr]
      rfl
    · rw [hnumeral]
      rfl
  simp only [Access.number, h, trim_ofInt, hne, number?_ofInt, Bool.false_eq_true, if_false]

end CommandShell.Arith

/-! ## Numbers in the variables of a shell -/

namespace CommandShell.Expansion

open Arith (Value evalText readNumber writeNumber)

/-- A name stands for no special parameter. -/
theorem parameter?_of_isName {x : Text} (hx : Text.isName x = true) (s : Shell) :
    parameter? s x = s.value? x := by
  cases x with
  | nil => exact absurd hx (by decide)
  | cons c x =>
      obtain ⟨hc, -⟩ := Bool.and_eq_true_iff.mp hx
      have hdigit : Text.isDigit c = false := Arith.not_isDigit_of_isNameStart hc
      have hspecial : ∀ d, Text.isNameStart d = false → c ≠ d := by
        rintro d hd rfl
        rw [hc] at hd
        cases hd
      simp [parameter?, Text.isDigits, hdigit, hspecial '#' (by decide), hspecial '?' (by decide),
        hspecial '-' (by decide), hspecial '$' (by decide), hspecial '!' (by decide),
        hspecial '0' (by decide), hspecial '@' (by decide), hspecial '*' (by decide)]

theorem isAllParams_of_isName {x : Text} (hx : Text.isName x = true) : isAllParams x = false := by
  have hat : x ≠ ['@'] := by
    rintro rfl
    exact absurd hx (by decide)
  have hstar : x ≠ ['*'] := by
    rintro rfl
    exact absurd hx (by decide)
  simp [isAllParams, hat, hstar]

/-- A variable that is not read-only takes a value. -/
theorem assign_of_not_isReadOnly {s : Shell} {x : Text} (hx : s.variables.isReadOnly x = false)
    (value : Text) : ∃ t, s.assign x value = .ok t ∧ t.value? x = some value := by
  rw [Variables.isReadOnly_eq] at hx
  have hassign : ∃ vs, s.variables.assignWith x (some value) (s.has .allexport) false = .ok vs ∧
      vs.value? x = some value := by
    rw [Variables.assignWith]
    simp only [hx, Option.isSome_some, Bool.and_false, Bool.false_eq_true, if_false]
    refine ⟨_, rfl, ?_⟩
    simp [Variables.value?, Variables.get?, Table.get?_insert_self]
  obtain ⟨vs, hvs, hvalue⟩ := hassign
  rw [Shell.assign, hvs]
  exact ⟨_, rfl, hvalue⟩

theorem run_writeNumber {s t : Shell} {x : Text} {v : Value}
    (h : arithmeticAccess.write s x (Text.ofInt v.toInt) = .ok t) :
    (writeNumber arithmeticAccess x v).run.run s = (.ok (), t) := by
  rw [writeNumber, Shell.ArithmeticAlike.run_get_bind, h]
  rfl

theorem run_readNumber {s : Shell} {x : Text} {v : Value}
    (h : arithmeticAccess.number s x = .ok v) :
    (readNumber arithmeticAccess x).run.run s = (.ok v, s) := by
  rw [readNumber, Shell.ArithmeticAlike.run_get_bind, h]
  rfl

/-- The text of a parameter that is set is its value. -/
theorem quotedText_parameter {s : Shell} {x value : Text} (hall : isAllParams x = false)
    (h : parameter? s x = some value) (ev : Evaluator) :
    (quotedText ev [.param x .plain false [] false]).startedIn s = .done (.ok value, s) := by
  have hset : isSet s x = true := by
    rw [isSet, hall, h]
    rfl
  have hpieces : valuePieces s x value true = [.substituted value true] := by
    rw [valuePieces, hall]
    rfl
  have hexpand : (expandParameter x .plain false true false fun q => pieces ev q []).startedIn s =
      .done (.ok [.substituted value true], s) := by
    show (do
      if !isSet s x && !isAllParams x && s.has .nounset then Shell.fail (notSet x)
      return valuePieces s x ((parameter? s x).getD []) true : ShellM (List Piece)).startedIn s = _
    rw [hset, h, Option.getD_some, hpieces]
    rfl
  show ((((expandParameter x .plain false true false fun q => pieces ev q []).startedIn s).bind
    _).bind _) = _
  rw [hexpand]
  show Host.Program.done (Except.ok (value ++ []), s) = _
  rw [List.append_nil]

/-- A number that is kept in a variable comes back: when the arithmetic reads the variable, as the value
of the variable's name, and as the value of the text that the variable is expanded to. Every number can
be kept in every variable that is not read-only. -/
theorem numbers_kept (s : Shell) (x : Text) (v : Value) (hname : Text.isName x = true)
    (hwritable : s.variables.isReadOnly x = false) :
    ∃ t, (writeNumber arithmeticAccess x v).run.run s = (.ok (), t) ∧
      (readNumber arithmeticAccess x).run.run t = (.ok v, t) ∧
      (evalText arithmeticAccess x).run.run t = (.ok v, t) ∧
      ∃ value, parameter? t x = some value ∧
        (∀ ev, (quotedText ev [.param x .plain false [] false]).startedIn t = .done (.ok value, t)) ∧
        (evalText arithmeticAccess value).run.run t = (.ok v, t) := by
  obtain ⟨t, hassign, hvalue⟩ := assign_of_not_isReadOnly hwritable (Text.ofInt v.toInt)
  have hparameter : parameter? t x = some (Text.ofInt v.toInt) :=
    (parameter?_of_isName hname t).trans hvalue
  have hnumber : arithmeticAccess.number t x = .ok v := Arith.number_of_read hvalue
  have hread := run_readNumber hnumber
  refine ⟨t, run_writeNumber hassign, hread, ?_, _, hparameter, fun ev => ?_, ?_⟩
  · rw [Arith.evalText_name arithmeticAccess hname]
    exact hread
  · exact quotedText_parameter (isAllParams_of_isName hname) hparameter ev
  · rw [Arith.evalText_ofInt arithmeticAccess v]
    rfl

/-- The least number, in a variable that will be exported. -/
theorem numbers_kept_least :
    Text.isName "least" = true ∧
    ({ options := .ofList [.allexport] } : Shell).variables.isReadOnly "least" = false ∧
    Text.ofInt Int64.minValue.toInt = "-9223372036854775808" ∧
    ∃ t, (writeNumber arithmeticAccess "least" Int64.minValue).run.run
        { options := .ofList [.allexport] } = (.ok (), t) ∧
      (readNumber arithmeticAccess "least").run.run t = (.ok Int64.minValue, t) ∧
      (evalText arithmeticAccess "least").run.run t = (.ok Int64.minValue, t) ∧
      ∃ value, parameter? t "least" = some value ∧
        (∀ ev, (quotedText ev [.param "least" .plain false [] false]).startedIn t =
          .done (.ok value, t)) ∧
        (evalText arithmeticAccess value).run.run t = (.ok Int64.minValue, t) :=
  ⟨by decide, rfl, by decide +kernel, numbers_kept _ _ _ (by decide) rfl⟩

end CommandShell.Expansion
