import Mathlib.Data.Int.Bitwise
import CommandShell.Arith.Parser

/-!
# Expressions and what they mean

An expression as one has it in mind is a tree: numerals of 64 bits, variables, operators, assignments.
`Tree.meaning` is its value over the integers. Every result is brought into the signed range of 64 bits
by `Numeral.wrap64`, shifts take their count modulo 64, an operand that decides nothing is not
evaluated, and to divide by zero is the one error that an operator can make.

`Tree.toExpr` is the expression that the evaluator works on, and `Tree.eval_toExpr` says that the
evaluator comes to the meaning: the same number or error, with the same assignments made on the way.
-/

namespace CommandShell.Arith

/-! ## Trees -/

/-- A name of a variable. -/
abbrev Name := { t : Text // Text.isName t = true }

/-- The bases that numerals are written in. -/
inductive Radix where
  | decimal | octal | hexadecimal
  deriving DecidableEq, Repr

/-- The operators before one operand. -/
inductive Sign where
  | minus | not | complement
  deriving DecidableEq, Repr

/-- The operators that assignments may be compounded with. -/
inductive Compound where
  | mul | div | rem | add | sub | shl | shr | bitAnd | bitXor | bitOr
  deriving DecidableEq, Repr

/-- The operator of a compound assignment. -/
def Compound.op : Compound → BinaryOp
  | mul => .mul | div => .div | rem => .rem | add => .add | sub => .sub | shl => .shl | shr => .shr
  | bitAnd => .bitAnd | bitXor => .bitXor | bitOr => .bitOr

/-- An expression as a tree. -/
inductive Tree where
  /-- A numeral below `2 ^ 64` in one of the bases. -/
  | numeral (radix : Radix) (n : Fin (2 ^ 64))
  | var (x : Name)
  | signed (s : Sign) (a : Tree)
  | binary (op : BinaryOp) (a b : Tree)
  | and (a b : Tree)
  | or (a b : Tree)
  | cond (c a b : Tree)
  | assign (x : Name) (op : Option Compound) (a : Tree)

/-! ## Meaning -/

/-- 1 for true and 0 for false. -/
def truth (p : Prop) [Decidable p] : Int := if p then 1 else 0

/-- The 64 bits that a number has in two's complement, as a natural number. -/
def bits (a : Int) : Nat := (a % 2 ^ 64).toNat

/-- What an operator makes of two numbers. -/
def BinaryOp.meaning (op : BinaryOp) (a b : Int) : Except Fault Int :=
  match op with
  | mul => .ok (Numeral.wrap64 (a * b))
  | div => if b = 0 then .error (.expansion "division by zero") else .ok (Numeral.wrap64 (a.tdiv b))
  | rem => if b = 0 then .error (.expansion "division by zero") else .ok (a.tmod b)
  | add => .ok (Numeral.wrap64 (a + b))
  | sub => .ok (Numeral.wrap64 (a - b))
  | shl => .ok (Numeral.wrap64 (a * 2 ^ (b % 64).toNat))
  | shr => .ok (a / 2 ^ (b % 64).toNat)
  | lt => .ok (truth (a < b))
  | le => .ok (truth (a ≤ b))
  | gt => .ok (truth (a > b))
  | ge => .ok (truth (a ≥ b))
  | eq => .ok (truth (a = b))
  | ne => .ok (truth (a ≠ b))
  | bitAnd => .ok (Numeral.wrap64 (bits a &&& bits b : Nat))
  | bitXor => .ok (Numeral.wrap64 (bits a ^^^ bits b : Nat))
  | bitOr => .ok (Numeral.wrap64 (bits a ||| bits b : Nat))

/-- What an operator before a number makes of it. -/
def Sign.meaning : Sign → Int → Int
  | minus, a => Numeral.wrap64 (-a)
  | not, a => truth (a = 0)
  | complement, a => Numeral.wrap64 (-a - 1)

section

variable {σ : Type} (access : Access σ)

/-- A result as a computation that changes nothing. -/
def result {α : Type} (r : Except Fault α) : Eval σ α := fun s => (r, s)

/-- The number in a variable. -/
def load (x : Name) : Eval σ Int := do
  result ((access.number (← get) x.1).map Int64.toInt)

/-- Gives a variable the numeral of a number as its value. -/
def store (x : Name) (a : Int) : Eval σ Unit := do
  match access.write (← get) x.1 (Text.ofInt a) with
  | .ok s => set s
  | .error f => result (.error f)

/-- The value of a tree, and the assignments that are made for it. The right side of an assignment is
evaluated before its variable is read. -/
def Tree.meaning : Tree → Eval σ Int
  | numeral _ n => return Numeral.wrap64 n.val
  | var x => load access x
  | signed s a => do return s.meaning (← a.meaning)
  | binary op a b => do
    let x ← a.meaning
    let y ← b.meaning
    result (op.meaning x y)
  | and a b => do
    if (← a.meaning) = 0 then return 0
    return truth ((← b.meaning) ≠ 0)
  | or a b => do
    if (← a.meaning) ≠ 0 then return 1
    return truth ((← b.meaning) ≠ 0)
  | cond c a b => do
    if (← c.meaning) ≠ 0 then a.meaning else b.meaning
  | assign x op a => do
    let y ← a.meaning
    let value ← match op with
      | some op => do result (op.op.meaning (← load access x) y)
      | none => pure y
    store access x value
    return value

end

/-! ## The evaluator -/

/-- The expression that the evaluator works on. -/
def Tree.toExpr : Tree → Expr
  | numeral _ n => .number (Int64.ofNat n.val)
  | var x => .var x.1
  | signed .minus a => .neg a.toExpr
  | signed .not a => .not a.toExpr
  | signed .complement a => .bitNot a.toExpr
  | binary op a b => .binary op a.toExpr b.toExpr
  | and a b => .and a.toExpr b.toExpr
  | or a b => .or a.toExpr b.toExpr
  | cond c a b => .cond c.toExpr a.toExpr b.toExpr
  | assign x op a => .assign x.1 (op.map Compound.op) a.toExpr

theorem toInt_ofBool (p : Prop) [Decidable p] : (ofBool (decide p)).toInt = truth p := by
  unfold ofBool truth
  by_cases hp : p
  · simp [hp]
  · simp [hp]

theorem toInt_eq_zero {a : Value} : a.toInt = 0 ↔ a = 0 := by
  rw [← Int64.toInt_inj]
  rfl

theorem toInt_ofBool_eq_zero (a : Value) : (ofBool (a = 0)).toInt = truth (a.toInt = 0) :=
  (toInt_ofBool _).trans (by simp [toInt_eq_zero])

theorem toInt_ofBool_ne_zero (a : Value) : (ofBool (a ≠ 0)).toInt = truth (a.toInt ≠ 0) :=
  (toInt_ofBool _).trans (by simp [toInt_eq_zero])

theorem bits_toInt (a : Value) : bits a.toInt = a.toBitVec.toNat := by
  have h := congrArg BitVec.toNat (BitVec.ofInt_toInt (x := a.toBitVec))
  rw [BitVec.toNat_ofInt] at h
  exact h

theorem toInt_toBitVec (a : Value) : a.toBitVec.toInt = a.toInt := rfl

/-- Modulo `2 ^ 64` the bits of a number are the number. -/
theorem wrap64_bits_mul (a b : Int) : Int.bmod (bits a * b) (2 ^ 64) = Numeral.wrap64 (a * b) := by
  have hbits : (bits a : Int) = a % 2 ^ 64 := Int.toNat_of_nonneg (Int.emod_nonneg _ (by decide))
  rw [hbits]
  exact Int.emod_mul_bmod a (2 ^ 64)

/-- The count of a shift. -/
theorem toNat_smod_sixtyFour (b : Value) : (b.toBitVec.smod 64).toNat = (b.toInt % 64).toNat := by
  have hint : (b.toBitVec.smod 64).toInt = b.toInt % 64 := by
    rw [BitVec.toInt_smod]
    exact Int.fmod_eq_emod_of_nonneg _ (by decide)
  have hnonneg : 0 ≤ b.toInt % 64 := Int.emod_nonneg _ (by decide)
  -- the count is not negative, so that its bits spell it
  have hcases := BitVec.toInt_eq_toNat_cond (b.toBitVec.smod 64)
  have hlt := (b.toBitVec.smod 64).isLt
  split at hcases <;> omega

/-- An operator of the evaluator makes of two numbers what it means, and fails just when it divides by
zero. -/
theorem apply_eq_meaning (op : BinaryOp) (a b : Value) :
    (op.apply a b).map Int64.toInt = op.meaning a.toInt b.toInt := by
  have hzero : b = 0 ↔ b.toInt = 0 := Int64.toInt_inj.symm
  cases op with
  | mul => exact congrArg Except.ok (Int64.toInt_mul a b)
  | add => exact congrArg Except.ok (Int64.toInt_add a b)
  | sub => exact congrArg Except.ok (Int64.toInt_sub a b)
  | div =>
      by_cases hb : b = 0
      · simp [BinaryOp.apply, BinaryOp.meaning, hb, Except.map]
      · simp [BinaryOp.apply, BinaryOp.meaning, hb, hzero.not.mp hb, Except.map, Int64.toInt_div,
          Numeral.wrap64]
  | rem =>
      by_cases hb : b = 0
      · simp [BinaryOp.apply, BinaryOp.meaning, hb, Except.map]
      · simp [BinaryOp.apply, BinaryOp.meaning, hb, hzero.not.mp hb, Except.map]
  | shl =>
      apply congrArg Except.ok
      show (a.toBitVec <<< (b.toBitVec.smod 64).toNat).toInt = _
      rw [BitVec.toInt_shiftLeft, toNat_smod_sixtyFour, Nat.shiftLeft_eq, Nat.cast_mul,
        Nat.cast_pow, ← bits_toInt]
      exact wrap64_bits_mul _ _
  | shr =>
      apply congrArg Except.ok
      show (a.toBitVec.sshiftRight (b.toBitVec.smod 64).toNat).toInt = _
      rw [BitVec.toInt_sshiftRight, toNat_smod_sixtyFour, Int.shiftRight_eq_div_pow]
      rfl
  | lt => exact congrArg Except.ok ((toInt_ofBool _).trans (by simp [Int64.lt_iff_toInt_lt]))
  | le => exact congrArg Except.ok ((toInt_ofBool _).trans (by simp [Int64.le_iff_toInt_le]))
  | gt => exact congrArg Except.ok ((toInt_ofBool _).trans (by simp [Int64.lt_iff_toInt_lt]))
  | ge => exact congrArg Except.ok ((toInt_ofBool _).trans (by simp [Int64.le_iff_toInt_le]))
  | eq => exact congrArg Except.ok ((toInt_ofBool _).trans (by simp [Int64.toInt_inj]))
  | ne => exact congrArg Except.ok ((toInt_ofBool _).trans (by simp [Int64.toInt_inj]))
  | bitAnd =>
      apply congrArg Except.ok
      rw [bits_toInt, bits_toInt]
      exact BitVec.toInt_and a.toBitVec b.toBitVec
  | bitXor =>
      apply congrArg Except.ok
      rw [bits_toInt, bits_toInt]
      exact BitVec.toInt_xor a.toBitVec b.toBitVec
  | bitOr =>
      apply congrArg Except.ok
      rw [bits_toInt, bits_toInt]
      exact BitVec.toInt_or a.toBitVec b.toBitVec

/-! ## Evaluation -/

section

variable {σ α β : Type} (access : Access σ)

/-- A value and what becomes of it. -/
theorem map_bind_eq {x : Eval σ α} {f : α → Eval σ Value} {g : α → Eval σ Int}
    (h : ∀ a, Int64.toInt <$> f a = g a) : Int64.toInt <$> (x >>= f) = x >>= g := by
  rw [map_bind]
  exact congrArg (x >>= ·) (funext h)

theorem map_readNumber (x : Name) : Int64.toInt <$> readNumber access x.1 = load access x := by
  apply map_bind_eq
  intro s
  cases access.number s x.1 with
  | ok n => rfl
  | error f => rfl

theorem writeNumber_eq (x : Name) (n : Value) : writeNumber access x.1 n = store access x n.toInt := by
  apply congrArg (get >>= ·)
  funext s
  cases access.write s x.1 (Text.ofInt n.toInt) with
  | ok t => rfl
  | error f => rfl

theorem map_applyOp (op : BinaryOp) (a b : Value) :
    Int64.toInt <$> (applyOp op a b : Eval σ Value) = result (op.meaning a.toInt b.toInt) := by
  rw [← apply_eq_meaning]
  unfold applyOp
  cases op.apply a b with
  | ok n => rfl
  | error f => rfl

/-- The evaluator comes to the meaning of a tree. -/
theorem Tree.eval_toExpr (e : Tree) : Int64.toInt <$> e.toExpr.eval access = e.meaning access := by
  induction e with
  | numeral radix n =>
      show pure (Int64.ofNat n.val).toInt = (pure (Numeral.wrap64 n.val) : Eval σ Int)
      rw [Int64.toInt_ofNat']
      rfl
  | var x => exact map_readNumber access x
  | signed s a ih =>
      unfold meaning
      rw [← ih]
      simp only [bind_map_left]
      cases s with
      | minus =>
          apply map_bind_eq
          intro x
          exact (map_pure _ _).trans (congrArg pure (Int64.toInt_neg x))
      | not =>
          apply map_bind_eq
          intro x
          exact (map_pure _ _).trans (congrArg pure (toInt_ofBool_eq_zero x))
      | complement =>
          apply map_bind_eq
          intro x
          exact (map_pure _ _).trans (congrArg pure (Int64.toInt_not x))
  | binary op a b iha ihb =>
      unfold meaning
      rw [← iha, ← ihb]
      simp only [bind_map_left]
      apply map_bind_eq
      intro x
      apply map_bind_eq
      intro y
      exact map_applyOp op x y
  | and a b iha ihb =>
      unfold meaning
      rw [← iha, ← ihb]
      simp only [bind_map_left]
      apply map_bind_eq
      intro x
      by_cases hx : x = 0
      · simp [hx]
      · simp only [hx, hx.imp toInt_eq_zero.mp, if_false]
        apply map_bind_eq
        intro y
        exact (map_pure _ _).trans (congrArg pure (toInt_ofBool_ne_zero y))
  | or a b iha ihb =>
      unfold meaning
      rw [← iha, ← ihb]
      simp only [bind_map_left]
      apply map_bind_eq
      intro x
      by_cases hx : x = 0
      · simp only [hx, ne_eq, not_true, if_false, Int64.toInt_zero]
        apply map_bind_eq
        intro y
        exact (map_pure _ _).trans (congrArg pure (toInt_ofBool_ne_zero y))
      · simp [hx, hx.imp toInt_eq_zero.mp]
  | cond c a b ihc iha ihb =>
      unfold meaning
      rw [← iha, ← ihb, ← ihc]
      simp only [bind_map_left]
      apply map_bind_eq
      intro x
      by_cases hx : x = 0
      · simp [hx]
      · simp [hx, hx.imp toInt_eq_zero.mp]
  | assign x op a ih =>
      unfold meaning
      rw [← ih]
      simp only [bind_map_left]
      apply map_bind_eq
      intro y
      cases op with
      | none =>
          simp [writeNumber_eq]
      | some op =>
          simp [writeNumber_eq, ← map_readNumber, ← map_applyOp]

end

end CommandShell.Arith
