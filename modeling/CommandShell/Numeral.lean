import CommandShell.Text.Name

/-!
# Numerals

Reading integers from text. A reading is exact or fails: a numeral outside the stated range is
refused, never cut down to it.
-/

namespace CommandShell.Numeral

/-- The value of a digit in a base up to 36. -/
def digit? (base : Nat) (c : Char) : Option Nat :=
  let d :=
    if '0' ≤ c && c ≤ '9' then some (c.toNat - '0'.toNat)
    else if 'a' ≤ c && c ≤ 'z' then some (c.toNat - 'a'.toNat + 10)
    else if 'A' ≤ c && c ≤ 'Z' then some (c.toNat - 'A'.toNat + 10)
    else none
  d.filter (· < base)

/-- The value of digits that continue a number `acc`. -/
def digits? (base : Nat) : Nat → Text → Option Nat
  | acc, [] => some acc
  | acc, c :: r => (digit? base c).bind fun d => digits? base (acc * base + d) r

/-- One or more digits as a number. -/
def unsigned? (base : Nat) : Text → Option Nat
  | [] => none
  | t => digits? base 0 t

/-- Digits with an optional `+`, as a number below `bound`. -/
def below? (base bound : Nat) (t : Text) : Option Nat :=
  let body := match t with
    | '+' :: r => r
    | t => t
  (unsigned? base body).filter (· < bound)

/-- Decimal digits with an optional sign, as a number from `-bound` up to `bound - 1`. -/
def signed? (bound : Nat) (t : Text) : Option Int :=
  match t with
  | '-' :: r => ((unsigned? 10 r).filter (· ≤ bound)).map fun n => -(n : Int)
  | t => (below? 10 bound t).map Int.ofNat

/-- A signed decimal of 64 bits. -/
def int64? (t : Text) : Option Int := signed? 0x8000000000000000 t

/-- A signed decimal of 32 bits. -/
def int32? (t : Text) : Option Int := signed? 0x80000000 t

/-- An unsigned decimal of 64 bits. -/
def word64? (t : Text) : Option Nat := below? 10 0x10000000000000000 t

/-- The numeric argument of a command: an optional sign and ASCII digits within 64 bits. -/
def count? (t : Text) : Option Int := if Text.isNumber t then int64? t else none

/-- The number modulo `2 ^ 32`, read as a signed number of 32 bits. -/
def wrap32 (n : Int) : Int := n.bmod 0x100000000

/-- The number modulo `2 ^ 64`, read as a signed number of 64 bits. -/
def wrap64 (n : Int) : Int := n.bmod 0x10000000000000000

end CommandShell.Numeral
