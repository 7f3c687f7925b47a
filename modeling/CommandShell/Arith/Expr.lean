import CommandShell.Fault
import CommandShell.Numeral

/-!
# Arithmetic expressions

Expressions over signed 64-bit integers that wrap around, and their values. Operands are
evaluated from left to right; `&&`, `||` and `?:` leave out the operand they do not need. A name
stands for the number in a variable, and an assignment writes one, through an `Access` to
whatever holds the variables.
-/

namespace CommandShell.Arith

/-- A number of the shell's arithmetic. -/
abbrev Value := Int64

/-- The operators between two operands that are both evaluated. -/
inductive BinaryOp where
  | mul | div | rem | add | sub | shl | shr | lt | le | gt | ge | eq | ne | bitAnd | bitXor | bitOr
  deriving DecidableEq, Repr

/-- 1 for true and 0 for false. -/
def ofBool (b : Bool) : Value := if b then 1 else 0

namespace BinaryOp

/-- The operator of a token. -/
def ofText? (t : Text) : Option BinaryOp :=
  [("*", mul), ("/", div), ("%", rem), ("+", add), ("-", sub), ("<<", shl), (">>", shr),
    ("<", lt), ("<=", le), (">", gt), (">=", ge), ("==", eq), ("!=", ne), ("&", bitAnd),
    ("^", bitXor), ("|", bitOr)].lookup (String.ofList t)

/-- The value of an operator on two operands. Division goes toward zero, and shifts take their
count modulo 64. -/
def apply (op : BinaryOp) (a b : Value) : Except Fault Value :=
  match op with
  | mul => .ok (a * b)
  | div => if b = 0 then .error (.expansion "division by zero") else .ok (a / b)
  | rem => if b = 0 then .error (.expansion "division by zero") else .ok (a % b)
  | add => .ok (a + b)
  | sub => .ok (a - b)
  | shl => .ok (a <<< b)
  | shr => .ok (a >>> b)
  | lt => .ok (ofBool (a < b))
  | le => .ok (ofBool (a ≤ b))
  | gt => .ok (ofBool (b < a))
  | ge => .ok (ofBool (b ≤ a))
  | eq => .ok (ofBool (a = b))
  | ne => .ok (ofBool (a ≠ b))
  | bitAnd => .ok (a &&& b)
  | bitXor => .ok (a ^^^ b)
  | bitOr => .ok (a ||| b)

end BinaryOp

/-- An arithmetic expression. -/
inductive Expr where
  | number (n : Value)
  | var (name : Text)
  | neg (e : Expr)
  | not (e : Expr)
  | bitNot (e : Expr)
  | binary (op : BinaryOp) (a b : Expr)
  | and (a b : Expr)
  | or (a b : Expr)
  | cond (c a b : Expr)
  /-- An assignment, with the operator of a compound one. -/
  | assign (name : Text) (op : Option BinaryOp) (e : Expr)
  deriving DecidableEq, Repr

/-- How variables are read and written in a state. -/
structure Access (σ : Type) where
  /-- The value of a variable; none when it has none. -/
  read : σ → Text → Option Text
  /-- Gives a variable a value. -/
  write : σ → Text → Text → Except Fault σ

/-- The number that a text spells: decimal, hexadecimal after `0x` or octal after `0`, with an
optional sign. A magnitude below `2 ^ 64` is taken modulo that. -/
def number? (t : Text) : Option Value :=
  let (negative, digits) := match t with
    | '-' :: r => (true, r)
    | '+' :: r => (false, r)
    | t => (false, t)
  let magnitude := match digits with
    | '0' :: 'x' :: r | '0' :: 'X' :: r => Numeral.below? 16 0x10000000000000000 r
    | '0' :: c :: r => Numeral.below? 8 0x10000000000000000 (c :: r)
    | d => Numeral.below? 10 0x10000000000000000 d
  magnitude.map fun m => if negative then -(Int64.ofNat m) else Int64.ofNat m

/-- The number in a variable: 0 when it is unset or blank. -/
def Access.number {σ : Type} (access : Access σ) (s : σ) (name : Text) : Except Fault Value :=
  match access.read s name with
  | none => .ok 0
  | some t =>
    if (Text.trim t).isEmpty then .ok 0
    else match number? (Text.trim t) with
      | some n => .ok n
      | none => .error (.expansion ("Illegal number: " ++ t))

/-- A computation on a state that may fail; assignments made before a failure stay. -/
abbrev Eval (σ : Type) := ExceptT Fault (StateM σ)

/-- Reads a variable as a number. -/
def readNumber {σ : Type} (access : Access σ) (name : Text) : Eval σ Value := do
  match access.number (← get) name with
  | .ok n => return n
  | .error f => throw f

/-- Writes a number to a variable. -/
def writeNumber {σ : Type} (access : Access σ) (name : Text) (n : Value) : Eval σ Unit := do
  match access.write (← get) name (Text.ofInt n.toInt) with
  | .ok s => set s
  | .error f => throw f

/-- The value of an operator on two operands, as a computation. -/
def applyOp {σ : Type} (op : BinaryOp) (a b : Value) : Eval σ Value :=
  match op.apply a b with
  | .ok n => return n
  | .error f => throw f

/-- The value of an expression. -/
def Expr.eval {σ : Type} (access : Access σ) : Expr → Eval σ Value
  | number n => return n
  | var name => readNumber access name
  | neg e => do return -(← e.eval access)
  | not e => do return ofBool ((← e.eval access) = 0)
  | bitNot e => do return ~~~(← e.eval access)
  | binary op a b => do
    let x ← a.eval access
    let y ← b.eval access
    applyOp op x y
  | and a b => do
    if (← a.eval access) = 0 then return 0
    return ofBool ((← b.eval access) ≠ 0)
  | or a b => do
    if (← a.eval access) ≠ 0 then return 1
    return ofBool ((← b.eval access) ≠ 0)
  | cond c a b => do
    if (← c.eval access) ≠ 0 then a.eval access else b.eval access
  | assign name op e => do
    let x ← e.eval access
    let value ← match op with
      | some op => applyOp op (← readNumber access name) x
      | none => pure x
    writeNumber access name value
    return value

end CommandShell.Arith
