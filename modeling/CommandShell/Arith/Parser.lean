import CommandShell.Arith.Expr

/-!
# Reading arithmetic

The text of an expression is cut into numbers, names and operators, and these are put together
by the precedence of C: assignment and `?:` bind to the right, the other operators to the left.
-/

namespace CommandShell.Arith

/-- A token of an expression. -/
inductive Token where
  | number (n : Value)
  | name (t : Text)
  | op (t : Text)
  deriving DecidableEq, Repr

/-- The fault of a text that is no expression. -/
def malformed : Fault := .expansion "arithmetic syntax error"

/-- The operators, a longer one before its own beginnings. -/
def operators : List Text :=
  ["<<=", ">>=", "<<", ">>", "<=", ">=", "==", "!=", "&&", "||", "+=", "-=", "*=", "/=", "%=",
    "&=", "^=", "|=", "+", "-", "*", "/", "%", "<", ">", "&", "^", "|", "!", "~", "?", ":"]

/-- A letter or digit. -/
def isAlphanumeric (c : Char) : Bool := Text.isLetter c || Text.isDigit c

/-- The first token of a text that does not start with a blank, and the text after it. -/
def firstToken (c : Char) (r : Text) : Except Fault (Token × Text) :=
  if Text.isDigit c then
    match number? ((c :: r).takeWhile isAlphanumeric) with
    | some n => .ok (.number n, r.dropWhile isAlphanumeric)
    | none => .error malformed
  else if Text.isNameStart c then
    .ok (.name ((c :: r).takeWhile Text.isNameChar), r.dropWhile Text.isNameChar)
  else if c = '(' || c = ')' || (c = '=' && r.head? ≠ some '=') then .ok (.op [c], r)
  else
    match operators.find? fun op => (Text.dropPrefix? op (c :: r)).isSome with
    | some op => .ok (.op op, r.drop (op.length - 1))
    | none => .error malformed

/-- The tokens of a text, in at most `n` steps. -/
def tokensWithin : Nat → Text → Except Fault (List Token)
  | 0, _ => .ok []
  | _ + 1, [] => .ok []
  | n + 1, c :: r =>
    if Text.isSpace c then tokensWithin n r
    else match firstToken c r with
      | .error f => .error f
      | .ok (tk, rest) => (tokensWithin n rest).map (tk :: ·)

/-- The tokens of a text; every step uses up a character. -/
def tokens (t : Text) : Except Fault (List Token) := tokensWithin (t.length + 1) t

/-- The binary operators by precedence, loosest first. -/
def levels : List (List Text) :=
  [["||"], ["&&"], ["|"], ["^"], ["&"], ["==", "!="], ["<", "<=", ">", ">="], ["<<", ">>"],
    ["+", "-"], ["*", "/", "%"]]

/-- An expression read from the front of some tokens and the tokens after it. -/
abbrev Reading := Except Fault (Expr × List Token)

/-- The operator of a compound assignment. -/
def compoundOp? (t : Text) : Option BinaryOp :=
  if t = "<=" || t = ">=" || t = "==" || t = "!=" then none
  else if t.getLast? = some '=' then BinaryOp.ofText? t.dropLast
  else none

/-- The assignment operator at the head of the tokens: a name, then `=` or a compound form. -/
def assignment? : List Token → Option (Text × Option BinaryOp × List Token)
  | .name x :: .op o :: r =>
    if o = "=" then some (x, none, r) else (compoundOp? o).map fun op => (x, some op, r)
  | _ => none

/-- Drops the given operator, which has to come next. -/
def expectOp (o : Text) : List Token → Except Fault (List Token)
  | .op p :: r => if p = o then .ok r else .error malformed
  | _ => .error malformed

mutual

/-- Reads an assignment or a looser expression. -/
def parseAssignment : Nat → List Token → Reading
  | 0, _ => .error malformed
  | n + 1, ts =>
    match assignment? ts with
    | some (x, op, r) => (parseAssignment n r).map fun (e, r) => (.assign x op e, r)
    | none => parseConditional n ts
termination_by structural n => n

/-- Reads a `?:` or a looser expression. -/
def parseConditional : Nat → List Token → Reading
  | 0, _ => .error malformed
  | n + 1, ts => do
    let (c, r) ← parseBinary n levels ts
    match r with
    | .op ['?'] :: r => do
      let (a, r) ← parseAssignment n r
      let r ← expectOp ":" r
      let (b, r) ← parseConditional n r
      return (.cond c a b, r)
    | r => return (c, r)
termination_by structural n => n

/-- Reads operators of the given levels and tighter ones. -/
def parseBinary : Nat → List (List Text) → List Token → Reading
  | 0, _, _ => .error malformed
  | n + 1, [], ts => parseUnary n ts
  | n + 1, level :: tighter, ts => do
    let (a, r) ← parseBinary n tighter ts
    parseBinaryRest n level tighter a r
termination_by structural n => n

/-- Reads further operands of one level. -/
def parseBinaryRest : Nat → List Text → List (List Text) → Expr → List Token → Reading
  | 0, _, _, _, _ => .error malformed
  | n + 1, level, tighter, a, ts =>
    match ts with
    | .op o :: r =>
      if level.contains o then do
        let (b, r) ← parseBinary n tighter r
        if o = "&&" then parseBinaryRest n level tighter (.and a b) r
        else if o = "||" then parseBinaryRest n level tighter (.or a b) r
        else match BinaryOp.ofText? o with
          | some op => parseBinaryRest n level tighter (.binary op a b) r
          | none => .error malformed
      else .ok (a, ts)
    | _ => .ok (a, ts)
termination_by structural n => n

/-- Reads an operand with the operators before it. -/
def parseUnary : Nat → List Token → Reading
  | 0, _ => .error malformed
  | n + 1, ts =>
    match ts with
    | .op ['-'] :: r => (parseUnary n r).map fun (e, r) => (.neg e, r)
    | .op ['+'] :: r => parseUnary n r
    | .op ['!'] :: r => (parseUnary n r).map fun (e, r) => (.not e, r)
    | .op ['~'] :: r => (parseUnary n r).map fun (e, r) => (.bitNot e, r)
    | .number k :: r => .ok (.number k, r)
    | .name x :: r => .ok (.var x, r)
    | .op ['('] :: r => do
      let (e, r) ← parseAssignment n r
      let r ← expectOp ")" r
      return (e, r)
    | _ => .error malformed
termination_by structural n => n

end

/-- A number of steps that suffices for the given tokens: between one token and the next the
reading goes at most once through all levels. -/
def stepBound (ts : List Token) : Nat := 20 * (ts.length + 1)

/-- The expression that a text spells; none when the text is blank. -/
def parse (t : Text) : Except Fault (Option Expr) := do
  let ts ← tokens t
  if ts.isEmpty then return none
  let (e, rest) ← parseAssignment (stepBound ts) ts
  if rest.isEmpty then return some e else throw malformed

/-- The value of the text of an expression. -/
def evalText {σ : Type} (access : Access σ) (t : Text) : Eval σ Value :=
  match parse t with
  | .error f => throw f
  | .ok none => return 0
  | .ok (some e) => e.eval access

end CommandShell.Arith
