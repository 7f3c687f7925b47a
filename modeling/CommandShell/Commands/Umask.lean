import CommandShell.Builtin
import CommandShell.Shell.State

/-!
# The umask command

The mask names the permissions that new files do not get. It is shown and set as an octal number,
or in symbols that name the permissions it leaves open.
-/

namespace CommandShell.Commands

open Shell

/-- All permissions. -/
def allPermissions : Nat := 0o777

/-- What a mask leaves open, and the mask that leaves just that open. -/
def withheld (mask : Nat) : Nat := allPermissions ^^^ (mask &&& allPermissions)

/-- Permissions of one class of users in letters. -/
def permissionLetters (bits : Nat) : Text :=
  (if bits &&& 4 != 0 then "r" else "" : Text) ++ (if bits &&& 2 != 0 then "w" else "" : Text)
    ++ (if bits &&& 1 != 0 then "x" else "" : Text)

/-- A mask in symbols: the permissions that it leaves open. -/
def symbolicMask (mask : Nat) : Text :=
  let allowed := withheld mask
  ("u=" : Text) ++ permissionLetters (allowed >>> 6) ++ ",g=" ++ permissionLetters (allowed >>> 3)
    ++ ",o=" ++ permissionLetters allowed

/-- An operator between users and permissions. -/
def isMaskOperator (c : Char) : Bool := c == '+' || c == '-' || c == '='

/-- The permissions of the users that a letter names. -/
def usersOf? : Char → Option Nat
  | 'u' => some 0o700
  | 'g' => some 0o070
  | 'o' => some 0o007
  | 'a' => some 0o777
  | _ => none

/-- The permission that a letter names, for all users. -/
def permissionOf? : Char → Option Nat
  | 'r' => some 0o444
  | 'w' => some 0o222
  | 'x' => some 0o111
  | _ => none

/-- The union of what letters name. -/
def unionOf? (f : Char → Option Nat) : Text → Option Nat
  | [] => some 0
  | c :: rest => do return (← f c) ||| (← unionOf? f rest)

/-- Applies an operator with its permissions to the allowed permissions. -/
def applyOperator (users allowed : Nat) (op : Char) (permissions : Nat) : Nat :=
  let bits := permissions &&& users
  let others := allowed &&& withheld users
  if op = '+' then allowed ||| bits
  else if op = '-' then allowed &&& withheld bits
  else others ||| bits

/-- Applies the operators of a clause, each with the letters after it. -/
def applyOperators (users allowed : Nat) : Text → Option Nat
  | [] => some allowed
  | op :: rest => do
    let letters := rest.takeWhile fun c => !isMaskOperator c
    let permissions ← unionOf? permissionOf? letters
    applyOperators users (applyOperator users allowed op permissions) (rest.drop letters.length)
termination_by t => t.length
decreasing_by
  rw [List.length_drop, List.length_cons]
  omega

/-- Applies a clause to the allowed permissions. Without users it is meant for all. -/
def applyClause (allowed : Nat) (clause : Text) : Option Nat := do
  let letters := clause.takeWhile fun c => !isMaskOperator c
  let operators := clause.drop letters.length
  if operators.isEmpty then failure
  let users ← unionOf? usersOf? letters
  applyOperators (if users = 0 then allPermissions else users) allowed operators

/-- The mask after clauses in symbols. -/
def applySymbolic (mask : Nat) (spec : Text) : Option Nat :=
  ((Text.splitAt ',' spec).foldlM applyClause (withheld mask)).map withheld

/-- The mask that an operand asks for. -/
def maskOperand (mask : Nat) (spec : Text) : Option Nat :=
  if spec.all fun c => '0' ≤ c && c ≤ '7' then
    (Numeral.below? 8 0x100000000 spec).filter (· ≤ allPermissions)
  else applySymbolic mask spec

/-- `umask [-S] [mask]` -/
def runUmask (args : List Text) : ShellM Unit := do
  let (opts, operands) ← ofExcept (Builtin.takeOptions "S" args)
  let mask ← ask (.setMask 0)
  let _ ← ask (.setMask mask)
  match operands with
  | [] =>
    if opts.contains 'S' then writeOut (symbolicMask mask ++ "\n")
    else writeOut (Text.padStart '0' 4 (Nat.toDigits 8 mask) ++ "\n")
  | spec :: _ =>
    match maskOperand mask spec with
    | none => fail (.usage ("Illegal mode: " ++ spec))
    | some mask =>
      let _ ← ask (.setMask mask)
  setStatus 0

end CommandShell.Commands
