import CommandShell.Shell.State

/-!
# The test command

`test` decides a condition that is spelled by its arguments: comparisons of texts and numbers,
properties of files, and connectives. `-o` binds looser than `-a`, and `-a` looser than `!`. Both
sides of a connective are always evaluated, from left to right, so that the first error met in
reading order is the one reported.

An argument counts as an operator only by its place: a comparison is recognised by the operator
in the middle, before anything else is tried.
-/

namespace CommandShell.Commands

open Shell

/-- Operators with one operand. -/
inductive UnaryTest where
  | blockDevice | charDevice | directory | exists_ | regular | setGroup | link | sticky | nonEmpty
  | fifo | readable | filled | socket | terminal | setUser | writable | executable | empty
  deriving DecidableEq, Repr

/-- Operators with two operands. -/
inductive BinaryTest where
  | same | different | eq | ne | gt | ge | lt | le | newer | older | sameFile
  deriving DecidableEq, Repr

namespace UnaryTest

/-- The operators as they are written. -/
def table : List (String × UnaryTest) := [
  ("-b", blockDevice), ("-c", charDevice), ("-d", directory), ("-e", exists_), ("-f", regular),
  ("-g", setGroup), ("-h", link), ("-k", sticky), ("-L", link), ("-n", nonEmpty), ("-p", fifo),
  ("-r", readable), ("-s", filled), ("-S", socket), ("-t", terminal), ("-u", setUser),
  ("-w", writable), ("-x", executable), ("-z", empty)]

/-- The operator that a word spells. -/
def ofText? (t : Text) : Option UnaryTest :=
  (table.find? fun (e : String × UnaryTest) => e.1.toList == t).map (·.2)

end UnaryTest

namespace BinaryTest

/-- The operators as they are written. -/
def table : List (String × BinaryTest) := [
  ("=", same), ("!=", different), ("-eq", eq), ("-ne", ne), ("-gt", gt), ("-ge", ge), ("-lt", lt),
  ("-le", le), ("-nt", newer), ("-ot", older), ("-ef", sameFile)]

/-- The operator that a word spells. -/
def ofText? (t : Text) : Option BinaryTest :=
  (table.find? fun (e : String × BinaryTest) => e.1.toList == t).map (·.2)

end BinaryTest

/-- The number that an operand spells; white space around it is passed over. -/
def testNumber (t : Text) : ShellM Int :=
  match Numeral.int64? (Text.trim t) with
  | some n => return n
  | none => fail (.usage ("Illegal number: " ++ t))

/-- Whether a file is there and has a property. -/
def fileHas (path : Text) (follow : Bool) (p : Host.FileStatus → Bool) : ShellM Bool := do
  match ← fileStatus path follow with
  | .ok st => return p st
  | .error _ => return false

/-- Whether a descriptor is a terminal. -/
def isTerminal (n : Int) : ShellM Bool :=
  match n with
  | .ofNat fd => if fd < 0x80000000 then ask (.isTerminal fd) else return false
  | .negSucc _ => return false

/-- The value of an operator with one operand. -/
def UnaryTest.eval (op : UnaryTest) (arg : Text) : ShellM Bool :=
  match op with
  | nonEmpty => return !arg.isEmpty
  | empty => return arg.isEmpty
  | blockDevice => fileHas arg true (·.kind == .blockDevice)
  | charDevice => fileHas arg true (·.kind == .charDevice)
  | directory => fileHas arg true (·.kind == .directory)
  | exists_ => fileHas arg true fun _ => true
  | regular => fileHas arg true (·.kind == .regular)
  | setUser => fileHas arg true (·.mode &&& 0o4000 != 0)
  | setGroup => fileHas arg true (·.mode &&& 0o2000 != 0)
  | sticky => fileHas arg true (·.mode &&& 0o1000 != 0)
  | link => fileHas arg false (·.kind == .link)
  | fifo => fileHas arg true (·.kind == .pipe)
  | socket => fileHas arg true (·.kind == .socket)
  | filled => fileHas arg true (·.size > 0)
  | readable => canAccess arg .read
  | writable => canAccess arg .write
  | executable => canAccess arg .execute
  | terminal => do isTerminal (← testNumber arg)

/-- The value of a comparison of two numbers. -/
def compareNumbers (p : Int → Int → Bool) (a b : Text) : ShellM Bool := do
  let x ← testNumber a
  let y ← testNumber b
  return p x y

/-- The value of a comparison of two files, each of which may be missing. -/
def compareFiles (p : Option Host.FileStatus → Option Host.FileStatus → Bool) (a b : Text) :
    ShellM Bool := do
  let x ← fileStatus a true
  let y ← fileStatus b true
  return p x.toOption y.toOption

/-- Whether a file is there that is newer than another one, or the other one is missing. -/
def isNewer : Option Host.FileStatus → Option Host.FileStatus → Bool
  | some x, some y => y.time < x.time
  | some _, none => true
  | _, _ => false

/-- The value of an operator with two operands. -/
def BinaryTest.eval (op : BinaryTest) (a b : Text) : ShellM Bool :=
  match op with
  | same => return a == b
  | different => return a != b
  | eq => compareNumbers (· == ·) a b
  | ne => compareNumbers (· != ·) a b
  | gt => compareNumbers (· > ·) a b
  | ge => compareNumbers (· ≥ ·) a b
  | lt => compareNumbers (· < ·) a b
  | le => compareNumbers (· ≤ ·) a b
  | newer => compareFiles isNewer a b
  | older => compareFiles (fun x y => isNewer y x) a b
  | sameFile => compareFiles
    (fun x y => match x, y with
      | some x, some y => x.number == y.number
      | _, _ => false) a b

/-- Whether the second of the words is an operator with two operands. -/
def binaryFollows : List Text → Bool
  | _ :: op :: _ => (BinaryTest.ofText? op).isSome
  | _ => false

/-- The error of a condition that ends too early. -/
def argumentExpected : Fault := .usage "argument expected"

/-- The value of what a condition starts with, and the words after it. -/
abbrev Condition := ShellM (Bool × List Text)

mutual

/-- Conditions joined by `-o`. -/
def disjunction : Nat → List Text → Condition
  | 0, _ => fail argumentExpected
  | n + 1, args => do
    let (a, rest) ← conjunction n args
    disjunctionRest n a rest
termination_by structural n => n

/-- Further conditions after `-o`. -/
def disjunctionRest : Nat → Bool → List Text → Condition
  | 0, _, _ => fail argumentExpected
  | n + 1, a, args => do
    match args with
    | ['-', 'o'] :: rest =>
      let (b, rest) ← conjunction n rest
      disjunctionRest n (a || b) rest
    | rest => return (a, rest)
termination_by structural n => n

/-- Conditions joined by `-a`. -/
def conjunction : Nat → List Text → Condition
  | 0, _ => fail argumentExpected
  | n + 1, args => do
    let (a, rest) ← negation n args
    conjunctionRest n a rest
termination_by structural n => n

/-- Further conditions after `-a`. -/
def conjunctionRest : Nat → Bool → List Text → Condition
  | 0, _, _ => fail argumentExpected
  | n + 1, a, args => do
    match args with
    | ['-', 'a'] :: rest =>
      let (b, rest) ← negation n rest
      conjunctionRest n (a && b) rest
    | rest => return (a, rest)
termination_by structural n => n

/-- A condition with `!` before it or not. Before a comparison operator `!` is an operand. -/
def negation : Nat → List Text → Condition
  | 0, _ => fail argumentExpected
  | n + 1, args => do
    match args with
    | ['!'] :: rest =>
      if binaryFollows args then primary n args
      else
        let (a, rest) ← negation n rest
        return (!a, rest)
    | args => primary n args
termination_by structural n => n

/-- A comparison, a condition in parentheses, a property, or a word that has only to be there. -/
def primary : Nat → List Text → Condition
  | 0, _ => fail argumentExpected
  | n + 1, args => do
    match args with
    | [] => fail argumentExpected
    | [arg] => return (!arg.isEmpty, [])
    | first :: second :: rest =>
      match BinaryTest.ofText? second, rest with
      | some op, b :: rest => return (← op.eval first b, rest)
      | _, _ =>
        if first = ['('] then
          let (a, rest) ← disjunction n (second :: rest)
          match rest with
          | [] => fail argumentExpected
          | [')'] :: rest => return (a, rest)
          | _ => fail (.usage "closing paren expected")
        else match UnaryTest.ofText? first with
          | some op => return (← op.eval second, rest)
          | none => return (!first.isEmpty, second :: rest)
termination_by structural n => n

end

/-- A number of steps that suffices for the given words: each word is met once, after a descent
through all levels. -/
def conditionBound (args : List Text) : Nat := 6 * (args.length + 1)

/-- The value of a condition. One or two words are decided by their number. -/
def condition (args : List Text) : ShellM Bool := do
  match args with
  | [] => return false
  | [a] => return !a.isEmpty
  | [['!'], a] => return a.isEmpty
  | args =>
    let (value, rest) ← disjunction (conditionBound args) args
    match rest with
    | [] => return value
    | extra :: _ => fail (.usage (extra ++ ": unexpected operator"))

/-- Sets the status that tells the value of a condition. -/
def runCondition (args : List Text) : ShellM Unit := do
  setStatus (if ← condition args then 0 else 1)

/-- `test condition` -/
def runTest (args : List Text) : ShellM Unit := runCondition args

/-- `[ condition ]` -/
def runBracket (args : List Text) : ShellM Unit :=
  match args.reverse with
  | [']'] :: rest => runCondition rest.reverse
  | _ => fail (.usage "missing ]")

end CommandShell.Commands
