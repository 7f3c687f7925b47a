import CommandShell.Expansion.Field
import CommandShell.Script.Tree
import CommandShell.Shell.State

/-!
# Parameters

What `$name` and `${name…}` stand for: variables, positional parameters, and the special
parameters that the shell keeps itself. The word after an operator is expanded only when it is
needed, and in a context that depends on the operator, so that it is passed as a function of the
context here.
-/

namespace CommandShell.Expansion

open Script (ParamOp)

/-- Where a part of a word stands. -/
inductive Quoting where
  /-- Outside quotes. -/
  | bare
  /-- Outside quotes in the word of a parameter expansion, so that it may be cut into fields. -/
  | splitting
  /-- Inside double quotes. -/
  | quoted
  deriving DecidableEq, Repr

/-- Whether a name stands for all positional parameters. -/
def isAllParams (name : Text) : Bool := name == ['@'] || name == ['*']

/-- The value of a parameter. All positional parameters come joined by blanks. -/
def parameter? (sh : Shell) (name : Text) : Option Text :=
  match name with
  | ['#'] => some (Text.ofNat sh.variables.params.length)
  | ['?'] => some (Text.ofInt sh.status)
  | ['-'] => some sh.options.letters
  | ['$'] => some (Text.ofInt sh.pid)
  | ['!'] => sh.lastBackground.map Text.ofInt
  | ['0'] => some sh.name
  | ['@'] | ['*'] => some (Text.join " " sh.variables.params)
  | _ =>
    if Text.isDigits name then (Numeral.word64? name).bind sh.variables.param?
    else sh.value? name

/-- Whether a parameter is set. -/
def isSet (sh : Shell) (name : Text) : Bool :=
  if isAllParams name then !sh.variables.params.isEmpty else (parameter? sh name).isSome

/-- The separators that cut text into fields. -/
def fieldSeparators (sh : Shell) : Text := (sh.value? "IFS").getD " \t\n"

/-- What stands between the positional parameters in `"$*"`: the first separator. -/
def starSeparator (sh : Shell) : Text :=
  match sh.value? "IFS" with
  | some ifs => ifs.take 1
  | none => " "

/-- The pieces of all positional parameters. -/
def paramPieces (sh : Shell) (name : Text) (inQuotes : Bool) : List Piece :=
  let params := sh.variables.params
  if name = ['*'] && inQuotes then [.substituted (Text.join (starSeparator sh) params) true]
  else (params.map fun p => Piece.substituted p inQuotes).intersperse .fieldBreak

/-- The pieces of a parameter with a value. -/
def valuePieces (sh : Shell) (name value : Text) (inQuotes : Bool) : List Piece :=
  if isAllParams name then paramPieces sh name inQuotes else [.substituted value inQuotes]

/-- The part of a value that an operator removes. -/
def trimOf? : ParamOp → Option Pattern.Trim
  | .trimPrefix => some .shortestPrefix
  | .trimPrefixLong => some .longestPrefix
  | .trimSuffix => some .shortestSuffix
  | .trimSuffixLong => some .longestSuffix
  | _ => none

/-- The error of `set -u`. -/
def notSet (name : Text) : Fault := .expansion (name ++ ": parameter not set")

/-- What `${name?}` says without a word. -/
def missingMessage (colon : Bool) : Text :=
  if colon then "parameter null or not set" else "parameter not set"

open Shell in
/-- The pieces of a parameter expansion. `arg` expands the word after the operator, and `hasArg`
tells whether there is one. -/
def expandParameter (name : Text) (op : ParamOp) (colon inQuotes hasArg : Bool)
    (arg : Quoting → ShellM (List Piece)) : ShellM (List Piece) := do
  let sh ← get
  let set := isSet sh name
  let value := (parameter? sh name).getD []
  let usable := set && !(colon && value.isEmpty)
  let present := valuePieces sh name value inQuotes
  match op with
  | .plain | .length =>
    if !set && !isAllParams name && sh.has .nounset then fail (notSet name)
    if op = .plain then return present
    let count := if isAllParams name then sh.variables.params.length else value.length
    return [.substituted (Text.ofNat count) inQuotes]
  | .default =>
    if usable then return present
    arg (if inQuotes then .quoted else .splitting)
  | .alternative =>
    if !usable then return []
    arg (if inQuotes then .quoted else .splitting)
  | .assign =>
    if usable then return present
    if !Text.isName name then fail (.expansion (name ++ ": cannot assign in this way"))
    let new := Piece.joined (← arg .quoted)
    assignVariable name new
    return [.substituted new inQuotes]
  | .error =>
    if usable then return present
    let message ← if hasArg then Piece.joined <$> arg .quoted else pure (missingMessage colon)
    fail (.expansion (name ++ ": " ++ message))
  | _ =>
    if !set && sh.has .nounset then fail (notSet name)
    let pattern := Piece.toPattern (← arg .bare)
    let trimmed := match trimOf? op with
      | some t => Pattern.trim t value pattern
      | none => value
    return [.substituted trimmed inQuotes]

end CommandShell.Expansion
