import CommandShell.Execution.Call
import CommandShell.Execution.CommandPath

/-!
# Control commands

Commands that leave what is running: the shell, a function, loops. And commands that run a text or
a file in the current shell.
-/

namespace CommandShell.Commands

open Shell

/-- The error of a bad numeric operand. -/
def illegalNumber (arg : Text) : Fault := .usage ("Illegal number: " ++ arg)

/-- The status that `exit` and `return` are given, or the last one. -/
def statusOperand (args : List Text) : ShellM Int := do
  match args with
  | [] => return (← get).status
  | arg :: _ =>
    match Numeral.count? arg with
    | some (.ofNat n) => return (n % 256 : Nat)
    | _ => fail (illegalNumber arg)

/-- `exit [status]` -/
def runExit (args : List Text) : ShellM Unit := do
  jump (.exit (← statusOperand args))

/-- `return [status]`, from a function or a sourced file. -/
def runReturn (args : List Text) : ShellM Unit := do
  let code ← statusOperand args
  let sh ← get
  if sh.functionDepth = 0 && sh.sourceDepth = 0 then fail (.execution "not in a function")
  jump (.returning code)

/-- The number of loops that `break` and `continue` are given. -/
def levelsOperand (args : List Text) : ShellM Nat :=
  match args with
  | [] => return 1
  | arg :: _ =>
    match Numeral.count? arg with
    | some (.ofNat (n + 1)) => return n + 1
    | _ => fail (illegalNumber arg)

/-- Leaves loops by a jump that is made for their number; outside of loops nothing happens. -/
def leaveLoops (target : Nat → Jump) (args : List Text) : ShellM Unit := do
  let levels ← levelsOperand args
  setStatus 0
  let depth := (← get).loopDepth
  if depth ≠ 0 then jump (target (min levels depth))

/-- `break [n]` -/
def runBreak (args : List Text) : ShellM Unit := leaveLoops .breaking args

/-- `continue [n]` -/
def runContinue (args : List Text) : ShellM Unit := leaveLoops .continuing args

/-- `shift [n]` -/
def runShift (args : List Text) : ShellM Unit := do
  let count ← match args with
    | [] => pure 1
    | arg :: _ => match Numeral.count? arg with
      | some (.ofNat n) => pure n
      | _ => fail (illegalNumber arg)
  updateVariables fun vs => match vs.shift? count with
    | none => .error (.execution "can't shift that many")
    | some vs => .ok vs
  setStatus 0

/-- `eval [argument…]` -/
def runEval (ev : Evaluator) (args : List Text) : ShellM Unit := do
  let text := Text.join " " args
  setStatus 0
  if !(Text.trim text).isEmpty then ev.source text

/-- The first of the given paths that leads to a regular file. -/
def firstRegular? : List Text → ShellM (Option Text)
  | [] => return none
  | path :: rest => do if ← isRegularFile path then return some path else firstRegular? rest

/-- The path of a file to be sourced: a name without a slash is searched for in `PATH`. -/
def sourcePath (name : Text) : ShellM Text := do
  if name.contains '/' then return name
  let searchPath := ((← get).value? "PATH").getD []
  return (← firstRegular? (candidates name searchPath)).getD name

/-- The text of a file to be sourced. -/
def sourceText (name : Text) : ShellM Text := do
  match ← readFile (← sourcePath name) with
  | .ok data => return Text.decode data
  | .error e =>
    let e := if e = .unknown then .noEntry else e
    fail (.execution ("cannot open " ++ name ++ ": " ++ e.description))

/-- Runs a computation with positional parameters of its own, if there are any. -/
def withParams (params : List Text) (body : ShellM (Except Stop Unit)) :
    ShellM (Except Stop Unit) := do
  if params.isEmpty then body
  else
    let saved := (← get).variables.params
    modifyVariables (·.withParams params)
    let result ← body
    modifyVariables (·.withParams saved)
    return result

/-- `. file [argument…]` -/
def runDot (ev : Evaluator) (args : List Text) : ShellM Unit := do
  match args with
  | [] => fail (.usage "filename argument required")
  | name :: params =>
    let text ← sourceText name
    let result ← withParams params do
      modify fun sh => { sh with sourceDepth := sh.sourceDepth + 1 }
      setStatus 0
      let result ← attempt (ev.source text)
      modify fun sh => { sh with sourceDepth := sh.sourceDepth - 1 }
      return result
    takeReturn result

end CommandShell.Commands
