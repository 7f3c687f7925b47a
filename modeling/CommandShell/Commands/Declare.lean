import CommandShell.Builtin
import CommandShell.Shell.State

/-!
# Declaring variables

`export` and `readonly` give variables a flag and perhaps a value, `local` shadows them until the
function ends, and `unset` removes them. The first operand that is refused ends the command.
-/

namespace CommandShell.Commands

open Shell

/-- The flags that `export` and `readonly` set. -/
inductive DeclareFlag where
  | exported | readOnly
  deriving DecidableEq, Repr

namespace DeclareFlag

/-- The command that sets the flag. -/
def command : DeclareFlag → Text
  | exported => "export"
  | readOnly => "readonly"

/-- Whether a variable has the flag. -/
def isOn (v : Variable) : DeclareFlag → Bool
  | exported => v.exported
  | readOnly => v.readOnly

end DeclareFlag

/-- An operand as a name and perhaps a value. -/
def splitOperand (arg : Text) : Text × Option Text :=
  match Text.cut? '=' arg with
  | some (name, value) => (name, some value)
  | none => (arg, none)

/-- The error of an operand that is no name. -/
def badName (name : Text) : Fault := .execution (name ++ ": bad variable name")

/-- A variable with a flag as a listing shows it. -/
def declaredLine (flag : DeclareFlag) (name : Text) (v : Variable) : Text :=
  match v.value with
  | some value => flag.command ++ " " ++ name ++ "=" ++ Text.quote value ++ "\n"
  | none => flag.command ++ " " ++ name ++ "\n"

/-- Gives one variable a flag and perhaps a value. -/
def declareOperand (flag : DeclareFlag) (arg : Text) : ShellM Unit := do
  let (name, value) := splitOperand arg
  if !Text.isName name then fail (badName name)
  updateVariables (·.assignWith name value (flag == .exported) (flag == .readOnly))
  if name = "PATH" && value.isSome then modifyDefinitions (·.forgetAll)

/-- `export [-p] [name[=value]…]` and `readonly [-p] [name[=value]…]` -/
def runDeclare (flag : DeclareFlag) (args : List Text) : ShellM Unit := do
  let (_, operands) ← ofExcept (Builtin.takeOptions "p" args)
  if operands.isEmpty then
    let flagged := (← get).variables.bindings.toList.filter fun b => flag.isOn b.2
    writeOut (flagged.flatMap fun (name, v) => declaredLine flag name v)
  else operands.forM (declareOperand flag)
  setStatus 0

/-- Shadows one variable and perhaps gives it a value. -/
def localOperand (arg : Text) : ShellM Unit := do
  let (name, value) := splitOperand arg
  if !Text.isName name then fail (badName name)
  updateVariables (·.shadow name)
  match value with
  | some v => assignVariable name v
  | none => pure ()

/-- `local name[=value]…` -/
def runLocal (args : List Text) : ShellM Unit := do
  if (← get).functionDepth = 0 then fail (.execution "not in a function")
  args.forM localOperand
  setStatus 0

/-- Removes one variable or function. Without an option a variable goes first. -/
def unsetOperand (functionsOnly variablesOnly : Bool) (name : Text) : ShellM Unit := do
  if !functionsOnly && (variablesOnly || ((← get).variables.get? name).isSome) then
    unsetVariable name
  else modifyDefinitions (·.removeFunction name)

/-- `unset [-f|-v] name…` -/
def runUnset (args : List Text) : ShellM Unit := do
  let (opts, names) ← ofExcept (Builtin.takeOptions "fv" args)
  names.forM (unsetOperand (opts.contains 'f') (opts.contains 'v'))
  setStatus 0

end CommandShell.Commands
