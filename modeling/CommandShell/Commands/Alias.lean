import CommandShell.Builtin
import CommandShell.Shell.State

/-!
# Alias commands

`alias` defines and lists aliases, in a form that the shell can read back; `unalias` removes them.
A name that is not defined is reported, and the others are seen to all the same.
-/

namespace CommandShell.Commands

open Shell

/-- An alias as a listing shows it. -/
def aliasLine (name value : Text) : Text := name ++ "=" ++ Text.quote value ++ "\n"

/-- Defines or lists one alias. The result is the status. -/
def aliasOperand (arg : Text) : ShellM Int := do
  match Text.cut? '=' arg with
  | some (c :: name, value) =>
    modifyDefinitions (·.setAlias (c :: name) value)
    return 0
  | _ =>
    match (← get).definitions.aliases.get? arg with
    | some value =>
      writeOut (aliasLine arg value)
      return 0
    | none =>
      report ("alias: " ++ arg ++ " not found")
      return 1

/-- Removes one alias. The result is the status. -/
def unaliasOperand (name : Text) : ShellM Int := do
  if (← get).definitions.aliases.has name then
    modifyDefinitions (·.removeAlias name)
    return 0
  else
    report ("unalias: " ++ name ++ " not found")
    return 1

/-- Sees to each operand, and sets the last status that was not 0. -/
def eachOperand (f : Text → ShellM Int) (status : Int) : List Text → ShellM Unit
  | [] => setStatus status
  | arg :: rest => do
    let code ← f arg
    eachOperand f (if code = 0 then status else code) rest

/-- `alias [name[=value]…]` -/
def runAlias (args : List Text) : ShellM Unit := do
  if args.isEmpty then
    writeOut ((← get).definitions.aliases.toList.flatMap fun (name, value) => aliasLine name value)
    setStatus 0
  else eachOperand aliasOperand 0 args

/-- `unalias [-a] name…` -/
def runUnalias (args : List Text) : ShellM Unit := do
  let (opts, names) ← ofExcept (Builtin.takeOptions "a" args)
  if opts.contains 'a' then
    modifyDefinitions (·.clearAliases)
    setStatus 0
  else eachOperand unaliasOperand 0 names

end CommandShell.Commands
