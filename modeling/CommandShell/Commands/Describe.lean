import CommandShell.Builtin
import CommandShell.Execution.CommandPath
import CommandShell.Execution.Evaluator
import CommandShell.Script.Token

/-!
# What names mean

`type` and `command -v` tell what a command name stands for, in the order in which the shell
itself looks: keyword, alias, function, built-in command, file. `command` runs a command without
looking at functions, and `hash` shows and fills the table of remembered paths.
-/

namespace CommandShell.Commands

open Shell

/-- A name with what it is, or the short answer. -/
def described (verbose : Bool) (name what : Text) (short : Text) : Option Text :=
  some (if verbose then name ++ " is " ++ what else short)

/-- What a command name stands for; none when it is nothing. -/
def describe? (verbose : Bool) (name : Text) : ShellM (Option Text) := do
  let sh ← get
  let d := sh.definitions
  if Script.keywords.contains name then return described verbose name "a shell keyword" name
  if let some value := d.aliases.get? name then
    return described verbose name ("an alias for " ++ value)
      ("alias " ++ name ++ "=" ++ Text.quote value)
  if d.functions.has name then return described verbose name "a shell function" name
  if let some b := Builtin.ofName? name then
    let kind : Text := if b.isSpecial then "a special shell builtin" else "a shell builtin"
    return described verbose name kind name
  if name.contains '/' then
    if ← isExecutable (Text.decode (Text.utf8 name)) then return described verbose name name name
    return none
  if let some path := d.paths.get? name then
    return described verbose name ("a tracked alias for " ++ Text.shown path) (Text.shown path)
  match ← findInPath name ((sh.value? "PATH").getD []) with
  | .found path => return described verbose name (Text.shown path) (Text.shown path)
  | _ => return none

/-- Tells what each name stands for. -/
def describeAll (verbose : Bool) (status : Int) : List Text → ShellM Unit
  | [] => setStatus status
  | name :: rest => do
    match ← describe? verbose name with
    | some line =>
      writeOut (line ++ "\n")
      describeAll verbose status rest
    | none =>
      if verbose then writeErr (name ++ ": not found\n")
      describeAll verbose 127 rest

/-- `command [-v|-V] name [argument…]` -/
def runCommand (ev : Evaluator) (args : List Text) : ShellM Unit := do
  let (opts, rest) ← ofExcept (Builtin.takeOptions "vV" args)
  if rest.isEmpty then setStatus 0
  else if opts.contains 'V' then describeAll true 0 rest
  else if opts.contains 'v' then describeAll false 0 rest
  else ev.command rest

/-- `type name…` -/
def runType (args : List Text) : ShellM Unit := describeAll true 0 args

/-- Searches for one command anew. The result is the status. -/
def hashOperand (name : Text) : ShellM Int := do
  let d := (← get).definitions
  if name.contains '/' || (Builtin.ofName? name).isSome || d.functions.has name then return 0
  modifyDefinitions (·.forget name)
  match ← attempt (resolvePath name) with
  | .ok _ => return 0
  | .error s =>
    report ("hash: " ++ s.message)
    return 1

/-- Searches for commands anew, and sets the status that tells whether all were found. -/
def hashOperands (status : Int) : List Text → ShellM Unit
  | [] => setStatus status
  | name :: rest => do
    let code ← hashOperand name
    hashOperands (if code = 0 then status else code) rest

/-- `hash [-r] [name…]` -/
def runHash (args : List Text) : ShellM Unit := do
  let (opts, names) ← ofExcept (Builtin.takeOptions "r" args)
  if opts.contains 'r' then modifyDefinitions (·.forgetAll)
  if names.isEmpty then
    if !opts.contains 'r' then
      writeOut ((← get).definitions.paths.toList.flatMap fun b => Text.shown b.2 ++ "\n")
    setStatus 0
  else hashOperands 0 names

end CommandShell.Commands
