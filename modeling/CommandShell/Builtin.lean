import CommandShell.Fault

/-!
# Built-in commands

The names of the commands that the shell runs itself. Special ones differ in two ways: an
assignment written before them outlives them, and their errors end a shell that is not
interactive.
-/

namespace CommandShell

/-- A command that the shell runs itself. -/
inductive Builtin where
  | colon | true_ | false_ | cd | pwd | echo | test | bracket | exec | exit | export_ | readonly
  | local_ | unset | read | set | shift | trap | umask | wait | jobs | fg | bg | kill | dot | eval
  | return_ | break_ | continue_ | alias_ | unalias | command | type | hash
  deriving DecidableEq, Repr

namespace Builtin

/-- Every built-in command with its name. -/
def table : List (String × Builtin) := [
  (":", colon), ("true", true_), ("false", false_), ("cd", cd), ("pwd", pwd), ("echo", echo),
  ("test", test), ("[", bracket), ("exec", exec), ("exit", exit), ("export", export_),
  ("readonly", readonly), ("local", local_), ("unset", unset), ("read", read), ("set", set),
  ("shift", shift), ("trap", trap), ("umask", umask), ("wait", wait), ("jobs", jobs), ("fg", fg),
  ("bg", bg), ("kill", kill), (".", dot), ("eval", eval), ("return", return_),
  ("break", break_), ("continue", continue_), ("alias", alias_), ("unalias", unalias),
  ("command", command), ("type", type), ("hash", hash)]

/-- The built-in command of a name. -/
def ofName? (name : Text) : Option Builtin :=
  (table.find? fun (b : String × Builtin) => b.1.toList == name).map (·.2)

/-- Whether the command is special. -/
def isSpecial : Builtin → Bool
  | colon | dot | break_ | continue_ | eval | exec | exit | export_ | readonly | return_ | set
  | shift | trap | unset => true
  | _ => false

/-- Takes the option letters of a cluster, all of which must be allowed. -/
def clusterOptions (allowed : Text) : Text → Except Fault (List Char)
  | [] => .ok []
  | c :: r =>
    if allowed.contains c then (clusterOptions allowed r).map (c :: ·)
    else .error (.usage ("Illegal option -" ++ [c]))

/-- Splits clusters of option letters off the front of a command's arguments. They end before
the first word that is no cluster and after `--`. -/
def takeOptions (allowed : Text) : List Text → Except Fault (List Char × List Text)
  | [] => .ok ([], [])
  | ['-', '-'] :: rest => .ok ([], rest)
  | ('-' :: c :: cs) :: rest =>
    match clusterOptions allowed (c :: cs) with
    | .error f => .error f
    | .ok opts => (takeOptions allowed rest).map fun (more, operands) => (opts ++ more, operands)
  | arg :: rest => .ok ([], arg :: rest)

end Builtin

end CommandShell
