import CommandShell.Builtin
import CommandShell.Shell.State

/-!
# Evaluators

Commands run commands: a function call, a command substitution, a trap and `eval` all start over
with another piece of script. The modules that describe one construct each take the evaluator
for such pieces as an argument, and `CommandShell.Execution.Evaluate` ties them together.
-/

namespace CommandShell

open Script (Node)

/-- What is known of the place where a command runs. -/
structure Place where
  /-- The process has nothing to do after the command. -/
  isLast : Bool := false
  /-- The status of the command is asked for, so that `set -e` leaves a failure alone. -/
  isTested : Bool := false
  deriving DecidableEq, Repr

namespace Place

/-- The place of a command that is followed by another one. -/
def notLast (p : Place) : Place := { p with isLast := false }

/-- The place of a command whose status is asked for. -/
def tested (p : Place) : Place := { p.notLast with isTested := true }

end Place

/-- How to run pieces of script. -/
structure Evaluator where
  /-- Runs a command. -/
  node : Node → Place → ShellM Unit
  /-- Runs a text as a script in the current shell. -/
  source : Text → ShellM Unit
  /-- Runs the command that the given words name, functions left out. -/
  command : List Text → ShellM Unit
  /-- Runs a built-in command, which was called by a name, on arguments. -/
  builtin : Builtin → Text → List Text → ShellM Unit

end CommandShell
