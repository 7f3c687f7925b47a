import CommandShell.Builtin
import CommandShell.Commands.Alias
import CommandShell.Commands.Condition
import CommandShell.Commands.Control
import CommandShell.Commands.Declare
import CommandShell.Commands.Describe
import CommandShell.Commands.Directory
import CommandShell.Commands.Echo
import CommandShell.Commands.Exec
import CommandShell.Commands.JobControl
import CommandShell.Commands.Read
import CommandShell.Commands.Settings
import CommandShell.Commands.Trap
import CommandShell.Commands.Umask

/-!
# Running built-in commands

Each built-in command is one computation on its arguments. What goes wrong in it is reported under
its name and becomes its status; in a special built-in command it also ends a shell that is not
interactive. Jumps pass through.
-/

namespace CommandShell.Commands

open Shell

/-- What a built-in command does, errors and all. -/
def action (ev : Evaluator) (b : Builtin) (args : List Text) : ShellM Unit :=
  match b with
  | .colon | .true_ => setStatus 0
  | .false_ => setStatus 1
  | .cd => runCd args
  | .pwd => runPwd args
  | .echo => runEcho args
  | .test => runTest args
  | .bracket => runBracket args
  | .exec => runExec ev args [] []
  | .exit => runExit args
  | .export_ => runDeclare .exported args
  | .readonly => runDeclare .readOnly args
  | .local_ => runLocal args
  | .unset => runUnset args
  | .read => runRead args
  | .set => runSet args
  | .shift => runShift args
  | .trap => runTrapCommand args
  | .umask => runUmask args
  | .wait => runWait args
  | .jobs => runJobs args
  | .fg => runFg args
  | .bg => runBg args
  | .kill => runKill args
  | .dot => runDot ev args
  | .eval => runEval ev args
  | .return_ => runReturn args
  | .break_ => runBreak args
  | .continue_ => runContinue args
  | .alias_ => runAlias args
  | .unalias => runUnalias args
  | .command => runCommand ev args
  | .type => runType args
  | .hash => runHash args

/-- Runs a built-in command, which was called by a name. -/
def runBuiltin (ev : Evaluator) (b : Builtin) (name : Text) (args : List Text) : ShellM Unit := do
  match ← attempt (action ev b args) with
  | .ok () => return
  | .error s =>
    if s.isJump then throw s
    report (name ++ ": " ++ s.message)
    setStatus s.status
    if b.isSpecial && !(← get).isInteractive then jump (.exit s.status)

end CommandShell.Commands
