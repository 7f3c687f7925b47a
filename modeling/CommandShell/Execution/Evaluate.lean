import CommandShell.Commands.Run
import CommandShell.Execution.Dispatch
import CommandShell.Execution.Source

/-!
# The evaluator

Ties together the modules that describe the constructs of the language. Every construct inside a
construct takes one step of depth, and a script nested deeper than the limit is given up.
-/

namespace CommandShell.Shell

/-- The evaluator for scripts nested up to a depth. -/
def evaluatorOf : Nat → Evaluator
  | 0 =>
    { node := fun _ _ => fail (.internal "nested too deeply")
      source := fun _ => fail (.internal "nested too deeply")
      command := fun _ => fail (.internal "nested too deeply")
      builtin := fun _ _ _ => fail (.internal "nested too deeply") }
  | depth + 1 =>
    { node := fun node place => runNode (evaluatorOf depth) node place
      source := fun t => runText (evaluatorOf depth) t
      command := fun args => runArguments (evaluatorOf depth) .empty args [] [] {}
      builtin := fun b name args => Commands.runBuiltin (evaluatorOf depth) b name args }

/-- The depth up to which scripts may be nested. -/
def depthLimit : Nat := 1000000000

/-- The evaluator. -/
def evaluator : Evaluator := evaluatorOf depthLimit

end CommandShell.Shell
