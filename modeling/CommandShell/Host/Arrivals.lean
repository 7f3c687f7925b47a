import CommandShell.Host.Call

/-!
# Signals that arrived

The handler of a caught signal does no more than set two marks: one for the signal, and one that
says that any signal arrived at all. The program looks at the marks when it is safe to act on
them. This file has the marks, the four ways to look at them, and what happens to a process that
does not catch a signal.
-/

namespace CommandShell.Host

/-- The marks that the handler sets. -/
structure Arrivals where
  /-- Whether any signal arrived since this was last cleared. -/
  any : Bool := false
  /-- The signals that arrived and were not handled yet. -/
  pending : List Signal := []
  deriving Repr

instance : Inhabited Arrivals := ⟨{}⟩

namespace Arrivals

/-- The handler: a signal has arrived. -/
def note (a : Arrivals) (s : Signal) : Arrivals :=
  { any := true, pending := if a.pending.contains s then a.pending else a.pending ++ [s] }

/-- Whether a signal waits to be handled. -/
def isPending (a : Arrivals) (s : Signal) : Bool := a.pending.contains s

/-- Takes a signal for handled. -/
def take (a : Arrivals) (s : Signal) : Arrivals :=
  { a with pending := a.pending.filter (· != s) }

end Arrivals

/-- What a signal does to a process that leaves it at the default. -/
inductive DefaultAction where
  | terminate | ignore | stop
  deriving DecidableEq, Repr

/-- The default action of a signal. -/
def defaultAction : Signal → DefaultAction
  | .chld | .cont | .urg | .winch => .ignore
  | .stop | .tstp | .ttin | .ttou => .stop
  | _ => .terminate

end CommandShell.Host
