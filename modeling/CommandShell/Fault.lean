import CommandShell.Errno

/-!
# Faults and jumps

Running a command can stop short in two ways. A *fault* is an error: it has a message, a class
and the exit status a command gets when it fails so. A *jump* is no error: `exit`, `return`,
`break`, `continue`, or an interrupt, on its way to the construct that takes it. A fault may
know the line of input that it happened on; a jump has no line.
-/

namespace CommandShell

/-- The cause of an error, with what its message shows. -/
inductive Fault where
  /-- The input is not a program. -/
  | malformed (what : Text)
  /-- A word could not be expanded. -/
  | expansion (what : Text)
  /-- No command of that name. -/
  | commandNotFound (name : Text)
  /-- The command's file may not be executed. -/
  | permissionDenied (name : Text)
  /-- An assignment to a read-only variable. -/
  | readOnly (name : Text)
  /-- A redirection names a descriptor that is not open. -/
  | badDescriptor (number : Text)
  /-- A redirection failed. -/
  | redirection (what : Text)
  /-- Reading or writing failed. -/
  | inputOutput (errno : Errno)
  /-- Reading or writing was refused before the system was asked. -/
  | refused (what : Text)
  /-- A system call failed. -/
  | system (errno : Errno)
  /-- A command could not do its work. -/
  | execution (what : Text)
  /-- A built-in command was called with bad arguments. -/
  | usage (what : Text)
  /-- The shell is in a state it never reaches. -/
  | internal (what : Text)
  /-- The shell cannot go on. -/
  | fatal (what : Text)
  deriving DecidableEq, Repr

/-- A change of control that is no error. -/
inductive Jump where
  /-- The shell ends with a status. -/
  | exit (code : Int)
  /-- The function or sourced file ends with a status. -/
  | returning (code : Int)
  /-- That many enclosing loops end. -/
  | breaking (levels : Nat)
  /-- That many enclosing loops are left, the last one for its next round. -/
  | continuing (levels : Nat)
  /-- An interrupt reached an interactive shell. -/
  | interrupted
  deriving DecidableEq, Repr

/-- Why the running of a command stopped short. -/
inductive Stop where
  /-- An error, with the line it is blamed on once one is known. -/
  | fault (cause : Fault) (line : Option Nat)
  /-- A jump. -/
  | jump (target : Jump)
  deriving DecidableEq, Repr

/-- How the command loop takes a stop. -/
inductive StopClass where
  | malformed | expansion | execution | fatal | jump
  deriving DecidableEq, Repr

namespace Fault

/-- The message of a fault. -/
def message : Fault → Text
  | malformed what => "syntax error: " ++ what
  | expansion what => what
  | commandNotFound name => name ++ ": not found"
  | permissionDenied name => name ++ ": Permission denied"
  | readOnly name => name ++ ": is read only"
  | badDescriptor n => n ++ ": Bad file descriptor"
  | redirection what => what
  | inputOutput e => e.systemWording ++ " (os error " ++ Text.ofNat e.number ++ ")"
  | refused what => what
  | system e => e.description
  | execution what => what
  | usage what => what
  | internal what => "internal error: " ++ what
  | fatal what => what

/-- The status of a command that failed so. -/
def status : Fault → Int
  | malformed _ | usage _ | fatal _ => 2
  | commandNotFound _ => 127
  | permissionDenied _ => 126
  | _ => 1

/-- The class of a fault. -/
def stopClass : Fault → StopClass
  | malformed _ => .malformed
  | expansion _ => .expansion
  | fatal _ => .fatal
  | _ => .execution

end Fault

/-- The status that a jump carries. -/
def Jump.status : Jump → Int
  | .exit code | .returning code => code
  | .breaking _ | .continuing _ => 1
  | .interrupted => 130

namespace Stop

/-- A fault that no line is blamed for yet. -/
def ofFault (f : Fault) : Stop := .fault f none

instance : Coe Fault Stop := ⟨ofFault⟩
instance : Coe Jump Stop := ⟨Stop.jump⟩

/-- Blames a line for a fault that has none yet. Jumps are never blamed. -/
def blame (line : Nat) : Stop → Stop
  | .fault f none => .fault f (some line)
  | s => s

/-- The blamed line. -/
def line? : Stop → Option Nat
  | .fault _ l => l
  | .jump _ => none

/-- The status of a command that stopped so. -/
def status : Stop → Int
  | .fault f _ => f.status
  | .jump j => j.status

/-- The class of a stop. -/
def stopClass : Stop → StopClass
  | .fault f _ => f.stopClass
  | .jump _ => .jump

/-- Whether the stop is a jump. -/
def isJump : Stop → Bool
  | .jump _ => true
  | .fault .. => false

/-- Whether the input was not a program. -/
def isMalformed (s : Stop) : Bool := s.stopClass == .malformed

/-- Whether the shell cannot go on. -/
def isFatal (s : Stop) : Bool := s.stopClass == .fatal

/-- The message without a line; jumps have none. -/
def message : Stop → Text
  | .fault f _ => f.message
  | .jump _ => []

/-- The message, after the blamed line if there is one. -/
def text (s : Stop) : Text :=
  match s.line? with
  | some n => Text.ofNat n ++ ": " ++ s.message
  | none => s.message

end Stop

end CommandShell
