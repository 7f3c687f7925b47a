import CommandShell.Text.Name
import CommandShell.Numeral

/-!
# Signals

The signals of the system by name and number. Number 0 is no signal: as a trap condition it
stands for the shell's own exit.
-/

namespace CommandShell

/-- A signal that can be sent to a process. -/
inductive Signal where
  | hup | int | quit | ill | trap | abrt | bus | fpe | kill | usr1 | segv | usr2 | pipe | alrm
  | term | stkflt | chld | cont | stop | tstp | ttin | ttou | urg | xcpu | xfsz | vtalrm | prof
  | winch | io | pwr | sys
  deriving DecidableEq, Repr

namespace Signal

/-- Every signal, by number from 1. -/
def all : List Signal :=
  [hup, int, quit, ill, trap, abrt, bus, fpe, kill, usr1, segv, usr2, pipe, alrm, term, stkflt,
    chld, cont, stop, tstp, ttin, ttou, urg, xcpu, xfsz, vtalrm, prof, winch, io, pwr, sys]

/-- The number of a signal. -/
def number : Signal → Nat
  | hup => 1 | int => 2 | quit => 3 | ill => 4 | trap => 5 | abrt => 6 | bus => 7 | fpe => 8
  | kill => 9 | usr1 => 10 | segv => 11 | usr2 => 12 | pipe => 13 | alrm => 14 | term => 15
  | stkflt => 16 | chld => 17 | cont => 18 | stop => 19 | tstp => 20 | ttin => 21 | ttou => 22
  | urg => 23 | xcpu => 24 | xfsz => 25 | vtalrm => 26 | prof => 27 | winch => 28 | io => 29
  | pwr => 30 | sys => 31

/-- The name of a signal, without the letters `SIG`. -/
def name : Signal → Text
  | hup => "HUP" | int => "INT" | quit => "QUIT" | ill => "ILL" | trap => "TRAP"
  | abrt => "ABRT" | bus => "BUS" | fpe => "FPE" | kill => "KILL" | usr1 => "USR1"
  | segv => "SEGV" | usr2 => "USR2" | pipe => "PIPE" | alrm => "ALRM" | term => "TERM"
  | stkflt => "STKFLT" | chld => "CHLD" | cont => "CONT" | stop => "STOP" | tstp => "TSTP"
  | ttin => "TTIN" | ttou => "TTOU" | urg => "URG" | xcpu => "XCPU" | xfsz => "XFSZ"
  | vtalrm => "VTALRM" | prof => "PROF" | winch => "WINCH" | io => "IO" | pwr => "PWR"
  | sys => "SYS"

/-- The signal with the given number. -/
def ofNumber? (n : Int) : Option Signal := all.find? fun s => (s.number : Int) == n

/-- What is said of a process that died of the signal. -/
def description : Signal → Text
  | hup => "Hangup" | int => "Interrupt" | quit => "Quit" | ill => "Illegal instruction"
  | trap => "Trace/breakpoint trap" | abrt => "Aborted" | bus => "Bus error"
  | fpe => "Floating point exception" | kill => "Killed" | usr1 => "User defined signal 1"
  | segv => "Segmentation fault" | usr2 => "User defined signal 2" | pipe => "Broken pipe"
  | alrm => "Alarm clock" | term => "Terminated" | xcpu => "CPU time limit exceeded"
  | xfsz => "File size limit exceeded" | vtalrm => "Virtual timer expired"
  | prof => "Profiling timer expired" | sys => "Bad system call" | _ => "Killed by signal"

/-- Signals that no process can catch or ignore. -/
def uncatchable : Signal → Bool
  | kill | stop => true
  | _ => false

/-- The number that a text names: a signal by number or by name in any case with or without
`SIG`, or 0 for the shell's exit. -/
def numberOf? (t : Text) : Option Nat :=
  if t.isDigits then
    (Numeral.int32? t).bind fun n =>
      if n = 0 then some 0 else (ofNumber? n).map number
  else
    let upper := t.toUpper
    let bare := (Text.dropPrefix? "SIG" upper).getD upper
    if bare = "EXIT" then some 0 else (all.find? fun s => s.name == bare).map number

/-- The name of a signal number: `EXIT` for 0, the numeral itself for no signal. -/
def nameOf (n : Int) : Text :=
  if n = 0 then "EXIT"
  else match ofNumber? n with
    | some s => s.name
    | none => Text.ofInt n

end Signal

end CommandShell
