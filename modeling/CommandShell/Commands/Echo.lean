import CommandShell.Shell.State

/-!
# The echo command

`echo` writes its arguments with blanks between them and always interprets backslash escapes.
`\c` ends the output there and then, without a newline.
-/

namespace CommandShell.Commands

open Shell

/-- The character that a backslash and a letter stand for. -/
def controlChar? : Char → Option Char
  | 'a' => some '\x07'
  | 'b' => some '\x08'
  | 'e' => some '\x1b'
  | 'f' => some '\x0c'
  | 'n' => some '\n'
  | 'r' => some '\r'
  | 't' => some '\t'
  | 'v' => some '\x0b'
  | '\\' => some '\\'
  | _ => none

/-- The number that octal digits spell. -/
def octalValue (digits : Text) : Nat := (Numeral.digits? 8 0 digits).getD 0

/-- An octal digit. -/
def isOctalDigit (c : Char) : Bool := '0' ≤ c && c ≤ '7'

/-- A text with its escapes replaced, and whether it told to stop. -/
def unescape : Text → Text × Bool
  | [] => ([], false)
  | ['\\'] => (['\\'], false)
  | '\\' :: 'c' :: _ => ([], true)
  | '\\' :: '0' :: rest =>
    let digits := (rest.take 3).takeWhile isOctalDigit
    let (t, stop) := unescape (rest.drop digits.length)
    (Text.byteChar (UInt8.ofNat (octalValue digits)) :: t, stop)
  | '\\' :: c :: rest =>
    let (t, stop) := unescape rest
    match controlChar? c with
    | some d => (d :: t, stop)
    | none => ('\\' :: c :: t, stop)
  | c :: rest =>
    let (t, stop) := unescape rest
    (c :: t, stop)
termination_by t => t.length
decreasing_by all_goals simp; try omega

/-- The arguments with their escapes replaced and blanks between them, and whether one of them
told to stop. -/
def echoWords : List Text → Text × Bool
  | [] => ([], false)
  | [arg] => unescape arg
  | arg :: more :: rest =>
    match unescape arg with
    | (t, true) => (t, true)
    | (t, false) =>
      let (u, stop) := echoWords (more :: rest)
      (t ++ ' ' :: u, stop)

/-- What `echo` writes. -/
def echoText (args : List Text) : Text :=
  match args with
  | ['-', 'n'] :: words => (echoWords words).1
  | words =>
    match echoWords words with
    | (t, true) => t
    | (t, false) => t ++ "\n"

/-- `echo [-n] [argument…]` -/
def runEcho (args : List Text) : ShellM Unit := do
  writeOut (echoText args)
  setStatus 0

end CommandShell.Commands
