import CommandShell.Shell.State

/-!
# Prompts

Backslash escapes in prompt texts: the user, the working directory with the home directory
written as a tilde, control characters, and characters by octal number. The system interface has
neither a clock nor the name of the host, so the escapes for these show nothing.
-/

namespace CommandShell.Expansion

open Shell

/-- The path with the home directory at its start written as `~`. -/
def abbreviateHome (sh : Shell) (path : Text) : Text :=
  match sh.value? "HOME" with
  | none => path
  | some home =>
    if home.isEmpty || home = ['/'] then path
    else match Text.dropPrefix? home path with
      | some [] => "~"
      | some ('/' :: rest) => "~/" ++ rest
      | _ => path

/-- The part of a path after its last slash. -/
def lastName (path : Text) : Text := (path.reverse.takeWhile (· != '/')).reverse

/-- The working directory as a prompt shows it, whole or only its last name. -/
def promptDirectory (sh : Shell) (whole : Bool) : Text :=
  let path := abbreviateHome sh ((sh.value? "PWD").getD [])
  if whole || path = ['/'] || path = ['~'] then path else lastName path

/-- The character with an octal number, or the digits themselves when the number is too large. -/
def octalChar (digits : Text) : Text :=
  match Numeral.below? 8 256 digits with
  | some n => [Char.ofNat n]
  | none => digits

/-- An octal digit. -/
def isOctal (c : Char) : Bool := '0' ≤ c && c ≤ '7'

/-- What the escape of a character shows. -/
def promptEscape (sh : Shell) (user : Text) (c : Char) : Text :=
  match c with
  | 'u' => user
  | 'w' => promptDirectory sh true
  | 'W' => promptDirectory sh false
  | '$' => "#"
  | 'n' => "\n"
  | 'r' => "\r"
  | 'a' => ['\x07']
  | 'e' => ['\x1b']
  | 's' => lastName sh.name
  | '\\' => "\\"
  | '[' | ']' | 'h' | 'H' | 't' | 'T' | 'A' | '@' | 'd' => []
  | c => ['\\', c]

/-- A prompt text with its escapes replaced. -/
def promptText (sh : Shell) (user : Text) : Text → Text
  | [] => []
  | ['\\'] => ['\\']
  | '\\' :: c :: rest =>
    if isOctal c then
      let more := (rest.take 2).takeWhile isOctal
      octalChar (c :: more) ++ promptText sh user (rest.drop more.length)
    else promptEscape sh user c ++ promptText sh user rest
  | c :: rest => c :: promptText sh user rest
termination_by raw => raw.length
decreasing_by all_goals simp; try omega

/-- Replaces the escapes of a prompt. -/
def prompt (raw : Text) : ShellM Text := do
  let sh ← get
  let user ← match sh.value? "USER" with
    | some u => pure u
    | none => pure (((← ask .userName).map Text.decode).getD [])
  return promptText sh user raw

end CommandShell.Expansion
