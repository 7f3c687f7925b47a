import CommandShell.Text

/-!
# Shell options

The ten options of the shell, each with a letter and a long name, and sets of them. Lists of
options always come in the order of `ShellOption.all`.
-/

namespace CommandShell

/-- An option that `set` or the command line can turn on. -/
inductive ShellOption where
  | allexport | errexit | interactive | monitor | noclobber
  | noexec | noglob | nounset | verbose | xtrace
  deriving DecidableEq, Repr

namespace ShellOption

/-- Every option, in listing order. -/
def all : List ShellOption :=
  [allexport, errexit, interactive, monitor, noclobber, noexec, noglob, nounset, verbose, xtrace]

/-- The letter of an option. -/
def letter : ShellOption → Char
  | allexport => 'a' | errexit => 'e' | interactive => 'i' | monitor => 'm' | noclobber => 'C'
  | noexec => 'n' | noglob => 'f' | nounset => 'u' | verbose => 'v' | xtrace => 'x'

/-- The long name of an option. -/
def name : ShellOption → Text
  | allexport => "allexport" | errexit => "errexit" | interactive => "interactive"
  | monitor => "monitor" | noclobber => "noclobber" | noexec => "noexec" | noglob => "noglob"
  | nounset => "nounset" | verbose => "verbose" | xtrace => "xtrace"

/-- The option with the given letter. -/
def ofLetter? (c : Char) : Option ShellOption := all.find? fun o => o.letter == c

/-- The option with the given long name. -/
def ofName? (t : Text) : Option ShellOption := all.find? fun o => o.name == t

/-- Whether `set` may change the option once the shell runs. -/
def settable (o : ShellOption) : Bool := o != interactive

end ShellOption

/-- A set of options. -/
structure Options where
  /-- Whether an option is on. -/
  has : ShellOption → Bool

namespace Options

/-- No option is on. -/
def none : Options := ⟨fun _ => false⟩

instance : Inhabited Options := ⟨none⟩

/-- The set with one option turned on or off. -/
def set (os : Options) (o : ShellOption) (on : Bool) : Options :=
  ⟨fun p => if p = o then on else os.has p⟩

/-- The options of a list. -/
def ofList (l : List ShellOption) : Options := l.foldl (fun os o => os.set o true) none

/-- The letters of the options that are on. -/
def letters (os : Options) : Text := (ShellOption.all.filter os.has).map ShellOption.letter

/-- Every option's long name with its state. -/
def table (os : Options) : List (Text × Bool) := ShellOption.all.map fun o => (o.name, os.has o)

/-- Sets the options of the given letters, up to the first letter that names none; that letter
is returned beside the set. -/
def setLetters (on : Bool) (os : Options) : Text → Options × Option Char
  | [] => (os, Option.none)
  | c :: r =>
    match ShellOption.ofLetter? c with
    | some o => setLetters on (os.set o on) r
    | Option.none => (os, some c)

/-- Applies a cluster of letters after `-` (on) or `+` (off). The offending character is
returned when the text is no cluster or holds an unknown letter; letters before it stay
applied. -/
def applyCluster (os : Options) : Text → Options × Option Char
  | '-' :: r => setLetters true os r
  | '+' :: r => setLetters false os r
  | c :: _ => (os, some c)
  | [] => (os, some '?')

end Options

end CommandShell
