import CommandShell.Options
import CommandShell.Text

/-!
# The command line

What the words after the name of the shell ask for. Flags may be clustered; the first word that is
no cluster of known flags starts the operands, and so does what follows `--`. Words of letters
after a plus sign turn options off and are taken out beforehand, as long as only words that start
with a minus sign stand before them.
-/

namespace CommandShell.Startup

/-- What is wrong with a command line. -/
inductive UsageError where
  | repeated (flag : Char)
  | missingName
  | unknownName (name : Text)
  | unknownLetter (letter : Char)
  | missingCommand
  deriving DecidableEq, Repr

/-- The message of a bad command line. -/
def UsageError.message : UsageError → Text
  | repeated flag => "the argument '-" ++ [flag] ++ "' cannot be used multiple times"
  | missingName => "a value is required for '-o <NAME>' but none was supplied"
  | unknownName name => "Illegal option -o " ++ name
  | unknownLetter c => "Illegal option +" ++ [c]
  | missingCommand => "-c requires an argument"

/-- The words of a command line, sorted but not interpreted. -/
structure Words where
  /-- The flags given, each once. -/
  flags : List Char := []
  /-- The option names after `-o`. -/
  names : List Text := []
  /-- The letters after plus signs. -/
  off : List Char := []
  operands : List Text := []
  deriving DecidableEq, Repr

namespace Words

/-- The flags that set a shell option. -/
def optionFlags : List Char := ['a', 'e', 'u', 'v', 'x', 'C', 'f', 'm', 'n']

/-- All flags, with the one that takes a name. -/
def knownFlags : List Char := ['c', 's', 'i', 'l', 'o'] ++ optionFlags

/-- The flags of a word that is a cluster of known flags. -/
def cluster? : Text → Option (List Char)
  | '-' :: c :: cs => if (c :: cs).all knownFlags.contains then some (c :: cs) else none
  | _ => none

/-- Takes the flags of a cluster. The result tells whether the next word is a name. -/
def takeCluster (ws : Words) : List Char → Except UsageError (Words × Bool)
  | [] => .ok (ws, false)
  | ['o'] => .ok (ws, true)
  | 'o' :: name => .ok ({ ws with names := ws.names ++ [name] }, false)
  | c :: cs =>
    if ws.flags.contains c then .error (.repeated c)
    else takeCluster { ws with flags := ws.flags ++ [c] } cs

/-- Sorts words. -/
def sort (ws : Words) : List Text → Except UsageError Words
  | [] => .ok ws
  | ['-', '-'] :: rest => .ok { ws with operands := rest }
  | word :: rest =>
    match cluster? word with
    | none => .ok { ws with operands := word :: rest }
    | some letters =>
      match takeCluster ws letters with
      | .error e => .error e
      | .ok (ws, false) => ws.sort rest
      | .ok (ws, true) =>
        match rest with
        | [] => .error .missingName
        | name :: rest =>
          if name = ['-', '-'] || (cluster? name).isSome then .error .missingName
          else { ws with names := ws.names ++ [name] }.sort rest

/-- Takes out the words that turn options off. -/
def takeOff : List Text → List Char × List Text
  | [] => ([], [])
  | ('+' :: c :: cs) :: rest =>
    let (off, words) := takeOff rest
    (c :: cs ++ off, words)
  | ('-' :: cs) :: rest =>
    let (off, words) := takeOff rest
    (off, ('-' :: cs) :: words)
  | rest => ([], rest)

/-- Reads the words of a command line. -/
def read (words : List Text) : Except UsageError Words :=
  let (off, rest) := takeOff words
  sort { off } rest

/-- Whether a flag was given. -/
def has (ws : Words) (flag : Char) : Bool := ws.flags.contains flag

/-- The options that flags turn on. -/
def flagOptions (ws : Words) : Options :=
  .ofList ((optionFlags.filter ws.has).filterMap ShellOption.ofLetter?)

/-- Turns on the options with the given names. -/
def turnOn (os : Options) : List Text → Except UsageError Options
  | [] => .ok os
  | name :: rest =>
    match ShellOption.ofName? name with
    | some o => turnOn (os.set o true) rest
    | none => .error (.unknownName name)

/-- Turns off the options with the given letters. -/
def turnOff (os : Options) : List Char → Except UsageError Options
  | [] => .ok os
  | c :: rest =>
    match ShellOption.ofLetter? c with
    | some o => turnOff (os.set o false) rest
    | none => .error (.unknownLetter c)

/-- The options that the command line as a whole turns on. -/
def options (ws : Words) : Except UsageError Options := do
  turnOff (← turnOn ws.flagOptions ws.names) ws.off

end Words

/-- Where a shell takes its commands from. -/
inductive CommandSource where
  /-- From an argument. -/
  | text (t : Text)
  /-- From a file. -/
  | file (path : Text)
  /-- From standard input. -/
  | standardInput
  deriving DecidableEq, Repr

/-- What a command line asks for. -/
structure CommandLine where
  source : CommandSource
  /-- The name that the operands give to the shell. -/
  name : Option Text := none
  params : List Text := []
  options : Options
  /-- Whether `-i` was given. -/
  interactive : Bool
  login : Bool
  /-- Whether the command line says by letter if there is job control. -/
  decidesMonitor : Bool

namespace CommandLine

/-- What the words of a command line ask for. -/
def ofWords (ws : Words) : Except UsageError CommandLine := do
  let options ← ws.options
  let line (source : CommandSource) (name : Option Text) (params : List Text) : CommandLine :=
    { source, name, params, options, interactive := ws.has 'i', login := ws.has 'l'
      decidesMonitor := ws.has 'm' || ws.off.contains 'm' }
  if ws.has 'c' then
    match ws.operands with
    | [] => .error .missingCommand
    | [t] => return line (.text t) none []
    | t :: name :: params => return line (.text t) (some name) params
  else if ws.has 's' then return line .standardInput none ws.operands
  else
    match ws.operands with
    | [] => return line .standardInput none []
    | script :: params => return line (.file script) (some script) params

/-- Reads a command line. -/
def read (words : List Text) : Except UsageError CommandLine := do ofWords (← Words.read words)

end CommandLine

end CommandShell.Startup
