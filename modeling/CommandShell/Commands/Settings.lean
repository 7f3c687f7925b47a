import CommandShell.Shell.State

/-!
# The set command

`set` lists variables or options, turns options on and off, and replaces the positional
parameters. All its arguments are read before anything is changed, so that a bad one leaves the
shell as it was.
-/

namespace CommandShell.Commands

open Shell

/-- What the arguments of `set` ask for. -/
structure Settings where
  /-- The options after the command. -/
  options : CommandShell.Options
  /-- The new positional parameters. -/
  params : Option (List Text) := none
  /-- Whether the options are listed, as a table or as commands. -/
  listing : Option Bool := none

namespace Settings

/-- The error of an option that there is not, or that cannot be changed. -/
def illegal (spelled : Text) : Fault := .usage ("Illegal option " ++ spelled)

/-- Turns an option on or off. -/
def toggle (s : Settings) (o : Option ShellOption) (on : Bool) (spelled : Text) :
    Except Fault Settings :=
  match o with
  | some o =>
    if o.settable then .ok { s with options := s.options.set o on } else .error (illegal spelled)
  | none => .error (illegal spelled)

/-- Turns the options of letters after a sign on or off. -/
def cluster (sign : Char) (s : Settings) : Text → Except Fault Settings
  | [] => .ok s
  | c :: rest => do
    let s ← s.toggle (ShellOption.ofLetter? c) (sign == '-') [sign, c]
    cluster sign s rest

/-- Whether an argument is a sign with something after it. -/
def isCluster : Text → Bool
  | '-' :: _ :: _ => true
  | '+' :: _ :: _ => true
  | _ => false

/-- Reads the arguments. -/
def read (s : Settings) : List Text → Except Fault Settings
  | [] => .ok s
  | arg :: rest =>
    if arg = "--" then .ok { s with params := some rest }
    else if arg = "-" then
      .ok { s with
        options := (s.options.set .xtrace false).set .verbose false
        params := if rest.isEmpty then s.params else some rest }
    else if isCluster arg then
      match arg with
      | sign :: letters =>
        if letters = "o" then
          match rest with
          | name :: rest => do
            let s ← s.toggle (ShellOption.ofName? name) (sign == '-') ([sign, 'o', ' '] ++ name)
            s.read rest
          | [] => .ok { s with listing := some (sign == '+') }
        else do (← s.cluster sign letters).read rest
      | [] => .ok s
    else .ok { s with params := some (arg :: rest) }

end Settings

/-- The options as a table, or as commands that set them. -/
def optionListing (options : CommandShell.Options) (asCommands : Bool) : Text :=
  options.table.flatMap fun (name, on) =>
    if asCommands then ("set " : Text) ++ (if on then "-" else "+" : Text) ++ "o " ++ name ++ "\n"
    else Text.padEnd 16 name ++ (if on then "on" else "off" : Text) ++ "\n"

/-- A copy of standard error, if that is a terminal. Otherwise the copy stays open for nothing. -/
def findTerminal : ShellM (Option Nat) := do
  match ← ask (.duplicate 2 10) with
  | .ok fd => if ← ask (.isTerminal fd) then return some fd else return none
  | .error _ => return none

/-- Looks for the terminal that job control needs. Without one job control goes off again. -/
def setUpJobControl : ShellM Unit := do
  match ← findTerminal with
  | some fd => modify fun sh => { sh with terminal := some fd }
  | none => modify fun sh => { sh with options := sh.options.set .monitor false }

/-- Makes the options those that were asked for. -/
def applyOptions (options : CommandShell.Options) : ShellM Unit := do
  let old := (← get).has .monitor
  modify fun sh => { sh with options }
  if old != options.has .monitor then
    let sh ← get
    if options.has .monitor && sh.terminal.isNone && !sh.isSubshell then setUpJobControl
    refreshSignals

/-- Does what the arguments asked for. -/
def applySettings (settings : Settings) : ShellM Unit := do
  match settings.listing with
  | some asCommands => writeOut (optionListing settings.options asCommands)
  | none => pure ()
  applyOptions settings.options
  match settings.params with
  | some params => modifyVariables (·.withParams params)
  | none => pure ()

/-- `set [-+abCefmnuvx] [-+o name]… [--] [argument…]` -/
def runSet (args : List Text) : ShellM Unit := do
  if args.isEmpty then
    let lines := (← get).variables.bindings.toList.flatMap fun (name, v) =>
      match v.value with
      | some value => name ++ "=" ++ Text.quote value ++ "\n"
      | none => []
    writeOut lines
  else applySettings (← ofExcept (Settings.read { options := (← get).options } args))
  setStatus 0

end CommandShell.Commands
