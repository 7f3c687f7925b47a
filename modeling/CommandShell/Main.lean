import CommandShell.Startup.Boot
import CommandShell.Host.Console

/-!
# The command

Runs a shell on a machine of its own. The machine gets the working directory, the script that the
command line names, standard input and the environment from outside; what the shell wrote is passed
on when it has ended, and its status becomes the status of the command.
-/

open CommandShell

namespace CommandShell.Main

/-- The variables that are taken from the environment. -/
def inherited : List String := ["PATH", "HOME", "USER", "PWD", "OLDPWD", "ENV", "OPTIND"]

/-- The entries of the environment as bytes. -/
def environment : IO (List Host.Bytes) :=
  inherited.filterMapM fun name => do
    return (← IO.getEnv name).map fun value => Text.encode (name ++ "=" ++ value).toList

/-- Everything that is left on a stream. -/
partial def readRest (stream : IO.FS.Stream) (chunks : List Host.Bytes) : IO Host.Bytes := do
  let chunk ← stream.read 65536
  if chunk.isEmpty then return chunks.reverse.flatten
  else readRest stream (chunk.toList :: chunks)

/-- The path of the script that a command line names. -/
def scriptPath? (args : List String) : Option String :=
  match Startup.CommandLine.read (args.map String.toList) with
  | .ok { source := .file path, .. } => some (String.ofList path)
  | _ => none

/-- The files of the machine, and the number of the working directory. -/
def files (directory : String) (args : List String) : IO (Host.Files × Nat) := do
  let names := Host.Files.names (Text.encode directory.toList)
  let (fs, dir) := Host.Files.base.makeDirectories 0 names
  match scriptPath? args with
  | none => return (fs, dir)
  | some path =>
    try
      let data ← IO.FS.readBinFile path
      return (fs.install dir (Text.encode path.toList) (.regular data.toList) 0o755, dir)
    catch _ => return (fs, dir)

/-- The status that tells how the shell ended. -/
def statusOf : Host.Outcome Unit → UInt32
  | .ended status => UInt32.ofNat status.code.toNat
  | _ => 255

/-- Runs a shell with the given arguments. -/
def run (args : List String) : IO UInt32 := do
  let (fs, dir) ← files (← IO.currentDir).toString args
  let input ← readRest (← IO.getStdin) []
  let argv := (String.ofList programName :: args).map fun arg => Text.utf8 arg.toList
  let machine := Host.Machine.start fs dir input Startup.program
    (Startup.program argv (← environment))
  let (machine, outcome) := machine.run
  (← IO.getStdout).write ⟨(machine.written Host.Machine.outputFile).toArray⟩
  (← IO.getStderr).write ⟨(machine.written Host.Machine.errorFile).toArray⟩
  return statusOf outcome

end CommandShell.Main

/-- Runs a shell. -/
def main (args : List String) : IO UInt32 := CommandShell.Main.run args
