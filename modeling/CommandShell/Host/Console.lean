import CommandShell.Host.Schedule

/-!
# A machine with one program

A machine as it is when a program is started from outside: a file for its standard input, two more
that take what it writes, and one process, which leads its own group.
-/

namespace CommandShell.Host

namespace Files

/-- The files that every machine has: the null device and directories to put files into. -/
def base : Files :=
  let fs : Files := {}
  let fs := fs.install 0 (Text.encode "/dev/null") .nullDevice 0o666
  let fs := fs.install 0 (Text.encode "/root") (.directory [] 0) 0o755
  fs.install 0 (Text.encode "/tmp") (.directory [] 0) 0o777

end Files

namespace Machine

variable {ρ : Type}

/-- The number of the open file that takes standard output. -/
def outputFile : Nat := 1

/-- The number of the open file that takes standard error. -/
def errorFile : Nat := 2

/-- A machine whose first process runs a program in a directory. -/
def start (files : Files) (directory : Nat) (input : Bytes)
    (boot : List Bytes → List Bytes → Program ρ) (program : Program ρ) : Machine ρ :=
  let (files, stdin) := files.makeHidden (.regular input) 0o600
  let (files, stdout) := files.makeHidden (.regular []) 0o600
  let (files, stderr) := files.makeHidden (.regular []) 0o600
  let writer (n : Nat) : OpenFile :=
    { target := .file n, reads := false, writes := true, appends := true }
  { files, boot
    openFiles := #[{ target := .file stdin }, writer stdout, writer stderr]
    processes := [{
      pid := 100, parent := orphanage, group := 100, program, directory
      descriptors := { slots := [(0, ⟨0, false⟩), (1, ⟨outputFile, false⟩),
        (2, ⟨errorFile, false⟩)] } }] }

/-- What was written through an open file to a file that takes all writes at its end. -/
def written (m : Machine ρ) (openFile : Nat) : Bytes :=
  match m.openFiles[openFile]?.map OpenFile.target with
  | some (.file n) => m.files.data n
  | _ => []

end Machine

end CommandShell.Host
