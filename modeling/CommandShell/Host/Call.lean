import CommandShell.Jobs
import CommandShell.Errno
import CommandShell.Text.Bytes

/-!
# Calls and programs

What can be asked of the system, and programs that do nothing but ask.
-/

/-!
## The interface of the system

Everything that the shell asks of the system it runs on: files, descriptors, processes, signals.
`Call` lists the requests and `Reply` gives the type of the answer to each. Paths, arguments and
environments are byte sequences here; what they spell is the shell's business.
-/

namespace CommandShell.Host

/-- A text in the form that the system knows: its bytes. -/
abbrev Bytes := List Byte

/-- What opening a file asks for. -/
structure OpenFlags where
  reads : Bool := false
  writes : Bool := false
  /-- A missing file is made. -/
  creates : Bool := false
  /-- A file that is there already is refused. -/
  exclusive : Bool := false
  /-- What the file holds is dropped. -/
  truncates : Bool := false
  /-- Every write goes to the end. -/
  appends : Bool := false
  deriving DecidableEq, Repr

/-- The kinds of files. -/
inductive FileKind where
  | regular | directory | link | blockDevice | charDevice | pipe | socket
  deriving DecidableEq, Repr

/-- What is known of a file beside its contents. -/
structure FileStatus where
  kind : FileKind
  /-- Permission bits. -/
  mode : Nat
  size : Nat
  /-- The number that identifies the file. -/
  number : Nat
  /-- When it was last changed. -/
  time : Nat
  deriving DecidableEq, Repr

/-- A way to use a file. -/
inductive Permission where
  | read | write | execute
  deriving DecidableEq, Repr

/-- What a process does with a signal. -/
inductive Disposition where
  | default | ignore
  /-- The handler notes the arrival. -/
  | caught
  deriving DecidableEq, Repr

/-- Which of the two processes after a fork goes on here. -/
inductive Fork where
  | child
  | parent (child : ProcessId)
  deriving DecidableEq, Repr

/-- The requests that a program makes. -/
inductive Call where
  | openFile (path : Bytes) (flags : OpenFlags)
  | close (fd : Nat)
  /-- A copy at the lowest free number from `floor` on, which a new program does not inherit. -/
  | duplicate (fd floor : Nat)
  /-- A copy at a given number, in place of what is there. -/
  | duplicateOnto (fd target : Nat)
  | isOpen (fd : Nat)
  /-- Lets a new program inherit the descriptor. -/
  | keepOnExec (fd : Nat)
  | isTerminal (fd : Nat)
  /-- A new pipe: its read end and its write end. -/
  | pipe
  | read (fd count : Nat)
  | write (fd : Nat) (data : Bytes)
  | fileStatus (path : Bytes) (follow : Bool)
  | descriptorStatus (fd : Nat)
  | access (path : Bytes) (permission : Permission)
  | listDirectory (path : Bytes)
  | changeDirectory (path : Bytes)
  | currentDirectory
  /-- The path without links and dots that leads to the same file. -/
  | realPath (path : Bytes)
  /-- Sets the mask of permissions withheld from new files; the old one is returned. -/
  | setMask (mask : Nat)
  | fork
  /-- Waits for a child, or for one child, to change state. -/
  | wait (target : Option ProcessId) (noHang untraced : Bool)
  /-- Sends a signal, or only checks that it could be sent. -/
  | kill (target : Int) (signal : Option Signal)
  | setGroup (pid group : ProcessId)
  | processId
  | parentId
  /-- The home directory of a user, or of the one the process belongs to. -/
  | homeDirectory (user : Option Bytes)
  /-- The name of the user that the process belongs to. -/
  | userName
  /-- Sets what is done with a signal; the old disposition is returned. -/
  | setDisposition (signal : Signal) (disposition : Disposition)
  /-- Whether any caught signal arrived since this mark was last cleared. -/
  | anyArrived
  /-- The same, and clears the mark. -/
  | takeArrived
  /-- Sets the mark again. -/
  | markArrived
  /-- Whether a given signal waits to be handled. -/
  | isPending (signal : Signal)
  /-- The same, and takes it for handled. -/
  | takePending (signal : Signal)
  /-- Replaces the program by the one in a file. There is an answer only if that fails. -/
  | execute (path : Bytes) (argv environment : List Bytes)
  /-- Replaces the program by a fresh copy of this shell. -/
  | executeSelf (argv environment : List Bytes)
  | exit (code : Int)

/-- The answers to each request. -/
@[reducible] def Reply : Call → Type
  | .openFile .. => Except Errno Nat
  | .close _ => Except Errno Unit
  | .duplicate .. => Except Errno Nat
  | .duplicateOnto .. => Except Errno Unit
  | .isOpen _ => Bool
  | .keepOnExec _ => Unit
  | .isTerminal _ => Bool
  | .pipe => Except Errno (Nat × Nat)
  | .read .. => Except Errno Bytes
  | .write .. => Except Errno Nat
  | .fileStatus .. => Except Errno FileStatus
  | .descriptorStatus _ => Except Errno FileStatus
  | .access .. => Except Errno Unit
  | .listDirectory _ => Except Errno (List Bytes)
  | .changeDirectory _ => Except Errno Unit
  | .currentDirectory => Except Errno Bytes
  | .realPath _ => Except Errno Bytes
  | .setMask _ => Nat
  | .fork => Except Errno Fork
  | .wait .. => Except Errno (Option (ProcessId × ProcessStatus))
  | .kill .. => Except Errno Unit
  | .setGroup .. => Except Errno Unit
  | .processId => ProcessId
  | .parentId => ProcessId
  | .homeDirectory _ => Option Bytes
  | .userName => Option Bytes
  | .setDisposition .. => Disposition
  | .anyArrived => Bool
  | .takeArrived => Bool
  | .markArrived => Unit
  | .isPending _ => Bool
  | .takePending _ => Bool
  | .execute .. => Errno
  | .executeSelf .. => Errno
  | .exit _ => Empty

end CommandShell.Host

/-!
## Programs

A program is a tree: it is done with a result, or it makes a call and goes on in a way that
depends on the reply. Nothing here says what the replies are. A statement about all replies is a
statement about every system the program may run on; running a program on a particular system is
the business of `CommandShell.Host.Machine`.

Copying a process needs nothing special: the continuation of a `fork` is run twice.
-/

namespace CommandShell.Host

/-- A program with results in `α`. -/
inductive Program (α : Type) where
  | done (a : α)
  | call (c : Call) (next : Reply c → Program α)

namespace Program

variable {α β γ : Type}

/-- One program after another. -/
def bind : Program α → (α → Program β) → Program β
  | done a, f => f a
  | call c k, f => call c fun r => (k r).bind f

/-- The program that makes one call. -/
def request (c : Call) : Program (Reply c) := call c done

instance : Monad Program where
  pure := done
  bind := bind

theorem bind_done (p : Program α) : p.bind done = p := by
  induction p with
  | done a => rfl
  | call c k ih => simp [bind, ih]

theorem bind_assoc (p : Program α) (f : α → Program β) (g : β → Program γ) :
    (p.bind f).bind g = p.bind fun a => (f a).bind g := by
  induction p with
  | done a => rfl
  | call c k ih => simp [bind, ih]

instance : LawfulMonad Program :=
  LawfulMonad.mk' Program bind_done (fun _ _ => rfl) bind_assoc

/-- Every result satisfies `p`, whatever the replies. -/
def Always (p : α → Prop) : Program α → Prop
  | done a => p a
  | call _ k => ∀ r, (k r).Always p

theorem always_bind {p : β → Prop} (x : Program α) (f : α → Program β) :
    (x.bind f).Always p ↔ x.Always fun a => (f a).Always p := by
  induction x with
  | done a => rfl
  | call c k ih => simp [bind, Always, ih]

end Program

end CommandShell.Host
