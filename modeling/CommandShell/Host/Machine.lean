import CommandShell.Host.Call
import CommandShell.Host.Files
import CommandShell.Host.Descriptors
import CommandShell.Host.Arrivals

/-!
# A machine

A machine is a system that programs run on: files, open files, pipes and processes, all as one
value. `Machine.perform` gives the answer to each call, or says that the process has to wait.
Processes share open files, as a fork leaves them, and with them the place where the next read
or write happens.

Signals are delivered at once to a process that runs. One that is stopped keeps them until it
goes on; only a kill reaches it earlier.
-/

namespace CommandShell.Host

/-- What is behind a descriptor. -/
inductive Target where
  | file (number : Nat)
  | pipeRead (pipe : Nat)
  | pipeWrite (pipe : Nat)
  deriving DecidableEq, Repr

/-- An open file: its target, and the place where the next read or write happens. -/
structure OpenFile where
  target : Target
  offset : Nat := 0
  reads : Bool := true
  writes : Bool := false
  appends : Bool := false
  deriving Repr

instance : Inhabited OpenFile := ⟨{ target := .file 0 }⟩

/-- The state of a process. -/
inductive RunState where
  | running
  /-- Stopped by a signal; whether the parent has been told. -/
  | stopped (signal : Signal) (told : Bool)
  | ended (status : ProcessStatus)
  deriving DecidableEq, Repr

/-- A process that runs programs with results in `ρ`. -/
structure Process (ρ : Type) where
  pid : ProcessId
  parent : ProcessId
  group : ProcessId
  state : RunState := .running
  /-- What it has still to do. -/
  program : Program ρ
  descriptors : Descriptors := {}
  /-- The number of its working directory. -/
  directory : Nat := 0
  /-- Permissions that new files do not get. -/
  mask : Nat := 0o022
  /-- What it does with signals; the default with those not listed. -/
  dispositions : List (Signal × Disposition) := []
  arrivals : Arrivals := {}
  /-- Signals that were sent to it while it was stopped. -/
  held : List Signal := []
  /-- Whether its call has to wait. -/
  waiting : Bool := false
  /-- Whether a handler ran while its call had to wait. -/
  interrupted : Bool := false

namespace Process

variable {ρ : Type}

/-- What the process does with a signal. -/
def disposition (p : Process ρ) (s : Signal) : Disposition :=
  if s.uncatchable then .default else (p.dispositions.lookup s).getD .default

/-- Sets what the process does with a signal. -/
def withDisposition (p : Process ρ) (s : Signal) (d : Disposition) : Process ρ :=
  { p with dispositions := (s, d) :: p.dispositions.filter fun e => e.1 != s }

/-- Whether the process has ended. -/
def isEnded (p : Process ρ) : Bool :=
  match p.state with
  | .ended _ => true
  | _ => false

end Process

/-- The system as a whole. -/
structure Machine (ρ : Type) where
  files : Files
  /-- Open files by number. -/
  openFiles : Array OpenFile := #[]
  /-- What each pipe holds. -/
  pipes : Array Bytes := #[]
  /-- The processes that run, and those that ended and were not waited for. -/
  processes : List (Process ρ) := []
  /-- The first process; nobody waits for it here. -/
  root : ProcessId := 100
  nextPid : ProcessId := 101
  /-- The users with their home directories. Every process belongs to the first. -/
  users : List (Bytes × Bytes) := [(Text.encode "root", Text.encode "/root")]
  /-- The shell's own program, by arguments and environment. -/
  boot : List Bytes → List Bytes → Program ρ

/-- The answer to a call. -/
inductive Answer (ρ : Type) (c : Call) where
  /-- The reply, and the machine after the call. -/
  | now (m : Machine ρ) (r : Reply c)
  /-- The process has to wait. -/
  | wait
  /-- The process does not go on with its program. -/
  | never (m : Machine ρ)

namespace Machine

variable {ρ : Type}

/-! ## Processes -/

/-- The process that everything without a parent belongs to. -/
def orphanage : ProcessId := 1

/-- The process with a number. -/
def process? (m : Machine ρ) (pid : ProcessId) : Option (Process ρ) :=
  m.processes.find? fun p => p.pid == pid

/-- Changes the process with a number. -/
def modify (m : Machine ρ) (pid : ProcessId) (f : Process ρ → Process ρ) : Machine ρ :=
  { m with processes := m.processes.map fun p => if p.pid = pid then f p else p }

/-- Removes the process with a number. -/
def remove (m : Machine ρ) (pid : ProcessId) : Machine ρ :=
  { m with processes := m.processes.filter fun p => p.pid ≠ pid }

/-- Runs the handler of a caught signal in a process. -/
def noteArrival (m : Machine ρ) (pid : ProcessId) (s : Signal) : Machine ρ :=
  m.modify pid fun p =>
    { p with arrivals := p.arrivals.note s, interrupted := p.interrupted || p.waiting }

/-- Tells the parent of a process that its state changed. -/
def tellParent (m : Machine ρ) (parent : ProcessId) : Machine ρ :=
  match m.process? parent with
  | some p => if p.disposition .chld = .caught then m.noteArrival parent .chld else m
  | none => m

/-- Gives away the children of a process. Those that ended already are gone. -/
def orphanChildren (m : Machine ρ) (pid : ProcessId) : Machine ρ :=
  { m with
    processes := (m.processes.filter fun p => p.parent ≠ pid || !p.isEnded).map fun p =>
      if p.parent = pid then { p with parent := orphanage } else p }

/-- Ends a process. It stays until its parent has waited for it, if there is one. -/
def finish (m : Machine ρ) (p : Process ρ) (status : ProcessStatus) : Machine ρ :=
  let m := m.orphanChildren p.pid
  if p.parent = orphanage && p.pid ≠ m.root then m.remove p.pid
  else
    (m.modify p.pid fun p =>
      { p with state := .ended status, descriptors := {}, waiting := false }).tellParent p.parent

/-- Stops a process. -/
def suspend (m : Machine ρ) (p : Process ρ) (s : Signal) : Machine ρ :=
  (m.modify p.pid fun p => { p with state := .stopped s false }).tellParent p.parent

/-- Delivers a signal other than the one that makes a process go on. -/
def deliverOne (m : Machine ρ) (pid : ProcessId) (s : Signal) : Machine ρ :=
  match m.process? pid with
  | none => m
  | some p =>
    match p.state with
    | .ended _ => m
    | .stopped .. =>
      if s = .kill then m.finish p (.killed s false)
      else m.modify pid fun p => { p with held := p.held ++ [s] }
    | .running =>
      match p.disposition s with
      | .ignore => m
      | .caught => m.noteArrival pid s
      | .default =>
        match defaultAction s with
        | .ignore => m
        | .stop => m.suspend p s
        | .terminate => m.finish p (.killed s false)

/-- Delivers a signal. -/
def deliver (m : Machine ρ) (pid : ProcessId) (s : Signal) : Machine ρ :=
  match s, m.process? pid with
  | .cont, some p =>
    match p.state with
    | .stopped .. =>
      let m := m.modify pid fun p => { p with state := .running, held := [] }
      (.cont :: p.held).foldl (fun m s => m.deliverOne pid s) m
    | _ => m.deliverOne pid .cont
  | s, _ => m.deliverOne pid s

/-- The processes that the target of a `kill` stands for: one process, the caller's group, every
process but the caller, or a group. -/
def targets (m : Machine ρ) (p : Process ρ) (target : Int) : List ProcessId :=
  (m.processes.filter fun q =>
    if 0 < target then q.pid == target
    else if target = 0 then q.group == p.group
    else if target = -1 then q.pid != p.pid
    else q.group == -target).map (·.pid)

/-- Sends a signal, or only checks that there is somebody to send it to. -/
def sendSignal (m : Machine ρ) (p : Process ρ) (target : Int) (signal : Option Signal) :
    Machine ρ × Except Errno Unit :=
  match m.targets p target with
  | [] => (m, .error .noProcess)
  | pids =>
    match signal with
    | none => (m, .ok ())
    | some s => (pids.foldl (fun m pid => m.deliver pid s) m, .ok ())

/-- The report that a wait takes from a process, if it has one. -/
def report? (untraced : Bool) (p : Process ρ) : Option ProcessStatus :=
  match p.state with
  | .ended status => some status
  | .stopped s false => if untraced then some (.stopped s) else none
  | _ => none

/-- Waits for a child to change state. -/
def waitChild (m : Machine ρ) (p : Process ρ) (target : Option ProcessId)
    (noHang untraced : Bool) : Answer ρ (.wait target noHang untraced) :=
  let children := m.processes.filter fun q =>
    q.parent == p.pid && target.all fun pid => q.pid == pid
  if children.isEmpty then .now m (.error .noChild)
  else
    match children.find? fun q => (report? untraced q).isSome with
    | some q =>
      match report? untraced q with
      | some status =>
        .now (if q.isEnded then m.remove q.pid
            else m.modify q.pid fun q => match q.state with
              | .stopped s _ => { q with state := .stopped s true }
              | _ => q)
          (.ok (some (q.pid, status)))
      | none => .wait
    | none => if noHang then .now m (.ok none) else .wait

/-! ## Descriptors -/

/-- The open file that a descriptor of a process stands for, with its number. -/
def openFile? (m : Machine ρ) (p : Process ρ) (fd : Nat) : Option (Nat × OpenFile) :=
  (p.descriptors.get? fd).bind fun slot =>
    (m.openFiles[slot.openFile]?).map fun f => (slot.openFile, f)

/-- Changes the descriptors of a process. -/
def withDescriptors (m : Machine ρ) (p : Process ρ) (ds : Descriptors) : Machine ρ :=
  m.modify p.pid fun p => { p with descriptors := ds }

/-- Gives a process a descriptor for a new open file. -/
def addOpenFile (m : Machine ρ) (p : Process ρ) (f : OpenFile) : Machine ρ × Except Errno Nat :=
  match p.descriptors.add? 0 { openFile := m.openFiles.size, closeOnExec := true } with
  | none => (m, .error .tooManyFiles)
  | some (ds, fd) => ({ m with openFiles := m.openFiles.push f }.withDescriptors p ds, .ok fd)

/-- Opens a file. -/
def openPath (m : Machine ρ) (p : Process ρ) (path : Bytes) (flags : OpenFlags) :
    Machine ρ × Except Errno Nat :=
  match m.files.openPath p.directory path flags (0o666 &&& (0o777 ^^^ p.mask)) with
  | .error e => (m, .error e)
  | .ok (files, n) =>
    { m with files }.addOpenFile p
      { target := .file n, reads := flags.reads, writes := flags.writes, appends := flags.appends }

/-- Copies a descriptor to the lowest free number from `floor` on. -/
def duplicate (m : Machine ρ) (p : Process ρ) (fd floor : Nat) : Machine ρ × Except Errno Nat :=
  match p.descriptors.get? fd with
  | none => (m, .error .badDescriptor)
  | some slot =>
    match p.descriptors.add? floor { slot with closeOnExec := true } with
    | none => (m, .error .tooManyFiles)
    | some (ds, copy) => (m.withDescriptors p ds, .ok copy)

/-- Copies a descriptor to a given number. -/
def duplicateOnto (m : Machine ρ) (p : Process ρ) (fd target : Nat) :
    Machine ρ × Except Errno Unit :=
  match p.descriptors.get? fd with
  | none => (m, .error .badDescriptor)
  | some slot =>
    if p.descriptors.limit ≤ target then (m, .error .badDescriptor)
    else if fd = target then (m, .ok ())
    else (m.withDescriptors p (p.descriptors.put target { slot with closeOnExec := false }), .ok ())

/-- Makes a pipe and gives a process its two ends. -/
def makePipe (m : Machine ρ) (p : Process ρ) : Machine ρ × Except Errno (Nat × Nat) :=
  let n := m.openFiles.size
  match p.descriptors.add? 0 { openFile := n, closeOnExec := true } with
  | none => (m, .error .tooManyFiles)
  | some (ds, readEnd) =>
    match ds.add? 0 { openFile := n + 1, closeOnExec := true } with
    | none => (m, .error .tooManyFiles)
    | some (ds, writeEnd) =>
      let pipe := m.pipes.size
      ({ m with
          pipes := m.pipes.push []
          openFiles := (m.openFiles.push { target := .pipeRead pipe }).push
            { target := .pipeWrite pipe, reads := false, writes := true } }.withDescriptors p ds,
        .ok (readEnd, writeEnd))

/-! ## Reading and writing -/

/-- Number of bytes that a pipe holds. -/
def pipeCapacity : Nat := 65536

/-- Writes up to this size are never split by a pipe. -/
def pipeUnit : Nat := 4096

/-- Whether any process has a descriptor for an open file with the given target. -/
def isHeld (m : Machine ρ) (target : Target) : Bool :=
  m.processes.any fun p => p.descriptors.anyOpenFile fun n =>
    (m.openFiles[n]?).any fun f => f.target == target

/-- Moves the place of the next read or write. -/
def moveTo (m : Machine ρ) (openFile offset : Nat) : Machine ρ :=
  { m with openFiles := m.openFiles.modify openFile fun f => { f with offset } }

/-- Reads from a descriptor. At the end of the input there are no bytes. -/
def readBytes (m : Machine ρ) (p : Process ρ) (fd count : Nat) : Answer ρ (.read fd count) :=
  match m.openFile? p fd with
  | none => .now m (.error .badDescriptor)
  | some (n, f) =>
    if !f.reads then .now m (.error .badDescriptor)
    else match f.target with
      | .file number =>
        match (m.files.get? number).map File.body with
        | some (.regular data) =>
          let piece := (data.drop f.offset).take count
          .now (m.moveTo n (f.offset + piece.length)) (.ok piece)
        | some (.directory ..) => .now m (.error .isDirectory)
        | _ => .now m (.ok [])
      | .pipeRead pipe =>
        let held := m.pipes[pipe]?.getD []
        if !held.isEmpty then
          .now { m with pipes := m.pipes.modify pipe fun b => b.drop count } (.ok (held.take count))
        else if m.isHeld (.pipeWrite pipe) then .wait
        else .now m (.ok [])
      | .pipeWrite _ => .now m (.error .badDescriptor)

/-- Writes to a descriptor. A pipe may take a part only. -/
def writeBytes (m : Machine ρ) (p : Process ρ) (fd : Nat) (data : Bytes) :
    Answer ρ (.write fd data) :=
  match m.openFile? p fd with
  | none => .now m (.error .badDescriptor)
  | some (n, f) =>
    if !f.writes then .now m (.error .badDescriptor)
    else match f.target with
      | .file number =>
        match (m.files.get? number).map File.body with
        | some (.regular old) =>
          let place := if f.appends then old.length else f.offset
          if data.isEmpty then .now m (.ok 0)
          else .now
            ({ m with
                files := m.files.setData number (Files.overwrite old place data) }.moveTo n
              (place + data.length))
            (.ok data.length)
        | _ => .now m (.ok data.length)
      | .pipeWrite pipe =>
        if data.isEmpty then .now m (.ok 0)
        else if !m.isHeld (.pipeRead pipe) then
          .now (m.deliver p.pid .pipe) (.error .brokenPipe)
        else
          let room := pipeCapacity - (m.pipes[pipe]?.getD []).length
          if room = 0 || (data.length ≤ pipeUnit && room < data.length) then .wait
          else .now { m with pipes := m.pipes.modify pipe fun b => b ++ data.take room }
            (.ok (min room data.length))
      | .pipeRead _ => .now m (.error .badDescriptor)

/-! ## Files by path -/

/-- What is known of the file that a path leads to. -/
def pathStatus (m : Machine ρ) (p : Process ρ) (path : Bytes) (follow : Bool) :
    Except Errno FileStatus := do
  let n ← m.files.find p.directory path follow
  match m.files.get? n with
  | some f => return f.status n
  | none => throw .noEntry

/-- What is known of the file behind a descriptor. -/
def descriptorStatus (m : Machine ρ) (p : Process ρ) (fd : Nat) : Except Errno FileStatus :=
  match m.openFile? p fd with
  | none => .error .badDescriptor
  | some (_, f) =>
    match f.target with
    | .file n =>
      match m.files.get? n with
      | some file => .ok (file.status n)
      | none => .error .badDescriptor
    | .pipeRead pipe | .pipeWrite pipe =>
      .ok { kind := .pipe, mode := 0o600, size := 0, number := pipe, time := 0 }

/-- Whether the file that a path leads to may be used so. -/
def checkAccess (m : Machine ρ) (p : Process ρ) (path : Bytes) (permission : Permission) :
    Except Errno Unit := do
  let n ← m.files.find p.directory path true
  if m.files.allows n permission then return () else throw .access

/-- The names in a directory, without those for itself and the one above. -/
def directoryNames (m : Machine ρ) (p : Process ρ) (path : Bytes) : Except Errno (List Bytes) := do
  let n ← m.files.find p.directory path true
  match m.files.directory? n with
  | some (entries, _) => if m.files.allows n .read then return entries.map (·.1) else throw .access
  | none => throw .notDirectory

/-- The directory that a path leads to. -/
def directoryAt (m : Machine ρ) (p : Process ρ) (path : Bytes) : Except Errno Nat := do
  let n ← m.files.find p.directory path true
  if (m.files.directory? n).isSome then return n else throw .notDirectory

/-- Why a file cannot be executed. Files of this machine hold no code of its processor, so that
some reason is always found. -/
def executeError (m : Machine ρ) (p : Process ρ) (path : Bytes) : Errno :=
  match m.files.find p.directory path true with
  | .error e => e
  | .ok n =>
    match m.files.get? n with
    | some f =>
      if f.kind = .regular && f.allows .execute then .notExecutable else .access
    | none => .noEntry

/-! ## Calls -/

/-- The reply together with the machine after a call. -/
def answer {c : Call} (x : Machine ρ × Reply c) : Answer ρ c := .now x.1 x.2

/-- The answer to a call of a process. A `fork` is no business of this function: see
`Machine.step`. -/
def perform (m : Machine ρ) (p : Process ρ) : (c : Call) → Answer ρ c
  | .openFile path flags => answer (m.openPath p path flags)
  | .close fd =>
    if p.descriptors.isOpen fd then
      .now (m.withDescriptors p (p.descriptors.close fd)) (.ok ())
    else .now m (.error .badDescriptor)
  | .duplicate fd floor => answer (m.duplicate p fd floor)
  | .duplicateOnto fd target => answer (m.duplicateOnto p fd target)
  | .isOpen fd => .now m (p.descriptors.isOpen fd)
  | .keepOnExec fd =>
    match p.descriptors.get? fd with
    | some slot =>
      .now (m.withDescriptors p (p.descriptors.put fd { slot with closeOnExec := false })) ()
    | none => .now m ()
  | .isTerminal _ => .now m false
  | .pipe => answer (m.makePipe p)
  | .read fd count => m.readBytes p fd count
  | .write fd data => m.writeBytes p fd data
  | .fileStatus path follow => .now m (m.pathStatus p path follow)
  | .descriptorStatus fd => .now m (m.descriptorStatus p fd)
  | .access path permission => .now m (m.checkAccess p path permission)
  | .listDirectory path => .now m (m.directoryNames p path)
  | .changeDirectory path =>
    match m.directoryAt p path with
    | .ok n =>
      if m.files.allows n .execute then
        .now (m.modify p.pid fun p => { p with directory := n }) (.ok ())
      else .now m (.error .access)
    | .error e => .now m (.error e)
  | .currentDirectory => .now m (.ok (m.files.pathOf p.directory))
  | .realPath path => .now m ((m.directoryAt p path).map m.files.pathOf)
  | .setMask mask => .now (m.modify p.pid fun p => { p with mask := mask &&& 0o777 }) p.mask
  | .fork => .wait
  | .wait target noHang untraced => m.waitChild p target noHang untraced
  | .kill target signal => answer (m.sendSignal p target signal)
  | .setGroup pid group =>
    if (m.process? pid).any fun q => !q.isEnded then
      .now (m.modify pid fun q => { q with group }) (.ok ())
    else .now m (.error .noProcess)
  | .processId => .now m p.pid
  | .parentId => .now m p.parent
  | .homeDirectory none => .now m (m.users.head?.map (·.2))
  | .homeDirectory (some user) => .now m (m.users.lookup user)
  | .userName => .now m (m.users.head?.map (·.1))
  | .setDisposition s d => .now (m.modify p.pid (·.withDisposition s d)) (p.disposition s)
  | .anyArrived => .now m p.arrivals.any
  | .takeArrived =>
    .now (m.modify p.pid fun p => { p with arrivals := { p.arrivals with any := false } })
      p.arrivals.any
  | .markArrived =>
    .now (m.modify p.pid fun p => { p with arrivals := { p.arrivals with any := true } }) ()
  | .isPending s => .now m (p.arrivals.isPending s)
  | .takePending s =>
    .now (m.modify p.pid fun p => { p with arrivals := p.arrivals.take s }) (p.arrivals.isPending s)
  | .execute path _ _ => .now m (m.executeError p path)
  | .executeSelf argv environment =>
    .never (m.modify p.pid fun p => { p with
      program := m.boot argv environment
      descriptors := p.descriptors.inherited
      dispositions := p.dispositions.filter fun d => d.2 == .ignore
      arrivals := {} })
  | .exit code => .never (m.finish p (.exited (code % 256)))

/-- The reply to a call that had to wait when a handler ran; none for calls that wait on. -/
def interruptedReply? : (c : Call) → Option (Reply c)
  | .read .. => some (.error .interrupted)
  | .write .. => some (.error .interrupted)
  | .wait .. => some (.error .interrupted)
  | _ => none

end Machine

end CommandShell.Host
