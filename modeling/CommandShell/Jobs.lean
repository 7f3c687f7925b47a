import CommandShell.Signal

/-!
# Jobs

A job is a pipeline that the shell started, with the state of each of its processes. The job
table gives jobs the smallest free number, remembers the order in which they were last used,
and holds the job in the foreground apart from the rest.
-/

namespace CommandShell

/-- Number of a process in the system. -/
abbrev ProcessId := Int

/-- What the system last said about a process. -/
inductive ProcessStatus where
  /-- Nothing yet. -/
  | running
  /-- Goes on after a stop. -/
  | continued
  | stopped (sig : Signal)
  | exited (code : Int)
  | killed (sig : Signal) (core : Bool)
  deriving DecidableEq, Repr

namespace ProcessStatus

/-- The process runs, as far as is known. -/
def isRunning : ProcessStatus → Bool
  | running | continued => true
  | _ => false

/-- The process has ended. -/
def isDone : ProcessStatus → Bool
  | exited _ | killed .. => true
  | _ => false

/-- The process is stopped. -/
def isStopped : ProcessStatus → Bool
  | stopped _ => true
  | _ => false

/-- The exit status shown for it: a signal counts as 128 more than its number. -/
def code : ProcessStatus → Int
  | exited n => n
  | killed s _ | stopped s => 128 + s.number
  | running | continued => 0

end ProcessStatus

/-- A process of a job. -/
structure JobProcess where
  pid : ProcessId
  command : Text
  status : ProcessStatus := .running
  deriving DecidableEq, Repr

/-- What a job as a whole does. -/
inductive JobState where
  | running | stopped | done
  deriving DecidableEq, Repr

/-- A started pipeline. -/
structure Job where
  /-- Its number in the table. -/
  id : Option Nat := none
  /-- The process group, or the first process when it shares the shell's group. -/
  group : ProcessId
  /-- Whether its processes form a group of their own. -/
  ownGroup : Bool
  processes : List JobProcess
  command : Text
  /-- Whether a process changed state since changes were last asked for. -/
  changed : Bool := false
  deriving DecidableEq, Repr

namespace Job

/-- A job of the given processes. Without a group it goes by its first process, and without a
command by those of its processes. -/
def ofProcesses (processes : List JobProcess) (group : Option ProcessId) (ownGroup : Bool)
    (command : Option Text) : Job where
  group := (group.or (processes.head?.map (·.pid))).getD 0
  ownGroup := ownGroup
  processes := processes
  command := command.getD (Text.join " | " (processes.map (·.command)))

/-- The process that `$!` names. -/
def lastPid? (j : Job) : Option ProcessId := j.processes.getLast?.map (·.pid)

/-- Done when every process is, else running when some process runs, else stopped. -/
def state (j : Job) : JobState :=
  if j.processes.all (·.status.isDone) then .done
  else if j.processes.any (·.status.isRunning) then .running
  else .stopped

/-- Whether some process has not ended. -/
def isAlive (j : Job) : Bool := j.state != .done

/-- The exit status of the last process. -/
def status (j : Job) : Int := (j.processes.getLast?.map (·.status.code)).getD 0

/-- The signal that stopped the first stopped process. -/
def stopSignal? (j : Job) : Option Signal :=
  j.processes.findSome? fun p => match p.status with
    | .stopped s => some s
    | _ => none

/-- Whether a process belongs to the job. -/
def hasPid (pid : ProcessId) (j : Job) : Bool := j.processes.any (·.pid == pid)

/-- Records a status for the first of the processes with that number. -/
def recordIn (pid : ProcessId) (status : ProcessStatus) : List JobProcess → List JobProcess
  | [] => []
  | p :: ps => if p.pid = pid then { p with status } :: ps else p :: recordIn pid status ps

/-- Records the status of a process of the job. -/
def record (j : Job) (pid : ProcessId) (status : ProcessStatus) : Job :=
  { j with processes := recordIn pid status j.processes, changed := true }

/-- Takes every stopped process for running again. -/
def markContinued (j : Job) : Job :=
  { j with processes := j.processes.map fun p =>
      if p.status.isStopped then { p with status := .continued } else p }

/-- The state as listings show it. -/
def stateText (j : Job) : Text :=
  match j.state with
  | .running => "Running"
  | .stopped =>
    match j.stopSignal? with
    | none | some .tstp => "Stopped"
    | some s => "Stopped (" ++ s.name ++ ")"
  | .done =>
    match j.processes.getLast?.map JobProcess.status with
    | some (.killed s core) => s.description ++ (if core then " (core dumped)" else "" : Text)
    | none | some (.exited 0) => "Done"
    | some s => "Done(" ++ Text.ofInt s.code ++ ")"

/-- The number in brackets with its marker. -/
def tag (j : Job) (marker : Char) : Text := '[' :: Text.ofNat (j.id.getD 0) ++ "]" ++ [marker]

/-- The line of a plain listing. -/
def line (j : Job) (marker : Char) : Text :=
  j.tag marker ++ "  " ++ Text.padEnd 24 j.stateText ++ j.command

/-- The lines of a long listing, one a process. -/
def longLines (j : Job) (marker : Char) : Text :=
  let row (start state : Text) (p : JobProcess) : Text :=
    start ++ " " ++ Text.padEnd 7 (Text.ofInt p.pid) ++ " " ++ Text.padEnd 24 state ++ p.command
  Text.join "\n" <| match j.processes with
    | [] => []
    | p :: ps => row (j.tag marker) j.stateText p :: ps.map (row "    " [])

end Job

/-- The jobs of a shell. -/
structure Jobs where
  /-- Slot `i` holds the job with number `i + 1`. -/
  slots : List (Option Job) := []
  /-- The numbers of the jobs, least recently used first. -/
  order : List Nat := []
  /-- The job in the foreground. -/
  foreground : Option Job := none

instance : Inhabited Jobs := ⟨{}⟩

namespace Jobs

/-- The jobs by number. -/
def toList (js : Jobs) : List Job := js.slots.filterMap id

/-- Whether there are no jobs beside the one in the foreground. -/
def isEmpty (js : Jobs) : Bool := js.toList.isEmpty

/-- The number of leading full slots: where the next job goes. -/
def freeSlot (slots : List (Option Job)) : Nat := (slots.takeWhile Option.isSome).length

/-- Puts a job into the table; its number is returned beside the table. -/
def insert (js : Jobs) (j : Job) : Jobs × Nat :=
  let slot := freeSlot js.slots
  let j := { j with id := some (slot + 1) }
  let slots := if slot < js.slots.length then js.slots.set slot (some j) else js.slots ++ [some j]
  ({ js with slots, order := js.order ++ [slot + 1] }, slot + 1)

/-- The slots without empty ones at the end. -/
def dropEmptyEnd (slots : List (Option Job)) : List (Option Job) :=
  (slots.reverse.dropWhile Option.isNone).reverse

/-- Takes a job out of the table. -/
def remove (js : Jobs) (n : Nat) : Jobs × Option Job :=
  match n with
  | 0 => (js, none)
  | slot + 1 =>
    if slot < js.slots.length then
      ({ js with
          slots := dropEmptyEnd (js.slots.set slot none)
          order := js.order.filter (· ≠ slot + 1) },
        (js.slots[slot]?).join)
    else (js, none)

/-- The first job that satisfies `p`. -/
def find? (js : Jobs) (p : Job → Bool) : Option Job := js.toList.find? p

/-- The job with a number. -/
def get? (js : Jobs) (n : Nat) : Option Job := js.find? fun j => j.id == some n

/-- The job that a process belongs to. -/
def ofPid? (js : Jobs) (pid : ProcessId) : Option Job := js.find? (Job.hasPid pid)

/-- Changes the first job that satisfies `p`. -/
def modifyFirst (p : Job → Bool) (f : Job → Job) : List (Option Job) → List (Option Job)
  | [] => []
  | none :: r => none :: modifyFirst p f r
  | some j :: r => if p j then some (f j) :: r else some j :: modifyFirst p f r

/-- Changes the job with a number. -/
def modify (js : Jobs) (n : Nat) (f : Job → Job) : Jobs :=
  { js with slots := modifyFirst (fun j => j.id == some n) f js.slots }

/-- The job used last. -/
def current? (js : Jobs) : Option Nat := js.order.getLast?

/-- The job used before the current one. -/
def previous? (js : Jobs) : Option Nat := js.order.dropLast.getLast?

/-- Makes a job the current one. -/
def makeCurrent (js : Jobs) (n : Nat) : Jobs :=
  { js with order := js.order.filter (· ≠ n) ++ [n] }

/-- The mark of a job in listings: `+` for the current one, `-` for the previous one. -/
def marker (js : Jobs) (n : Nat) : Char :=
  if js.current? = some n then '+' else if js.previous? = some n then '-' else ' '

/-- Records the status of a process, in the foreground job if that has it. The result tells
whether any job does. -/
def record (js : Jobs) (pid : ProcessId) (status : ProcessStatus) : Jobs × Bool :=
  match js.foreground with
  | some fg =>
    if fg.hasPid pid then ({ js with foreground := some (fg.record pid status) }, true)
    else recordInTable
  | none => recordInTable
where
  /-- Records it in the first job of the table that has the process. -/
  recordInTable : Jobs × Bool :=
    ({ js with slots := modifyFirst (Job.hasPid pid) (·.record pid status) js.slots },
      js.toList.any (Job.hasPid pid))

/-- Takes jobs out one by one, each with the mark it has at that point. -/
def takeMarked (js : Jobs) : List Nat → Jobs × List (Job × Char)
  | [] => (js, [])
  | n :: ns =>
    let mark := js.marker n
    let (js', j) := js.remove n
    let (js'', rest) := takeMarked js' ns
    (js'', match j with
      | some j => (j, mark) :: rest
      | none => rest)

/-- Takes the finished jobs out of the table, each with its mark. -/
def takeDone (js : Jobs) : Jobs × List (Job × Char) :=
  js.takeMarked ((js.toList.filter fun j => j.state == .done).filterMap (·.id))

/-- The numbers of the jobs that changed since this was last asked for. -/
def takeChanged (js : Jobs) : Jobs × List Nat :=
  ({ js with slots := js.slots.map (Option.map fun j => { j with changed := false }) },
    (js.toList.filter (·.changed)).filterMap (·.id))

/-- No jobs at all. -/
def cleared : Jobs := {}

/-- The only element of a list. -/
def theOnly? : List Nat → Option Nat
  | [n] => some n
  | _ => none

/-- The job that a specification names: `%n`, `%%`, `%+`, `%-`, the start of the command after
`%`, or a part of it after `%?`. A command has to fit one job only. -/
def resolve? (js : Jobs) (spec : Text) : Option Nat :=
  match spec with
  | '%' :: body =>
    if body.contains '\n' then none
    else if body.isEmpty || body = ['%'] || body = ['+'] then js.current?
    else if body = ['-'] then js.previous?
    else if Text.isDigits body then
      (Numeral.word64? body).bind fun n => (js.get? n).map fun _ => n
    else
      let fits : Job → Bool := match body with
        | '?' :: part => fun j => Text.hasPart part j.command
        | start => fun j => (Text.dropPrefix? start j.command).isSome
      theOnly? ((js.toList.filter fits).filterMap Job.id)
  | _ => none

end Jobs

end CommandShell
