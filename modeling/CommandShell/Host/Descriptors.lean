import CommandShell.Host.Call

/-!
# Descriptor tables

A process names its open files by small numbers. A new descriptor always gets the lowest number
that is free, from a floor on, and no number reaches the limit of the table.
-/

namespace CommandShell.Host

/-- What a descriptor stands for. -/
structure Slot where
  /-- The number of the open file. -/
  openFile : Nat
  /-- Whether a new program loses the descriptor. -/
  closeOnExec : Bool := false
  deriving DecidableEq, Repr

/-- The descriptors of a process. -/
structure Descriptors where
  /-- The open descriptors, each number once. -/
  slots : List (Nat × Slot) := []
  /-- No number reaches this one. -/
  limit : Nat := 1048576

instance : Inhabited Descriptors := ⟨{}⟩

namespace Descriptors

/-- What a descriptor stands for; none when it is closed. -/
def get? (ds : Descriptors) (fd : Nat) : Option Slot := ds.slots.lookup fd

/-- Whether a descriptor is open. -/
def isOpen (ds : Descriptors) (fd : Nat) : Bool := (ds.get? fd).isSome

/-- Closes a descriptor. -/
def close (ds : Descriptors) (fd : Nat) : Descriptors :=
  { ds with slots := ds.slots.filter fun s => s.1 ≠ fd }

/-- Makes a descriptor stand for something, in place of what it stood for. -/
def put (ds : Descriptors) (fd : Nat) (slot : Slot) : Descriptors :=
  { ds with slots := (fd, slot) :: (ds.close fd).slots }

/-- The lowest free number from `floor` on. One of the first `slots.length + 1` candidates is
free. -/
def lowestFree? (ds : Descriptors) (floor : Nat) : Option Nat :=
  ((List.range' floor (ds.slots.length + 1)).find? fun fd => !ds.isOpen fd).filter (· < ds.limit)

/-- Opens the lowest free descriptor from `floor` on. -/
def add? (ds : Descriptors) (floor : Nat) (slot : Slot) : Option (Descriptors × Nat) :=
  (ds.lowestFree? floor).map fun fd => (ds.put fd slot, fd)

/-- The descriptors that a new program inherits. -/
def inherited (ds : Descriptors) : Descriptors :=
  { ds with slots := ds.slots.filter fun s => !s.2.closeOnExec }

/-- Whether some descriptor stands for an open file that satisfies `p`. -/
def anyOpenFile (ds : Descriptors) (p : Nat → Bool) : Bool :=
  ds.slots.any fun s => p s.2.openFile

end Descriptors

end CommandShell.Host
