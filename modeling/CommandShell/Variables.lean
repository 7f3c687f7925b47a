import CommandShell.Fault
import CommandShell.Table
import CommandShell.Text.Name

/-!
# Variables

The variables of a shell with their export and read-only flags, the positional parameters, and
the frames in which functions shadow variables. A frame remembers what each name was bound to
before it was first shadowed there; closing the frame puts that back. A refused operation
leaves everything unchanged.
-/

namespace CommandShell

/-- A variable. A name can carry flags without having a value. -/
structure Variable where
  /-- The value, if one was ever given. -/
  value : Option Text := none
  /-- Whether commands find it in their environment. -/
  exported : Bool := false
  /-- Whether its value is fixed. -/
  readOnly : Bool := false
  deriving DecidableEq, Repr

/-- What a name was bound to before a frame shadowed it. -/
structure Shadowed where
  name : Text
  prior : Option Variable

/-- Variables, positional parameters and open frames. -/
structure Variables where
  /-- The variables by name. -/
  bindings : Table Variable := .empty
  /-- `$1` and following. -/
  params : List Text := []
  /-- Open frames, newest first, each with the newest shadowed name first. -/
  frames : List (List Shadowed) := []

instance : Inhabited Variables := ⟨{}⟩

namespace Variables

/-- The variables that an environment of `name=value` pairs brings in, all exported. Pairs whose
left side is no name are left out. -/
def ofEnvironment (env : List (Text × Text)) : Variables :=
  { bindings := Table.ofList
      ((env.filter fun b => Text.isName b.1).map fun b =>
        (b.1, { value := some b.2, exported := true })) }

/-- The binding of a name. -/
def get? (vs : Variables) (name : Text) : Option Variable := vs.bindings.get? name

/-- The value of a name. -/
def value? (vs : Variables) (name : Text) : Option Text := (vs.get? name).bind (·.value)

/-- Whether a name is read-only. -/
def isReadOnly (vs : Variables) (name : Text) : Bool := (vs.get? name).any (·.readOnly)

/-- Gives a name a value, flags, or both. Flags are only added, and without a value the old one
stays. Giving a read-only variable a value is refused. -/
def assignWith (vs : Variables) (name : Text) (value : Option Text)
    (exported readOnly : Bool) : Except Fault Variables :=
  let old := (vs.get? name).getD {}
  if value.isSome && old.readOnly then .error (.readOnly name)
  else .ok { vs with
    bindings := vs.bindings.insert name
      { value := value.or old.value
        exported := old.exported || exported
        readOnly := old.readOnly || readOnly } }

/-- Gives a name a value; its flags stay. -/
def assign (vs : Variables) (name value : Text) : Except Fault Variables :=
  vs.assignWith name (some value) false false

/-- Gives a name a value and exports it. -/
def exportValue (vs : Variables) (name value : Text) : Except Fault Variables :=
  vs.assignWith name (some value) true false

/-- Removes a variable. -/
def unset (vs : Variables) (name : Text) : Except Fault Variables :=
  if vs.isReadOnly name then .error (.readOnly name)
  else .ok { vs with bindings := vs.bindings.erase name }

/-- Takes the export flag off a variable. -/
def unexport (vs : Variables) (name : Text) : Variables :=
  match vs.get? name with
  | some v => { vs with bindings := vs.bindings.insert name { v with exported := false } }
  | none => vs

/-- The environment of a command: every exported variable that has a value. -/
def environment (vs : Variables) : List (Text × Text) :=
  vs.bindings.toList.filterMap fun (name, v) =>
    if v.exported then v.value.map fun t => (name, t) else none

/-- Opens a frame. -/
def openFrame (vs : Variables) : Variables := { vs with frames := [] :: vs.frames }

/-- Puts a shadowed name back. -/
def restore (bindings : Table Variable) (s : Shadowed) : Table Variable :=
  match s.prior with
  | some v => bindings.insert s.name v
  | none => bindings.erase s.name

/-- Closes the newest frame and puts every name shadowed in it back. -/
def closeFrame (vs : Variables) : Variables :=
  match vs.frames with
  | [] => vs
  | frame :: rest => { vs with bindings := frame.foldl restore vs.bindings, frames := rest }

/-- Whether a frame is open. -/
def inFrame (vs : Variables) : Bool := !vs.frames.isEmpty

/-- Shadows a name until the newest frame closes. It keeps its value and flags for now. -/
def shadow (vs : Variables) (name : Text) : Except Fault Variables :=
  match vs.frames with
  | [] => .error (.execution "not in a function")
  | frame :: rest =>
    if frame.any fun s => s.name == name then .ok vs
    else .ok { vs with frames := (⟨name, vs.get? name⟩ :: frame) :: rest }

/-- A positional parameter, counted from 1. -/
def param? (vs : Variables) : Nat → Option Text
  | 0 => none
  | n + 1 => vs.params[n]?

/-- New positional parameters. -/
def withParams (vs : Variables) (ps : List Text) : Variables := { vs with params := ps }

/-- Drops the first `n` positional parameters, if there are that many. -/
def shift? (vs : Variables) (n : Nat) : Option Variables :=
  if n ≤ vs.params.length then some { vs with params := vs.params.drop n } else none

end Variables

end CommandShell
