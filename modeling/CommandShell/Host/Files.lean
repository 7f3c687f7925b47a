import CommandShell.Host.Call

/-!
# The tree of files

Files are numbered; a directory holds names with the numbers of what they name, and the number of
the directory above it. File 0 is the root. A path is followed name by name; links on the way are
replaced by their targets, up to a fixed number of them, so that following a path always ends.

Files come into being and change, but nothing is ever removed: the shell has no command that
does. Every change of contents moves the clock on. All files belong to the one user there is, so
that only the first three of the permission bits matter.
-/

namespace CommandShell.Host

/-- What a file consists of. -/
inductive FileBody where
  | regular (data : Bytes)
  | directory (entries : List (Bytes × Nat)) (parent : Nat)
  | link (target : Bytes)
  /-- The device that is always empty and takes everything. -/
  | nullDevice
  deriving Repr

/-- A file with its permission bits and the time of its last change. -/
structure File where
  body : FileBody
  mode : Nat
  time : Nat := 0
  deriving Repr

namespace File

/-- The kind of the file. -/
def kind (f : File) : FileKind :=
  match f.body with
  | .regular _ => .regular
  | .directory .. => .directory
  | .link _ => .link
  | .nullDevice => .charDevice

/-- Whether the file is a directory. -/
def isDirectory (f : File) : Bool := f.kind == .directory

/-- Number of bytes in the file; directories always count as filled. -/
def size (f : File) : Nat :=
  match f.body with
  | .regular data => data.length
  | .directory .. => 4096
  | .link target => target.length
  | .nullDevice => 0

/-- What is known of the file under its number. -/
def status (f : File) (number : Nat) : FileStatus :=
  { kind := f.kind, mode := f.mode, size := f.size, number, time := f.time }

/-- Whether the owner of the file may use it so. For a directory, executing means to follow the
names in it. -/
def allows (f : File) : Permission → Bool
  | .read => f.mode &&& 0o400 != 0
  | .write => f.mode &&& 0o200 != 0
  | .execute => f.mode &&& 0o100 != 0

end File

/-- All files. -/
structure Files where
  /-- The files by number. -/
  table : List File := [{ body := .directory [] 0, mode := 0o755 }]
  clock : Nat := 0

instance : Inhabited Files := ⟨{}⟩

/-- Where a path leads: to a file, or to a name that is free in a directory. -/
inductive Location where
  | found (number : Nat)
  | free (directory : Nat) (name : Bytes)
  deriving DecidableEq, Repr

namespace Files

/-- The slash, which separates the names of a path. -/
def slash : Byte := 0x2F

/-- The name of a directory in itself. -/
def dot : Bytes := [0x2E]

/-- The name of the directory above. -/
def dotDot : Bytes := [0x2E, 0x2E]

/-- The names of a path. -/
def names (path : Bytes) : List Bytes := (path.splitOn slash).filter (!·.isEmpty)

/-- Whether a path starts at the root. -/
def isAbsolute (path : Bytes) : Bool := path.head? == some slash

/-- Whether a path ends in a slash, so that only a directory fits. -/
def endsInSlash (path : Bytes) : Bool := path.getLast? == some slash

/-- The longest name that a directory takes. -/
def nameLimit : Nat := 255

/-- The number of links that following one path may meet. -/
def linkLimit : Nat := 40

/-- The file with a number. -/
def get? (fs : Files) (n : Nat) : Option File := fs.table[n]?

/-- Whether the file with a number may be used so. -/
def allows (fs : Files) (n : Nat) (permission : Permission) : Bool :=
  (fs.get? n).any (·.allows permission)

/-- The entries of a directory and the directory above it. -/
def directory? (fs : Files) (n : Nat) : Option (List (Bytes × Nat) × Nat) :=
  match fs.get? n with
  | some { body := .directory entries parent, .. } => some (entries, parent)
  | _ => none

/-- Follows names from a directory. A link in the last place is followed only if `follow` says
so. -/
def walk (fs : Files) (follow : Bool) (links : Nat) (dir : Nat) (path : List Bytes) :
    Except Errno Location :=
  match path with
  | [] => .ok (.found dir)
  | name :: rest =>
    match fs.directory? dir with
    | none => .error .notDirectory
    | some (entries, parent) =>
      if !fs.allows dir .execute then .error .access
      else if name = dot then fs.walk follow links dir rest
      else if name = dotDot then fs.walk follow links parent rest
      else if nameLimit < name.length then .error .nameTooLong
      else match entries.lookup name with
        | none => if rest.isEmpty then .ok (.free dir name) else .error .noEntry
        | some n =>
          match fs.get? n with
          | some { body := .link target, .. } =>
            if rest.isEmpty && !follow then .ok (.found n)
            else match links with
              | 0 => .error .linkLoop
              | links + 1 =>
                fs.walk follow links (if isAbsolute target then 0 else dir) (names target ++ rest)
          | _ => if rest.isEmpty then .ok (.found n) else fs.walk follow links n rest
termination_by (links, path.length)

/-- Follows a path from a directory. -/
def locate (fs : Files) (dir : Nat) (path : Bytes) (follow : Bool) : Except Errno Location :=
  if path.isEmpty then .error .noEntry
  else do
    let place ← fs.walk (follow || endsInSlash path) linkLimit
      (if isAbsolute path then 0 else dir) (names path)
    match place with
    | .found n =>
      if endsInSlash path && !((fs.get? n).any File.isDirectory) then .error .notDirectory
      else .ok place
    | .free .. => .ok place

/-- The number of the file that a path leads to. -/
def find (fs : Files) (dir : Nat) (path : Bytes) (follow : Bool) : Except Errno Nat := do
  match ← fs.locate dir path follow with
  | .found n => .ok n
  | .free .. => .error .noEntry

/-- Changes the file with a number. -/
def modify (fs : Files) (n : Nat) (f : File → File) : Files :=
  { fs with table := fs.table.modify n f }

/-- Adds a name to a directory's entries. -/
def File.withEntry (name : Bytes) (n : Nat) (f : File) : File :=
  match f.body with
  | .directory entries parent => { f with body := .directory (entries ++ [(name, n)]) parent }
  | _ => f

/-- Makes a file under a free name of a directory. The file's number is returned too. -/
def make (fs : Files) (dir : Nat) (name : Bytes) (body : FileBody) (mode : Nat) : Files × Nat :=
  let n := fs.table.length
  let file : File := { body, mode, time := fs.clock + 1 }
  let files : Files := { table := fs.table ++ [file], clock := fs.clock + 1 }
  (files.modify dir (File.withEntry name n), n)

/-- Makes a file that no directory names. -/
def makeHidden (fs : Files) (body : FileBody) (mode : Nat) : Files × Nat :=
  ({ table := fs.table ++ [{ body, mode, time := fs.clock + 1 }], clock := fs.clock + 1 },
    fs.table.length)

/-- The contents of a regular file. -/
def data (fs : Files) (n : Nat) : Bytes :=
  match fs.get? n with
  | some { body := .regular d, .. } => d
  | _ => []

/-- Replaces the contents of a regular file. -/
def setData (fs : Files) (n : Nat) (d : Bytes) : Files :=
  { fs.modify n fun f => match f.body with
      | .regular _ => { f with body := .regular d, time := fs.clock + 1 }
      | _ => f
    with clock := fs.clock + 1 }

/-- Contents with a piece written over them from an offset on; a gap is filled with zeros. -/
def overwrite (old : Bytes) (offset : Nat) (piece : Bytes) : Bytes :=
  if offset = old.length then old ++ piece
  else (old ++ List.replicate (offset - old.length) 0).take offset ++ piece
    ++ old.drop (offset + piece.length)

/-- Opens the file that a path leads to, makes it or empties it as the flags say, and returns its
number. Files that are made get the permissions `mode`. -/
def openPath (fs : Files) (dir : Nat) (path : Bytes) (flags : OpenFlags) (mode : Nat) :
    Except Errno (Files × Nat) := do
  match ← fs.locate dir path !(flags.creates && flags.exclusive) with
  | .found n =>
    if flags.creates && flags.exclusive then throw .exists_
    if (flags.writes || flags.creates) && (fs.get? n).any File.isDirectory then throw .isDirectory
    if flags.reads && !fs.allows n .read then throw .access
    if flags.writes && !fs.allows n .write then throw .access
    return (if flags.truncates then fs.setData n [] else fs, n)
  | .free parent name =>
    if !flags.creates then throw .noEntry
    if endsInSlash path then throw .isDirectory
    if !fs.allows parent .write then throw .access
    return fs.make parent name (.regular []) mode

/-- The names that lead from the root to a directory, last first. The walk upwards is bounded by
the number of files. -/
def namesAbove (fs : Files) : Nat → Nat → List Bytes
  | 0, _ => []
  | bound + 1, n =>
    if n = 0 then []
    else match fs.directory? n with
      | none => []
      | some (_, parent) =>
        match (fs.directory? parent).bind fun d => d.1.find? fun e => e.2 == n with
        | some (name, _) => name :: fs.namesAbove bound parent
        | none => []

/-- The path of a directory from the root. -/
def pathOf (fs : Files) (n : Nat) : Bytes :=
  match (fs.namesAbove fs.table.length n).reverse with
  | [] => [slash]
  | ns => ns.flatMap (slash :: ·)

/-- The directory of the given names below `dir`; those that are missing are made. -/
def makeDirectories (fs : Files) (dir : Nat) : List Bytes → Files × Nat
  | [] => (fs, dir)
  | name :: rest =>
    match fs.walk true linkLimit dir [name] with
    | .ok (.free parent name) =>
      let (fs, n) := fs.make parent name (.directory [] parent) 0o755
      fs.makeDirectories n rest
    | .ok (.found n) => fs.makeDirectories n rest
    | .error _ => (fs, dir)

/-- Puts a file at a path below `dir`, with the directories that lead there. A file that is there
already is replaced; a directory only gets the new permissions. -/
def install (fs : Files) (dir : Nat) (path : Bytes) (body : FileBody) (mode : Nat) : Files :=
  match (names path).reverse with
  | [] => fs
  | name :: above =>
    let (fs, parent) := fs.makeDirectories (if isAbsolute path then 0 else dir) above.reverse
    let body := match body with
      | .directory entries _ => .directory entries parent
      | b => b
    match fs.walk false linkLimit parent [name] with
    | .ok (.free p name) => (fs.make p name body mode).1
    | .ok (.found n) =>
      fs.modify n fun f => if f.isDirectory then { f with mode } else { f with body, mode }
    | .error _ => fs

end Files

end CommandShell.Host
