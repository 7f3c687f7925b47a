import Mathlib.Data.List.Nodup
import CommandShell.Expansion.Pathname
import CommandShell.Host.Files
import CommandShell.Proofs.PatternMeaning.Components
import CommandShell.Proofs.RawBytes.Boundaries

/-!
# Paths in a tree of files

A `FileTree` is what a system knows of files that stay as they are: of each path, and of the names in
each directory. `FileTree.Matches` says which of its paths a pattern stands for: those that its components
lead to, one after the other, and where there is a file.
-/

namespace CommandShell

open Host (Bytes FileStatus)

namespace Host

/-- The name of a file in a directory: neither the directory itself nor the one above it. -/
structure IsEntryName (name : Bytes) : Prop where
  nonempty : name ≠ []
  slash : Files.slash ∉ name
  dot : name ≠ Files.dot
  dotDot : name ≠ Files.dotDot

instance (name : Bytes) : Decidable (IsEntryName name) :=
  decidable_of_iff (name ≠ [] ∧ Files.slash ∉ name ∧ name ≠ Files.dot ∧ name ≠ Files.dotDot)
    ⟨fun ⟨h, hs, hd, hdd⟩ => ⟨h, hs, hd, hdd⟩, fun ⟨h, hs, hd, hdd⟩ => ⟨h, hs, hd, hdd⟩⟩

/-- Files that stay as they are: what is known of each, and the names in each directory. -/
structure FileTree where
  status : Bytes → Bool → Except Errno FileStatus
  names : Bytes → Except Errno (List Bytes)
  nodup : ∀ {dir ns}, names dir = .ok ns → ns.Nodup
  isEntryName : ∀ {dir ns n}, names dir = .ok ns → n ∈ ns → IsEntryName n

namespace FileTree

/-- The tree whose working directory holds regular files with these names, and that has no others. -/
def ofNames (ns : List Bytes) (hnodup : ns.Nodup) (hnames : ∀ n ∈ ns, IsEntryName n) : FileTree where
  status path _ :=
    if path ∈ ns then .ok { kind := .regular, mode := 0o644, size := 0, number := 0, time := 0 }
    else .error .noEntry
  names dir := if dir = Files.dot then .ok ns else .error .noEntry
  nodup := by
    intro dir ns' h
    split at h
    · cases h
      exact hnodup
    · cases h
  isEntryName := by
    intro dir ns' n h hn
    split at h
    · cases h
      exact hnames n hn
    · cases h

/-- What is known of the file that a path leads to. -/
def statusOf (t : FileTree) (path : Text) (follow : Bool) : Except Errno FileStatus :=
  match Shell.pathBytes? path with
  | some p => t.status p follow
  | none => .error .unknown

/-- Whether a path leads to a file, or to a directory if only those count. -/
def hasFile (t : FileTree) (directoriesOnly : Bool) (path : Text) : Bool :=
  (t.statusOf path false).isOk && (!directoriesOnly ||
    match t.statusOf path true with
    | .ok st => st.kind == .directory
    | .error _ => false)

/-- The names in a directory, with those of itself and the one above if dotted names count; none if it
cannot be read. No path at all stands for the working directory. -/
def entries (t : FileTree) (dotted : Bool) (dir : Text) : List Text :=
  match Shell.pathBytes? (if dir.isEmpty then "." else dir) with
  | none => []
  | some p =>
    match t.names p with
    | .ok names => names.map Text.decode ++ if dotted then [['.'], ['.', '.']] else []
    | .error _ => []

end FileTree

end Host

namespace Expansion

/-! ## Paths and names -/

/-- A directory as it stands before a name. -/
def dirPrefix (dir : Text) : Text :=
  if dir.isEmpty || dir.getLast? == some '/' then dir else dir ++ ['/']

theorem pathBelow_eq (dir name : Text) : pathBelow dir name = dirPrefix dir ++ name := by
  unfold pathBelow dirPrefix
  split
  · rfl
  · rfl

theorem dirPrefix_cases (dir : Text) : dirPrefix dir = [] ∨ ∃ e, dirPrefix dir = e ++ ['/'] := by
  unfold dirPrefix
  split
  next h =>
    rcases Bool.or_eq_true_iff.mp h with hempty | hlast
    · exact Or.inl (List.isEmpty_iff.mp hempty)
    · obtain ⟨e, he⟩ := List.getLast?_eq_some_iff.mp (beq_iff_eq.mp hlast)
      exact Or.inr ⟨e, he⟩
  next => exact Or.inr ⟨dir, rfl⟩

/-- A text that can stand between slashes. -/
structure IsName (name : Text) : Prop where
  nonempty : name ≠ []
  slash : '/' ∉ name

section

variable {dir dir' name name' : Text}

theorem IsName.dirPrefix_pathBelow (hname : IsName name) :
    dirPrefix (pathBelow dir name) = dirPrefix dir ++ name ++ ['/'] := by
  have hlast : (dirPrefix dir ++ name).getLast? ≠ some '/' := by
    rw [List.getLast?_append_of_ne_nil _ hname.nonempty]
    exact fun h => hname.slash (List.mem_of_getLast? h)
  rw [pathBelow_eq, dirPrefix, if_neg]
  simpa [hname.nonempty] using hlast

/-- The path of a file tells the directory and the name. -/
theorem IsName.pathBelow_inj (hname : IsName name) (hname' : IsName name')
    (h : dirPrefix (pathBelow dir name) = dirPrefix (pathBelow dir' name')) :
    dirPrefix dir = dirPrefix dir' ∧ name = name' := by
  rw [hname.dirPrefix_pathBelow, hname'.dirPrefix_pathBelow] at h
  replace h := List.append_cancel_right h
  have hslash := hname.slash
  have hslash' := hname'.slash
  rcases dirPrefix_cases dir with hdir | ⟨e, hdir⟩
  · rcases dirPrefix_cases dir' with hdir' | ⟨e', hdir'⟩
    · rw [hdir, hdir'] at h ⊢
      exact ⟨rfl, h⟩
    · rw [hdir, hdir'] at h
      have hmem : '/' ∈ [] ++ name := h ▸ by simp
      exact absurd hmem hslash
  · rcases dirPrefix_cases dir' with hdir' | ⟨e', hdir'⟩
    · rw [hdir, hdir'] at h
      have hmem : '/' ∈ [] ++ name' := h ▸ by simp
      exact absurd hmem hslash'
    · rw [hdir, hdir'] at h ⊢
      have hsides : e ++ '/' :: name = e' ++ '/' :: name' := by simpa using h
      -- a longer part before the name would leave a slash in the other name
      rcases List.append_eq_append_iff.mp hsides with ⟨c, rfl, hrest⟩ | ⟨c, rfl, hrest⟩
      · cases c with
        | nil =>
            obtain ⟨-, rfl⟩ := List.cons.inj hrest
            exact ⟨by rw [List.append_nil], rfl⟩
        | cons x c =>
            obtain ⟨-, rfl⟩ := List.cons.inj hrest
            simp at hslash
      · cases c with
        | nil =>
            obtain ⟨-, rfl⟩ := List.cons.inj hrest
            exact ⟨by rw [List.append_nil], rfl⟩
        | cons x c =>
            obtain ⟨-, rfl⟩ := List.cons.inj hrest
            simp at hslash'

end

/-- The components of a pattern. -/
def components (pattern : Text) : List Text := (Text.splitAt '/' pattern).filter (!·.isEmpty)

end Expansion

/-! ## Matches -/

namespace Host.FileTree

open Expansion (pathBelow components IsName)
open Pattern (Fits isMagic)

/-- From a directory, components lead to a path. A component without special characters is a name as it
stands; another one leads to the names that fit it, and these are those of the directory itself and of
the one above too if it starts with a dot. -/
inductive Leads (t : FileTree) : Text → List Text → Text → Prop
  | here (path : Text) : t.Leads path [] path
  | plain {dir c path : Text} {rest : List Text} : c.any isMagic = false →
    t.Leads (pathBelow dir c) rest path → t.Leads dir (c :: rest) path
  | entry {dir c name path : Text} {rest : List Text} : c.any isMagic = true →
    name ∈ t.entries (c.head? == some '.') dir → Fits c name →
      t.Leads (pathBelow dir name) rest path → t.Leads dir (c :: rest) path

/-- The path is one that the pattern stands for: its components lead there, and there is a file, a
directory if the pattern ends in `/`, which the path then does too. -/
def Matches (t : FileTree) (pattern path : Text) : Prop :=
  let directoriesOnly := pattern.getLast? == some '/'
  ∃ place, t.Leads (if pattern.head? == some '/' then ['/'] else []) (components pattern) place ∧
    t.hasFile directoriesOnly place = true ∧
      path = if directoriesOnly then place ++ ['/'] else place

/-- No name in the tree spells a character that stands for a byte. -/
def SpellsNoRaw (t : FileTree) : Prop :=
  ∀ dir ns, t.names dir = .ok ns → ∀ n ∈ ns, Text.SpellsNoRaw n

section

variable {t : FileTree} {dotted : Bool} {dir c name path : Text} {rest : List Text}

/-- A name that survives is not empty, holds no slash and is not one of the two that count beside it. -/
theorem decode_entryName {n : Bytes} (hn : Text.SpellsNoRaw n) (hname : IsEntryName n) :
    Text.decode n ≠ [] ∧ '/' ∉ Text.decode n ∧ Text.decode n ≠ ['.'] ∧ Text.decode n ≠ ['.', '.'] := by
  have hback := Text.encode_decode_of_spellsNoRaw hn
  refine ⟨fun h => hname.nonempty ?_, fun h => hname.slash ?_, fun h => hname.dot ?_,
    fun h => hname.dotDot ?_⟩
  · rw [← hback, h]
    rfl
  · obtain ⟨u, v, huv⟩ := List.append_of_mem h
    rw [← hback, huv, Text.encode_append_cons (by decide)]
    exact List.mem_append_right _ List.mem_cons_self
  · rw [← hback, h]
    decide
  · rw [← hback, h]
    decide

theorem nodup_entries (ht : t.SpellsNoRaw) : (t.entries dotted dir).Nodup := by
  unfold entries
  split
  · exact List.nodup_nil
  · rename_i p _
    split
    · rename_i ns hns
      have hnames : (ns.map Text.decode).Nodup := by
        refine (t.nodup hns).map_on fun n hn n' hn' heq => ?_
        rw [← Text.encode_decode_of_spellsNoRaw (ht p ns hns n hn), heq,
          Text.encode_decode_of_spellsNoRaw (ht p ns hns n' hn')]
      cases dotted with
      | false => simpa using hnames
      | true =>
          refine hnames.append (by decide) fun name hname hdots => ?_
          obtain ⟨n, hn, rfl⟩ := List.mem_map.mp hname
          obtain ⟨-, -, hdot, hdotDot⟩ := decode_entryName (ht p ns hns n hn) (t.isEntryName hns hn)
          simp [hdot, hdotDot] at hdots
    · exact List.nodup_nil

theorem of_mem_entries (ht : t.SpellsNoRaw) (h : name ∈ t.entries dotted dir) :
    IsName name := by
  unfold entries at h
  split at h
  · cases h
  · rename_i p _
    split at h
    · rename_i ns hns
      rcases List.mem_append.mp h with hname | hdots
      · obtain ⟨n, hn, rfl⟩ := List.mem_map.mp hname
        obtain ⟨hne, hslash, -⟩ := decode_entryName (ht p ns hns n hn) (t.isEntryName hns hn)
        exact ⟨hne, hslash⟩
      · cases dotted with
        | false => cases hdots
        | true =>
            have hcases : name = ['.'] ∨ name = ['.', '.'] := by simpa using hdots
            rcases hcases with rfl | rfl
            · exact ⟨by decide, by decide⟩
            · exact ⟨by decide, by decide⟩
    · cases h

theorem leads_nil : t.Leads dir [] path ↔ path = dir := by
  constructor
  · intro h
    cases h
    rfl
  · rintro rfl
    exact .here _

theorem leads_plain (hc : c.any isMagic = false) :
    t.Leads dir (c :: rest) path ↔ t.Leads (pathBelow dir c) rest path := by
  constructor
  · intro h
    cases h with
    | plain _ h => exact h
    | entry hmagic => simp [hc] at hmagic
  · exact .plain hc

theorem leads_magic (hc : c.any isMagic = true) : t.Leads dir (c :: rest) path ↔
    ∃ name ∈ t.entries (c.head? == some '.') dir, Fits c name ∧
      t.Leads (pathBelow dir name) rest path := by
  constructor
  · intro h
    cases h with
    | plain hplain => simp [hc] at hplain
    | entry _ hname hfits h => exact ⟨_, hname, hfits, h⟩
  · rintro ⟨name, hname, hfits, h⟩
    exact .entry hc hname hfits h

end

end Host.FileTree

end CommandShell
