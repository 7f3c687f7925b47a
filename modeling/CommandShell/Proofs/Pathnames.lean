import Mathlib
import CommandShell.Expansion.Words
import CommandShell.Proofs.Lockstep
import CommandShell.Proofs.Pathnames.Tree
import CommandShell.Proofs.VerbatimWords

/-!
# Which paths a pattern finds

Pathname expansion in a tree of files finds the paths that the pattern stands for and no others, each
once and in order; when there are none the word stays as it was (`fieldArguments_matches`). The components
of the pattern have to be valid patterns without two stars side by side, and must not start with a star
and a dot: these find names that start with a dot as well. The names of the files have to survive as text:
two that do not may look alike, and are found twice (`not_fieldArguments_matches`).
-/

namespace CommandShell

open Host (Call Program Reply)

/-! ## The order of texts -/

namespace Text

theorem lt_iff_lt (a b : Text) : lt a b = true ↔ a < b := by
  fun_induction lt a b with
  | case1 => simp
  | case2 => simp
  | case3 as b bs ih => simp [ih]
  | case4 a as b bs hne =>
      simp [List.cons_lt_cons_iff, hne, Char.lt_def, UInt32.lt_iff_toNat_lt]

theorem not_lt_iff_le (a b : Text) : (!lt b a) = true ↔ a ≤ b := by
  rw [Bool.not_eq_true', Bool.eq_false_iff, ne_eq, lt_iff_lt, not_lt]

theorem mem_sort {t : Text} {ts : List Text} : t ∈ sort ts ↔ t ∈ ts :=
  (List.mergeSort_perm ts _).mem_iff

theorem sort_eq_nil {ts : List Text} : sort ts = [] ↔ ts = [] := by
  rw [List.eq_nil_iff_forall_not_mem, List.eq_nil_iff_forall_not_mem]
  exact forall_congr' fun t => not_congr mem_sort

/-- Distinct texts stand in strict order when they are sorted. -/
theorem pairwise_sort {ts : List Text} (hts : ts.Nodup) : (sort ts).Pairwise (· < ·) := by
  have hsorted : (sort ts).Pairwise fun a b => (!lt b a) = true := by
    apply List.pairwise_mergeSort
    · intro a b c hab hbc
      rw [not_lt_iff_le] at hab hbc ⊢
      exact hab.trans hbc
    · intro a b
      rw [Bool.or_eq_true, not_lt_iff_le, not_lt_iff_le]
      exact le_total a b
  have hdistinct : (sort ts).Pairwise (· ≠ ·) := (List.mergeSort_perm ts _).nodup_iff.mpr hts
  refine (hsorted.and hdistinct).imp fun {a b} h => ?_
  exact lt_of_le_of_ne ((not_lt_iff_le a b).mp h.1) h.2

end Text

/-! ## Programs that ask about files -/

namespace Host

namespace FileTree

variable {α β : Type}

/-- The answers to questions about the files. -/
def answer? (t : FileTree) : (c : Call) → Option (Reply c)
  | .fileStatus path follow => some (t.status path follow)
  | .listDirectory path => some (t.names path)
  | _ => none

/-- What a program comes to that asks about the files only. -/
def run (t : FileTree) : Program α → Option α
  | .done a => some a
  | .call c k =>
    match t.answer? c with
    | some r => run t (k r)
    | none => none

theorem run_bind {t : FileTree} {p : Program α} {a : α} (h : t.run p = some a) (f : α → Program β) :
    t.run (p.bind f) = t.run (f a) := by
  induction p with
  | done b =>
      cases h
      rfl
  | call c k ih =>
      rw [run] at h
      rw [Program.bind, run]
      cases hc : t.answer? c with
      | some r =>
          rw [hc] at h
          exact ih r h
      | none =>
          rw [hc] at h
          cases h

end FileTree

end Host

namespace Expansion

open Shell
open Host (Bytes FileTree)
open Pattern (Fits isMagic compile?)

/-- In the tree a computation comes to a value and leaves the state as it is. -/
def Gives (t : FileTree) {α : Type} (x : ShellM α) (a : α) : Prop :=
  ∀ s, t.run (x.startedIn s) = some (.ok a, s)

section

variable {α β : Type} {t : FileTree}

theorem Gives.pure (a : α) : Gives t (Pure.pure a) a := fun _ => rfl

theorem Gives.bind {x : ShellM α} {a : α} (hx : Gives t x a) {f : α → ShellM β} {b : β}
    (hf : Gives t (f a) b) : Gives t (x >>= f) b := by
  intro s
  exact (FileTree.run_bind (hx s) _).trans (hf s)

theorem Gives.ask {c : Call} {r : Reply c} (h : t.answer? c = some r) : Gives t (Shell.ask c) r := by
  intro s
  show t.run (.call c fun r => .done ((.ok r : Except Stop (Reply c)), s)) = _
  rw [FileTree.run, h]
  rfl

theorem gives_fileStatus (t : FileTree) (path : Text) (follow : Bool) :
    Gives t (fileStatus path follow) (t.statusOf path follow) := by
  unfold fileStatus statusAt FileTree.statusOf
  cases pathBytes? path with
  | none => exact .pure _
  | some p => exact .ask rfl

theorem gives_pathExists (t : FileTree) (directoriesOnly : Bool) (path : Text) :
    Gives t (pathExists directoriesOnly path) (t.hasFile directoriesOnly path) := by
  unfold pathExists FileTree.hasFile
  apply (gives_fileStatus t path false).bind
  cases (t.statusOf path false).isOk with
  | false => exact .pure _
  | true =>
      cases directoriesOnly with
      | false => exact .pure _
      | true =>
          apply (gives_fileStatus t path true).bind
          cases t.statusOf path true with
          | ok st => exact .pure _
          | error e => exact .pure _

theorem gives_existing (t : FileTree) (directoriesOnly : Bool) (paths : List Text) :
    Gives t (existing directoriesOnly paths) (paths.filter (t.hasFile directoriesOnly)) := by
  induction paths with
  | nil => exact .pure _
  | cons p rest ih =>
      unfold existing
      apply (gives_pathExists t directoriesOnly p).bind
      apply ih.bind
      rw [List.filter_cons]
      exact .pure _

theorem gives_directoryNames (t : FileTree) (dotted : Bool) (dir : Text) :
    Gives t (directoryNames dotted dir) (t.entries dotted dir) := by
  unfold directoryNames FileTree.entries
  cases pathBytes? (if dir.isEmpty then "." else dir) with
  | none => exact .pure _
  | some p =>
      apply (Gives.ask rfl).bind
      cases hnames : t.names p with
      | ok names =>
          simp only [hnames]
          exact .pure _
      | error e =>
          simp only [hnames]
          exact .pure _

/-- The paths in directories whose last names are matched. -/
def matchedIn (t : FileTree) (items : List PatternItem) (dotted : Bool) (dirs : List Text) : List Text :=
  dirs.flatMap fun dir =>
    ((t.entries dotted dir).filter (Pattern.matchesWith Pattern.pathname items)).map (pathBelow dir)

theorem gives_pathsIn (t : FileTree) (items : List PatternItem) (dotted : Bool) (dir : Text) :
    Gives t (pathsIn items dotted dir) (((t.entries dotted dir).filter
      (Pattern.matchesWith Pattern.pathname items)).map (pathBelow dir)) :=
  (gives_directoryNames t dotted dir).bind (.pure _)

theorem gives_pathsInAll (t : FileTree) (items : List PatternItem) (dotted : Bool) (dirs : List Text) :
    Gives t (pathsInAll items dotted dirs) (matchedIn t items dotted dirs) := by
  induction dirs with
  | nil => exact .pure _
  | cons dir rest ih =>
      unfold pathsInAll
      apply (gives_pathsIn t items dotted dir).bind
      apply ih.bind
      exact .pure _

end

/-! ## Following a pattern -/

/-- A component that expansion takes as it should. -/
structure IsComponent (c : Text) : Prop extends IsName c where
  compiled : (compile? c).isSome = true
  stars : ¬ ['*', '*'] <:+: c
  starDot : ¬ ['*', '.'] <+: c

section

variable {t : FileTree} {c : Text} {items : List PatternItem} {rest paths : List Text}

theorem mem_matchedIn (ht : t.SpellsNoRaw) (hc : IsComponent c) (hitems : compile? c = some items)
    (dotted : Bool) (dirs : List Text) (path : Text) :
    path ∈ matchedIn t items dotted dirs ↔
      ∃ dir ∈ dirs, ∃ name ∈ t.entries dotted dir, Fits c name ∧ pathBelow dir name = path := by
  have hfits : ∀ {dir name}, name ∈ t.entries dotted dir →
      (Pattern.matchesWith Pattern.pathname items name = true ↔ Fits c name) := fun hname =>
    Pattern.compile_fits hitems hc.stars hc.starDot (FileTree.of_mem_entries ht hname).slash
  unfold matchedIn
  simp only [List.mem_flatMap, List.mem_map, List.mem_filter, and_assoc]
  constructor
  · rintro ⟨dir, hdir, name, hname, hmatched, rfl⟩
    exact ⟨dir, hdir, name, hname, (hfits hname).mp hmatched, rfl⟩
  · rintro ⟨dir, hdir, name, hname, hfit, rfl⟩
    exact ⟨dir, hdir, name, hname, (hfits hname).mpr hfit, rfl⟩

/-- Different files in different directories have different paths. -/
theorem nodup_matchedIn (ht : t.SpellsNoRaw) (items : List PatternItem) (dotted : Bool) {dirs : List Text}
    (hdirs : (dirs.map dirPrefix).Nodup) : ((matchedIn t items dotted dirs).map dirPrefix).Nodup := by
  have hisName : ∀ {dir name}, name ∈ (t.entries dotted dir).filter
      (Pattern.matchesWith Pattern.pathname items) → IsName name := fun hname =>
    FileTree.of_mem_entries ht (List.mem_of_mem_filter hname)
  unfold matchedIn
  rw [List.map_flatMap, List.nodup_flatMap]
  constructor
  · intro dir _
    rw [List.map_map]
    refine ((FileTree.nodup_entries ht).filter _).map_on fun name hname name' hname' heq => ?_
    exact ((hisName hname).pathBelow_inj (hisName hname') heq).2
  · rw [List.nodup_iff_pairwise_ne, List.pairwise_map] at hdirs
    refine hdirs.imp fun {dir dir'} hne path hpath hpath' => hne ?_
    obtain ⟨_, hbelow, rfl⟩ := List.mem_map.mp hpath
    obtain ⟨name, hname, rfl⟩ := List.mem_map.mp hbelow
    obtain ⟨_, hbelow', heq⟩ := List.mem_map.mp hpath'
    obtain ⟨name', hname', rfl⟩ := List.mem_map.mp hbelow'
    exact ((hisName hname').pathBelow_inj (hisName hname) heq).1.symm

theorem follow_plain (hc : c.any isMagic = false) :
    follow paths (c :: rest) = follow (paths.map fun p => pathBelow p c) rest := by
  rw [follow, hc]
  rfl

theorem follow_magic (hc : c.any isMagic = true) (hitems : compile? c = some items) :
    follow paths (c :: rest) = (do
      let found ← pathsInAll items (c.head? == some '.') paths
      if found.isEmpty then return none else follow found rest) := by
  rw [follow, hc, hitems]
  rfl

/-- Following components from distinct directories finds the paths that they lead to, each once. -/
theorem gives_follow (ht : t.SpellsNoRaw) {cs : List Text} (hcs : ∀ c ∈ cs, IsComponent c)
    {paths : List Text} (hpaths : (paths.map dirPrefix).Nodup) : ∃ found,
      Gives t (follow paths cs) found ∧
        (∀ q, q ∈ found.getD [] ↔ ∃ dir ∈ paths, t.Leads dir cs q) ∧
          ((found.getD []).map dirPrefix).Nodup := by
  -- the directories found so far stay distinct as they stand before a name, so no path is found twice
  induction cs generalizing paths with
  | nil =>
      refine ⟨some paths, .pure _, fun q => ?_, hpaths⟩
      simp [FileTree.leads_nil]
  | cons c rest ih =>
      have hc := hcs c List.mem_cons_self
      have hrest : ∀ c ∈ rest, IsComponent c := fun d hd => hcs d (List.mem_cons_of_mem c hd)
      cases hmagic : c.any isMagic with
      | false =>
          rw [follow_plain hmagic]
          have hnodup : ((paths.map fun p => pathBelow p c).map dirPrefix).Nodup := by
            rw [List.map_map]
            refine (List.Nodup.of_map _ hpaths).map_on fun dir hdir dir' hdir' heq => ?_
            exact List.inj_on_of_nodup_map hpaths hdir hdir' (hc.pathBelow_inj hc.toIsName heq).1
          obtain ⟨found, hfound, hmem, hdistinct⟩ := ih hrest hnodup
          refine ⟨found, hfound, fun q => ?_, hdistinct⟩
          simp only [hmem, List.mem_map, exists_exists_and_eq_and, FileTree.leads_plain hmagic]
      | true =>
          obtain ⟨items, hitems⟩ := Option.isSome_iff_exists.mp hc.compiled
          have hmatched := mem_matchedIn ht hc hitems (c.head? == some '.') paths
          have hnodup := nodup_matchedIn ht items (c.head? == some '.') hpaths
          have hleads : ∀ q, (∃ dir ∈ paths, t.Leads dir (c :: rest) q) ↔
              ∃ dir ∈ matchedIn t items (c.head? == some '.') paths, t.Leads dir rest q := by
            intro q
            simp only [FileTree.leads_magic hmagic, hmatched]
            constructor
            · rintro ⟨dir, hdir, name, hname, hfits, h⟩
              exact ⟨_, ⟨dir, hdir, name, hname, hfits, rfl⟩, h⟩
            · rintro ⟨_, ⟨dir, hdir, name, hname, hfits, rfl⟩, h⟩
              exact ⟨dir, hdir, name, hname, hfits, h⟩
          rw [follow_magic hmagic hitems]
          have hfind := gives_pathsInAll t items (c.head? == some '.') paths
          by_cases hempty : matchedIn t items (c.head? == some '.') paths = []
          · refine ⟨none, hfind.bind ?_, fun q => ?_, List.nodup_nil⟩
            · rw [hempty]
              exact .pure none
            · rw [hleads, hempty]
              simp
          · obtain ⟨found, hfound, hmem, hdistinct⟩ := ih hrest hnodup
            refine ⟨found, hfind.bind ?_, fun q => (hmem q).trans (hleads q).symm, hdistinct⟩
            rwa [if_neg (by simpa using hempty)]

theorem isComponent_components {pattern c : Text}
    (hcompiled : ∀ c ∈ components pattern, (compile? c).isSome = true)
    (hstars : ¬ ['*', '*'] <:+: pattern) (hstarDot : ∀ c ∈ components pattern, ¬ ['*', '.'] <+: c)
    (hc : c ∈ components pattern) : IsComponent c := by
  obtain ⟨hpiece, hne⟩ := List.mem_filter.mp hc
  have hpart : c <:+: pattern := by
    have hjoin := Text.infix_join ['/'] hpiece
    rwa [Text.join_splitAt] at hjoin
  exact {
    nonempty := by simpa using hne
    slash := Text.not_mem_of_mem_splitAt hpiece
    compiled := hcompiled c hc
    stars := fun h => hstars (h.trans hpart)
    starDot := hstarDot c hc }

/-- The paths found, with the slash at the end of the pattern. -/
def withSlash (directoriesOnly : Bool) (paths : List Text) : List Text :=
  if directoriesOnly then paths.map (· ++ ['/']) else paths

theorem mem_withSlash {directoriesOnly : Bool} {q : Text} : q ∈ withSlash directoriesOnly paths ↔
    ∃ p ∈ paths, q = if directoriesOnly then p ++ ['/'] else p := by
  cases directoriesOnly with
  | false => simp [withSlash]
  | true => simp [withSlash, eq_comm]

theorem withSlash_eq_nil {directoriesOnly : Bool} : withSlash directoriesOnly paths = [] ↔ paths = [] := by
  cases directoriesOnly with
  | false => rfl
  | true => exact List.map_eq_nil_iff

theorem nodup_withSlash (directoriesOnly : Bool) (hpaths : paths.Nodup) :
    (withSlash directoriesOnly paths).Nodup := by
  cases directoriesOnly with
  | false => exact hpaths
  | true => exact hpaths.map fun p p' h => List.append_cancel_right h

/-- Expansion finds the paths that a pattern stands for, each once and in order. -/
theorem gives_pathnames (ht : t.SpellsNoRaw) {pattern : Text}
    (hcomponents : ∀ c ∈ components pattern, IsComponent c) : ∃ found,
      Gives t (pathnames pattern) found ∧ found ≠ some [] ∧
        (found.getD []).Pairwise (· < ·) ∧ ∀ q, q ∈ found.getD [] ↔ t.Matches pattern q := by
  have hstart : ([if pattern.head? == some '/' then ['/'] else []].map dirPrefix).Nodup :=
    List.nodup_singleton _
  obtain ⟨places, hplaces, hmem, hdistinct⟩ := gives_follow ht hcomponents hstart
  have hmatches : ∀ q, t.Matches pattern q ↔
      q ∈ withSlash (pattern.getLast? == some '/')
        ((places.getD []).filter (t.hasFile (pattern.getLast? == some '/'))) := by
    intro q
    simp only [mem_withSlash, List.mem_filter, hmem, List.mem_singleton, exists_eq_left, and_assoc]
    rfl
  -- no place is found, none of them exists, or those that do are put in order
  cases places with
  | none =>
      refine ⟨none, hplaces.bind (.pure none), nofun, .nil, fun q => ?_⟩
      rw [hmatches]
      simp [withSlash]
  | some paths =>
      have hexisting := gives_existing t (pattern.getLast? == some '/') paths
      by_cases hempty : paths.filter (t.hasFile (pattern.getLast? == some '/')) = []
      · refine ⟨none, hplaces.bind (hexisting.bind ?_), nofun, .nil, fun q => ?_⟩
        · rw [hempty]
          exact .pure none
        · rw [hmatches, Option.getD_some, hempty]
          simp [withSlash]
      · have hdistinct := (List.Nodup.of_map _ hdistinct).filter
          (t.hasFile (pattern.getLast? == some '/'))
        refine ⟨some (Text.sort (withSlash (pattern.getLast? == some '/')
          (paths.filter (t.hasFile (pattern.getLast? == some '/'))))),
          hplaces.bind (hexisting.bind ?_), fun h => hempty ?_, ?_, fun q => ?_⟩
        · rw [if_neg (by simpa using hempty)]
          exact .pure _
        · exact withSlash_eq_nil.mp (Text.sort_eq_nil.mp (Option.some.inj h))
        · exact Text.pairwise_sort (nodup_withSlash _ hdistinct)
        · rw [hmatches]
          exact Text.mem_sort

end

/-- The field becomes the paths that its pattern stands for in the tree, each once and in order; it stays
as it is when there are none. -/
structure Expands (t : FileTree) (s : Shell) (f : Field) (found : Option (List Text)) : Prop where
  search : t.run ((pathnames f.pattern).startedIn s) = some (.ok found, s)
  nonempty : found ≠ some []
  ordered : (found.getD []).Pairwise (· < ·)
  mem : ∀ q, q ∈ found.getD [] ↔ t.Matches f.pattern q
  arguments : t.run ((fieldArguments f).startedIn s) =
    some (.ok (if s.has .noglob || !f.magic then [f.text] else found.getD [f.text]), s)

theorem Expands.eq_of_search {t : FileTree} {s : Shell} {f : Field} {found found' : Option (List Text)}
    (h : Expands t s f found)
    (hsearch : t.run ((pathnames f.pattern).startedIn s) = some (.ok found', s)) : found = found' := by
  have heq := h.search.symm.trans hsearch
  simpa using heq

/-- A field is expanded to the paths that its pattern stands for. -/
theorem fieldArguments_matches {t : FileTree} (ht : t.SpellsNoRaw) (s : Shell) (f : Field)
    (hcompiled : ∀ c ∈ components f.pattern, (compile? c).isSome = true)
    (hstars : ¬ ['*', '*'] <:+: f.pattern)
    (hstarDot : ∀ c ∈ components f.pattern, ¬ ['*', '.'] <+: c) : ∃ found, Expands t s f found := by
  obtain ⟨found, hfound, hne, hordered, hmem⟩ := gives_pathnames ht fun c hc =>
    isComponent_components hcompiled hstars hstarDot hc
  refine ⟨found, hfound s, hne, hordered, hmem, ?_⟩
  show t.run (ShellM.startedIn (if s.has .noglob || !f.magic then pure [f.text] else
    pathnames f.pattern >>= _) s) = _
  split
  · rfl
  · cases found with
    | none => exact hfound.bind (.pure [f.text]) s
    | some paths => exact hfound.bind (.pure paths) s

/-- The files `.txt` and `a.txt`. -/
def twoFiles : FileTree :=
  .ofNames (([".txt", "a.txt"] : List Text).map Text.encode) (by decide) (by decide)

theorem twoFiles_spellsNoRaw : twoFiles.SpellsNoRaw := by
  intro dir ns h n hn
  have hall : ∀ name ∈ ([".txt", "a.txt"] : List Text), Text.AllAscii name := by decide
  simp only [twoFiles, FileTree.ofNames] at h
  split at h
  · cases h
    obtain ⟨name, hname, rfl⟩ := List.mem_map.mp hn
    exact (Text.survives_of_ascii (hall name hname)).spellsNoRaw
  · cases h

/-- A question mark stands for the letter and not for nothing, so that the dot after it is not the one
that the name `.txt` starts with. -/
theorem fieldArguments_matches_question : twoFiles.SpellsNoRaw ∧
    (∀ c ∈ components "?.t*", (compile? c).isSome = true) ∧ ¬ ['*', '*'] <:+: "?.t*".toList ∧
      (∀ c ∈ components "?.t*", ¬ ['*', '.'] <+: c) ∧
        Expands twoFiles {} { text := "?.t*", pattern := "?.t*", magic := true } (some ["a.txt"]) := by
  have hcompiled : ∀ c ∈ components "?.t*", (compile? c).isSome = true := by
    intro c hc
    obtain rfl := List.mem_singleton.mp (hc : c ∈ ["?.t*".toList])
    cbv
  have hstars : ¬ ['*', '*'] <:+: "?.t*".toList := by decide
  have hstarDot : ∀ c ∈ components "?.t*", ¬ ['*', '.'] <+: c := by decide
  obtain ⟨found, hfound⟩ := fieldArguments_matches twoFiles_spellsNoRaw {}
    { text := "?.t*", pattern := "?.t*", magic := true } hcompiled hstars hstarDot
  have hsearch : twoFiles.run ((pathnames "?.t*").startedIn {}) =
      some (.ok (some ["a.txt".toList]), {}) := by cbv
  obtain rfl := hfound.eq_of_search hsearch
  exact ⟨twoFiles_spellsNoRaw, hcompiled, hstars, hstarDot, hfound⟩

/-- Two names that look alike: a byte that is no UTF-8, and the character that stands for it. -/
def lookAlikes : FileTree := .ofNames [[0xFF], [0xEF, 0x9F, 0xBF]] (by decide) (by decide)

/-- A star that stands for nothing leaves the dot after it to the name `.txt`, and names that look alike
are found once for each. -/
theorem not_fieldArguments_matches :
    (¬ ∀ (t : FileTree), t.SpellsNoRaw → ∀ (s : Shell) (f : Field),
      (∀ c ∈ components f.pattern, (compile? c).isSome = true) → ¬ ['*', '*'] <:+: f.pattern →
        ∃ found, Expands t s f found) ∧
    ¬ ∀ (t : FileTree) (s : Shell) (f : Field),
      (∀ c ∈ components f.pattern, (compile? c).isSome = true) → ¬ ['*', '*'] <:+: f.pattern →
        (∀ c ∈ components f.pattern, ¬ ['*', '.'] <+: c) → ∃ found, Expands t s f found := by
  refine ⟨fun h => ?_, fun h => ?_⟩
  · have hcompiled : ∀ c ∈ components "*.txt", (compile? c).isSome = true := by
      intro c hc
      obtain rfl := List.mem_singleton.mp (hc : c ∈ ["*.txt".toList])
      cbv
    obtain ⟨found, hfound⟩ := h twoFiles twoFiles_spellsNoRaw {}
      { text := "*.txt", pattern := "*.txt", magic := true } hcompiled (by decide)
    have hsearch : twoFiles.run ((pathnames "*.txt").startedIn {}) =
        some (.ok (some [".txt".toList, "a.txt".toList]), {}) := by cbv
    obtain rfl := hfound.eq_of_search hsearch
    -- a file that is found starts with a dot, and the component does not
    obtain ⟨place, hleads, -, hplace⟩ := (hfound.mem ".txt").mp List.mem_cons_self
    replace hleads : twoFiles.Leads [] ["*.txt".toList] place := hleads
    replace hplace : ".txt".toList = place := hplace
    obtain ⟨entry, -, hfits, hrest⟩ := (FileTree.leads_magic (by decide)).mp hleads
    have hentry : ".txt".toList = entry := hplace.trans (FileTree.leads_nil.mp hrest)
    have hhead : "*.txt".toList.head? = some '.' := hfits.2 (hentry ▸ rfl)
    exact absurd hhead (by decide)
  · have hcompiled : ∀ c ∈ components "*", (compile? c).isSome = true := by
      intro c hc
      obtain rfl := List.mem_singleton.mp (hc : c ∈ ["*".toList])
      cbv
    obtain ⟨found, hfound⟩ := h lookAlikes {} { text := "*", pattern := "*", magic := true } hcompiled
      (by decide) (by decide)
    have hsearch : lookAlikes.run ((pathnames "*").startedIn {}) =
        some (.ok (some [['\uF7FF'], ['\uF7FF']]), {}) := by cbv
    obtain rfl := hfound.eq_of_search hsearch
    have hlt : (['\uF7FF'] : Text) < ['\uF7FF'] := List.rel_of_pairwise_cons hfound.ordered (by simp)
    exact absurd hlt (lt_irrefl _)

end Expansion

end CommandShell
