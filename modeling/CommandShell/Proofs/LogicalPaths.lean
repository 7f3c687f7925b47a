import CommandShell.Proofs.Pathnames.Tree
import CommandShell.Proofs.WorkingDirectory

/-!
# Paths as texts

`cd` thinks of the working directory as a text. It puts the operand behind `PWD`, resolves the dots
(`logicalPath`) and goes where that leads. Resolving the dots is a walk along the pieces of a path with
the names so far as a stack (`pathNames`). A path without dots and empty pieces is the sequence of its
own names, so resolving it gives it back, and a path may be resolved in front before more is put behind.

So a sequence of `cd`s comes to where one `cd` to the joined path comes. The exception is `CDPATH`: what
is found below one of its directories is not below `PWD`. Such a `cd` shows where it is, and
`logicalPaths_compose` is about sequences of `cd`s that do not.
-/

namespace CommandShell

open Host (Event)

namespace Commands

open Shell

/-! ## The names of a path -/

/-- A name that leads one directory down. -/
structure ProperName (name : Text) : Prop extends Expansion.IsName name where
  dot : name ≠ "."
  dots : name ≠ ".."

/-- A slash and then names with single slashes between them, without dots. -/
def IsCanonical (path : Text) : Prop :=
  ∃ names, (∀ n ∈ names, ProperName n) ∧ path = '/' :: Text.join "/" names

/-- The names along a path, with the dots resolved. -/
def pathNames (path : Text) : List Text := (Text.splitAt '/' path).foldl pushName []

section

variable {names pieces : List Text} {name piece path : Text}

theorem pushName_of_properName (h : ProperName name) (names : List Text) :
    pushName names name = names ++ [name] := by
  have hskip : ¬ (name.isEmpty || decide (name = ['.'])) = true := by
    simpa [h.nonempty] using h.dot
  rw [pushName, if_neg hskip]
  exact if_neg h.dots

/-- A piece of a path adds a proper name, if anything. -/
theorem properName_of_mem_pushName (hnames : ∀ n ∈ names, ProperName n) (hpiece : '/' ∉ piece) :
    ∀ n ∈ pushName names piece, ProperName n := by
  unfold pushName
  split
  · exact hnames
  · rename_i hskip
    simp only [Bool.or_eq_true, decide_eq_true_eq, not_or, List.isEmpty_iff] at hskip
    split
    · exact fun n hn => hnames n (List.mem_of_mem_dropLast hn)
    · rename_i hdots
      have hproper : ProperName piece := ⟨⟨hskip.1, hpiece⟩, hskip.2, hdots⟩
      simp only [List.forall_mem_append, List.mem_singleton, forall_eq]
      exact ⟨hnames, hproper⟩

theorem properName_of_mem_foldl (hnames : ∀ n ∈ names, ProperName n)
    (hpieces : ∀ p ∈ pieces, '/' ∉ p) : ∀ n ∈ pieces.foldl pushName names, ProperName n := by
  induction pieces generalizing names with
  | nil => exact hnames
  | cons piece pieces ih =>
      obtain ⟨hpiece, hrest⟩ := List.forall_mem_cons.mp hpieces
      exact ih (properName_of_mem_pushName hnames hpiece) hrest

theorem foldl_pushName (h : ∀ n ∈ pieces, ProperName n) (names : List Text) :
    pieces.foldl pushName names = names ++ pieces := by
  induction pieces generalizing names with
  | nil => exact (List.append_nil names).symm
  | cons piece pieces ih =>
      obtain ⟨hpiece, hrest⟩ := List.forall_mem_cons.mp h
      rw [List.foldl_cons, pushName_of_properName hpiece, ih hrest, List.append_assoc,
        List.singleton_append]

theorem properName_of_mem_pathNames (path : Text) : ∀ n ∈ pathNames path, ProperName n :=
  properName_of_mem_foldl (List.forall_mem_nil _) fun _ => Text.not_mem_of_mem_splitAt

/-- What comes behind a slash goes on with the names so far. -/
theorem pathNames_append (a b : Text) :
    pathNames (a ++ "/" ++ b) = (Text.splitAt '/' b).foldl pushName (pathNames a) := by
  have happend : a ++ "/" ++ b = a ++ '/' :: b := List.append_assoc a "/" b
  rw [pathNames, happend, Text.splitAt_append_cons, List.foldl_append, pathNames]

/-- Proper names are the names of their path. -/
theorem pathNames_join (h : ∀ n ∈ names, ProperName n) :
    pathNames ('/' :: Text.join "/" names) = names := by
  show pathNames (([] : Text) ++ "/" ++ Text.join "/" names) = names
  rw [pathNames_append]
  cases names with
  | nil => rfl
  | cons name names =>
      have hsplit : Text.splitAt '/' (Text.join "/" (name :: names)) = name :: names :=
        Text.splitAt_join (List.cons_ne_nil _ _) fun n hn => (h n hn).slash
      rw [hsplit, foldl_pushName h]
      rfl

theorem logicalPath_eq (path : Text) : logicalPath path = '/' :: Text.join "/" (pathNames path) := rfl

theorem logicalPath_congr {a b : Text} (h : pathNames a = pathNames b) :
    logicalPath a = logicalPath b := by
  rw [logicalPath_eq, logicalPath_eq, h]

theorem isCanonical_logicalPath (path : Text) : IsCanonical (logicalPath path) :=
  ⟨pathNames path, properName_of_mem_pathNames path, rfl⟩

theorem pathNames_logicalPath (path : Text) : pathNames (logicalPath path) = pathNames path :=
  pathNames_join (properName_of_mem_pathNames path)

theorem logicalPath_of_isCanonical (h : IsCanonical path) : logicalPath path = path := by
  obtain ⟨names, hnames, rfl⟩ := h
  rw [logicalPath_eq, pathNames_join hnames]

theorem logicalPath_idem (path : Text) : logicalPath (logicalPath path) = logicalPath path :=
  logicalPath_of_isCanonical (isCanonical_logicalPath path)

/-- The front of a path may be resolved before more is put behind it. -/
theorem logicalPath_append (a b : Text) :
    logicalPath (logicalPath a ++ "/" ++ b) = logicalPath (a ++ "/" ++ b) := by
  apply logicalPath_congr
  rw [pathNames_append, pathNames_append, pathNames_logicalPath]

end

/-! ## Where a `cd` comes to -/

/-- A path as it is seen from a directory, with the dots resolved. -/
def logicalFrom (here path : Text) : Text :=
  logicalPath (if path.head? == some '/' then path else here ++ "/" ++ path)

/-- `PWD` tells the path, and it was the last to be made the working directory. -/
structure Landed (path : Text) (es : List Event) (t : Shell) : Prop where
  pwd : t.value? "PWD" = some path
  moved : ∃ before bytes after, es = before ++ Host.moving bytes :: after ∧
    pathBytes? path = some bytes ∧ ∀ q, Host.moving q ∉ after

/-- Something was written to standard output. -/
def Shows (es : List Event) : Prop := ∃ e ∈ es, Host.WritesTo 1 e

/-- `cd` takes its operand as a text unless the last of its options is `-P`. -/
abbrev IsLogical (opts : List Char) : Prop := opts.getLast? ≠ some 'P'

/-- A run of `cd` with these options and this operand that comes to its end without an error. -/
inductive Enters (opts : List Char) (s : Shell) (dir : Text) (es : List Event) (t : Shell) : Prop where
  | run {args rest : List Text} (options : Builtin.takeOptions "LP" args = .ok (opts, dir :: rest))
    (comes : ((runCd args).startedIn s).Comes es (.done (.ok (), t))) : Enters opts s dir es t

/-- Where a logical `cd` may be afterwards. It shows that just if it found the operand below a directory of
`CDPATH`. -/
inductive Arrival (s : Shell) (dir : Text) (es : List Event) (t : Shell) : Prop where
  | there {here path : Text} {fromSearch : Bool} (pwd : ∀ p, s.value? "PWD" = some p → here = p)
    (candidate : (path, fromSearch) ∈ directoryCandidates (s.value? "CDPATH") dir)
    (landed : Landed (logicalFrom here path) es t) (shows : Shows es ↔ fromSearch = true) :
    Arrival s dir es t

section

variable {s t : Shell} {es : List Event} {dir here path : Text} {candidates : List (Text × Bool)}

/-- The outcomes of a search: every candidate is refused, or the last call changed to one. -/
inductive Found (s : Shell) (here : Text) (candidates : List (Text × Bool)) :
    List Event → Except Stop (Except Errno (Text × Bool)) → Shell → Prop where
  | refused {es : List Event} (e : Errno) (h : ∀ e ∈ es, Host.Stationary e) :
    Found s here candidates es (.ok (.error e)) s
  | found {before : List Event} {path : Text} {fromSearch : Bool} {bytes : Host.Bytes}
    (h : ∀ e ∈ before, Host.Stationary e) (candidate : (path, fromSearch) ∈ candidates)
    (hbytes : pathBytes? (logicalFrom here path) = some bytes) :
    Found s here candidates (before ++ [Host.moving bytes])
      (.ok (.ok (logicalFrom here path, fromSearch))) s

/-- A try to change to a path is one call with the bytes of the path, or none. -/
theorem changeDirectory_cases {r : Except Stop (Except Errno Unit)}
    (h : ((changeDirectory path).startedIn s).Comes es (.done (r, t))) :
    t = s ∧ ((∃ e, r = .ok (.error e) ∧ ∀ e ∈ es, Host.Stationary e) ∨
      ∃ bytes, pathBytes? path = some bytes ∧ r = .ok (.ok ()) ∧ es = [Host.moving bytes]) := by
  unfold changeDirectory at h
  cases hbytes : pathBytes? path with
  | none =>
      rw [hbytes] at h
      cases h
      exact ⟨rfl, .inl ⟨_, rfl, List.forall_mem_nil _⟩⟩
  | some bytes =>
      rw [hbytes] at h
      cases h with
      | step h =>
          rename_i reply
          cases h
          cases reply with
          | error e => exact ⟨rfl, .inl ⟨e, rfl, (Unchanged.single (.refused bytes e) s).events⟩⟩
          | ok u => exact ⟨rfl, .inr ⟨bytes, rfl, rfl, rfl⟩⟩

theorem everyRun_tryDirectories_found (here : Text) (last : Errno) (candidates : List (Text × Bool)) :
    EveryRun (tryDirectories false here last candidates) s (Found s here candidates) := by
  induction candidates generalizing last with
  | nil => exact .pure (.refused last (List.forall_mem_nil _))
  | cons candidate rest ih =>
      obtain ⟨path, fromSearch⟩ := candidate
      have htry : EveryRun (changeDirectory (logicalFrom here path)) s _ := ⟨changeDirectory_cases⟩
      apply htry.bind
      · rintro es e t ⟨-, ⟨e', h, -⟩ | ⟨bytes, -, h, -⟩⟩
        · cases h
        · cases h
      · rintro es a t ⟨rfl, ⟨e, h, hes⟩ | ⟨bytes, hbytes, h, rfl⟩⟩
        · -- the calls of the refused candidate come before those of the rest
          cases h
          apply (ih e).mono
          intro es' r u hrest
          cases hrest with
          | refused e' h' => exact .refused e' (List.forall_mem_append.mpr ⟨hes, h'⟩)
          | found h' hmem hbytes =>
              rw [← List.append_assoc]
              exact .found (List.forall_mem_append.mpr ⟨hes, h'⟩) (List.mem_cons_of_mem _ hmem) hbytes
        · cases h
          exact .pure (.found (List.forall_mem_nil _) List.mem_cons_self hbytes)

/-- Once `cd` is there, it shows where that is if it is to, and the working directory stays. -/
theorem everyRun_tell_landed (shows : Bool) (here pwd : Text) :
    EveryRun (tell shows here pwd) s fun es r t => r = .ok () →
      t.value? "PWD" = some pwd ∧ (∀ e ∈ es, Host.WritesTo 1 e) ∧ (es ≠ [] ↔ shows = true) := by
  apply (everyRun_exportValue "OLDPWD" here s).bind_ok
  rintro _ u t ⟨rfl, -⟩
  apply (everyRun_exportValue "PWD" pwd t).bind_ok
  rintro _ u v ⟨rfl, -, hpwd, -⟩
  refine EveryRun.modify_bind ?_
  cases shows with
  | false => exact .of_eq rfl fun _ => ⟨hpwd rfl, List.forall_mem_nil _, by simp⟩
  | true =>
      have hshown : Text.encode (pwd ++ "\n") ≠ [] := by
        rw [Text.encode_append]
        exact List.append_ne_nil_of_right_ne_nil _ (by decide)
      apply ((everyRun_writeBytes 1 _ _).and (everyRun_writeBytes_ne_nil 1 hshown)).bind_ok
      rintro es u x ⟨⟨⟨rfl, hes⟩, -⟩, hne⟩
      refine .of_eq rfl fun _ => ⟨hpwd rfl, ?_, ?_⟩
      · simpa using hes
      · simpa using hne

theorem everyRun_directoryOperand_dir (hdash : dir ≠ "-") (rest : List Text) :
    EveryRun (directoryOperand (dir :: rest)) s fun es r t => es = [] ∧ r = .ok (dir, false) ∧ t = s := by
  apply EveryRun.get_bind
  split
  · cases ‹_ :: _ = []›
  · cases ‹_ :: _ = _ :: _›
    exact absurd rfl hdash
  · cases ‹_ :: _ = _ :: _›
    exact .pure ⟨rfl, rfl, rfl⟩

theorem everyRun_logicalDirectory_pwd :
    EveryRun logicalDirectory s fun es r t => Rests s es t ∧
      ∀ pwd here, s.value? "PWD" = some pwd → r = .ok here → here = pwd := by
  refine everyRun_logicalDirectory.and (EveryRun.get_bind ?_)
  split
  · rename_i pwd hpwd
    refine .pure fun pwd' here h hhere => ?_
    cases hhere
    exact Option.some_inj.mp (hpwd.symm.trans h)
  · rename_i hpwd
    refine ⟨fun _ pwd here h => ?_⟩
    rw [hpwd] at h
    cases h

theorem not_writesTo_of_stationary {e : Event} {fd : Nat} (h : Host.Stationary e) :
    ¬ Host.WritesTo fd e := by
  cases h with
  | asked r => exact nofun
  | refused path e => exact nofun

/-- The calls up to the change do not write, and those after it do nothing else. -/
theorem shows_iff {before after : List Event} (bytes : Host.Bytes)
    (hbefore : ∀ e ∈ before, Host.Stationary e) (hafter : ∀ e ∈ after, Host.WritesTo 1 e) :
    Shows (before ++ Host.moving bytes :: after) ↔ after ≠ [] := by
  constructor
  · rintro ⟨e, he, hwrites⟩ rfl
    rcases List.mem_append.mp he with he | he
    · exact not_writesTo_of_stationary (hbefore e he) hwrites
    · obtain rfl := List.mem_singleton.mp he
      cases hwrites
  · intro hne
    obtain ⟨e, rest, rfl⟩ := List.exists_cons_of_ne_nil hne
    exact ⟨e, List.mem_append_right _ (.tail _ (.head _)), hafter e (.head _)⟩

theorem everyRun_runCd_arrival {args rest : List Text} {opts : List Char}
    (hopts : Builtin.takeOptions "LP" args = .ok (opts, dir :: rest)) (hlogical : IsLogical opts)
    (hdash : dir ≠ "-") : EveryRun (runCd args) s fun es r t => r = .ok () → Arrival s dir es t := by
  have hphysical : (opts.getLast? == some 'P') = false := by simpa using hlogical
  rw [runCd_eq, hopts]
  show EveryRun (directoryOperand (dir :: rest) >>= _) s _
  apply (everyRun_directoryOperand_dir hdash rest).bind_ok
  rintro _ operand t ⟨rfl, hoperand, rfl⟩
  cases hoperand
  apply everyRun_logicalDirectory_pwd.bind_ok
  rintro looked here t ⟨⟨rfl, hlooked⟩, hhere⟩
  apply EveryRun.get_bind
  dsimp only
  rw [hphysical]
  apply (everyRun_tryDirectories_found here .unknown _).bind_ok
  rintro es found t hfound
  cases hfound with
  | @found before path fromSearch bytes hbefore hmem hbytes =>
      apply (everyRun_tell_landed fromSearch here _).mono
      rintro after r u htold hr
      obtain ⟨hpwd, hafter, hshows⟩ := htold hr
      have hes : [] ++ (looked ++ (before ++ [Host.moving bytes] ++ after)) =
          looked ++ before ++ Host.moving bytes :: after := by
        simp only [List.nil_append, List.append_assoc, List.singleton_append]
      have hstays : ∀ q, Host.moving q ∉ after := by
        intro q hq
        cases hafter _ hq
      have hshown := (shows_iff bytes (List.forall_mem_append.mpr ⟨hlooked, hbefore⟩) hafter).trans hshows
      rw [hes]
      exact .there (fun pwd h => hhere pwd here h rfl) hmem
        ⟨hpwd, looked ++ before, bytes, after, rfl, hbytes, hstays⟩ hshown
  | refused e h => exact .fail nofun

theorem Enters.arrival {opts : List Char} (h : Enters opts s dir es t) (hlogical : IsLogical opts)
    (hdash : dir ≠ "-") : Arrival s dir es t := by
  obtain ⟨hopts, hrun⟩ := h
  exact (everyRun_runCd_arrival hopts hlogical hdash).holds hrun rfl

end

/-! ## Sequences of `cd` -/

/-- An operand that leads on from the working directory. -/
structure IsRelative (dir : Text) : Prop where
  slash : dir.head? ≠ some '/'
  dash : dir ≠ "-"

/-- One `cd` after the other to relative operands, each with options and calls of which `P` holds, with
the calls of the last. What the shell does in between leaves `PWD`. -/
inductive Walk (P : List Char → List Event → Prop) (s : Shell) :
    List Text → List Event → Shell → Prop where
  | start : Walk P s [] [] s
  | next {dirs : List Text} {es es' : List Event} {t t' u : Shell} {opts : List Char} {dir : Text}
    (walk : Walk P s dirs es t) (between : t'.value? "PWD" = t.value? "PWD") (relative : IsRelative dir)
    (enters : Enters opts t' dir es' u) (holds : P opts es') : Walk P s (dirs ++ [dir]) es' u

/-- A logical `cd` that does not show where it is. -/
structure FollowsPwd (opts : List Char) (es : List Event) : Prop where
  logical : IsLogical opts
  quiet : ¬ Shows es

section

variable {s t u : Shell} {es : List Event} {opts : List Char} {dir pwd path : Text} {dirs : List Text}

theorem logicalFrom_of_relative (h : IsRelative dir) (here : Text) :
    logicalFrom here dir = logicalPath (here ++ "/" ++ dir) := by
  have hslash : ¬ (dir.head? == some '/') = true := by simpa using h.slash
  rw [logicalFrom, if_neg hslash]

theorem eq_of_mem_directoryCandidates {searchPath : Option Text}
    (h : (path, false) ∈ directoryCandidates searchPath dir) : path = dir := by
  unfold directoryCandidates at h
  rcases List.mem_append.mp h with h | h
  · split at h
    · split at h
      · cases h
      · simp at h
    · cases h
  · cases List.mem_singleton.mp h
    rfl

theorem directoryCandidates_of_absolute (h : path.head? = some '/') (searchPath : Option Text) :
    directoryCandidates searchPath path = [(path, false)] := by
  have hexplicit : isExplicit path = true := by simp [isExplicit, h]
  cases searchPath with
  | none => rfl
  | some above => simp [directoryCandidates, hexplicit]

/-- A logical `cd` that does not show where it is went on from `PWD`. -/
theorem Enters.landed_of_followsPwd (h : Enters opts s dir es t) (hfollows : FollowsPwd opts es)
    (hdir : IsRelative dir) (hpwd : s.value? "PWD" = some pwd) :
    Landed (logicalPath (pwd ++ "/" ++ dir)) es t := by
  obtain ⟨hhere, hmem, hlanded, hshows⟩ := h.arrival hfollows.logical hdir.dash
  have hquiet := hfollows.quiet
  rw [hshows, Bool.not_eq_true] at hquiet
  subst hquiet
  obtain rfl := eq_of_mem_directoryCandidates hmem
  obtain rfl := hhere pwd hpwd
  rw [logicalFrom_of_relative hdir] at hlanded
  exact hlanded

/-- An absolute path does not need the working directory. -/
theorem Enters.landed_of_absolute (h : Enters opts s path es t) (hlogical : IsLogical opts)
    (hpath : path.head? = some '/') : Landed (logicalPath path) es t := by
  have hdash : path ≠ "-" := by
    rintro rfl
    cases hpath
  have habsolute : (path.head? == some '/') = true := beq_iff_eq.mpr hpath
  obtain ⟨-, hmem, hlanded, -⟩ := h.arrival hlogical hdash
  rw [directoryCandidates_of_absolute hpath, List.mem_singleton] at hmem
  cases hmem
  rw [logicalFrom, if_pos habsolute] at hlanded
  exact hlanded

/-- One `cd` after the other comes to the joined path. -/
theorem Walk.lands (h : Walk FollowsPwd s dirs es t) (hpwd : s.value? "PWD" = some pwd)
    (hcanonical : IsCanonical pwd) :
    t.value? "PWD" = some (logicalPath (Text.join "/" (pwd :: dirs))) ∧
      (dirs ≠ [] → Landed (logicalPath (Text.join "/" (pwd :: dirs))) es t) := by
  induction h with
  | start =>
      refine ⟨?_, fun h => absurd rfl h⟩
      rw [hpwd]
      exact congrArg some (logicalPath_of_isCanonical hcanonical).symm
  | @next dirs es es' t t' u opts dir _ hbetween hdir henters hfollows ih =>
      have hlanded := henters.landed_of_followsPwd hfollows hdir (hbetween.trans ih.1)
      have hjoin : Text.join "/" (pwd :: (dirs ++ [dir])) = Text.join "/" (pwd :: dirs) ++ "/" ++ dir :=
        Text.join_concat "/" dir (List.cons_ne_nil _ _)
      rw [logicalPath_append, ← hjoin] at hlanded
      exact ⟨hlanded.pwd, fun _ => hlanded⟩

/-- Logical paths are canonical, resolving them twice is resolving them once, and a front that is resolved
first makes no difference. A sequence of logical `cd`s to relative operands, none of them found below a
directory of `CDPATH`, comes from a canonical `PWD` to where a `cd` to the joined path comes. Only what
is found there makes such a `cd` show where it is. -/
theorem logicalPaths_compose :
    (∀ a, IsCanonical (logicalPath a)) ∧
    (∀ a, logicalPath (logicalPath a) = logicalPath a) ∧
    (∀ a b, logicalPath (logicalPath a ++ "/" ++ b) = logicalPath (a ++ "/" ++ b)) ∧
    (∀ (s t : Shell) (pwd : Text) (dirs : List Text) (es : List Event),
      s.value? "PWD" = some pwd → IsCanonical pwd → Walk FollowsPwd s dirs es t →
        t.value? "PWD" = some (logicalPath (Text.join "/" (pwd :: dirs))) ∧
        (dirs ≠ [] → Landed (logicalPath (Text.join "/" (pwd :: dirs))) es t) ∧
        ∀ (opts : List Char) (s' t' : Shell) (es' : List Event), IsLogical opts →
          Enters opts s' (Text.join "/" (pwd :: dirs)) es' t' →
            Landed (logicalPath (Text.join "/" (pwd :: dirs))) es' t') ∧
    ∀ (opts : List Char) (s t : Shell) (dir : Text) (es : List Event), IsLogical opts →
      IsRelative dir → Enters opts s dir es t → Shows es →
        ∃ here path, (∀ pwd, s.value? "PWD" = some pwd → here = pwd) ∧
          (path, true) ∈ directoryCandidates (s.value? "CDPATH") dir ∧
          Landed (logicalFrom here path) es t := by
  refine ⟨isCanonical_logicalPath, logicalPath_idem, logicalPath_append, ?_, ?_⟩
  · intro s t pwd dirs es hpwd hcanonical hwalk
    obtain ⟨hvalue, hlanded⟩ := hwalk.lands hpwd hcanonical
    refine ⟨hvalue, hlanded, fun opts s' t' es' hlogical henters =>
      henters.landed_of_absolute hlogical ?_⟩
    obtain ⟨names, -, rfl⟩ := hcanonical
    cases dirs with
    | nil => rfl
    | cons dir dirs => rfl
  · intro opts s t dir es hlogical hdir henters hshows
    obtain ⟨hhere, hmem, hlanded, hiff⟩ := henters.arrival hlogical hdir.dash
    rw [hiff.mp hshows] at hmem
    exact ⟨_, _, hhere, hmem, hlanded⟩

end

/-! ## Two shells that walk -/

/-- A shell in `/usr`. -/
def inUsr : Shell := { «variables» := { bindings := .ofList [("PWD", { value := some "/usr" })] } }

/-- A shell in `/home` that looks for directories in `/srv`. -/
def searching : Shell :=
  { «variables» := {
      bindings := .ofList [("CDPATH", { value := some "/srv" }), ("PWD", { value := some "/home" })] } }

/-- It is told `a` and finds `/srv/a`. -/
def search : List Event :=
  [Host.moving (Text.encode "/srv/a"), ⟨.write 1 (Text.encode "/srv/a\n"), .ok 7⟩]

/-- It goes through a link with `-P`, and the system says where it is then. -/
def throughLink : List Event :=
  [Host.moving (Text.encode "link"), ⟨.currentDirectory, .ok (Text.encode "/srv")⟩]

section

variable {s : Shell} {dir dir' : Text} {P : List Char → List Event → Prop}

theorem exists_enters {opts : List Char} {rest : List Text} (args : List Text) (es : List Event)
    (f : Shell → Bool) (hopts : Builtin.takeOptions "LP" args = .ok (opts, dir :: rest))
    (h : ((runCd args).startedIn s).endsIn (fun b => b.1.isOk && f b.2) es = true) :
    ∃ t, Enters opts s dir es t ∧ f t = true := by
  obtain ⟨⟨r, t⟩, hrun, hr⟩ := Host.Program.comes_of_endsIn h
  cases r with
  | ok u => exact ⟨t, .run hopts hrun, hr⟩
  | error e => cases hr

/-- A walk of two `cd`s from one run of both. -/
theorem exists_walk (es : List Event) (hdir : IsRelative dir) (hdir' : IsRelative dir')
    (hopts : Builtin.takeOptions "LP" [dir] = .ok ([], [dir]))
    (hopts' : Builtin.takeOptions "LP" [dir'] = .ok ([], [dir'])) (hP : ∀ part ⊆ es, P [] part)
    (h : ((runCd [dir] >>= fun _ => runCd [dir']).startedIn s).endsIn (fun b => b.1.isOk) es = true) :
    ∃ es' t, Walk P s [dir, dir'] es' t := by
  obtain ⟨⟨r, u⟩, hrun, hr⟩ := Host.Program.comes_of_endsIn h
  obtain ⟨es₁, es₂, ⟨r₁, t⟩, rfl, h₁, h₂⟩ := Host.Program.Comes.of_bind hrun
  obtain ⟨hfirst, hsecond⟩ := List.append_subset.mp (List.Subset.refl (es₁ ++ es₂))
  cases r₁ with
  | error e =>
      cases h₂
      cases hr
  | ok a =>
      cases r with
      | error e => cases hr
      | ok b =>
          have hwalk : Walk P s [dir] es₁ t := .next .start rfl hdir (.run hopts h₁) (hP _ hfirst)
          exact ⟨es₂, u, .next hwalk rfl hdir' (.run hopts' h₂) (hP _ hsecond)⟩

end

theorem shows_search : Shows search := ⟨_, .tail _ (.head _), .wrote _ _⟩

theorem not_shows_throughLink : ¬ Shows throughLink := by
  rintro ⟨e, he, hwrites⟩
  cases hwrites
  simp [throughLink] at he

/-- Two `cd`s and the joined one come to `/usr/bin`, and `a` is found below `/srv`. -/
theorem logicalPaths_compose_usr :
    (∃ es t, Walk FollowsPwd inUsr ["local", "../bin"] es t ∧ Landed "/usr/bin" es t) ∧
    (∃ es t, Enters [] searching "/usr/local/../bin" es t ∧ Landed "/usr/bin" es t) ∧
    ∃ t, Enters [] searching "a" search t ∧
      ∃ path, (path, true) ∈ directoryCandidates (some "/srv") "a" ∧
        Landed (logicalFrom "/home" path) search t := by
  obtain ⟨-, -, -, hwalks, hshown⟩ := logicalPaths_compose
  have hquiet : ∀ part ⊆ [Host.moving (Text.encode "/usr/local"), Host.moving (Text.encode "/usr/bin")],
      FollowsPwd [] part := by
    refine fun part hpart => ⟨by decide, ?_⟩
    rintro ⟨e, he, hwrites⟩
    cases hwrites
    simpa using hpart he
  obtain ⟨es, t, hwalk⟩ : ∃ es t, Walk FollowsPwd inUsr ["local", "../bin"] es t :=
    exists_walk _ ⟨by decide, by decide⟩ ⟨by decide, by decide⟩ rfl rfl hquiet (by decide +kernel)
  obtain ⟨-, hlanded, hjoined⟩ :=
    hwalks inUsr t "/usr" _ es rfl (isCanonical_logicalPath "/usr") hwalk
  obtain ⟨t', henters, -⟩ := exists_enters (s := searching) ["/usr/local/../bin"]
    [Host.moving (Text.encode "/usr/bin")] (fun _ => true) rfl (by decide +kernel)
  obtain ⟨u, hsearch, -⟩ := exists_enters (s := searching) ["a"] search (fun _ => true) rfl
    (by decide +kernel)
  obtain ⟨here, path, hhere, hmem, hat⟩ :=
    hshown [] searching u "a" _ (by decide) ⟨by decide, by decide⟩ hsearch shows_search
  obtain rfl := hhere "/home" rfl
  exact ⟨⟨es, t, hwalk, hlanded (List.cons_ne_nil _ _)⟩,
    ⟨_, t', henters, hjoined [] searching t' _ (by decide) henters⟩, u, hsearch, path, hmem, hat⟩

/-- Neither condition can be left out: `CDPATH` leads away from `PWD`, and with `-P` the system says
where a link leads. -/
theorem not_walk_lands :
    (¬ ∀ (s t : Shell) (pwd : Text) (dirs : List Text) (es : List Event), s.value? "PWD" = some pwd →
      IsCanonical pwd → Walk (fun opts _ => IsLogical opts) s dirs es t →
        t.value? "PWD" = some (logicalPath (Text.join "/" (pwd :: dirs)))) ∧
    ¬ ∀ (s t : Shell) (pwd : Text) (dirs : List Text) (es : List Event), s.value? "PWD" = some pwd →
      IsCanonical pwd → Walk (fun _ es => ¬ Shows es) s dirs es t →
        t.value? "PWD" = some (logicalPath (Text.join "/" (pwd :: dirs))) := by
  constructor
  · intro hall
    obtain ⟨t, henters, ht⟩ := exists_enters (s := searching) ["a"] search
      (fun t => t.value? "PWD" == some "/srv/a".toList) rfl (by decide +kernel)
    have hpwd := hall searching t "/home" ["a"] _ rfl (isCanonical_logicalPath "/home")
      (.next .start rfl ⟨by decide, by decide⟩ henters (by decide))
    rw [beq_iff_eq.mp ht] at hpwd
    exact absurd hpwd (by decide)
  · intro hall
    obtain ⟨t, henters, ht⟩ := exists_enters (s := inUsr) ["-P", "link"] throughLink
      (fun t => t.value? "PWD" == some "/srv".toList) rfl (by decide +kernel)
    have hpwd := hall inUsr t "/usr" ["link"] _ rfl (isCanonical_logicalPath "/usr")
      (.next .start rfl ⟨by decide, by decide⟩ henters not_shows_throughLink)
    rw [beq_iff_eq.mp ht] at hpwd
    exact absurd hpwd (by decide)

end Commands

end CommandShell
