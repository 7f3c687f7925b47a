import CommandShell.Proofs.Lockstep.State

/-!
# Files that stay as they are

A `FileView` answers the questions that a search for a command asks. Under these answers a program
that asks nothing else comes to one result (`Program.under`); for a search it is computed by
`findUnder`.
-/

namespace CommandShell

open Host (Call Reply Program Event Bytes FileStatus Permission)

namespace Host

open Program (Outcome Follows)

/-- Files that stay as they are: what is known of each, and how it may be used. -/
structure FileView where
  status : Bytes → Bool → Except Errno FileStatus
  access : Bytes → Permission → Except Errno Unit

namespace FileView

/-- The answers to questions about files. -/
def answer? (v : FileView) : (c : Call) → Option (Reply c)
  | .fileStatus path follow => some (v.status path follow)
  | .access path permission => some (v.access path permission)
  | _ => none

/-- Questions about files are answered as the files are. -/
def Agrees (v : FileView) (e : Event) : Prop := ∀ r, v.answer? e.1 = some r → e.2 = r

end FileView

namespace Program

variable {α β : Type} {v : FileView}

/-- What comes of a program under the answers to its questions about files. -/
def under (v : FileView) : Program α → Outcome α
  | done a => .done a
  | call c k =>
    match v.answer? c with
    | some r => (k r).under v
    | none => .asks c

theorem under_call {c : Call} {r : Reply c} (h : v.answer? c = some r) (k : Reply c → Program α) :
    (call c k).under v = (k r).under v := by
  conv => lhs; unfold under
  rw [h]

theorem under_call_of_none {c : Call} (h : v.answer? c = none) (k : Reply c → Program α) :
    (call c k).under v = .asks c := by
  unfold under
  rw [h]

theorem under_bind {p : Program α} {a : α} (h : p.under v = .done a) (f : α → Program β) :
    (p.bind f).under v = (f a).under v := by
  induction p with
  | done b =>
      cases h
      rfl
  | call c k ih =>
      cases hc : v.answer? c with
      | some r =>
          rw [under_call hc] at h
          exact (under_call hc _).trans (ih r h)
      | none =>
          rw [under_call_of_none hc] at h
          cases h

/-- What comes of the first program under the answers that are given may be used of its result. -/
theorem Follows.and_under {Q : α → β → Prop} {p : Program α} {q : Program β} {a : α}
    (h : Follows v.Agrees Q p q) (hp : p.under v = .done a) :
    Follows v.Agrees (fun x y => Q x y ∧ x = a) p q := by
  induction h with
  | done h =>
      cases hp
      exact .done ⟨h, rfl⟩
  | call _ ih =>
      rename_i c k k' hk
      refine .call fun r hr => ih r hr ?_
      cases hc : v.answer? c with
      | some r' =>
          rw [under_call hc] at hp
          have heq : r = r' := hr r' hc
          exact heq ▸ hp
      | none =>
          rw [under_call_of_none hc] at hp
          cases hp
  | abandoned => exact .abandoned

end Program

end Host

namespace Shell

open Host (FileView)
open Host.Program (Outcome)

/-! ## Searching files that stay as they are -/

section

variable (v : FileView)

/-- Whether a path leads to a regular file. -/
def isRegularUnder (path : Text) : Bool :=
  (pathBytes? path).any fun p =>
    match v.status p true with
    | .ok st => st.kind == .regular
    | .error _ => false

/-- Whether a path leads to a regular file that may be executed. -/
def isExecutableUnder (path : Text) : Bool :=
  isRegularUnder v path && (pathBytes? path).any fun p => (v.access p .execute).isOk

/-- What a search among paths comes to. -/
def searchAmongUnder (fallback : Option Text) : List Text → PathSearch
  | [] =>
    match fallback with
    | some path => .notExecutable path
    | none => .notFound
  | path :: rest =>
    if isExecutableUnder v path then .found path
    else searchAmongUnder
      (if fallback.isNone && isRegularUnder v path then some path else fallback) rest

/-- What a search in the directories of a search path comes to. -/
def findUnder (name searchPath : Text) : PathSearch :=
  searchAmongUnder v none (candidates name searchPath)

theorem under_isRegularFile (path : Text) (s : Shell) :
    ((isRegularFile path).startedIn s).under v = .done (.ok (isRegularUnder v path), s) := by
  unfold isRegularFile fileStatus statusAt isRegularUnder
  cases pathBytes? path with
  | none => rfl
  | some p =>
      refine (Host.Program.under_call rfl _).trans ?_
      show _ = Outcome.done (Except.ok (match v.status p true with
        | .ok st => st.kind == Host.FileKind.regular
        | .error _ => false), s)
      cases v.status p true with
      | ok st => rfl
      | error e => rfl

theorem under_canAccess (path : Text) (s : Shell) :
    ((canAccess path .execute).startedIn s).under v =
      .done (.ok ((pathBytes? path).any fun p => (v.access p .execute).isOk), s) := by
  unfold canAccess
  cases pathBytes? path with
  | none => rfl
  | some p => rfl

theorem under_isExecutable (path : Text) (s : Shell) :
    ((isExecutable path).startedIn s).under v = .done (.ok (isExecutableUnder v path), s) := by
  show (((isRegularFile path).startedIn s).bind _).under v = _
  rw [Host.Program.under_bind (under_isRegularFile v path s)]
  unfold isExecutableUnder
  cases isRegularUnder v path with
  | true => exact under_canAccess v path s
  | false => rfl

theorem under_searchAmong (fallback : Option Text) (paths : List Text) (s : Shell) :
    ((searchAmong fallback paths).startedIn s).under v =
      .done (.ok (searchAmongUnder v fallback paths), s) := by
  induction paths generalizing fallback with
  | nil =>
      cases fallback with
      | some path => rfl
      | none => rfl
  | cons path rest ih =>
      show (((isExecutable path).startedIn s).bind _).under v = _
      rw [Host.Program.under_bind (under_isExecutable v path s)]
      unfold searchAmongUnder
      cases isExecutableUnder v path with
      | true => rfl
      | false =>
          show (((isRegularFile path).startedIn s).bind _).under v = _
          rw [Host.Program.under_bind (under_isRegularFile v path s)]
          show Host.Program.under v _ = Outcome.done (Except.ok (searchAmongUnder v
            (if fallback.isNone && isRegularUnder v path then some path else fallback) rest), s)
          rw [← ih]
          cases fallback with
          | some p => rfl
          | none =>
              cases isRegularUnder v path with
              | true => rfl
              | false => rfl

theorem under_findInPath (name searchPath : Text) (s : Shell) :
    ((findInPath name searchPath).startedIn s).under v =
      .done (.ok (findUnder v name searchPath), s) :=
  under_searchAmong v none _ s

end

/-- A path that a search came to can be executed. -/
theorem isExecutableUnder_of_searchAmongUnder {v : FileView} {paths : List Text}
    {fallback : Option Text} {path : Text} (h : searchAmongUnder v fallback paths = .found path) :
    isExecutableUnder v path = true := by
  induction paths generalizing fallback with
  | nil =>
      cases fallback with
      | some p => cases h
      | none => cases h
  | cons p rest ih =>
      unfold searchAmongUnder at h
      by_cases hp : isExecutableUnder v p = true
      · rw [if_pos hp] at h
        cases h
        exact hp
      · rw [if_neg hp] at h
        exact ih h

end Shell

end CommandShell
