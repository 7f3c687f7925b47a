import CommandShell.Host.Machine
import CommandShell.Proofs.ChildStatus
import CommandShell.Proofs.Descriptors
import CommandShell.Proofs.Surroundings

/-!
# Opening without clobbering, among other processes

With `noclobber` on, `>` is not to touch a regular file that is there already. The shell asks what
the path leads to, asks for a new file, opens what it finds in its place and asks again, now of the
open file. Other processes may make, remove and replace files between any two of these calls.

`OthersAct` says what they may do: anything, but not to the descriptors of the shell, and not to
what kind of file one is that the shell holds open. `amongOthers` are the surroundings where a
machine answers the calls of the shell and others act around them; opening, closing and asking for a
path may fail for any reason besides.

The main statement is `openNoClobber_among_others`. No call of a run changes a regular file that
exists. A descriptor that comes of it stands for a file that a call of this very run made, or for
one that is not regular. After a failure the shell holds the descriptors that it held before.
-/

namespace CommandShell

open Host (Call Reply Program Event)

namespace Host

variable {ρ : Type}

namespace Machine

/-! ## What a process holds -/

/-- What a descriptor of a process stands for. -/
def descriptor? (m : Machine ρ) (pid : ProcessId) (fd : Nat) : Option Slot :=
  (m.process? pid).bind fun p => p.descriptors.get? fd

/-- The number of the file behind a descriptor of a process; none if there is a pipe behind it. -/
def fileBehind? (m : Machine ρ) (pid : ProcessId) (fd : Nat) : Option Nat :=
  (m.process? pid).bind fun p => (m.openFile? p fd).bind fun f =>
    match f.2.target with
    | .file n => some n
    | _ => none

/-- The kind of the file with a number. -/
def kindOf? (m : Machine ρ) (n : Nat) : Option FileKind := (m.files.get? n).map File.kind

variable {m m' m'' : Machine ρ} {pid : ProcessId} {p : Process ρ} {ds : Descriptors} {fd x n : Nat}

theorem pid_of_process? (h : m.process? pid = some p) : p.pid = pid := by
  have hpid := List.find?_some (p := fun q : Process ρ => q.pid == pid) h
  exact beq_iff_eq.mp hpid

/-- A process finds the descriptors that it was given. -/
theorem process?_withDescriptors (h : m.process? pid = some p) :
    (m.withDescriptors p ds).process? pid = some { p with descriptors := ds } := by
  obtain rfl := pid_of_process? h
  show (m.processes.map _).find? _ = _
  rw [List.find?_map]
  -- the change leaves the numbers of processes alone
  have hsame : ((fun q : Process ρ => q.pid == p.pid) ∘ fun q =>
      if q.pid = p.pid then { q with descriptors := ds } else q) = fun q => q.pid == p.pid := by
    funext q
    by_cases hq : q.pid = p.pid
    · simp [hq]
    · simp [hq]
  rw [hsame]
  have hfind : m.processes.find? (fun q => q.pid == p.pid) = some p := h
  rw [hfind]
  simp

theorem descriptor?_eq (h : m.process? pid = some p) : m.descriptor? pid x = p.descriptors.get? x := by
  simp [descriptor?, h]

theorem descriptor?_withDescriptors (h : m.process? pid = some p) :
    (m.withDescriptors p ds).descriptor? pid x = ds.get? x :=
  descriptor?_eq (process?_withDescriptors h)

theorem fileBehind?_eq_none (h : m.process? pid = some p) (hclosed : p.descriptors.get? fd = none) :
    m.fileBehind? pid fd = none := by
  simp [fileBehind?, openFile?, h, hclosed]

theorem fileBehind?_eq_some {slot : Slot} {f : OpenFile} (h : m.process? pid = some p)
    (hslot : p.descriptors.get? fd = some slot) (hf : m.openFiles[slot.openFile]? = some f)
    (htarget : f.target = .file n) : m.fileBehind? pid fd = some n := by
  simp [fileBehind?, openFile?, h, hslot, hf, htarget]

/-! ## Other processes -/

/-- What other processes do between two calls of a process. The descriptors of the process are its
own, and a file that it holds open stays, whatever becomes of the names of the file. -/
structure OthersAct (pid : ProcessId) (m m' : Machine ρ) : Prop where
  descriptors : ∀ fd, m'.descriptor? pid fd = m.descriptor? pid fd
  files : ∀ fd, m'.fileBehind? pid fd = m.fileBehind? pid fd
  kinds : ∀ fd n, m.fileBehind? pid fd = some n → m'.kindOf? n = m.kindOf? n

theorem OthersAct.refl (pid : ProcessId) (m : Machine ρ) : OthersAct pid m m :=
  ⟨fun _ => rfl, fun _ => rfl, fun _ _ _ => rfl⟩

theorem OthersAct.trans (h : OthersAct pid m m') (h' : OthersAct pid m' m'') :
    OthersAct pid m m'' where
  descriptors fd := (h'.descriptors fd).trans (h.descriptors fd)
  files fd := (h'.files fd).trans (h.files fd)
  kinds fd n hfd := by
    have hfd' : m'.fileBehind? pid fd = some n := (h.files fd).trans hfd
    exact (h'.kinds fd n hfd').trans (h.kinds fd n hfd)

/-- The answers to a call. Besides what the machine itself says, opening a file and asking for the
status of a path may fail for any reason, and closing may report an error although the descriptor is
gone. -/
inductive Replies (m : Machine ρ) (p : Process ρ) : (c : Call) → Reply c → Machine ρ → Prop
  | performed {c : Call} {r : Reply c} {m' : Machine ρ} (h : m.perform p c = .now m' r) :
    Replies m p c r m'
  | notOpened (path : Bytes) (flags : OpenFlags) (e : Errno) :
    Replies m p (.openFile path flags) (.error e) m
  | notFound (path : Bytes) (follow : Bool) (e : Errno) :
    Replies m p (.fileStatus path follow) (.error e) m
  | lateError (fd : Nat) (e : Errno) :
    Replies m p (.close fd) (.error e) (m.withDescriptors p (p.descriptors.close fd))

/-- A call of a process: the machine that it found, and the machine that it left. -/
structure Turn (ρ : Type) where
  event : Event
  before : Machine ρ
  after : Machine ρ

namespace Turn

/-- The call leaves every regular file that exists as it is. -/
def Spares (turn : Turn ρ) : Prop :=
  ∀ n f, turn.before.files.get? n = some f → f.kind = .regular → turn.after.files.get? n = some f

/-- The call makes the regular file with a number. -/
def Makes (turn : Turn ρ) (n : Nat) : Prop :=
  turn.before.files.get? n = none ∧ turn.after.kindOf? n = some .regular

end Turn

/-- A machine, and the calls that a process made on it so far. -/
structure Scene (ρ : Type) where
  machine : Machine ρ
  turns : List (Turn ρ) := []

/-- A machine with other processes on it. They act around the calls of the process. That asking
for the status of an open descriptor fails is left out: it is no state that files can be in. -/
def amongOthers (pid : ProcessId) : Surroundings (Scene ρ) where
  drifts w w' := OthersAct pid w.machine w'.machine ∧ w'.turns = w.turns
  answers w e w' := ∃ p, w.machine.process? pid = some p ∧
    Replies w.machine p e.1 e.2 w'.machine ∧ w'.turns = w.turns ++ [⟨e, w.machine, w'.machine⟩]

/-- What others do in some time is what they may do at once. -/
theorem othersAct_of_drifts {w w' : Scene ρ} (h : (amongOthers pid).Drifts w w') :
    OthersAct pid w.machine w'.machine ∧ w'.turns = w.turns := by
  induction h with
  | refl => exact ⟨.refl pid _, rfl⟩
  | tail _ hstep ih =>
      obtain ⟨hact, hturns⟩ := hstep
      exact ⟨ih.1.trans hact, hturns.trans ih.2⟩

/-- The scene tells the calls of a run in their order. -/
theorem events_of_takes {w w' : Scene ρ} {es : List Event} (h : (amongOthers pid).Takes w es w') :
    w'.turns.map Turn.event = w.turns.map Turn.event ++ es := by
  induction h with
  | idle hd => rw [(othersAct_of_drifts hd).2, List.append_nil]
  | call hd ha _ ih =>
      obtain ⟨_, -, -, hturns⟩ := ha
      rw [ih, hturns, (othersAct_of_drifts hd).2, List.map_append, List.append_assoc]
      rfl

/-- A call, after acts of other processes. -/
theorem takes_call {w w' : Scene ρ} {e : Event} {es : List Event}
    (hact : OthersAct pid w.machine m) (hp : m.process? pid = some p)
    (hreply : Replies m p e.1 e.2 m')
    (hrest : (amongOthers pid).Takes ⟨m', w.turns ++ [⟨e, m, m'⟩]⟩ es w') :
    (amongOthers pid).Takes w (e :: es) w' := by
  have hdrift : (amongOthers pid).Drifts w ⟨m, w.turns⟩ := .single ⟨hact, rfl⟩
  exact .call hdrift ⟨p, hp, hreply, rfl⟩ hrest

end Machine

/-- A call that changes no file, beyond opening one for writing without dropping what it holds. -/
def Call.IsGentle : Call → Prop
  | .openFile _ flags => flags.writes = true ∧ flags.truncates = false
  | .fileStatus .. | .descriptorStatus _ | .close _ => True
  | _ => False

/-! ## Making and opening files -/

namespace Files

variable {fs fs' : Files} {dir n : Nat} {name path : Bytes} {flags : OpenFlags} {mode : Nat}

/-- A new name is an entry of a directory; a regular file has none. -/
theorem withEntry_of_regular {f : File} (h : f.kind = .regular) (name : Bytes) (n : Nat) :
    File.withEntry name n f = f := by
  obtain ⟨body, mode, time⟩ := f
  cases body with
  | regular data => rfl
  | directory entries parent => exact nomatch h
  | link target => exact nomatch h
  | nullDevice => exact nomatch h

/-- Making a file changes no regular file that was there. -/
theorem get?_make_of_regular {f : File} (hf : fs.get? n = some f) (hkind : f.kind = .regular)
    (body : FileBody) : (fs.make dir name body mode).1.get? n = some f := by
  have hlt : n < fs.table.length := by
    obtain ⟨hlt, -⟩ := List.getElem?_eq_some_iff.mp hf
    exact hlt
  show ((fs.table ++ [_]).modify dir _)[n]? = some f
  rw [List.getElem?_modify, List.getElem?_append_left hlt]
  have hfile : fs.table[n]? = some f := hf
  rw [hfile]
  split
  · simp [withEntry_of_regular hkind]
  · rfl

/-- The file that is made was not there before. -/
theorem get?_make_new (fs : Files) (dir : Nat) (name : Bytes) (mode : Nat) :
    fs.get? (fs.make dir name (.regular []) mode).2 = none ∧
      ((fs.make dir name (.regular []) mode).1.get?
        (fs.make dir name (.regular []) mode).2).map File.kind = some .regular := by
  constructor
  · show fs.table[fs.table.length]? = none
    simp
  · show (((fs.table ++ [_]).modify dir _)[fs.table.length]?).map File.kind = _
    rw [List.getElem?_modify, List.getElem?_concat_length]
    split
    · rfl
    · rfl

theorem isSome_of_allows {permission : Permission} (h : fs.allows n permission = true) :
    (fs.get? n).isSome := by
  obtain ⟨f, hf, -⟩ := (Option.any_eq_true ..).mp h
  rw [hf]
  rfl

/-- A sequence succeeds when both of its parts do. -/
theorem ok_of_bind {α β : Type} {x : Except Errno α} {f : α → Except Errno β} {b : β}
    (h : (x >>= f) = .ok b) : ∃ a, x = .ok a ∧ f a = .ok b := by
  cases x with
  | error e => cases h
  | ok a => exact ⟨a, rfl, h⟩

/-- What a check let pass. -/
theorem ok_of_unless {α : Type} {c : Bool} {e : Errno} {f : PUnit → Except Errno α} {a : α}
    (h : (if c = true then throw e >>= f else f ⟨⟩) = .ok a) : c = false ∧ f ⟨⟩ = .ok a := by
  cases c with
  | true => cases h
  | false => exact ⟨rfl, h⟩

/-- What opening a file for writing comes to, if nothing is to be dropped from it. -/
theorem openPath_writes (h : fs.openPath dir path flags mode = .ok (fs', n))
    (hwrites : flags.writes = true) (htruncates : flags.truncates = false) :
    (∀ k f, fs.get? k = some f → f.kind = .regular → fs'.get? k = some f) ∧
      (fs'.get? n).isSome ∧
      (flags.creates = true → flags.exclusive = true →
        fs.get? n = none ∧ (fs'.get? n).map File.kind = some .regular) := by
  unfold openPath at h
  obtain ⟨place, -, h⟩ := ok_of_bind h
  cases place with
  | found k =>
      -- every refusal on the way would have been an error
      obtain ⟨hnew, h⟩ := ok_of_unless h
      obtain ⟨-, h⟩ := ok_of_unless h
      obtain ⟨-, h⟩ := ok_of_unless h
      obtain ⟨hallows, h⟩ := ok_of_unless h
      rw [htruncates] at h
      cases h
      rw [hwrites] at hallows
      refine ⟨fun _ _ hf _ => hf, isSome_of_allows (by simpa using hallows), ?_⟩
      intro hcreates hexclusive
      simp [hcreates, hexclusive] at hnew
  | free parent name =>
      obtain ⟨-, h⟩ := ok_of_unless h
      obtain ⟨-, h⟩ := ok_of_unless h
      obtain ⟨-, h⟩ := ok_of_unless h
      have hmade := get?_make_new fs parent name mode
      cases h
      refine ⟨fun k f hf hkind => get?_make_of_regular hf hkind _, ?_, fun _ _ => hmade⟩
      have hsome := congrArg Option.isSome hmade.2
      rwa [Option.isSome_map] at hsome

end Files

namespace Machine

variable {ρ : Type} {m m' m'' : Machine ρ} {pid : ProcessId} {p : Process ρ} {fd n : Nat}
  {k : FileKind} {path : Bytes} {flags : OpenFlags}

/-! ## A descriptor more -/

/-- A process came to hold one more descriptor, with a file of some kind behind it. -/
structure Gained (pid : ProcessId) (m m' : Machine ρ) (fd n : Nat) (k : FileKind) : Prop where
  free : m.descriptor? pid fd = none
  others : ∀ x ≠ fd, m'.descriptor? pid x = m.descriptor? pid x
  file : m'.fileBehind? pid fd = some n
  kind : m'.kindOf? n = some k

/-- What other processes do takes nothing back. -/
theorem Gained.of_others (h : Gained pid m m' fd n k) (hact : OthersAct pid m' m'') :
    Gained pid m m'' fd n k where
  free := h.free
  others x hx := (hact.descriptors x).trans (h.others x hx)
  file := (hact.files fd).trans h.file
  kind := (hact.kinds fd n h.file).trans h.kind

/-- A gain counts from any moment at which the same descriptors were held. -/
theorem Gained.since (h : Gained pid m' m'' fd n k)
    (hsame : ∀ x, m'.descriptor? pid x = m.descriptor? pid x) : Gained pid m m'' fd n k where
  free := (hsame fd).symm.trans h.free
  others x hx := (h.others x hx).trans (hsame x)
  file := h.file
  kind := h.kind

theorem Gained.of_drifts {w w' : Scene ρ} (h : Gained pid m w.machine fd n k)
    (hd : (amongOthers pid).Drifts w w') : Gained pid m w'.machine fd n k :=
  h.of_others (othersAct_of_drifts hd).1

/-- Closing the new descriptor leaves those that were held before. -/
theorem Gained.descriptor?_close (h : Gained pid m m' fd n k) (hp : m'.process? pid = some p)
    (x : Nat) : (m'.withDescriptors p (p.descriptors.close fd)).descriptor? pid x =
      m.descriptor? pid x := by
  rw [descriptor?_withDescriptors hp, Descriptors.get?_close]
  split
  · rename_i hx
    rw [hx, h.free]
  · rename_i hx
    exact (descriptor?_eq hp).symm.trans (h.others x hx)

/-- The file behind a new descriptor. -/
theorem addOpenFile_gained {f : OpenFile} (hp : m.process? pid = some p)
    (h : m.addOpenFile p f = (m', .ok fd)) (htarget : f.target = .file n)
    (hkind : m.kindOf? n = some k) : Gained pid m m' fd n k := by
  unfold addOpenFile at h
  cases hadd : p.descriptors.add? 0 { openFile := m.openFiles.size, closeOnExec := true } with
  | none =>
      rw [hadd] at h
      cases h
  | some added =>
      obtain ⟨ds, fd'⟩ := added
      rw [hadd] at h
      cases h
      obtain ⟨-, hfree, rfl⟩ := Descriptors.add?_eq_some hadd
      have hp' : { m with openFiles := m.openFiles.push f }.process? pid = some p := hp
      refine ⟨?_, fun x hx => ?_, ?_, hkind⟩
      · rw [descriptor?_eq hp]
        exact Option.map_eq_none_iff.mp hfree
      · rw [descriptor?_withDescriptors hp', Descriptors.get?_put, if_neg hx, descriptor?_eq hp]
      · have hslot : ∀ slot, (p.descriptors.put fd slot).get? fd = some slot := by
          intro slot
          rw [Descriptors.get?_put, if_pos rfl]
        exact fileBehind?_eq_some (process?_withDescriptors hp') (hslot _)
          Array.getElem?_push_size htarget

theorem addOpenFile_error {f : OpenFile} {e : Errno} (h : m.addOpenFile p f = (m', .error e)) :
    m' = m := by
  unfold addOpenFile at h
  split at h
  · cases h
    rfl
  · cases h

/-- A new descriptor changes no file. -/
theorem files_addOpenFile (f : OpenFile) : (m.addOpenFile p f).1.files = m.files := by
  unfold addOpenFile
  split
  · rfl
  · rfl

/-- Opening a file for writing gives the process a descriptor for it, a new one if a new one was
asked for. -/
theorem openPath_gained (hp : m.process? pid = some p)
    (h : m.openPath p path flags = (m', .ok fd)) (hwrites : flags.writes = true)
    (htruncates : flags.truncates = false) :
    ∃ n k, Gained pid m m' fd n k ∧ (flags.creates = true → flags.exclusive = true →
      m.files.get? n = none ∧ m'.kindOf? n = some .regular) := by
  unfold openPath at h
  split at h
  · cases h
  · rename_i fs n hopen
    obtain ⟨-, hsome, hnew⟩ := Files.openPath_writes hopen hwrites htruncates
    obtain ⟨f, hf⟩ := Option.isSome_iff_exists.mp hsome
    have hp' : { m with files := fs }.process? pid = some p := hp
    have hgained := addOpenFile_gained hp' h rfl (congrArg (Option.map File.kind) hf)
    refine ⟨n, f.kind, hgained.since fun _ => rfl, fun hcreates hexclusive => ?_⟩
    obtain ⟨hfree, hkind⟩ := hnew hcreates hexclusive
    rw [hf] at hkind
    exact ⟨hfree, hgained.kind.trans hkind⟩

/-- A file that could not be opened leaves the descriptors as they are. -/
theorem openPath_error {e : Errno} (h : m.openPath p path flags = (m', .error e)) (x : Nat) :
    m'.descriptor? pid x = m.descriptor? pid x := by
  unfold openPath at h
  split at h
  · cases h
    rfl
  · rw [addOpenFile_error h]
    rfl

/-- Opening for writing touches no regular file, unless what it holds is to be dropped. -/
theorem openPath_spares (hwrites : flags.writes = true) (htruncates : flags.truncates = false)
    {f : File} (hf : m.files.get? n = some f) (hregular : f.kind = .regular) :
    (m.openPath p path flags).1.files.get? n = some f := by
  unfold openPath
  split
  · exact hf
  · rename_i fs k hopen
    rw [files_addOpenFile]
    exact (Files.openPath_writes hopen hwrites htruncates).1 n f hf hregular

/-! ## The answers to the calls -/

namespace Replies

theorem of_openFile {r : Except Errno Nat} (h : Replies m p (.openFile path flags) r m') :
    m.openPath p path flags = (m', r) ∨ (∃ e, r = .error e) ∧ m' = m := by
  cases h with
  | performed h =>
      cases h
      exact .inl rfl
  | notOpened _ _ e => exact .inr ⟨⟨e, rfl⟩, rfl⟩

theorem of_fileStatus {follow : Bool} {r : Except Errno FileStatus}
    (h : Replies m p (.fileStatus path follow) r m') : m' = m := by
  cases h with
  | performed h =>
      cases h
      rfl
  | notFound => rfl

theorem of_descriptorStatus {r : Except Errno FileStatus}
    (h : Replies m p (.descriptorStatus fd) r m') : r = m.descriptorStatus p fd ∧ m' = m := by
  cases h with
  | performed h =>
      cases h
      exact ⟨rfl, rfl⟩

theorem of_close {r : Except Errno Unit} (h : Replies m p (.close fd) r m') :
    m' = m.withDescriptors p (p.descriptors.close fd) ∨
      p.descriptors.get? fd = none ∧ m' = m := by
  cases h with
  | performed h =>
      change (if p.descriptors.isOpen fd = true then Answer.now _ _ else Answer.now _ _) = _ at h
      split at h
      · cases h
        exact .inl rfl
      · rename_i hclosed
        cases h
        refine .inr ⟨?_, rfl⟩
        simpa [Descriptors.isOpen] using hclosed
  | lateError => exact .inl rfl

/-- Gentle calls touch no regular file. -/
theorem spares {c : Call} {r : Reply c} (h : Replies m p c r m') (hc : c.IsGentle) {f : File}
    (hf : m.files.get? n = some f) (hregular : f.kind = .regular) : m'.files.get? n = some f := by
  cases c with
  | openFile path flags =>
      rcases h.of_openFile with heq | ⟨-, rfl⟩
      · have hfile : (m.openPath p path flags).1.files.get? n = some f :=
          openPath_spares hc.1 hc.2 hf hregular
        rwa [heq] at hfile
      · exact hf
  | fileStatus path follow =>
      rw [h.of_fileStatus]
      exact hf
  | descriptorStatus fd =>
      rw [h.of_descriptorStatus.2]
      exact hf
  | close fd =>
      rcases h.of_close with rfl | ⟨-, rfl⟩
      · exact hf
      · exact hf
  | _ => exact hc.elim

end Replies

/-- The status of a descriptor tells the kind of the file behind it. -/
theorem descriptorStatus_eq (hp : m.process? pid = some p) (hfile : m.fileBehind? pid fd = some n)
    (hkind : m.kindOf? n = some k) : ∃ st, m.descriptorStatus p fd = .ok st ∧ st.kind = k := by
  unfold fileBehind? at hfile
  rw [hp, Option.bind_some] at hfile
  obtain ⟨⟨i, f⟩, hopen, htarget⟩ := Option.bind_eq_some_iff.mp hfile
  obtain ⟨file, hget, rfl⟩ := Option.map_eq_some_iff.mp hkind
  have hn : f.target = .file n := by
    dsimp only at htarget
    split at htarget
    · cases htarget
      assumption
    · cases htarget
  unfold descriptorStatus
  rw [hopen]
  simp only [hn, hget]
  exact ⟨file.status n, rfl, rfl⟩

end Machine

end Host

namespace Shell

open Host (Machine FileKind OpenFlags)
open Host.Machine (Scene amongOthers Gained othersAct_of_drifts)

variable {ρ : Type} {pid : ProcessId} {s : Shell} {w w' : Scene ρ} {m m' m'' : Machine ρ} {fd n : Nat}
  {k : FileKind} {path : Text} {flags : OpenFlags}

/-- A run of gentle calls spares every regular file that it meets. -/
theorem turns_spare {α : Type} {x : ShellM α} (hx : OnlyAsks Host.Call.IsGentle x) :
    Ensures (amongOthers pid) x s w fun _ _ w' =>
      (∀ turn ∈ w.turns, turn.Spares) → ∀ turn ∈ w'.turns, turn.Spares := by
  intro es r t w' hes htakes
  have hgentle := ((hx s).of_reaches hes).2
  refine htakes.keeps (P := fun w => ∀ turn ∈ w.turns, turn.Spares) ?_ ?_
  · rintro w₁ w₂ ⟨-, hturns⟩ hw
    rwa [hturns]
  · rintro w₁ e w₂ he ⟨p, -, hreply, hturns⟩ hw turn hturn
    rw [hturns, List.mem_append, List.mem_singleton] at hturn
    rcases hturn with hturn | rfl
    · exact hw turn hturn
    · exact fun n f hf hregular => hreply.spares (hgentle e he) hf hregular

/-! ## The calls one by one -/

/-- The process holds the descriptors that it held before. -/
def HoldsAsBefore (pid : ProcessId) (m m' : Machine ρ) : Prop :=
  ∀ x, m'.descriptor? pid x = m.descriptor? pid x

theorem HoldsAsBefore.trans (h : HoldsAsBefore pid m' m'') (h' : HoldsAsBefore pid m m') :
    HoldsAsBefore pid m m'' :=
  fun x => (h x).trans (h' x)

theorem HoldsAsBefore.of_drifts (h : HoldsAsBefore pid m w.machine)
    (hd : (amongOthers pid).Drifts w w') : HoldsAsBefore pid m w'.machine :=
  fun x => ((othersAct_of_drifts hd).1.descriptors x).trans (h x)

theorem holdsAsBefore_of_drifts (hd : (amongOthers pid).Drifts w w') :
    HoldsAsBefore pid w.machine w'.machine :=
  HoldsAsBefore.of_drifts (fun _ => rfl) hd

theorem ensures_statusAt (path? : Option Host.Bytes) (follow : Bool) :
    Ensures (amongOthers pid) (statusAt path? follow) s w fun _ _ w' =>
      HoldsAsBefore pid w.machine w'.machine := by
  unfold statusAt
  split
  · refine Ensures.ask fun w₁ r w₂ w' hd ha hd' => ?_
    obtain ⟨p, -, hreply, -⟩ := ha
    have hsame : w₂.machine = w₁.machine := hreply.of_fileStatus
    refine HoldsAsBefore.of_drifts ?_ hd'
    rw [hsame]
    exact holdsAsBefore_of_drifts hd
  · exact Ensures.pure fun w' hd => holdsAsBefore_of_drifts hd

/-- Opening a file for writing. -/
theorem ensures_openFile (path : Text) (hwrites : flags.writes = true)
    (htruncates : flags.truncates = false) :
    Ensures (amongOthers pid) (openFile path flags) s w fun r _ w' =>
      (∃ e, r = .ok (.error e) ∧ HoldsAsBefore pid w.machine w'.machine) ∨
      ∃ fd n k, r = .ok (.ok fd) ∧ Gained pid w.machine w'.machine fd n k ∧
        (flags.creates = true → flags.exclusive = true → ∃ turn ∈ w'.turns, turn.Makes n) := by
  unfold openFile
  split
  · rename_i bytes _
    refine Ensures.ask fun w₁ r w₂ w' hd ha hd' => ?_
    obtain ⟨p, hp, hreply, hturns⟩ := ha
    have hbefore : HoldsAsBefore pid w.machine w₁.machine := holdsAsBefore_of_drifts hd
    rcases hreply.of_openFile with hopen | ⟨⟨e, rfl⟩, hsame⟩
    · cases r with
      | error e =>
          have hsame : HoldsAsBefore pid w₁.machine w₂.machine := Machine.openPath_error hopen
          exact .inl ⟨e, rfl, .of_drifts (fun x => (hsame x).trans (hbefore x)) hd'⟩
      | ok fd =>
          obtain ⟨n, k, hgained, hnew⟩ := Machine.openPath_gained hp hopen hwrites htruncates
          refine .inr ⟨fd, n, k, rfl, (hgained.since hbefore).of_drifts hd', ?_⟩
          intro hcreates hexclusive
          have hmakes := hnew hcreates hexclusive
          refine ⟨⟨⟨.openFile bytes flags, .ok fd⟩, w₁.machine, w₂.machine⟩, ?_, hmakes⟩
          rw [(othersAct_of_drifts hd').2, hturns]
          exact List.mem_append_right _ List.mem_cons_self
    · refine .inl ⟨e, rfl, .of_drifts ?_ hd'⟩
      rwa [hsame]
  · exact Ensures.pure fun w' hd => .inl ⟨_, rfl, holdsAsBefore_of_drifts hd⟩

theorem ensures_openOrFail (verb path : Text) (hwrites : flags.writes = true)
    (htruncates : flags.truncates = false) :
    Ensures (amongOthers pid) (openOrFail verb path flags) s w fun r _ w' =>
      (∃ e, r = .error e ∧ HoldsAsBefore pid w.machine w'.machine) ∨
      ∃ fd n k, r = .ok fd ∧ Gained pid w.machine w'.machine fd n k := by
  refine Ensures.bind (ensures_openFile path hwrites htruncates) ?_ ?_
  · rintro r t w' (⟨e, heq, hheld⟩ | ⟨fd, n, k, heq, hgained, -⟩)
    · cases heq
      exact Ensures.throw fun w'' hd => .inl ⟨_, rfl, hheld.of_drifts hd⟩
    · cases heq
      exact Ensures.pure fun w'' hd => .inr ⟨fd, n, k, rfl, hgained.of_drifts hd⟩
  · rintro e t w' (⟨_, heq, -⟩ | ⟨_, _, _, heq, -⟩)
    · cases heq
    · cases heq

/-- Asking for the status of a descriptor that is held tells the kind of file behind it. -/
theorem ensures_descriptorStatus (h : Gained pid m w.machine fd n k) :
    Ensures (amongOthers pid) (ask (.descriptorStatus fd)) s w fun r _ w' =>
      ∃ st, r = .ok (.ok st) ∧ st.kind = k ∧ Gained pid m w'.machine fd n k := by
  refine Ensures.ask fun w₁ r w₂ w' hd ha hd' => ?_
  obtain ⟨p, hp, hreply, -⟩ := ha
  obtain ⟨rfl, hsame⟩ := hreply.of_descriptorStatus
  have hheld := h.of_drifts hd
  obtain ⟨st, hst, hkind⟩ := Machine.descriptorStatus_eq hp hheld.file hheld.kind
  rw [← hsame] at hheld
  exact ⟨st, congrArg _ hst, hkind, hheld.of_drifts hd'⟩

/-- A descriptor that is closed is gone, also if an error is reported. -/
theorem ensures_close (h : Gained pid m w.machine fd n k) :
    Ensures (amongOthers pid) (ask (.close fd)) s w fun _ _ w' =>
      HoldsAsBefore pid m w'.machine := by
  refine Ensures.ask fun w₁ r w₂ w' hd ha hd' => ?_
  obtain ⟨p, hp, hreply, -⟩ := ha
  have hheld := h.of_drifts hd
  refine HoldsAsBefore.of_drifts (fun x => ?_) hd'
  rcases hreply.of_close with hsame | ⟨hclosed, -⟩
  · rw [hsame]
    exact hheld.descriptor?_close hp x
  · have hfile := hheld.file
    rw [Machine.fileBehind?_eq_none hp hclosed] at hfile
    cases hfile

theorem ensures_closeOrFail (h : Gained pid m w.machine fd n k) :
    Ensures (amongOthers pid) (closeOrFail fd) s w fun _ _ w' =>
      HoldsAsBefore pid m w'.machine := by
  refine Ensures.bind (ensures_close h) (fun r t w' hsame => ?_) fun _ _ _ hsame => hsame
  cases r with
  | ok u => exact Ensures.pure fun w'' hd => hsame.of_drifts hd
  | error e => exact Ensures.throw fun w'' hd => hsame.of_drifts hd

/-! ## The computation as a whole -/

/-- What is to come of opening without clobbering: a descriptor more, for a file that was made or is
not regular, or the same descriptors as before. -/
def OpensAside (pid : ProcessId) (m : Machine ρ) : Except Stop Nat → Scene ρ → Prop
  | .ok fd, w' => ∃ n k, Gained pid m w'.machine fd n k ∧
      ((∃ turn ∈ w'.turns, turn.Makes n) ∨ k ≠ .regular)
  | .error _, w' => HoldsAsBefore pid m w'.machine

theorem ensures_openIrregular (path : Text) (hsame : HoldsAsBefore pid m w.machine) :
    Ensures (amongOthers pid) (openIrregular path) s w fun r _ w' => OpensAside pid m r w' := by
  refine Ensures.bind (ensures_openOrFail "create" path rfl rfl) ?_ ?_
  · rintro fd t w' (⟨e, heq, -⟩ | ⟨fd', n, k, heq, hgained⟩)
    · cases heq
    cases heq
    refine Ensures.bind (ensures_descriptorStatus (hgained.since hsame)) ?_ ?_
    · rintro r t w' ⟨st, heq, rfl, hgained⟩
      cases heq
      dsimp only
      split
      · -- the file is regular after all, and the descriptor is given up
        refine Ensures.bind (ensures_closeOrFail hgained) (fun _ t w' hsame => ?_) fun _ _ _ h => h
        exact Ensures.throw fun w'' hd => hsame.of_drifts hd
      · rename_i hkind
        exact Ensures.pure fun w'' hd => ⟨n, _, hgained.of_drifts hd, .inr hkind⟩
    · rintro e t w' ⟨st, heq, -⟩
      cases heq
  · rintro e t w' (⟨_, -, hheld⟩ | ⟨_, _, _, heq, -⟩)
    · exact hheld.trans hsame
    · cases heq

theorem ensures_openNoClobber (path : Text) :
    Ensures (amongOthers pid) (openNoClobber path) s w fun r _ w' =>
      OpensAside pid w.machine r w' := by
  -- the file is asked for in the same way whether the path leads somewhere or not
  have hcreate : ∀ {k : Except Errno Nat → ShellM Nat} {t : Shell} {w' : Scene ρ},
      (∀ fd, k (.ok fd) = pure fd) → (∀ e, k (.error e) =
        if e = .exists_ then openIrregular path else fail (openFault "create" path e)) →
      HoldsAsBefore pid w.machine w'.machine → Ensures (amongOthers pid)
        (openFile path { writes := true, creates := true, exclusive := true } >>= k) t w'
        fun r _ w'' => OpensAside pid w.machine r w'' := by
    intro k t w' hok herror hsame
    refine Ensures.bind (ensures_openFile path rfl rfl) ?_ ?_
    · rintro r t w' (⟨e, heq, hheld⟩ | ⟨fd, n, k, heq, hgained, hnew⟩)
      · cases heq
        have hheld : HoldsAsBefore pid w.machine w'.machine := hheld.trans hsame
        rw [herror]
        split
        · exact ensures_openIrregular path hheld
        · exact Ensures.throw fun w'' hd => hheld.of_drifts hd
      · cases heq
        rw [hok]
        refine Ensures.pure fun w'' hd => ⟨n, _, (hgained.since hsame).of_drifts hd, .inl ?_⟩
        rw [(othersAct_of_drifts hd).2]
        exact hnew rfl rfl
    · rintro e t w' (⟨_, heq, -⟩ | ⟨_, _, _, heq, -⟩)
      · cases heq
      · cases heq
  refine Ensures.bind (ensures_statusAt _ true) (fun r t w' hsame => ?_) fun _ _ _ h => h
  cases r with
  | error e => exact hcreate (fun _ => rfl) (fun _ => rfl) hsame
  | ok st =>
      dsimp only
      split
      · exact Ensures.throw fun w'' hd => hsame.of_drifts hd
      · exact hcreate (fun _ => rfl) (fun _ => rfl) hsame

theorem onlyAsks_openFile (path : Text) (hwrites : flags.writes = true)
    (htruncates : flags.truncates = false) : OnlyAsks Host.Call.IsGentle (openFile path flags) := by
  unfold openFile
  split
  · exact .ask ⟨hwrites, htruncates⟩
  · exact .pure _

theorem onlyAsks_openIrregular (path : Text) :
    OnlyAsks Host.Call.IsGentle (openIrregular path) := by
  have hopen : OnlyAsks Host.Call.IsGentle (openOrFail "create" path { writes := true }) := by
    refine (onlyAsks_openFile path rfl rfl).bind fun r => ?_
    cases r with
    | ok fd => exact .pure fd
    | error e => exact .throw _
  have hclose : ∀ fd, OnlyAsks Host.Call.IsGentle (closeOrFail fd) := by
    intro fd
    refine (OnlyAsks.ask trivial).bind fun r => ?_
    cases r with
    | ok u => exact .pure _
    | error e => exact .throw _
  refine hopen.bind fun fd => (OnlyAsks.ask trivial).bind fun r => ?_
  cases r with
  | error e => exact .throw _
  | ok st =>
      dsimp only
      split
      · exact (hclose fd).bind fun _ => .throw _
      · exact .pure fd

/-- Nothing is dropped from any file that is opened without clobbering. -/
theorem onlyAsks_openNoClobber (path : Text) :
    OnlyAsks Host.Call.IsGentle (openNoClobber path) := by
  have hcreate : ∀ {k : Except Errno Nat → ShellM Nat}, (∀ fd, k (.ok fd) = pure fd) →
      (∀ e, k (.error e) =
        if e = .exists_ then openIrregular path else fail (openFault "create" path e)) →
      OnlyAsks Host.Call.IsGentle
        (openFile path { writes := true, creates := true, exclusive := true } >>= k) := by
    intro k hok herror
    refine (onlyAsks_openFile path rfl rfl).bind fun r => ?_
    cases r with
    | ok fd =>
        rw [hok]
        exact .pure fd
    | error e =>
        rw [herror]
        split
        · exact onlyAsks_openIrregular path
        · exact .throw _
  have hstatus : OnlyAsks Host.Call.IsGentle (statusAt (plainPathBytes? path) true) := by
    unfold statusAt
    split
    · exact .ask trivial
    · exact .pure _
  refine hstatus.bind fun r => ?_
  cases r with
  | error e => exact hcreate (fun _ => rfl) (fun _ => rfl)
  | ok st =>
      dsimp only
      split
      · exact .throw _
      · exact hcreate (fun _ => rfl) (fun _ => rfl)

/-- Opening without clobbering is free of races. Whatever other processes do between its calls: no
call changes a regular file that exists; a descriptor that comes of it is new, the others stay, and
behind it is a file that one of the calls made or one that is not regular; and after a failure the
same descriptors are held as before. -/
theorem openNoClobber_among_others (path : Text) {es : List Event} {r : Except Stop Nat}
    {t : Shell} (hes : ((openNoClobber path).startedIn s).Comes es (.done (r, t)))
    (htakes : (amongOthers pid).Takes ⟨m, []⟩ es w') :
    w'.turns.map Machine.Turn.event = es ∧
      (∀ turn ∈ w'.turns, turn.Spares) ∧
      (∀ fd, r = .ok fd → ∃ n k, Gained pid m w'.machine fd n k ∧
        ((∃ turn ∈ w'.turns, turn.Makes n) ∨ k ≠ .regular)) ∧
      ∀ e, r = .error e → ∀ x, w'.machine.descriptor? pid x = m.descriptor? pid x := by
  have hspares := turns_spare (onlyAsks_openNoClobber path) hes htakes
  have hopens := ensures_openNoClobber path hes htakes
  refine ⟨Machine.events_of_takes htakes, ?_, fun fd heq => ?_, fun e heq => ?_⟩
  · -- no call was made before the run
    exact hspares fun _ h => absurd h List.not_mem_nil
  · subst heq
    exact hopens
  · subst heq
    exact hopens

/-! ## A file that was there a moment too early -/

/-- A process without descriptors. -/
def empty : Host.Process Unit := { pid := 100, parent := 1, group := 100, program := .done () }

/-- Its machine. There are no files but the directory that it is in. -/
def unspoiled : Machine Unit := { files := {}, processes := [empty], boot := fun _ _ => .done () }

/-- The machine after another process made a file. -/
def overtaken : Machine Unit :=
  { unspoiled with files := (unspoiled.files.make 0 (Text.encode "a") (.regular []) 0o644).1 }

/-- The machine after the process opened that file. -/
def holding : Machine Unit :=
  { overtaken with
    openFiles := #[{ target := .file 1, reads := false, writes := true }]
    processes := [{ empty with descriptors := { slots := [(0, { openFile := 0, closeOnExec := true })] } }] }

theorem perform_overtaken :
    overtaken.perform empty (.openFile (Text.encode "a") { writes := true }) =
      .now holding (.ok 0) := by
  have hwalk : overtaken.files.walk true Host.Files.linkLimit 0 [Text.encode "a"] =
      .ok (.found 1) := by
    rw [Host.Files.walk]
    rfl
  have hlocate : overtaken.files.locate 0 (Text.encode "a") true = .ok (.found 1) := by
    change (overtaken.files.walk true Host.Files.linkLimit 0 [Text.encode "a"] >>= _) = _
    rw [hwalk]
    rfl
  have hopen : ∀ mode, overtaken.files.openPath empty.directory (Text.encode "a") { writes := true } mode
      = .ok (overtaken.files, 1) := by
    intro mode
    change (overtaken.files.locate 0 (Text.encode "a") true >>= _) = _
    rw [hlocate]
    rfl
  have heq : overtaken.openPath empty (Text.encode "a") { writes := true } = (holding, .ok 0) := by
    unfold Machine.openPath
    rw [hopen]
    rfl
  change Machine.answer (c := .openFile _ _)
    (overtaken.openPath empty (Text.encode "a") { writes := true }) = _
  rw [heq]
  rfl

/-- The calls of a run that another process overtakes after the first of them. -/
def overtakenCalls : List Event :=
  [⟨.fileStatus (Text.encode "a") true, .error .noEntry⟩,
    ⟨.openFile (Text.encode "a") { writes := true, creates := true, exclusive := true },
      .error .exists_⟩,
    ⟨.openFile (Text.encode "a") { writes := true }, .ok 0⟩,
    ⟨.descriptorStatus 0, .ok ⟨.regular, 0o644, 0, 1, 1⟩⟩,
    ⟨.close 0, .ok ()⟩]

/-- The run fails. The file is as the other process made it, and no descriptor is held. -/
theorem openNoClobber_among_others_overtaken :
    ∃ (r : Except Stop Nat) (t : Shell) (w' : Scene Unit),
      ((openNoClobber "a").startedIn {}).Comes overtakenCalls (.done (r, t)) ∧
      (amongOthers 100).Takes ⟨unspoiled, []⟩ overtakenCalls w' ∧
      (∀ turn ∈ w'.turns, turn.Spares) ∧ ∀ x, w'.machine.descriptor? 100 x = none := by
  obtain ⟨⟨r, t⟩, hes, hr⟩ := Host.Program.comes_of_endsIn
    (show ((openNoClobber "a").startedIn {}).endsIn (fun b => !b.1.isOk) overtakenCalls = true by
      decide +kernel)
  have htakes : ∃ w', (amongOthers 100).Takes (⟨unspoiled, []⟩ : Scene Unit) overtakenCalls w' := by
    have hact : Machine.OthersAct 100 unspoiled overtaken := ⟨fun _ => rfl, fun _ => rfl, nofun⟩
    apply Exists.intro
    apply Machine.takes_call (.refl _ _) rfl (.notFound ..)
    apply Machine.takes_call hact rfl (.notOpened ..)
    apply Machine.takes_call (.refl _ _) rfl (.performed perform_overtaken)
    apply Machine.takes_call (.refl _ _) rfl (.performed rfl)
    apply Machine.takes_call (.refl _ _) rfl (.performed rfl)
    exact .idle .refl
  obtain ⟨w', htakes⟩ := htakes
  obtain ⟨-, hspares, -, hsame⟩ := openNoClobber_among_others "a" hes htakes
  cases r with
  | ok fd => cases hr
  | error e => exact ⟨.error e, t, w', hes, htakes, hspares, hsame e rfl⟩

end Shell

end CommandShell
