import CommandShell.Commands.Directory
import CommandShell.Host.Machine
import CommandShell.Proofs.EveryRun
import CommandShell.Proofs.ReadOnly
import CommandShell.Proofs.Surroundings

/-!
# What a failing `cd` leaves behind

`cd` looks for a directory first, changes to it and then tells `PWD` and `OLDPWD`, forgets the paths
that hang on the directory and may write where it is. Everything that can be wrong with the operand
comes up before the change, and then nothing is changed at all. What comes after the change can fail as
well (`FailsLate`), and there is no way back.

`runCd_all_or_nothing` says that these late failures are all that is wrong: a `cd` that fails leaves the
shell and its working directory as they were just if it does not fail late. The working directory is
that of a process on a machine where others may do what they like but to this directory. With a
read-only `OLDPWD` the shell is somewhere else afterwards and does not know it (`not_runCd_untouched`).
-/

namespace CommandShell

open Host (Call Reply Program Event)

namespace Host

/-- An answered call that leaves a process in its working directory. -/
inductive Stationary : Event → Prop where
  | asked (r : Except Errno Bytes) : Stationary ⟨.currentDirectory, r⟩
  | refused (path : Bytes) (e : Errno) : Stationary ⟨.changeDirectory path, .error e⟩

/-- The call that makes a path the working directory. -/
abbrev moving (path : Bytes) : Event := ⟨.changeDirectory path, .ok ()⟩

theorem not_stationary_moving (path : Bytes) : ¬ Stationary (moving path) := nofun

namespace Machine

variable {ρ : Type} {m m' : Machine ρ} {pid : ProcessId} {es : List Event}

/-- The number of the working directory of a process. -/
def directory? (m : Machine ρ) (pid : ProcessId) : Option Nat :=
  (m.process? pid).map (·.directory)

/-- A machine with other processes on it, which may do anything but to the working directory of this
one. Changing to a directory and asking for it may fail for any reason. -/
def besideOthers (pid : ProcessId) : Surroundings (Machine ρ) where
  drifts m m' := m'.directory? pid = m.directory? pid
  answers m e m' := ∃ p, m.process? pid = some p ∧ (m.perform p e.1 = .now m' e.2 ∨
    m' = m ∧ ((∃ err, e = ⟨.currentDirectory, .error err⟩) ∨
      ∃ path err, e = ⟨.changeDirectory path, .error err⟩))

/-- A call that leaves a process in its directory leaves the machine as it is. -/
theorem perform_stationary {e : Event} {p : Process ρ} (he : Stationary e)
    (h : m.perform p e.1 = .now m' e.2) : m' = m := by
  cases he with
  | asked r =>
      cases h
      rfl
  | refused path err =>
      simp only [perform] at h
      split at h
      · split at h
        · cases h
        · cases h
          rfl
      · cases h
        rfl

/-- A process stays in its working directory, unless it changes it. -/
theorem directory?_of_takes (hes : ∀ e ∈ es, Stationary e)
    (h : (besideOthers pid).Takes m es m') : m'.directory? pid = m.directory? pid := by
  refine h.keeps (P := fun n => n.directory? pid = m.directory? pid) ?_ ?_ rfl
  · intro w w' hdrift hw
    exact Eq.trans hdrift hw
  · rintro w e w' he ⟨p, -, hanswer | ⟨rfl, -⟩⟩ hw
    · rw [perform_stationary (hes e he) hanswer]
      exact hw
    · exact hw

end Machine

end Host

namespace Shell

variable {α β : Type} {s : Shell}

/-! ## Failures after the change -/

/-- What may go wrong after the working directory was changed, and the calls since. -/
inductive LateFailure (s : Shell) : List Event → Prop where
  | oldReadOnly (h : s.variables.isReadOnly "OLDPWD" = true) (es : List Event) : LateFailure s es
  | newReadOnly (h : s.variables.isReadOnly "PWD" = true) (es : List Event) : LateFailure s es
  /-- The system does not say where the shell is. -/
  | lookup (es : List Event) (e : Errno) : LateFailure s (es ++ [⟨.currentDirectory, .error e⟩])
  /-- The new directory cannot be written. -/
  | write (es : List Event) {e : Event} (h : Host.WritesTo 1 e) : LateFailure s (es ++ [e])

theorem LateFailure.prefixed {es : List Event} (h : LateFailure s es) (before : List Event) :
    LateFailure s (before ++ es) := by
  cases h with
  | oldReadOnly h es => exact .oldReadOnly h _
  | newReadOnly h es => exact .newReadOnly h _
  | lookup es e =>
      rw [← List.append_assoc]
      exact .lookup (before ++ es) e
  | write es h =>
      rw [← List.append_assoc]
      exact .write (before ++ es) h

/-- A run that changed the working directory and failed afterwards. -/
inductive FailsLate (s : Shell) : List Event → Prop where
  | moved (before : List Event) (path : Host.Bytes) {after : List Event}
    (h : LateFailure s after) : FailsLate s (before ++ Host.moving path :: after)

theorem not_failsLate_of_stationary {es : List Event} (h : ∀ e ∈ es, Host.Stationary e) :
    ¬ FailsLate s es := by
  rintro ⟨before, path, -⟩
  exact Host.not_stationary_moving path (h _ (List.mem_append_right _ List.mem_cons_self))

theorem FailsLate.prefixed {es : List Event} (h : FailsLate s es) (before : List Event) :
    FailsLate s (before ++ es) := by
  cases h with
  | moved first path h =>
      rw [← List.append_assoc]
      exact .moved (before ++ first) path h

/-- No call changed the working directory, and the shell is as before. -/
abbrev Rests (s : Shell) (es : List Event) (t : Shell) : Prop := Unchanged Host.Stationary s es t

/-- If the run fails, then either it changed nothing or it failed late. -/
def FailsCleanly (s : Shell) (es : List Event) (r : Except Stop α) (t : Shell) : Prop :=
  ∀ e, r = .error e → Rests s es t ∨ FailsLate s es

/-- What comes first and changes nothing makes no difference. -/
theorem EveryRun.bind_rests {x : ShellM α} {f : α → ShellM β}
    (hx : EveryRun x s fun es _ t => Rests s es t) (hf : ∀ a, EveryRun (f a) s (FailsCleanly s)) :
    EveryRun (x >>= f) s (FailsCleanly s) := by
  apply hx.bind
  · intro es e t h e' _
    exact .inl h
  · intro es a t h
    obtain rfl := h.state
    apply (hf a).mono
    intro es' r u hclean e he
    rcases hclean e he with hrests | hlate
    · exact .inl (h.append hrests)
    · exact .inr (hlate.prefixed es)

/-! ## Telling variables -/

/-- Only a read-only variable is not given a value. -/
theorem isReadOnly_of_exportValue {vs : Variables} {name value : Text} {f : Fault}
    (h : vs.exportValue name value = .error f) : vs.isReadOnly name = true := by
  have hrefused := (Variables.change_eq_error_iff vs (.binding (.give name (some value) true false))).mp
    ⟨f, h⟩
  exact hrefused.2

/-- Giving a value makes no other variable read-only. -/
theorem isReadOnly_exportValue {vs vs' : Variables} {name other value : Text} (hne : other ≠ name)
    (h : vs.exportValue name value = .ok vs') : vs'.isReadOnly other = vs.isReadOnly other := by
  simp only [Variables.exportValue, Variables.assignWith] at h
  split at h
  · cases h
  · cases h
    simp only [Variables.isReadOnly, Variables.get?, Table.get?_insert_of_ne hne]

theorem value?_of_exportValue {vs vs' : Variables} {name value : Text}
    (h : vs.exportValue name value = .ok vs') : vs'.value? name = some value := by
  simp only [Variables.exportValue, Variables.assignWith] at h
  split at h
  · cases h
  · cases h
    simp only [Variables.value?, Variables.get?, Table.get?_insert_self]
    rfl

theorem everyRun_exportValue (name value : Text) (s : Shell) :
    EveryRun (updateVariables (·.exportValue name value)) s fun es r t => es = [] ∧
      (∀ e, r = .error e → s.variables.isReadOnly name = true) ∧
      (r = .ok () → t.value? name = some value) ∧
      ∀ other ≠ name, t.variables.isReadOnly other = s.variables.isReadOnly other := by
  have hrun := Variables.startedIn_updateVariables (·.exportValue name value) s
  cases hvs : s.variables.exportValue name value with
  | error f =>
      rw [hvs] at hrun
      exact .of_eq hrun ⟨rfl, fun _ _ => isReadOnly_of_exportValue hvs, nofun, fun _ _ => rfl⟩
  | ok vs =>
      rw [hvs] at hrun
      exact .of_eq hrun ⟨rfl, nofun, fun _ => value?_of_exportValue hvs,
        fun _ hne => isReadOnly_exportValue hne hvs⟩

end Shell

namespace Commands

open Shell

variable {s : Shell}

/-! ## Looking for the directory -/

theorem everyRun_ofExcept {α : Type} (x : Except Fault α) :
    EveryRun (ofExcept x) s fun es _ t => Rests s es t := by
  cases x with
  | ok a => exact .pure (.here _ s)
  | error f => exact .fail (.here _ s)

theorem everyRun_directoryOperand (args : List Text) :
    EveryRun (directoryOperand args) s fun es _ t => Rests s es t := by
  apply EveryRun.get_bind
  split
  · split
    · exact .pure (.here _ s)
    · exact .fail (.here _ s)
  · split
    · exact .pure (.here _ s)
    · exact .fail (.here _ s)
  · exact .pure (.here _ s)

theorem everyRun_currentDirectory :
    EveryRun currentDirectory s fun es r t => t = s ∧ ∃ reply,
      es = [⟨.currentDirectory, reply⟩] ∧ r = .ok (reply.map Text.decode) := by
  apply EveryRun.ask_bind
  intro reply
  exact .pure ⟨rfl, reply, rfl, rfl⟩

theorem everyRun_logicalDirectory :
    EveryRun logicalDirectory s fun es _ t => Rests s es t := by
  apply EveryRun.get_bind
  split
  · exact .pure (.here _ s)
  · apply everyRun_currentDirectory.bind
    · rintro es e t ⟨-, reply, -, h⟩
      cases h
    · rintro es a t ⟨rfl, reply, rfl, -⟩
      exact .pure (.single (.asked reply) _)

/-- The outcomes of a try to change the working directory: it is refused, or the last call did it. -/
inductive Tried {α : Type} (s : Shell) :
    List Event → Except Stop (Except Errno α) → Shell → Prop where
  | refused {es : List Event} (e : Errno) (h : ∀ e ∈ es, Host.Stationary e) :
    Tried s es (.ok (.error e)) s
  | moved {es : List Event} (path : Host.Bytes) (place : α) (h : ∀ e ∈ es, Host.Stationary e) :
    Tried s (es ++ [Host.moving path]) (.ok (.ok place)) s

theorem everyRun_changeDirectory (path : Text) : EveryRun (changeDirectory path) s (Tried s) := by
  unfold changeDirectory
  cases pathBytes? path with
  | none => exact .pure (.refused _ (List.forall_mem_nil _))
  | some bs =>
      apply EveryRun.ask (c := .changeDirectory bs)
      intro reply
      cases reply with
      | ok u =>
          show Tried s ([] ++ [Host.moving bs]) (.ok (.ok u)) s
          exact .moved bs u (List.forall_mem_nil _)
      | error e =>
          exact .refused e (Unchanged.single (.refused bs e) s).events

/-- Candidates are tried until one is not refused. -/
theorem everyRun_tryDirectories (physical : Bool) (here : Text) (last : Errno)
    (candidates : List (Text × Bool)) :
    EveryRun (tryDirectories physical here last candidates) s (Tried s) := by
  induction candidates generalizing last with
  | nil => exact .pure (.refused last (List.forall_mem_nil _))
  | cons candidate rest ih =>
      apply (everyRun_changeDirectory _).bind
      · intro es e t h
        cases h
      · intro es a t h
        cases h with
        | moved path u h => exact .pure (by rw [List.append_nil]; exact .moved path _ h)
        | refused e h =>
            -- the calls of the refused candidate come before those of the rest
            apply (ih e).mono
            intro es' r u hrest
            cases hrest with
            | refused e' h' => exact .refused e' (List.forall_mem_append.mpr ⟨h, h'⟩)
            | moved path place h' =>
                rw [← List.append_assoc]
                exact .moved path place (List.forall_mem_append.mpr ⟨h, h'⟩)

/-! ## After the change -/

/-- What `cd` tells once it is there. -/
def tell (shows : Bool) (here pwd : Text) : ShellM Unit := do
  updateVariables (·.exportValue "OLDPWD" here)
  updateVariables (·.exportValue "PWD" pwd)
  modifyDefinitions (·.forgetRelative)
  if shows then writeOut (pwd ++ "\n")
  setStatus 0

/-- What `cd` does once it is there. -/
def arrive (physical shows : Bool) (here logical : Text) : ShellM Unit :=
  if physical then physicalDirectory >>= tell shows here else tell shows here logical

/-- What `cd` says if there is no such directory. -/
def noDirectory (target : Text) (e : Errno) : Fault :=
  .execution ("can't cd to " ++ target ++ ": " ++
    if e = .unknown then Errno.noEntry.description else e.description)

theorem runCd_eq (args : List Text) : runCd args = (do
    let (opts, operands) ← ofExcept (Builtin.takeOptions "LP" args)
    let (target, shows) ← directoryOperand operands
    let here ← logicalDirectory
    let searchPath := (← get).value? "CDPATH"
    match ← tryDirectories (opts.getLast? == some 'P') here .unknown
        (directoryCandidates searchPath target) with
    | .error e => fail (noDirectory target e)
    | .ok (logical, fromSearch) =>
      arrive (opts.getLast? == some 'P') (shows || fromSearch) here logical) := rfl

theorem everyRun_physicalDirectory :
    EveryRun physicalDirectory s fun es r t => t = s ∧
      ∀ e, r = .error e → ∃ err, es = [⟨.currentDirectory, .error err⟩] := by
  apply everyRun_currentDirectory.bind
  · rintro es e t ⟨-, reply, -, h⟩
    cases h
  · rintro es a t ⟨rfl, reply, rfl, h⟩
    cases h
    cases reply with
    | ok path => exact .pure ⟨rfl, nofun⟩
    | error err => exact .fail ⟨rfl, fun _ _ => ⟨err, rfl⟩⟩

/-- Once `cd` is there, only a read-only variable or a write can make it fail. -/
theorem everyRun_tell (shows : Bool) (here pwd : Text) :
    EveryRun (tell shows here pwd) s fun es r _ => ∀ e, r = .error e → LateFailure s es := by
  apply (everyRun_exportValue "OLDPWD" here s).bind
  · rintro es e t ⟨-, h, -⟩ _ _
    exact .oldReadOnly (h e rfl) es
  · rintro _ u t ⟨rfl, -, -, hothers⟩
    have hpwd : t.variables.isReadOnly "PWD" = s.variables.isReadOnly "PWD" := hothers "PWD" (by decide)
    -- that `OLDPWD` was told does not bear on whether `PWD` is read-only
    apply (everyRun_exportValue "PWD" pwd t).bind
    · rintro es e v ⟨-, h, -⟩ _ _
      exact .newReadOnly (hpwd ▸ h e rfl) _
    · rintro _ u v ⟨rfl, -⟩
      refine EveryRun.modify_bind ?_
      cases shows with
      | false => exact .of_eq rfl nofun
      | true =>
          apply (everyRun_writeBytes 1 _ _).bind
          · rintro es e t ⟨h, hes⟩ _ _
            -- the write that failed was the last call
            have hne := hes e rfl
            rw [← List.dropLast_concat_getLast hne]
            exact .write es.dropLast (h.events _ (List.getLast_mem hne))
          · intro es u x _
            exact .of_eq rfl nofun

theorem everyRun_arrive (physical shows : Bool) (here logical : Text) :
    EveryRun (arrive physical shows here logical) s fun es r _ =>
      ∀ e, r = .error e → LateFailure s es := by
  cases physical with
  | false => exact everyRun_tell shows here logical
  | true =>
      apply everyRun_physicalDirectory.bind
      · rintro es e t ⟨-, h⟩ _ _
        obtain ⟨err, rfl⟩ := h e rfl
        exact .lookup [] err
      · rintro es pwd t ⟨rfl, -⟩
        apply (everyRun_tell shows here pwd).mono
        intro es' r u h e he
        exact (h e he).prefixed es

/-- A failing `cd` changed nothing, or changed the working directory and failed afterwards. -/
theorem everyRun_runCd (args : List Text) : EveryRun (runCd args) s (FailsCleanly s) := by
  rw [runCd_eq]
  -- up to the tries everything only looks
  apply (everyRun_ofExcept _).bind_rests
  rintro ⟨opts, operands⟩
  apply (everyRun_directoryOperand operands).bind_rests
  rintro ⟨target, shows⟩
  apply everyRun_logicalDirectory.bind_rests
  intro here
  apply EveryRun.get_bind
  apply (everyRun_tryDirectories _ here .unknown _).bind
  · intro es e t h
    cases h
  · intro es a t h
    cases h with
    | refused e h =>
        -- no candidate was taken
        exact .fail fun _ _ => .inl (.append ⟨rfl, h⟩ (.here _ _))
    | @moved es path place h =>
        -- from here on there is no way back
        apply (everyRun_arrive _ _ here place.1).mono
        intro es' r u hlate e he
        rw [List.append_assoc]
        exact .inr (.moved es path (hlate e he))

/-- The shell is as before, and on every machine its process is in the same directory after these
calls as before them. -/
structure Untouched (s : Shell) (es : List Event) (t : Shell) : Prop extends Rests s es t where
  directory : ∀ {ρ : Type} {pid : ProcessId} {m m' : Host.Machine ρ},
    (Host.Machine.besideOthers pid).Takes m es m' → m'.directory? pid = m.directory? pid

/-- `cd` is all or nothing, unless it fails late: the working directory, the variables and the
remembered paths of the shell are as before, just if no failure came after the change. -/
theorem runCd_all_or_nothing {args : List Text} {t : Shell} {es : List Event} {e : Stop}
    (h : ((runCd args).startedIn s).Comes es (.done (.error e, t))) :
    Untouched s es t ↔ ¬ FailsLate s es := by
  constructor
  · intro huntouched
    exact not_failsLate_of_stationary huntouched.events
  · intro hlate
    -- a run that did not fail late made only calls that leave the process where it is
    rcases (everyRun_runCd args).holds h e rfl with hrests | hfails
    · exact ⟨hrests, Host.Machine.directory?_of_takes hrests.events⟩
    · exact absurd hfails hlate

/-- A shell in the root that is refused `/d`. -/
theorem runCd_all_or_nothing_refused :
    ∃ e t, ((runCd ["d"]).startedIn {}).Comes
        [⟨.currentDirectory, .ok (Text.encode "/")⟩,
          ⟨.changeDirectory (Text.encode "/d"), .error .noEntry⟩] (.done (.error e, t)) ∧
      Untouched {} [⟨.currentDirectory, .ok (Text.encode "/")⟩,
        ⟨.changeDirectory (Text.encode "/d"), .error .noEntry⟩] t := by
  obtain ⟨⟨r, t⟩, hrun, hr⟩ := Host.Program.comes_of_endsIn
    (show ((runCd ["d"]).startedIn {}).endsIn (fun b => !b.1.isOk)
      [⟨.currentDirectory, .ok (Text.encode "/")⟩,
        ⟨.changeDirectory (Text.encode "/d"), .error .noEntry⟩] = true by decide +kernel)
  cases r with
  | ok u => cases hr
  | error e =>
      refine ⟨e, t, hrun, (runCd_all_or_nothing hrun).mpr (not_failsLate_of_stationary ?_)⟩
      simp only [List.mem_cons, List.not_mem_nil, or_false, forall_eq_or_imp, forall_eq]
      exact ⟨.asked _, .refused _ _⟩

/-! ## A read-only `OLDPWD` -/

/-- A shell in the root for which `OLDPWD` is read-only. -/
def locked : Shell :=
  { «variables» := {
      bindings := .ofList [("OLDPWD", { readOnly := true }), ("PWD", { value := some "/" })] } }

/-- A process in the root. -/
def visitor : Host.Process Unit := { pid := 100, parent := 1, group := 100, program := .done () }

/-- Its machine. The root holds one directory. -/
def building : Host.Machine Unit :=
  { files := (({} : Host.Files).make 0 (Text.encode "d") (.directory [] 0) 0o755).1
    processes := [visitor]
    boot := fun _ _ => .done () }

theorem perform_building : building.perform visitor (.changeDirectory (Text.encode "/d")) =
    .now { building with processes := [{ visitor with directory := 1 }] } (.ok ()) := by
  have hwalk : building.files.walk true Host.Files.linkLimit 0 [Text.encode "d"] = .ok (.found 1) := by
    rw [Host.Files.walk]
    rfl
  have hlocate : building.files.locate 0 (Text.encode "/d") true = .ok (.found 1) := by
    change (building.files.walk true Host.Files.linkLimit 0 [Text.encode "d"] >>= _) = _
    rw [hwalk]
    rfl
  have hdirectory : building.directoryAt visitor (Text.encode "/d") = .ok 1 := by
    change ((building.files.locate 0 (Text.encode "/d") true >>= _) >>= _) = _
    rw [hlocate]
    rfl
  simp only [Host.Machine.perform, hdirectory]
  rfl

/-- The directory is changed before it turns out that `OLDPWD` cannot be told. -/
theorem not_runCd_untouched :
    ¬ ∀ (args : List Text) (s t : Shell) (es : List Event) (e : Stop),
      ((runCd args).startedIn s).Comes es (.done (.error e, t)) → Untouched s es t := by
  intro hall
  obtain ⟨⟨r, t⟩, hrun, hr⟩ := Host.Program.comes_of_endsIn
    (show ((runCd ["d"]).startedIn locked).endsIn (fun b => !b.1.isOk)
      [Host.moving (Text.encode "/d")] = true by decide +kernel)
  cases r with
  | ok u => cases hr
  | error e =>
      have htakes : (Host.Machine.besideOthers 100).Takes building [Host.moving (Text.encode "/d")]
          { building with processes := [{ visitor with directory := 1 }] } :=
        .call .refl ⟨visitor, rfl, .inl perform_building⟩ (.idle .refl)
      have hsame := (hall _ _ _ _ _ hrun).directory htakes
      cases hsame

end Commands

end CommandShell
