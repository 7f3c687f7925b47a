import CommandShell.Execution.CommandPath
import CommandShell.Proofs.Lockstep

/-!
# Lockstep of what works on the state
-/

namespace CommandShell.Shell

open Host (Call Reply)
open Host.Program (Follows)

/-- The invariant outlives the changes that the shell makes to variables, frames and remembered
paths. Values are given with the flag that `allexport` asks for, by `export` or by `readonly`. -/
class Likeness.Kept (L : Likeness) : Prop where
  assignWith : ∀ {all : Bool} {vs vs' : Variables} {ps : Table Text} {name : Text}
    {value : Option Text} {exported readOnly : Bool}, L.inv all vs.bindings vs.frames ps →
    exported = all ∨ exported = true ∨ readOnly = true →
    vs.assignWith name value exported readOnly = .ok vs' →
    L.inv all vs'.bindings vs'.frames (if name = "PATH" ∧ value.isSome then .empty else ps)
  unset : ∀ {all : Bool} {vs vs' : Variables} {ps : Table Text} {name : Text},
    L.inv all vs.bindings vs.frames ps → vs.unset name = .ok vs' →
    L.inv all vs'.bindings vs'.frames (if name = "PATH" then .empty else ps)
  exportValue : ∀ {all : Bool} {vs vs' : Variables} {ps : Table Text} {name value : Text},
    L.permits name → L.inv all vs.bindings vs.frames ps → vs.exportValue name value = .ok vs' →
    L.inv all vs'.bindings vs'.frames ps
  shadow : ∀ {all : Bool} {vs vs' : Variables} {ps : Table Text} {name : Text}, L.permits name →
    L.inv all vs.bindings vs.frames ps → vs.shadow name = .ok vs' →
    L.inv all vs'.bindings vs'.frames ps
  openFrame : ∀ {all : Bool} {vs : Variables} {ps : Table Text}, L.inv all vs.bindings vs.frames ps →
    L.inv all vs.bindings ([] :: vs.frames) ps
  closeFrame : ∀ {all : Bool} {vs : Variables} {ps : Table Text},
    L.inv all vs.bindings vs.frames ps → L.inv all vs.closeFrame.bindings vs.closeFrame.frames ps
  forget : ∀ {all : Bool} {bs : Table Variable} {fs : List (List Shadowed)} {ps ps' : Table Text},
    L.inv all bs fs ps → ps'.toList ⊆ ps.toList → L.inv all bs fs ps'
  search : ∀ name, Steady L (searchPath name)
  workingDirectory : L.permits "PWD" ∧ L.permits "OLDPWD"

section

variable {L : Likeness}

instance alike_setStatus (code : Int) : Steady L (setStatus code) :=
  .modify (fun _ _ => rfl) fun _ h => h

instance alike_modifyJobs (f : Jobs → Jobs) : Steady L (modifyJobs f) :=
  .modify (fun _ _ => rfl) fun _ h => h

instance alike_setDispositions (ds : List (Signal × Host.Disposition)) :
    Steady L (setDispositions ds) := by
  have h : ∀ d : Signal × Host.Disposition, Alike L
      (do let _ ← ask (.setDisposition d.1 d.2)) (do let _ ← ask (.setDisposition d.1 d.2)) :=
    fun _ => inferInstance
  exact alike_forM ds

instance alike_refreshSignals : Steady L refreshSignals :=
  .get_bind (fun _ _ => rfl) fun _ => inferInstance

instance alike_writeBytes (fd : Nat) (data : Host.Bytes) : Steady L (writeBytes fd data) := by
  refine .iterate (fun rest => .ite inferInstance (.bind inferInstance fun r => ?_)) _
  cases r with
  | ok n => infer_instance
  | error e => infer_instance

instance alike_write (fd : Nat) (t : Text) : Steady L (write fd t) :=
  alike_writeBytes fd _

instance alike_writeOut (t : Text) : Steady L (writeOut t) := alike_write 1 t

instance alike_writeErr (t : Text) : Steady L (writeErr t) := alike_write 2 t

instance alike_report (message : Text) : Steady L (report message) :=
  .get_bind (fun _ _ => rfl) fun _ => inferInstance

instance alike_reportStop (s : Stop) : Steady L (reportStop s) :=
  .ite inferInstance (.get_bind (fun _ _ => rfl) fun _ => inferInstance)

instance alike_readSome (fd count : Nat) : Steady L (readSome fd count) := by
  refine .iterate (fun _ => .bind inferInstance fun r => ?_) _
  cases r with
  | ok bs => infer_instance
  | error e => infer_instance

instance alike_readAll (fd : Nat) : Steady L (readAll fd) := by
  refine .iterate (fun chunks => .bind inferInstance fun r => ?_) _
  rcases r with e | bs
  · infer_instance
  · cases bs with
    | nil => infer_instance
    | cons b bs => infer_instance

instance alike_duplicateOnto (fd target : Nat) : Steady L (duplicateOnto fd target) :=
  .ite inferInstance inferInstance

instance alike_closeOrFail (fd : Nat) : Steady L (closeOrFail fd) := by
  refine .bind inferInstance fun r => ?_
  cases r with
  | ok u => infer_instance
  | error e => infer_instance

instance alike_openFile (path : Text) (flags : Host.OpenFlags) :
    Steady L (openFile path flags) := by
  unfold openFile
  cases pathBytes? path with
  | some p => infer_instance
  | none => infer_instance

instance alike_statusAt (path? : Option Host.Bytes) (follow : Bool) :
    Steady L (statusAt path? follow) := by
  unfold statusAt
  cases path? with
  | some p => infer_instance
  | none => infer_instance

instance alike_fileStatus (path : Text) (follow : Bool) : Steady L (fileStatus path follow) :=
  alike_statusAt _ follow

instance alike_canAccess (path : Text) (permission : Host.Permission) :
    Steady L (canAccess path permission) := by
  unfold canAccess
  cases pathBytes? path with
  | some p => infer_instance
  | none => infer_instance

instance alike_isRegularFile (path : Text) : Steady L (isRegularFile path) := by
  refine .bind inferInstance fun r => ?_
  cases r with
  | ok st => infer_instance
  | error e => infer_instance

instance alike_isDirectory (path : Text) : Steady L (isDirectory path) := by
  refine .bind inferInstance fun r => ?_
  cases r with
  | ok st => infer_instance
  | error e => infer_instance

instance alike_isExecutable (path : Text) : Steady L (isExecutable path) :=
  .bind inferInstance fun _ => inferInstance

instance alike_currentDirectory : Steady L currentDirectory :=
  .bind inferInstance fun _ => inferInstance

instance alike_readFile (path : Text) : Steady L (readFile path) := by
  refine .bind inferInstance fun r => ?_
  cases r with
  | ok fd => infer_instance
  | error e => infer_instance

/-! ## Changes of the state -/

/-- A change of the state that may be refused. -/
protected theorem Alike.update {f : Shell → Except Fault Shell}
    (hf : ∀ s on, f (s.withErrexit on) = (f s).map fun t => t.withErrexit on)
    (hi : ∀ s s', L.Holds s → f s = .ok s' → L.Holds s') :
    Steady L (do set (← ofExcept (f (← get)))) :=
  ⟨fun {s t} hst => by
    obtain ⟨hs, ⟨on, rfl⟩, hex⟩ := hst
    show Follows _ _ ((ofExcept (f s) >>= fun s' => set s' : ShellM Unit).run.run s)
      ((ofExcept (f (s.withErrexit on)) >>= fun s' => set s' : ShellM Unit).run.run _)
    rw [hf]
    cases hfs : f s with
    | ok s' =>
        refine .done ⟨rfl, hi s s' hs hfs, ⟨on, rfl⟩, fun h => ?_⟩
        have hself : s.withErrexit on = s := hex h
        have hok := hf s on
        rw [hself, hfs] at hok
        exact (Except.ok.inj hok).symm
    | error e => exact .done ⟨rfl, hs, ⟨on, rfl⟩, hex⟩⟩

/-- A change of the variables that may be refused. -/
protected theorem Alike.updateVariables {f : Variables → Except Fault Variables}
    (h : ∀ {all vs vs' ps}, L.inv all vs.bindings vs.frames ps → f vs = .ok vs' →
      L.inv all vs'.bindings vs'.frames ps) :
    Steady L (updateVariables f) :=
  ⟨fun {s t} hst => by
    obtain ⟨hs, ⟨on, rfl⟩, hex⟩ := hst
    let after : Except Fault Variables → ShellM Unit := fun r => do
      let vs ← ofExcept r
      modify fun sh => { sh with «variables» := vs }
    show Follows _ _ ((after (f s.variables)).run.run s)
      ((after (f s.variables)).run.run (s.withErrexit on))
    cases hfs : f s.variables with
    | ok vs =>
        refine .done ⟨rfl, h hs hfs, ⟨on, rfl⟩, fun hx => ?_⟩
        exact congrArg (fun sh : Shell => { sh with «variables» := vs }) (hex hx)
    | error e => exact .done ⟨rfl, hs, ⟨on, rfl⟩, hex⟩⟩

/-- A change of the variables. -/
protected theorem Alike.modifyVariables {f : Variables → Variables}
    (h : ∀ {all vs ps}, L.inv all vs.bindings vs.frames ps →
      L.inv all (f vs).bindings (f vs).frames ps) :
    Steady L (modifyVariables f) :=
  .modify (fun _ _ => rfl) fun _ hs => h hs

instance alike_withParams (ps : List Text) : Steady L (modifyVariables (·.withParams ps)) :=
  .modifyVariables fun hi => hi

instance alike_findInPath (name path : Text) : Steady L (findInPath name path) := by
  have h : ∀ ps fallback, Steady L (searchAmong fallback ps) := by
    intro ps
    induction ps with
    | nil => exact fun _ => alike_pure _
    | cons p ps ih => exact fun _ => alike_bind
  exact h _ none

/-- A search remembers what it came to, which an invariant that does not show remembered paths
allows. -/
theorem alike_searchPath_of_forget (h : ∀ {all bs fs ps ps'}, L.inv all bs fs ps → L.inv all bs fs ps')
    (name : Text) : Steady L (searchPath name) := by
  refine .get_bind (fun _ _ => rfl) fun s => .bind inferInstance fun r => ?_
  cases r with
  | found path => exact .bind (.modify (fun _ _ => rfl) fun _ hs => h hs) fun _ => inferInstance
  | notExecutable path => infer_instance
  | notFound => infer_instance

end

/-! ## Variables and remembered paths -/

section

variable {L : Likeness} [hL : L.Kept]

theorem assign_withErrexit (s : Shell) (on : Bool) (name value : Text) :
    (s.withErrexit on).assign name value
      = (s.assign name value).map fun t => t.withErrexit on := by
  have hx : (s.withErrexit on).has .allexport = s.has .allexport := rfl
  unfold assign
  rw [hx]
  show Except.map _ (s.variables.assignWith name (some value) (s.has .allexport) false) = _
  cases s.variables.assignWith name (some value) (s.has .allexport) false with
  | ok vs => rfl
  | error f => rfl

theorem unset_withErrexit (s : Shell) (on : Bool) (name : Text) :
    (s.withErrexit on).unset name = (s.unset name).map fun t => t.withErrexit on := by
  unfold unset
  show Except.map _ (s.variables.unset name) = _
  cases s.variables.unset name with
  | ok vs => rfl
  | error f => rfl

theorem Likeness.Holds.assign {s s' : Shell} {name value : Text} (hs : L.Holds s)
    (h : s.assign name value = .ok s') : L.Holds s' := by
  unfold Shell.assign at h
  cases ha : s.variables.assignWith name (some value) (s.has .allexport) false with
  | ok vs =>
      rw [ha] at h
      cases h
      have hk := hL.assignWith hs (.inl rfl) ha
      by_cases hn : name = "PATH"
      · rw [if_pos ⟨hn, rfl⟩] at hk
        show L.inv _ vs.bindings vs.frames (ite _ _ _ : Definitions).paths
        rw [if_pos hn]
        exact hk
      · rw [if_neg fun h => hn h.1] at hk
        show L.inv _ vs.bindings vs.frames (ite _ _ _ : Definitions).paths
        rw [if_neg hn]
        exact hk
  | error f =>
      rw [ha] at h
      cases h

theorem Likeness.Holds.unset {s s' : Shell} {name : Text} (hs : L.Holds s)
    (h : s.unset name = .ok s') : L.Holds s' := by
  unfold Shell.unset at h
  cases hu : s.variables.unset name with
  | ok vs =>
      rw [hu] at h
      cases h
      have hk := hL.unset hs hu
      by_cases hn : name = "PATH"
      · rw [if_pos hn] at hk
        show L.inv _ vs.bindings vs.frames (ite _ _ _ : Definitions).paths
        rw [if_pos hn]
        exact hk
      · rw [if_neg hn] at hk
        show L.inv _ vs.bindings vs.frames (ite _ _ _ : Definitions).paths
        rw [if_neg hn]
        exact hk
  | error f =>
      rw [hu] at h
      cases h

instance alike_assignVariable (name value : Text) : Steady L (assignVariable name value) :=
  .update (fun s on => assign_withErrexit s on name value) fun _ _ hs h => hs.assign h

instance alike_unsetVariable (name : Text) : Steady L (unsetVariable name) :=
  .update (fun s on => unset_withErrexit s on name) fun _ _ hs h => hs.unset h

theorem alike_shadow {name : Text} (h : L.permits name) :
    Steady L (updateVariables (·.shadow name)) :=
  .updateVariables fun hi hv => hL.shadow h hi hv

theorem alike_exportValue {name : Text} (value : Text) (h : L.permits name) :
    Steady L (updateVariables (·.exportValue name value)) :=
  .updateVariables fun hi hv => hL.exportValue h hi hv

instance alike_openFrame : Steady L (modifyVariables Variables.openFrame) :=
  .modifyVariables fun hi => hL.openFrame hi

instance alike_closeFrame : Steady L (modifyVariables Variables.closeFrame) :=
  .modifyVariables fun hi => hL.closeFrame hi

/-- A change of the definitions that remembers no new path. -/
protected theorem Alike.modifyDefinitions {f : Definitions → Definitions}
    (h : ∀ d, (f d).paths.toList ⊆ d.paths.toList) :
    Steady L (modifyDefinitions f) :=
  .modify (fun _ _ => rfl) fun s hs => hL.forget hs (h s.definitions)

attribute [instance] Likeness.Kept.search

instance alike_resolvePath (name : Text) : Steady L (resolvePath name) := by
  refine .ite inferInstance (.get_bind (fun _ _ => rfl) fun s => ?_)
  cases s.definitions.paths.get? name with
  | some path => infer_instance
  | none => infer_instance

end

end CommandShell.Shell
