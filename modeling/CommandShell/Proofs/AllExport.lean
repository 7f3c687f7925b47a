import CommandShell.Proofs.Lockstep.Constructs
import CommandShell.Proofs.ReadOnly
import CommandShell.Proofs.Scopes.Constructs

/-!
# The option to export everything

With `allexport` on, whatever a construct gives a value is exported. `ExportsAssignments` goes through the
constructs that assign: assignment words, `for`, `read`, `${name:=word}`, arithmetic expressions,
assignments in front of a command, and the operands of `export` and `local`. `Exporting` follows the way
they are put together.

`readonly name=value` gives a value with its own flag only (`not_allexport_reaches_assignments`). But for
this, a run in which `set` does not turn the option off keeps no value from commands that was not kept from
them before: neither in a variable nor in a frame that remembers one, at both ends of every command in it
and when it ends (`ExposesAll`). A watch that gives up for such a value never does.
-/

namespace CommandShell

open Host (Event Program abandonCode)
open Host.Program (Comes Outcome)

namespace Variables

variable {vs vs' : Variables} {name value : Text}

/-- A name has a value and the export flag. -/
def Exports (vs : Variables) (name value : Text) : Prop :=
  ∃ v, vs.get? name = some v ∧ v.value = some value ∧ v.exported = true

/-- A name has some value and the export flag. -/
def IsExported (vs : Variables) (name : Text) : Prop := ∃ value, vs.Exports name value

theorem IsExported.of_get?_eq (h : vs.IsExported name) (heq : vs'.get? name = vs.get? name) :
    vs'.IsExported name := by
  obtain ⟨value, v, hv, hvalue⟩ := h
  exact ⟨value, v, heq.trans hv, hvalue⟩

/-- What a name is bound to when it was given a value, flags, or both. -/
theorem get?_of_assignWith {new : Option Text} {exported readOnly : Bool}
    (h : vs.assignWith name new exported readOnly = .ok vs') :
    vs'.get? name = some
      { value := new.or ((vs.get? name).getD {}).value
        exported := ((vs.get? name).getD {}).exported || exported
        readOnly := ((vs.get? name).getD {}).readOnly || readOnly } ∧
      ∀ other, other ≠ name → vs'.get? other = vs.get? other := by
  unfold assignWith at h
  dsimp only at h
  split at h
  · cases h
  · cases h
    exact ⟨Table.get?_insert_self _ _ _, fun other hother => Table.get?_insert_of_ne hother _ _⟩

theorem exports_of_assignWith {readOnly : Bool}
    (h : vs.assignWith name (some value) true readOnly = .ok vs') : vs'.Exports name value :=
  ⟨_, (get?_of_assignWith h).1, rfl, Bool.or_true _⟩

/-- No value and no flag that a name is given takes the export flag off. -/
theorem IsExported.of_assignWith {other : Text} {new : Option Text} {exported readOnly : Bool}
    (hs : vs.IsExported other) (h : vs.assignWith name new exported readOnly = .ok vs') :
    vs'.IsExported other := by
  obtain ⟨hself, hothers⟩ := get?_of_assignWith h
  by_cases hname : other = name
  · subst hname
    obtain ⟨value, v, hv, hvalue, hexported⟩ := hs
    rw [hv] at hself
    refine ⟨new.getD value, _, hself, ?_, ?_⟩
    · show new.or v.value = some (new.getD value)
      rw [hvalue]
      cases new <;> rfl
    · show (v.exported || exported) = true
      rw [hexported, Bool.true_or]
  · exact hs.of_get?_eq (hothers other hname)

/-! ## Values that are kept from commands -/

/-- A variable that has a value, and is neither exported nor read-only. -/
structure Private (value : Text) (v : Variable) : Prop where
  value : v.value = some value
  exported : v.exported = false
  readOnly : v.readOnly = false

/-- A name is bound to such a variable, or an open frame remembers that it was. -/
inductive Withheld (bindings : Table Variable) (frames : List (List Shadowed)) (name value : Text) :
    Prop where
  | bound {v : Variable} (hbound : bindings.get? name = some v) (h : Private value v)
  | remembered {frame : List Shadowed} {s : Shadowed} {v : Variable} (hframe : frame ∈ frames)
      (hs : s ∈ frame) (hname : s.name = name) (hprior : s.prior = some v) (h : Private value v)

/-- What variables and their frames keep from commands. -/
abbrev Withholds (vs : Variables) (name value : Text) : Prop :=
  Withheld vs.bindings vs.frames name value

/-- A change that leaves the frames alone has to withhold no more by the binding only. -/
theorem Withholds.of_frames_eq (h : vs'.Withholds name value) (hframes : vs'.frames = vs.frames)
    (hbound : ∀ v, vs'.get? name = some v → Private value v → vs.Withholds name value) :
    vs.Withholds name value := by
  cases h with
  | bound hv h => exact hbound _ hv h
  | remembered hframe hs hname hprior h => exact .remembered (hframes ▸ hframe) hs hname hprior h

/-- A variable that comes with a flag is not withheld. -/
theorem Withholds.of_assignWith {x : Text} {new : Option Text} {exported readOnly : Bool}
    (h : vs'.Withholds name value) (hc : vs.assignWith x new exported readOnly = .ok vs')
    (hflag : exported = true ∨ readOnly = true) : vs.Withholds name value := by
  obtain ⟨hself, hothers⟩ := get?_of_assignWith hc
  refine h.of_frames_eq (Shell.Variables.assignWith_ok hc).1 fun v hv hprivate => ?_
  by_cases hname : name = x
  · subst hname
    cases hself.symm.trans hv
    -- a private variable has neither flag, so it is not the one that was given one
    have hexported := (Bool.or_eq_false_iff.mp hprivate.exported).2
    have hreadOnly := (Bool.or_eq_false_iff.mp hprivate.readOnly).2
    rcases hflag with rfl | rfl
    · cases hexported
    · cases hreadOnly
  · exact .bound ((hothers name hname).symm.trans hv) hprivate

theorem Withholds.of_unset {x : Text} (h : vs'.Withholds name value) (hc : vs.unset x = .ok vs') :
    vs.Withholds name value := by
  unfold Variables.unset at hc
  split at hc
  · cases hc
  · cases hc
    refine h.of_frames_eq rfl fun v hv hprivate => ?_
    by_cases hname : name = x
    · subst hname
      cases (Table.get?_erase_self _ _).symm.trans hv
    · exact .bound ((Table.get?_erase_of_ne hname _).symm.trans hv) hprivate

/-- A frame remembers what the name is bound to. -/
theorem Withholds.of_shadow {x : Text} (h : vs'.Withholds name value) (hc : vs.shadow x = .ok vs') :
    vs.Withholds name value := by
  unfold Variables.shadow at hc
  split at hc
  · cases hc
  · rename_i frame rest hframes
    split at hc
    · cases hc
      exact h
    · cases hc
      cases h with
      | bound hv h => exact .bound hv h
      | remembered hframe hs hname hprior h =>
          rcases List.mem_cons.mp hframe with rfl | hrest
          · rcases List.mem_cons.mp hs with rfl | hs
            -- what the frame has come to remember is what the name is bound to
            · exact .bound (hname ▸ hprior) h
            · exact .remembered (hframes ▸ List.mem_cons_self) hs hname hprior h
          · exact .remembered (hframes ▸ List.mem_cons_of_mem _ hrest) hs hname hprior h

theorem Withholds.of_openFrame (h : vs.openFrame.Withholds name value) :
    vs.Withholds name value := by
  cases h with
  | bound hv h => exact .bound hv h
  | remembered hframe hs hname hprior h =>
      rcases List.mem_cons.mp hframe with rfl | hrest
      · cases hs
      · exact .remembered hrest hs hname hprior h

/-- What closing a frame puts back was remembered before. -/
theorem Withholds.of_closeFrame (h : vs.closeFrame.Withholds name value) :
    vs.Withholds name value := by
  cases hframes : vs.frames with
  | nil =>
      unfold closeFrame at h
      rw [hframes] at h
      exact h
  | cons frame rest =>
      have hnested : Nested rest 0 frame vs := ⟨[], hframes, rfl⟩
      obtain ⟨hrest, hget⟩ := hnested.closeFrame
      cases h with
      | bound hv h =>
          replace hv := (hget name).symm.trans hv
          cases hprior : prior? name frame with
          | none =>
              -- the frame says nothing about the name, which keeps what it is bound to
              rw [hprior] at hv
              exact .bound hv h
          | some b =>
              rw [hprior] at hv
              obtain ⟨s, hs, hname, rfl⟩ := exists_of_prior? hprior
              exact .remembered (hframes ▸ List.mem_cons_self) hs hname hv h
      | remembered hframe hs hname hprior h =>
          rw [hrest] at hframe
          exact .remembered (hframes ▸ List.mem_cons_of_mem _ hframe) hs hname hprior h

end Variables

namespace Shell

open Commands
open Expansion
open Script (Node Word Part)

variable {s t u : Shell} {α β : Type} {ev : Evaluator} {name value : Text}

/-! ## Computations that export -/

/-- Whenever the computation comes to a value, `Q` holds of that and of the state that is left. -/
def Secures (x : ShellM α) (s : Shell) (Q : α → Shell → Prop) : Prop :=
  (x.startedIn s).Always fun r => ∀ a, r.1 = .ok a → Q a r.2

namespace Secures

variable {P P' : α → Shell → Prop} {Q : β → Shell → Prop} {x : ShellM α} {f : α → ShellM β}

protected theorem mono (h : Secures x s P) (hP : ∀ a t, P a t → P' a t) : Secures x s P' :=
  Host.Program.Always.mono (fun r hr a ha => hP a r.2 (hr a ha)) h

protected theorem and (h : Secures x s P) (h' : Secures x s P') :
    Secures x s fun a t => P a t ∧ P' a t :=
  Host.Program.Always.mono (fun _ hr a ha => ⟨hr.1 a ha, hr.2 a ha⟩)
    (Host.Program.Always.and (p := x.startedIn s) h h')

protected theorem pure {a : α} (h : P a s) : Secures (pure a) s P := by
  intro b hb
  cases hb
  exact h

protected theorem throw {e : Stop} : Secures (throw e : ShellM α) s P := by
  intro b hb
  cases hb

protected theorem bind (hx : Secures x s P) (hf : ∀ a t, P a t → Secures (f a) t Q) :
    Secures (x >>= f) s Q := by
  show ((x.startedIn s).bind _).Always _
  rw [Host.Program.always_bind]
  refine Host.Program.Always.mono ?_ hx
  rintro ⟨r, t⟩ hr
  cases r with
  | ok a => exact hf a t (hr a rfl)
  | error e => exact Secures.throw (s := t)

theorem of_keeps {R : Bond} (x : ShellM α) [hx : Keeps R x] (s : Shell) : Secures x s fun _ t => R s t :=
  (hx.always s).mono fun _ hr _ _ => hr

theorem of_yields {P : α → Prop} (hx : Yields P x) (s : Shell) : Secures x s fun a _ => P a := hx s

end Secures

/-- The option is still on, every name is bound as before or has the export flag, and what was exported
still is. -/
structure ExportsChanges (s t : Shell) : Prop where
  allexport : t.has .allexport = true
  changed : ∀ name, t.variables.get? name = s.variables.get? name ∨
    ∃ v, t.variables.get? name = some v ∧ v.exported = true
  kept : ∀ name, s.variables.IsExported name → t.variables.IsExported name

namespace ExportsChanges

theorem of_variables_eq (hon : s.has .allexport = true) (hoptions : t.options = s.options)
    (hvariables : t.variables = s.variables) : ExportsChanges s t where
  allexport := (congrArg (fun os => os.has .allexport) hoptions).trans hon
  changed name := .inl (congrArg (fun vs => vs.get? name) hvariables)
  kept _ h := hvariables ▸ h

theorem refl (hon : s.has .allexport = true) : ExportsChanges s s := of_variables_eq hon rfl rfl

theorem trans (h : ExportsChanges s t) (h' : ExportsChanges t u) : ExportsChanges s u := by
  refine ⟨h'.allexport, fun name => ?_, fun name hname => h'.kept name (h.kept name hname)⟩
  rcases h'.changed name with hname | hname
  · rw [hname]
    exact h.changed name
  · exact .inr hname

end ExportsChanges

/-- What computations keep that export whatever they change, if the option is on. -/
def exportsChanges : Bond where
  holds s t := s.has .allexport = true → ExportsChanges s t
  refl _ hon := .refl hon
  trans h h' hon := (h hon).trans (h' (h hon).allexport)

/-- What computations keep that leave the export flag on what has it. -/
def stillExported : Bond where
  holds s t := ∀ name, s.variables.IsExported name → t.variables.IsExported name
  refl _ _ h := h
  trans h h' name hname := h' name (h name hname)

theorem assign_eq_ok (h : s.assign name value = .ok t) :
    t.options = s.options ∧
      s.variables.assignWith name (some value) (s.has .allexport) false = .ok t.variables := by
  unfold Shell.assign at h
  cases hvs : s.variables.assignWith name (some value) (s.has .allexport) false with
  | error e =>
      rw [hvs] at h
      cases h
  | ok vs =>
      rw [hvs] at h
      cases h
      exact ⟨rfl, rfl⟩

/-- A variable was given the export flag, and perhaps a value. -/
theorem exportsChanges_of_assignWith {new : Option Text} {readOnly : Bool} (hon : s.has .allexport = true)
    (hoptions : t.options = s.options)
    (h : s.variables.assignWith name new true readOnly = .ok t.variables) : ExportsChanges s t := by
  obtain ⟨hself, hothers⟩ := Variables.get?_of_assignWith h
  refine ⟨(congrArg (fun os => os.has .allexport) hoptions).trans hon, fun other => ?_,
    fun other hother => hother.of_assignWith h⟩
  by_cases hname : other = name
  · subst hname
    exact .inr ⟨_, hself, Bool.or_true _⟩
  · exact .inl (hothers other hname)

/-- With the option on, a variable that is assigned to is exported. -/
theorem exports_of_assign (hon : s.has .allexport = true) (h : s.assign name value = .ok t) :
    t.variables.Exports name value ∧ ExportsChanges s t := by
  obtain ⟨hoptions, hvs⟩ := assign_eq_ok h
  rw [hon] at hvs
  exact ⟨Variables.exports_of_assignWith hvs, exportsChanges_of_assignWith hon hoptions hvs⟩

instance keptByExpansions_exportsChanges : KeptByExpansions exportsChanges where
  assign h hon := (exports_of_assign hon h).2
  substituted _ _ hon := .of_variables_eq hon rfl rfl

/-- A change of the state that neither variables nor options show. -/
theorem keeps_exportsChanges_modify {f : Shell → Shell} (hvariables : ∀ s, (f s).variables = s.variables)
    (hoptions : ∀ s, (f s).options = s.options) : Keeps exportsChanges (modify f : ShellM Unit) :=
  ⟨fun s hon => .of_variables_eq hon (hoptions s) (hvariables s)⟩

instance keeps_exportsChanges_setStatus (code : Int) : Keeps exportsChanges (setStatus code) :=
  keeps_exportsChanges_modify (fun _ => rfl) fun _ => rfl

instance keeps_exportsChanges_modifyDefinitions (f : Definitions → Definitions) :
    Keeps exportsChanges (modifyDefinitions f) :=
  keeps_exportsChanges_modify (fun _ => rfl) fun _ => rfl

theorem secures_assignVariable (hon : s.has .allexport = true) :
    Secures (assignVariable name value) s fun _ t =>
      t.variables.Exports name value ∧ ExportsChanges s t := by
  show ((ofExcept (s.assign name value) >>= fun t => set t : ShellM Unit).startedIn s).Always _
  cases h : s.assign name value with
  | error e => exact fun _ => nofun
  | ok t => exact fun _ _ => exports_of_assign hon h

/-- With the option on, whenever the computation comes to a value it leaves the names exported of which
`named` holds, and every other name bound as before or with the flag. -/
def Exporting (x : ShellM α) (named : Text → Prop) : Prop :=
  ∀ s : Shell, s.has .allexport = true →
    Secures x s fun _ t => ExportsChanges s t ∧ ∀ name, named name → t.variables.IsExported name

namespace Exporting

variable {A B : Text → Prop} {x : ShellM α} {f : α → ShellM β}

protected theorem mono (h : Exporting x A) (hA : ∀ name, B name → A name) : Exporting x B :=
  fun s hon => (h s hon).mono fun _ _ ht => ⟨ht.1, fun name hname => ht.2 name (hA name hname)⟩

theorem of_keeps (x : ShellM α) [Keeps exportsChanges x] : Exporting x fun _ => False :=
  fun s hon => (Secures.of_keeps (R := exportsChanges) x s).mono fun _ _ ht => ⟨ht hon, fun _ => False.elim⟩

/-- What the first part exported the second one leaves exported. -/
protected theorem bind_of {P : α → Prop} (hx : Exporting x A) (hP : Yields P x)
    (hf : ∀ a, P a → Exporting (f a) B) : Exporting (x >>= f) fun name => A name ∨ B name := by
  intro s hon
  refine ((hx s hon).and (.of_yields hP s)).bind ?_
  rintro a t ⟨⟨hst, hA⟩, ha⟩
  refine (hf a ha t hst.allexport).mono ?_
  rintro b u ⟨htu, hB⟩
  refine ⟨hst.trans htu, fun name hname => ?_⟩
  rcases hname with hname | hname
  · exact htu.kept name (hA name hname)
  · exact hB name hname

protected theorem bind (hx : Exporting x A) (hf : ∀ a, Exporting (f a) B) :
    Exporting (x >>= f) fun name => A name ∨ B name :=
  hx.bind_of (P := fun _ => True) (fun _ => Host.Program.always_of (fun _ _ _ => trivial) _)
    fun a _ => hf a

/-- A computation that goes before leaves what the rest exports. -/
protected theorem after (x : ShellM α) [Keeps exportsChanges x] (hf : ∀ a, Exporting (f a) B) :
    Exporting (x >>= f) B := ((of_keeps x).bind hf).mono fun _ => .inr

/-- A computation that comes after does, too. -/
protected theorem before (hx : Exporting x A) (f : α → ShellM β) [∀ a, Keeps exportsChanges (f a)] :
    Exporting (x >>= f) A := (hx.bind fun a => of_keeps (f a)).mono fun _ => .inl

/-- A computation that goes through a list exports what its steps do. -/
protected theorem each {f : List β → ShellM Unit} {g : β → ShellM Unit} {named : β → Text → Prop}
    (hnil : f [] = pure ()) (hcons : ∀ b bs, f (b :: bs) = g b >>= fun _ => f bs)
    (h : ∀ b, Exporting (g b) (named b)) (bs : List β) :
    Exporting (f bs) fun name => ∃ b ∈ bs, named b name := by
  induction bs with
  | nil =>
      rw [hnil]
      exact (of_keeps (pure ())).mono fun _ ⟨_, hb, _⟩ => absurd hb List.not_mem_nil
  | cons b bs ih =>
      rw [hcons]
      refine ((h b).bind fun _ => ih).mono fun name ⟨b', hb', hname⟩ => ?_
      rcases List.mem_cons.mp hb' with rfl | hb'
      · exact .inl hname
      · exact .inr ⟨b', hb', hname⟩

theorem assignVariable (name value : Text) : Exporting (assignVariable name value) (· = name) := by
  intro s hon
  refine (secures_assignVariable hon).mono fun _ t ht => ⟨ht.2, ?_⟩
  rintro _ rfl
  exact ⟨value, ht.1⟩

/-- Variables that are given a value with the export flag, whatever the option says. -/
theorem updateVariables (name value : Text) :
    Exporting (updateVariables (·.exportValue name value)) (· = name) := by
  intro s hon
  show ((Shell.updateVariables (·.exportValue name value)).startedIn s).Always _
  rw [Variables.startedIn_updateVariables]
  cases h : s.variables.exportValue name value with
  | error e => exact fun _ => nofun
  | ok vs =>
      rintro a -
      refine ⟨exportsChanges_of_assignWith hon rfl h, ?_⟩
      rintro _ rfl
      exact ⟨value, Variables.exports_of_assignWith h⟩

end Exporting

/-! ## Constructs that assign -/

/-- Makes one assignment. -/
def assignWord (ev : Evaluator) (w : Word) : ShellM Unit := do
  let (name, value) ← assignment ev w
  trace [(name, value)] []
  assignVariable name value

/-- An assignment word is expanded and shown before it is made. -/
theorem exporting_assignWords (ws : List Word) :
    Exporting (assignWords ev ws) fun name => ∃ w ∈ ws, w.assignedName? = some name := by
  have hcons : ∀ w ws, assignWords ev (w :: ws) = assignWord ev w >>= fun _ => assignWords ev ws := by
    intro w ws
    simp only [assignWord, assignWords, bind_assoc]
  refine .each rfl hcons (fun w => ?_) ws
  refine ((Exporting.of_keeps (assignment ev w)).bind_of (assignment_named ev w)
    (B := fun name => w.assignedName? = some name) ?_).mono fun _ => .inr
  rintro ⟨name, value⟩ hw
  refine .after (trace [(name, value)] []) fun _ => (Exporting.assignVariable name value).mono ?_
  exact fun other hother => Option.some.inj (hother.symm.trans hw)

theorem exporting_assignFields (names fields : List Text) :
    Exporting (assignFields names fields) (· ∈ names) := by
  induction names generalizing fields with
  | nil => exact (Exporting.of_keeps (pure ())).mono fun _ h => absurd h List.not_mem_nil
  | cons name names ih =>
      exact ((Exporting.assignVariable name _).bind fun _ => ih _).mono fun _ => List.mem_cons.mp

theorem exporting_assignAll (assigned : List (Text × Text)) :
    Exporting (assignAll assigned) fun name => ∃ a ∈ assigned, name = a.1 := by
  have hcons : ∀ a rest, assignAll (a :: rest) = assignVariable a.1 a.2 >>= fun _ => assignAll rest :=
    fun ⟨_, _⟩ _ => rfl
  exact .each rfl hcons (fun a => .assignVariable a.1 a.2) assigned

theorem exporting_exportAll (assigned : List (Text × Text)) :
    Exporting (exportAll assigned) fun name => ∃ a ∈ assigned, name = a.1 := by
  have hcons : ∀ a rest, exportAll (a :: rest) = updateVariables (·.exportValue a.1 a.2) >>= fun _ =>
      exportAll rest := fun ⟨_, _⟩ _ => rfl
  exact .each rfl hcons (fun a => .updateVariables a.1 a.2) assigned

/-- Shadowing a name leaves all names bound as they are. -/
instance keeps_exportsChanges_shadow (name : Text) :
    Keeps exportsChanges (updateVariables (·.shadow name)) := by
  refine .updateVariables fun s vs h hon => ?_
  have hget : ∀ other, vs.get? other = s.variables.get? other := by
    intro other
    unfold Variables.shadow at h
    split at h
    · cases h
    · split at h
      · cases h
        rfl
      · cases h
        rfl
  exact ⟨hon, fun other => .inl (hget other), fun other hother => hother.of_get?_eq (hget other)⟩

theorem exporting_shadowAll (assigned : List (Text × Text)) :
    Exporting (shadowAll assigned) fun name => ∃ a ∈ assigned, name = a.1 := by
  have hcons : ∀ a rest, shadowAll (a :: rest) = (do
      updateVariables (·.shadow a.1)
      updateVariables (·.exportValue a.1 a.2)) >>= fun _ => shadowAll rest := by
    rintro ⟨name, value⟩ rest
    rw [bind_assoc]
    rfl
  exact .each rfl hcons (fun a => .after _ fun _ => .updateVariables a.1 a.2) assigned

theorem exporting_declareOperand (arg : Text) :
    Exporting (declareOperand .exported arg) fun name => ∃ value, splitOperand arg = (name, some value) := by
  unfold declareOperand
  obtain ⟨name, new⟩ := splitOperand arg
  dsimp only
  have hforget : Keeps exportsChanges (if (name = "PATH" && new.isSome) = true then
      modifyDefinitions (·.forgetAll) else pure () : ShellM Unit) := inferInstance
  have hgive : Exporting (updateVariables (·.assignWith name new true false)) fun other =>
      ∃ value, (name, new) = (other, some value) := by
    cases new with
    | some value =>
        exact (Exporting.updateVariables name value).mono fun other ⟨_, h⟩ => (congrArg Prod.fst h).symm
    | none =>
        have hflag : Keeps exportsChanges (updateVariables (·.assignWith name none true false)) :=
          .updateVariables fun s vs h hon => exportsChanges_of_assignWith hon rfl h
        exact (Exporting.of_keeps _).mono nofun
  split
  · exact fun s _ => Secures.throw
  · exact hgive.before _

theorem exporting_localOperand (arg : Text) :
    Exporting (localOperand arg) fun name => ∃ value, splitOperand arg = (name, some value) := by
  unfold localOperand
  obtain ⟨name, new⟩ := splitOperand arg
  dsimp only
  split
  · exact fun s _ => Secures.throw
  · cases new with
    | some value =>
        refine Exporting.after _ fun _ => (Exporting.assignVariable name value).mono ?_
        exact fun other ⟨_, h⟩ => (congrArg Prod.fst h).symm
    | none => exact Exporting.after _ fun _ => (Exporting.of_keeps (pure ())).mono nofun

/-- The names that operands give a value. -/
def GivesValue (operands : List Text) (name : Text) : Prop :=
  ∃ arg ∈ operands, ∃ value, splitOperand arg = (name, some value)

theorem exporting_runDeclare {args operands : List Text} {opts : List Char}
    (h : Builtin.takeOptions "p" args = .ok (opts, operands)) :
    Exporting (runDeclare .exported args) (GivesValue operands) := by
  have heach : Exporting (operands.forM (declareOperand .exported)) (GivesValue operands) :=
    .each (f := (List.forM · (declareOperand .exported))) rfl (fun _ _ => rfl) exporting_declareOperand
      operands
  unfold runDeclare
  rw [h]
  show Exporting (if operands.isEmpty = true then _ else
    operands.forM (declareOperand .exported) >>= fun _ => setStatus 0) _
  split
  · rename_i hempty
    refine (Exporting.of_keeps _).mono fun name ⟨arg, harg, _⟩ => ?_
    rw [List.isEmpty_iff.mp hempty] at harg
    cases harg
  · exact heach.before _

theorem exporting_runLocal (args : List Text) : Exporting (runLocal args) (GivesValue args) := by
  have heach : Exporting (args.forM localOperand) (GivesValue args) :=
    .each (f := (List.forM · localOperand)) rfl (fun _ _ => rfl) exporting_localOperand args
  unfold runLocal
  refine .after get fun sh => ?_
  split
  · exact fun s _ => Secures.throw
  · exact heach.before _

/-- The names that `read` gives fields to. -/
def readNames (args : List Text) : List Text :=
  match readOptions false none (args.length + 1) args with
  | .ok (_, _, operands) => if operands.isEmpty then ["REPLY"] else operands
  | .error _ => []

/-- A computation that goes before one that exports what it says under some condition. -/
theorem Secures.after {N : Shell → Prop} (x : ShellM α) [hx : Keeps exportsChanges x] {f : α → ShellM β}
    (hon : s.has .allexport = true) (hf : ∀ a t, t.has .allexport = true →
      Secures (f a) t fun _ u => ExportsChanges t u ∧ N u) :
    Secures (x >>= f) s fun _ u => ExportsChanges s u ∧ N u := by
  refine (Secures.of_keeps (R := exportsChanges) x s).bind fun a t hst => ?_
  exact (hf a t (hst hon).allexport).mono fun _ u hu => ⟨(hst hon).trans hu.1, hu.2⟩

/-- Assigns what was read to names. -/
def assignRead (names : List Text) : List InputByte × LineEnd → ShellM Unit
  | (_, .interrupted) => do setStatus (128 + (((← peekPending?).getD .int).number : Int))
  | (line, lineEnd) => do
    let ifs := Text.utf8 (((← get).value? "IFS").getD " \t\n")
    assignFields names (splitLine ifs names.length line)
    setStatus (if lineEnd = .endOfInput then 1 else 0)

/-- A line that was read is assigned, and one that a signal broke off is not, which the status tells. -/
theorem secures_assignRead (names : List Text) (r : List InputByte × LineEnd)
    (hon : s.has .allexport = true) :
    Secures (assignRead names r) s fun _ t => ExportsChanges s t ∧ (t.status = 0 ∨ t.status = 1 →
      ∀ name ∈ names, t.variables.IsExported name) := by
  obtain ⟨line, lineEnd⟩ := r
  have hfields := Exporting.after get fun sh => (exporting_assignFields names
    (splitLine (Text.utf8 ((sh.value? "IFS").getD " \t\n")) names.length line)).before
      fun _ => setStatus (if lineEnd = .endOfInput then 1 else 0)
  cases lineEnd with
  | interrupted =>
      refine .after peekPending? hon fun signal t hont => ?_
      rintro a -
      -- the status is that of a signal, so nothing is said of the names
      refine ⟨.of_variables_eq hont rfl rfl, fun hstatus => ?_⟩
      replace hstatus : (128 + ((signal.getD .int).number : Int) = 0) ∨
        (128 + ((signal.getD .int).number : Int) = 1) := hstatus
      omega
  | newline => exact (hfields s hon).mono fun _ _ ht => ⟨ht.1, fun _ => ht.2⟩
  | endOfInput => exact (hfields s hon).mono fun _ _ ht => ⟨ht.1, fun _ => ht.2⟩

theorem secures_runRead (args : List Text) (hon : s.has .allexport = true) :
    Secures (Commands.runRead args) s fun _ t => ExportsChanges s t ∧ (t.status = 0 ∨ t.status = 1 →
      ∀ name ∈ readNames args, t.variables.IsExported name) := by
  unfold readNames Commands.runRead
  cases h : readOptions false none (args.length + 1) args with
  | error f => exact Secures.throw
  | ok r =>
      obtain ⟨raw, prompt, operands⟩ := r
      dsimp only
      generalize hnames : (if operands.isEmpty then ["REPLY"] else operands : List Text) = names
      -- the options are read without a change of the state
      refine Secures.bind (P := fun r t => r = (raw, prompt, operands) ∧ t = s) ?_ ?_
      · rintro _ ⟨⟩
        exact ⟨rfl, rfl⟩
      · rintro _ s ⟨rfl, rfl⟩
        dsimp only
        rw [hnames]
        split
        · exact Secures.throw
        · have hline : ∀ t : Shell, t.has .allexport = true → Secures (Commands.readLine raw >>=
              assignRead names) t fun _ u => ExportsChanges t u ∧ (u.status = 0 ∨ u.status = 1 →
              ∀ name ∈ names, u.variables.IsExported name) :=
            fun t hont => .after (Commands.readLine raw) hont fun r u honu => secures_assignRead names r honu
          cases prompt with
          | none => exact hline s hon
          | some text =>
              refine .after (ask (.isTerminal 0)) hon fun terminal t hont => ?_
              split
              · exact .after (writeErr text) hont fun _ u honu => hline u honu
              · exact hline t hont

/-- `${name=word}` and `${name:=word}` assign unless the parameter can be used as it is. -/
theorem secures_assignParameter (q : Quoting) (colon inQuotes : Bool) (arg : List Part)
    (hon : s.has .allexport = true) :
    Secures (partPieces ev q (.param name .assign colon arg inQuotes)) s fun ps t =>
      (isSet s name && !(colon && ((parameter? s name).getD []).isEmpty)) = true ∧ t = s ∨
      ∃ value quoted, ps = [.substituted value quoted] ∧ t.variables.Exports name value := by
  unfold partPieces expandParameter
  refine Secures.bind (P := fun sh t => sh = s ∧ t = s) (fun _ ha => ?_) ?_
  · cases ha
    exact ⟨rfl, rfl⟩
  · rintro _ _ ⟨rfl, rfl⟩
    dsimp only
    split
    · rename_i husable
      exact .pure (.inl ⟨husable, rfl⟩)
    · split
      · exact Secures.throw
      -- the word after the operator is expanded first, and may assign by itself
      · refine (Secures.of_keeps (R := exportsChanges) (pieces ev .quoted arg) _).bind fun ps t ht => ?_
        refine (secures_assignVariable (ht hon).allexport).bind fun _ u hu => ?_
        exact .pure (.inr ⟨_, _, rfl, hu.1⟩)

theorem run_writeNumber (s : Shell) (name : Text) (n : Arith.Value) :
    (Arith.writeNumber arithmeticAccess name n).run.run s =
      match s.assign name (Text.ofInt n.toInt) with
      | .ok t => (.ok (), t)
      | .error f => (.error f, s) := by
  unfold Arith.writeNumber
  rw [ArithmeticAlike.run_get_bind, show arithmeticAccess.write s name _ = s.assign name _ from rfl]
  cases s.assign name (Text.ofInt n.toInt) with
  | ok t => rfl
  | error f => rfl

/-- The value of an arithmetic assignment. -/
def assignedOperand (name : Text) (op : Option Arith.BinaryOp) (e : Arith.Expr) :
    Arith.Eval Shell Arith.Value := do
  let x ← e.eval arithmeticAccess
  match op with
  | some op => Arith.applyOp op (← Arith.readNumber arithmeticAccess name) x
  | none => pure x

theorem arithmeticAssigns_assignedOperand (name : Text) (op : Option Arith.BinaryOp) (e : Arith.Expr) :
    ArithmeticAssigns (assignedOperand name op e) := by
  refine .bind (.eval e) fun x => ?_
  cases op with
  | some op => exact .bind (.readNumber name) fun y => .applyOp op y x
  | none => exact .pure x

theorem evalAssign_eq (name : Text) (op : Option Arith.BinaryOp) (e : Arith.Expr) :
    (Arith.Expr.assign name op e).eval arithmeticAccess = assignedOperand name op e >>= fun n =>
      Arith.writeNumber arithmeticAccess name n >>= fun _ => pure n := by
  cases op <;> simp only [assignedOperand, Arith.Expr.eval, bind_assoc]

theorem of_run_bind_ok {x : Arith.Eval Shell α} {f : α → Arith.Eval Shell β} {b : β}
    (h : (x >>= f).run.run s = (.ok b, t)) :
    ∃ a u, x.run.run s = (.ok a, u) ∧ (f a).run.run u = (.ok b, t) := by
  replace h : ExceptT.bindCont f (x.run.run s).1 (x.run.run s).2 = (.ok b, t) := h
  generalize x.run.run s = outcome at h
  obtain ⟨r, u⟩ := outcome
  cases r with
  | error f => cases h
  | ok a => exact ⟨a, u, rfl, h⟩

/-- An assignment in an arithmetic expression writes its own value. -/
theorem exports_of_evalAssign {op : Option Arith.BinaryOp} {e : Arith.Expr} {n : Arith.Value}
    (hon : s.has .allexport = true)
    (h : ((Arith.Expr.assign name op e).eval arithmeticAccess).run.run s = (.ok n, t)) :
    t.variables.Exports name (Text.ofInt n.toInt) := by
  rw [evalAssign_eq] at h
  obtain ⟨value, u, hvalue, h⟩ := of_run_bind_ok h
  obtain ⟨⟨⟩, v, hwrite, h⟩ := of_run_bind_ok h
  cases h
  -- the right side may assign, too, and leaves the option on
  have hkeeps := (arithmeticAssigns_assignedOperand name op e).keeps (R := exportsChanges) s hon
  rw [hvalue] at hkeeps
  rw [run_writeNumber] at hwrite
  cases hassign : u.assign name (Text.ofInt n.toInt) with
  | error f =>
      rw [hassign] at hwrite
      cases hwrite
  | ok v =>
      rw [hassign] at hwrite
      cases hwrite
      exact (exports_of_assign hkeeps.allexport hassign).1

/-- What is left of a loop after its body was run for an item. -/
def afterItem (ev : Evaluator) (var : Text) (body : Node) (place : Place) (rest : List Text)
    (r : Except Stop Unit) : ShellM Int := do
  let flow ← loopFlow r
  let status := (← get).status
  if flow = .leave then return status else forItems ev var body place status rest

/-- A round of a `for` loop is refused its item, or runs the body in a state in which it is exported. -/
theorem forItems_cons (var item : Text) (rest : List Text) (body : Node) (place : Place) (status : Int)
    (hon : s.has .allexport = true) :
    (∃ f, (forItems ev var body place status (item :: rest)).startedIn s =
      .done (.error (.ofFault f), s)) ∨
    ∃ t, t.variables.Exports var item ∧ ExportsChanges s t ∧
      (forItems ev var body place status (item :: rest)).startedIn s =
        (attempt (ev.node body place.notLast) >>= afterItem ev var body place rest).startedIn t := by
  show (∃ f, (((ofExcept (s.assign var item) >>= fun t => set t : ShellM Unit) >>= fun _ =>
      attempt (ev.node body place.notLast) >>= afterItem ev var body place rest).startedIn s) =
        .done (.error (.ofFault f), s)) ∨
    ∃ t, t.variables.Exports var item ∧ ExportsChanges s t ∧
      ((ofExcept (s.assign var item) >>= fun t => set t : ShellM Unit) >>= fun _ =>
        attempt (ev.node body place.notLast) >>= afterItem ev var body place rest).startedIn s = _
  cases h : s.assign var item with
  | error f => exact .inl ⟨f, rfl⟩
  | ok t =>
      obtain ⟨hexports, hst⟩ := exports_of_assign hon h
      exact .inr ⟨t, hexports, hst, rfl⟩

/-- With the option on, every construct that assigns leaves the variable exported. -/
structure ExportsAssignments (ev : Evaluator) (s : Shell) : Prop where
  /-- `name=value …` -/
  words : ∀ ws, Secures (assignWords ev ws) s fun _ t => ExportsChanges s t ∧
    ∀ w ∈ ws, ∀ name, w.assignedName? = some name → t.variables.IsExported name
  /-- `for name in item …` -/
  loops : ∀ name item rest body place status,
    (∃ f, (forItems ev name body place status (item :: rest)).startedIn s =
      .done (.error (.ofFault f), s)) ∨
    ∃ t, t.variables.Exports name item ∧ ExportsChanges s t ∧
      (forItems ev name body place status (item :: rest)).startedIn s =
        (attempt (ev.node body place.notLast) >>= afterItem ev name body place rest).startedIn t
  /-- `read name …`, unless a signal broke the line off. -/
  fields : ∀ args, Secures (Commands.runRead args) s fun _ t => ExportsChanges s t ∧
    (t.status = 0 ∨ t.status = 1 → ∀ name ∈ readNames args, t.variables.IsExported name)
  /-- `${name=word}` and `${name:=word}`, unless the parameter is used as it is. -/
  parameters : ∀ q name colon arg inQuotes,
    Secures (partPieces ev q (.param name .assign colon arg inQuotes)) s fun ps t =>
      (isSet s name && !(colon && ((parameter? s name).getD []).isEmpty)) = true ∧ t = s ∨
      ∃ value quoted, ps = [.substituted value quoted] ∧ t.variables.Exports name value
  /-- `$((name=expression))` and compound assignments. -/
  arithmetic : ∀ name op e n t,
    ((Arith.Expr.assign name op e).eval arithmeticAccess).run.run s = (.ok n, t) →
      t.variables.Exports name (Text.ofInt n.toInt)
  /-- What the expansion of words assigns, however it ends. -/
  expansions : ∀ ws, ((arguments ev ws).startedIn s).Always fun r => ExportsChanges s r.2
  /-- `name=value … command`, for functions and built-in commands, special ones, and programs. -/
  inFront : ∀ make ∈ [shadowAll, assignAll, exportAll], ∀ assigned, Secures (make assigned) s fun _ t =>
    ExportsChanges s t ∧ ∀ a ∈ assigned, t.variables.IsExported a.1
  /-- `export name=value …` -/
  exported : ∀ args opts operands, Builtin.takeOptions "p" args = .ok (opts, operands) →
    Secures (runDeclare .exported args) s fun _ t => ExportsChanges s t ∧
      ∀ name, GivesValue operands name → t.variables.IsExported name
  /-- `local name=value …` -/
  locals : ∀ args, Secures (runLocal args) s fun _ t => ExportsChanges s t ∧
    ∀ name, GivesValue args name → t.variables.IsExported name
  /-- `readonly name=value …`, which takes the flag from nothing that has it. -/
  readOnly : ∀ args, ((runDeclare .readOnly args).startedIn s).Always fun r =>
    ∀ name, s.variables.IsExported name → r.2.variables.IsExported name

/-- `readonly` gives a value without the flag, but to what has the flag already. -/
instance keeps_stillExported_runDeclare (args : List Text) :
    Keeps stillExported (runDeclare .readOnly args) := by
  have hforget : Keeps stillExported (modifyDefinitions (·.forgetAll)) := ⟨fun _ _ h => h⟩
  have hstatus : Keeps stillExported (setStatus 0) := ⟨fun _ _ h => h⟩
  have hgive : ∀ name new, Keeps stillExported (updateVariables
      (·.assignWith name new (DeclareFlag.readOnly == .exported) (DeclareFlag.readOnly == .readOnly))) :=
    fun name new => .updateVariables fun s vs h other hother => hother.of_assignWith h
  have hoperand : ∀ arg, Keeps stillExported (declareOperand .readOnly arg) := by
    intro arg
    unfold declareOperand
    obtain ⟨name, new⟩ := splitOperand arg
    infer_instance
  exact keeps_bind

theorem exportsAssignments (ev : Evaluator) (hon : s.has .allexport = true) : ExportsAssignments ev s where
  words ws := (exporting_assignWords ws s hon).mono fun _ _ ht =>
    ⟨ht.1, fun w hw name hname => ht.2 name ⟨w, hw, hname⟩⟩
  loops name item rest body place status := forItems_cons name item rest body place status hon
  fields args := secures_runRead args hon
  parameters q name colon arg inQuotes := secures_assignParameter q colon inQuotes arg hon
  arithmetic name op e n t h := exports_of_evalAssign hon h
  expansions ws := ((keeps_arguments (R := exportsChanges) ws).always s).mono fun _ hr => hr hon
  inFront make hmake assigned := by
    have hall : Exporting (make assigned) fun name => ∃ a ∈ assigned, name = a.1 := by
      simp only [List.mem_cons, List.not_mem_nil, or_false] at hmake
      rcases hmake with rfl | rfl | rfl
      · exact exporting_shadowAll assigned
      · exact exporting_assignAll assigned
      · exact exporting_exportAll assigned
    exact (hall s hon).mono fun _ _ ht => ⟨ht.1, fun a ha => ht.2 a.1 ⟨a, ha, rfl⟩⟩
  exported args opts operands h := exporting_runDeclare h s hon
  locals args := exporting_runLocal args s hon
  readOnly args := (keeps_stillExported_runDeclare args).always s

/-! ## Whole runs -/

/-- States with the option on that withhold nothing but what `W` says. -/
def exposing (W : Text → Text → Prop) : Likeness where
  exact := True
  inv all bs fs _ := all = true ∧ ∀ name value, Variables.Withheld bs fs name value → W name value
  permits _ := True
  answers _ := True

instance exposing_kept (W : Text → Text → Prop) : (exposing W).Kept where
  assignWith h hflag ha := by
    refine ⟨h.1, fun name value hw => h.2 name value (Variables.Withholds.of_assignWith hw ha ?_)⟩
    rcases hflag with hflag | hflag
    · exact .inl (hflag.trans h.1)
    · exact hflag
  unset h hu := ⟨h.1, fun name value hw => h.2 name value (Variables.Withholds.of_unset hw hu)⟩
  exportValue _ h ha :=
    ⟨h.1, fun name value hw => h.2 name value (Variables.Withholds.of_assignWith hw ha (.inl rfl))⟩
  shadow _ h hs := ⟨h.1, fun name value hw => h.2 name value (Variables.Withholds.of_shadow hw hs)⟩
  openFrame h := ⟨h.1, fun name value hw => h.2 name value (Variables.Withholds.of_openFrame hw)⟩
  closeFrame h := ⟨h.1, fun name value hw => h.2 name value (Variables.Withholds.of_closeFrame hw)⟩
  forget h _ := h
  search := alike_searchPath_of_forget fun h => h
  workingDirectory := ⟨trivial, trivial⟩

/-- Whether arguments of `set` leave the option on. -/
def leavesAllexport (args : List Text) : Bool :=
  match Settings.read { options := CommandShell.Options.none.set .allexport true } args with
  | .ok settings => settings.options.has .allexport
  | .error _ => true

/-- Options that agree in `allexport`. -/
def SameAllexport (os os' : CommandShell.Options) : Prop := os'.has .allexport = os.has .allexport

theorem setsAlike_sameAllexport : SetsAlike SameAllexport := by
  intro os os' o on h
  show (if ShellOption.allexport = o then on else os'.has .allexport) =
    if ShellOption.allexport = o then on else os.has .allexport
  rw [h]

theorem admitsSettings_exposing {W : Text → Text → Prop} {args : List Text}
    (h : leavesAllexport args = true) : (exposing W).AdmitsSettings args := by
  intro s hs settings hread t ht
  -- what the words do to the option does not depend on the other options that are on
  have hstart : Settings.Like SameAllexport { options := CommandShell.Options.none.set .allexport true }
      { options := s.options } := ⟨hs.1, rfl, rfl⟩
  have hboth := hstart.read setsAlike_sameAllexport args
  unfold leavesAllexport at h
  rw [hread] at hboth
  cases hn : Settings.read { options := CommandShell.Options.none.set .allexport true } args with
  | error e =>
      rw [hn] at hboth
      exact hboth.elim
  | ok reference =>
      rw [hn] at hboth h
      exact ⟨hboth.options.trans h, ht.2⟩

/-- Admits everything but `set` with arguments that turn the option off. -/
def exportWatch : Watch where
  admits _ _ := true
  admitsBuiltin b args := b != .set || leavesAllexport args
  admitsTexts := true
  accepts _ _ _ := true

open Classical in
/-- Gives up before and after every command in whose state the option is off, or something is withheld of
which `W` does not say so. -/
noncomputable def exposureWatch (W : Text → Text → Prop) : Watch where
  admits s _ := decide ((exposing W).Holds s)
  admitsBuiltin _ _ := true
  admitsTexts := true
  accepts s _ _ := decide ((exposing W).Holds s)

theorem exportWatch_ensures (W : Text → Text → Prop) : exportWatch.Ensures (exposing W) where
  admits {s node} _ := by
    cases node.command with
    | simple assigns words redirects =>
        exact ⟨fun _ _ => .inl trivial, fun _ _ => .inl trivial, fun _ _ => .inl trivial,
          fun _ _ _ _ _ => trivial⟩
    | forIn var items body =>
        cases items with
        | some words => exact fun _ _ => .inl trivial
        | none => trivial
    | caseOf subject arms => exact ⟨.inl trivial, fun _ _ _ _ _ => .inl trivial⟩
    | subshell body redirects => exact fun _ _ => .inl trivial
    | redirected body redirects => exact fun _ _ => .inl trivial
    | _ => trivial
  admitsBuiltin {b args} h := by
    refine ⟨fun _ _ _ => trivial, fun _ => .inl trivial, fun hb => ?_⟩
    subst hb
    exact admitsSettings_exposing h
  accepts := .inl trivial

open Classical in
/-- A run that leaves the option on never gives up for a value that is withheld. -/
theorem exportWatch_implies (W : Text → Text → Prop) :
    exportWatch.Implies (exposureWatch W) (exposing W) where
  admits {s t node} hst _ := by
    obtain rfl : t = s := hst.2.2 trivial
    exact decide_eq_true hst.1
  admitsBuiltin _ := rfl
  admitsTexts _ := rfl
  accepts {s t node place} hst _ := by
    obtain rfl : t = s := hst.2.2 trivial
    exact decide_eq_true hst.1

/-- A run in which `set` leaves the option on is a run of the shell. At both ends of every command in it
and when it ends the option is on, and nothing is withheld that was not withheld when it began. -/
def ExposesAll (depth : Nat) (s : Shell) (run : Evaluator → ShellM Unit) : Prop :=
  ∀ (es : List Event) (o : Outcome (Except Stop Unit × Shell)),
    ((run (watchedOf exportWatch depth)).startedIn s).Comes es o → o ≠ .asks (.exit abandonCode) →
    ((run (evaluatorOf depth)).startedIn s).Comes es o ∧
      ((run (watchedOf (exposureWatch s.variables.Withholds) depth)).startedIn s).Comes es o ∧
      ∀ r t, o = .done (r, t) → t.has .allexport = true ∧
        ∀ name value, t.variables.Withholds name value → s.variables.Withholds name value

theorem exposesAll_of_alike {depth : Nat} {run : Evaluator → ShellM Unit} (hon : s.has .allexport = true)
    (h : ∀ {ev ev' : Evaluator}, EvaluatorsAlike (exposing s.variables.Withholds) ev ev' →
      Alike (exposing s.variables.Withholds) (run ev) (run ev')) : ExposesAll depth s run := by
  intro es o hrun ho
  have hstart : (exposing s.variables.Withholds).Holds s := ⟨hon, fun _ _ hw => hw⟩
  -- the run is that of the shell, and of a watch that gives up for a value that is withheld
  have hreal := h (watched_alike (exportWatch_ensures _) (exportWatch.implies_all _) depth)
  have hchecked := h (watched_alike (exportWatch_ensures _) (exportWatch_implies _) depth)
  rw [watchedOf_all] at hreal
  obtain ⟨hcomes, hend⟩ := hreal.comes trivial hstart hrun (fun _ _ => trivial) ho
  refine ⟨hcomes, (hchecked.comes trivial hstart hrun (fun _ _ => trivial) ho).1, fun r t ht => ?_⟩
  exact hend r t ht

/-- With `allexport` on, every construct that assigns leaves the variable exported, but for `readonly`.
As long as `set` does not turn the option off, no command and no script lets a value be withheld that was
not withheld before. -/
theorem allexport_reaches_assignments (depth : Nat) (s : Shell) (hon : s.has .allexport = true) :
    ExportsAssignments (evaluatorOf depth) s ∧
    (∀ (node : Node) (place : Place), ExposesAll depth s fun ev => ev.node node place) ∧
    ∀ script : Text, ExposesAll depth s fun ev => ev.source script :=
  ⟨exportsAssignments _ hon, fun node place => exposesAll_of_alike hon fun h => h.node node place,
    fun script => exposesAll_of_alike hon fun h => h.source script⟩

/-- A shell with `allexport` on. -/
def exportingAll : Shell := { options := CommandShell.Options.none.set .allexport true }

/-- A command of words that are read as they stand. -/
def literalCommand (words : List Text) : Script.Node :=
  .mk (.simple [] (words.map fun t => .mk t [.literal t] 1) []) 1

/-- `export x=v` gives a value with the flag, on its own and in a script that assigns to it again. -/
theorem allexport_reaches_assignments_export :
    exportingAll.has .allexport = true ∧
    (∃ t, ((runDeclare .exported ["x=v"]).startedIn exportingAll).Comes [] (.done (.ok (), t)) ∧
      t.variables.IsExported "x") ∧
    ∃ es r t, (((evaluatorOf 4).source "export x=v; x=w").startedIn exportingAll).Comes es
        (.done (r, t)) ∧ ∀ name value, ¬ t.variables.Withholds name value := by
  obtain ⟨hassign, -, hscript⟩ := allexport_reaches_assignments 4 exportingAll rfl
  refine ⟨rfl, ?_, ?_⟩
  · obtain ⟨⟨r, t⟩, hrun, hr⟩ := Host.Program.comes_of_endsIn
      (show ((runDeclare .exported ["x=v"]).startedIn exportingAll).endsIn (fun r => r.1.isOk) [] = true
        by decide +kernel)
    cases r with
    | error e => cases hr
    | ok _ =>
        have hoperands : Builtin.takeOptions "p" ["x=v"] = .ok ([], ["x=v"]) := by rfl
        have hgives : GivesValue ["x=v"] "x" := ⟨"x=v", List.mem_cons_self, "v", by decide⟩
        have hexported := Host.Program.Always.of_comes (hassign.exported _ _ _ hoperands) hrun () rfl
        exact ⟨t, hrun, hexported.2 "x" hgives⟩
  · obtain ⟨⟨r, t⟩, hrun, -⟩ := Host.Program.comes_of_endsIn
      (show (((watchedOf exportWatch 4).source "export x=v; x=w").startedIn exportingAll).endsIn
        (fun _ => true) [⟨.takeArrived, false⟩, ⟨.takeArrived, false⟩] = true by decide +kernel)
    obtain ⟨hreal, -, hend⟩ := hscript _ _ _ hrun (nomatch ·)
    refine ⟨_, r, t, hreal, fun name value hw => ?_⟩
    cases (hend r t rfl).2 name value hw with
    | bound hbound _ => cases hbound
    | remembered hframe _ _ _ _ => cases hframe

/-- `readonly x=1` gives a value without the flag. -/
theorem not_allexport_reaches_assignments :
    ¬ ∀ (depth : Nat) (node : Script.Node) (place : Place) (s t : Shell) (es : List Event)
        (name value : Text), s.has .allexport = true → s.variables.get? name = none →
      (((evaluatorOf depth).node node place).startedIn s).Comes es (.done (.ok (), t)) →
      t.variables.value? name = some value → t.variables.Exports name value := by
  intro h
  let fixed : Variable := { value := some "1", readOnly := true }
  obtain ⟨⟨r, t⟩, hrun, ht⟩ := Host.Program.comes_of_endsIn
    (show (((evaluatorOf 4).node (literalCommand ["readonly", "x=1"]) {}).startedIn exportingAll).endsIn
      (fun r => r.1.isOk && r.2.variables.get? "x" = some fixed) [⟨.takeArrived, false⟩] = true by
        decide +kernel)
  obtain ⟨hr, hx⟩ := Bool.and_eq_true_iff.mp ht
  replace hx : t.variables.get? "x" = some fixed := of_decide_eq_true hx
  cases r with
  | error e => cases hr
  | ok _ =>
      have hvalue : t.variables.value? "x" = some "1" := by
        unfold Variables.value?
        rw [hx]
        rfl
      obtain ⟨v, hv, -, hexported⟩ := h 4 _ _ _ _ _ "x" "1" rfl rfl hrun hvalue
      cases hx.symm.trans hv
      cases hexported

end Shell

end CommandShell
