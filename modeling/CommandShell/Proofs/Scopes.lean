import CommandShell.Execution.Arrived
import CommandShell.Execution.CommandPath
import CommandShell.Execution.Foreground
import CommandShell.Execution.Child
import CommandShell.Proofs.ChildStatus

/-!
# What a computation leaves behind

A shell counts the constructs around the command that it runs: loops, functions, sourced files, a
trap, frames of variables, and redirections to be undone. `Scopes` holds these counts. A computation
keeps a relation between states when the state that it ends in is related to the one it began in,
however it ends and whatever the system answers.

`Keeps` is closed under the ways of putting computations together, as the relation is to be (`Bond`). Two
relations matter. One says that the positional parameters are the same (`same`), the other that the
scopes are, and that no frame of variables but the newest one has changed (`Nests`). What opens no scope
and sets no parameter keeps both (`Lenient`). The modules beside this one go through the evaluator;
constructs that open a scope are the only ones with an argument of their own.
-/

namespace CommandShell

open Host (Call Reply Program)

theorem Host.Program.Always.and {α : Type} {P Q : α → Prop} :
    ∀ {p : Program α}, p.Always P → p.Always Q → p.Always fun a => P a ∧ Q a
  | .done _, hp, hq => ⟨hp, hq⟩
  | .call _ _, hp, hq => fun r => (hp r).and (hq r)

/-- The constructs around a command, counted. -/
structure Scopes where
  loops : Nat
  functions : Nat
  /-- Sourced files. -/
  sources : Nat
  inTrap : Bool
  /-- Frames in which variables are shadowed. -/
  frames : Nat
  /-- Constructs whose redirections are to be undone. -/
  redirections : Nat
  deriving DecidableEq, Repr

namespace Shell

/-- The constructs around the command that a shell runs. -/
def scopes (sh : Shell) : Scopes where
  loops := sh.loopDepth
  functions := sh.functionDepth
  sources := sh.sourceDepth
  inTrap := sh.inTrap
  frames := sh.variables.frames.length
  redirections := sh.saved.length

/-- The positional parameters. -/
def params (sh : Shell) : List Text := sh.variables.params

variable {σ α β : Type}

/-! ## What two states have in common -/

/-- A relation between a state and a later one, which holds of what is done in turn if it holds of each
part. -/
structure Bond where
  holds : Shell → Shell → Prop
  refl : ∀ s, holds s s
  trans : ∀ {s t u}, holds s t → holds t u → holds s u

instance : CoeFun Bond fun _ => Shell → Shell → Prop := ⟨Bond.holds⟩

/-- A view of the state shows the same as before. -/
def same (V : Shell → σ) : Bond := ⟨fun s t => V t = V s, fun _ => rfl, fun h h' => h'.trans h⟩

end Shell

/-- The frames from before, of which none but the newest one has grown. -/
inductive Variables.Grown : List (List Shadowed) → List (List Shadowed) → Prop where
  | none : Grown [] []
  | newest (added frame : List Shadowed) (outer : List (List Shadowed)) :
      Grown (frame :: outer) ((added ++ frame) :: outer)

namespace Variables.Grown

variable {fs gs hs : List (List Shadowed)}

protected theorem refl (fs : List (List Shadowed)) : Grown fs fs := by
  cases fs with
  | nil => exact .none
  | cons frame outer => exact .newest [] frame outer

protected theorem trans (h : Grown fs gs) (h' : Grown gs hs) : Grown fs hs := by
  cases h with
  | none => exact h'
  | newest added frame outer =>
      cases h' with
      | newest added' =>
          rw [← List.append_assoc]
          exact .newest (added' ++ added) frame outer

theorem length (h : Grown fs gs) : gs.length = fs.length := by
  cases h with
  | none => rfl
  | newest => rfl

theorem tail (h : Grown fs gs) : gs.tail = fs.tail := by
  cases h with
  | none => rfl
  | newest => rfl

theorem of_eq (h : gs = fs) : Grown fs gs := h ▸ .refl gs

end Variables.Grown

namespace Shell

/-- The constructs around the command are those from before, and so are the frames of variables but for
names that were shadowed in the newest one. -/
structure Nests (s t : Shell) : Prop where
  scopes : t.scopes = s.scopes
  frames : Variables.Grown s.variables.frames t.variables.frames

/-- Neither scopes nor positional parameters have changed, and no frame but the newest one. -/
structure Stands (s t : Shell) : Prop extends Nests s t where
  params : t.params = s.params

/-- The variables change, and the frames among them as they may. -/
theorem Nests.variables {s : Shell} {vs : Variables}
    (h : Variables.Grown s.variables.frames vs.frames) : Nests s { s with «variables» := vs } where
  scopes := by
    show { s.scopes with frames := vs.frames.length } = s.scopes
    rw [h.length]
    rfl
  frames := h

theorem Stands.variables {s : Shell} {vs : Variables}
    (hframes : Variables.Grown s.variables.frames vs.frames) (hparams : vs.params = s.variables.params) :
    Stands s { s with «variables» := vs } := ⟨.variables hframes, hparams⟩

theorem Nests.refl (s : Shell) : Nests s s := ⟨rfl, .refl _⟩

theorem Nests.trans {s t u : Shell} (h : Nests s t) (h' : Nests t u) : Nests s u :=
  ⟨h'.scopes.trans h.scopes, h.frames.trans h'.frames⟩

/-- `Nests`, as what computations keep. -/
def nests : Bond := ⟨Nests, .refl, .trans⟩

/-- A relation that is about no more than scopes, frames and positional parameters, and by which a
construct with redirections can be left again. -/
class Lenient (R : Bond) : Prop where
  stands : ∀ {s t : Shell}, Stands s t → R s t
  leaveRedirected : ∀ {s t : Shell}, R { s with saved := [] :: s.saved } t →
    R s { t with saved := t.saved.tail }

instance lenient_nests : Lenient nests where
  stands h := h.toNests
  leaveRedirected {s t} h := by
    obtain ⟨hscopes, hframes⟩ : Nests _ _ := h
    refine ⟨?_, hframes⟩
    have hlength : t.saved.length = s.saved.length + 1 := congrArg Scopes.redirections hscopes
    have htail : t.saved.tail.length = s.saved.length := by
      rw [List.length_tail, hlength, Nat.add_sub_cancel]
    show { t.scopes with redirections := t.saved.tail.length } = s.scopes
    rw [hscopes, htail]
    rfl

instance lenient_params : Lenient (same params) where
  stands h := h.params
  leaveRedirected h := h

/-- A computation that ends in a state which is related to the one that it began in. -/
class Keeps (R : Bond) (x : ShellM α) : Prop where
  always : ∀ s, (x.startedIn s).Always fun r => R s r.2

/-! ## Rules -/

/-- A sequence, with an assertion between its parts that also holds after a failure of the first. -/
theorem always_bind {P : Shell → Prop} {Q : Except Stop β × Shell → Prop} {x : ShellM α}
    {f : α → ShellM β} {s : Shell} (hx : (x.startedIn s).Always fun r => P r.2)
    (hf : ∀ a t, P t → ((f a).startedIn t).Always Q) (he : ∀ e t, P t → Q (.error e, t)) :
    ((x >>= f).startedIn s).Always Q := by
  show ((x.startedIn s).bind _).Always _
  rw [Host.Program.always_bind]
  refine hx.mono ?_
  rintro ⟨r, t⟩ ht
  cases r with
  | ok a => exact hf a t ht
  | error e => exact he e t ht

/-- What follows a computation that cannot fail is done in any case. -/
theorem always_unfailing_bind {P : Shell → Prop} {Q : Except Stop β × Shell → Prop}
    {x : ShellM α} [hx : Unfailing x] {f : α → ShellM β} {s : Shell}
    (hP : (x.startedIn s).Always fun r => P r.2)
    (hf : ∀ a t, P t → ((f a).startedIn t).Always Q) : ((x >>= f).startedIn s).Always Q := by
  show ((x.startedIn s).bind _).Always _
  rw [Host.Program.always_bind]
  refine (hP.and (hx.ok s)).mono ?_
  rintro ⟨r, t⟩ ⟨ht, a, ha⟩
  dsimp only at ha
  subst ha
  exact hf a t ht

/-- What follows an attempt is done however the attempt ended. -/
theorem always_attempt_bind {P : Shell → Prop} {Q : Except Stop β × Shell → Prop} {x : ShellM α}
    {f : Except Stop α → ShellM β} {s : Shell} (hx : (x.startedIn s).Always fun r => P r.2)
    (hf : ∀ r t, P t → ((f r).startedIn t).Always Q) :
    ((attempt x >>= f).startedIn s).Always Q := by
  refine always_unfailing_bind (P := P) ?_ hf
  show ((x.startedIn s).bind _).Always _
  rw [Host.Program.always_bind]
  exact hx.mono fun _ ht => ht

section

variable {R : Bond}

/-- What goes on from a related state comes to one. -/
protected theorem Keeps.after {x : ShellM α} (hx : Keeps R x) {s t : Shell} (h : R s t) :
    (x.startedIn t).Always fun r => R s r.2 := (hx.always t).mono fun _ => R.trans h

/-- A scope that is opened before a computation and closed after it, however it ended. -/
protected theorem Keeps.bracket (enter exit : Shell → Shell) {x : ShellM α} [hx : Keeps R x]
    {f : Except Stop α → ShellM β} [hf : ∀ r, Keeps R (f r)]
    (h : ∀ s t, R (enter s) t → R s (exit t)) :
    Keeps R (do
      modify enter
      let r ← attempt x
      modify exit
      f r) := by
  constructor
  intro s
  show ((attempt x >>= fun r => modify exit >>= fun _ => f r).startedIn (enter s)).Always _
  exact always_attempt_bind (P := R (enter s)) (hx.always (enter s)) fun r t ht =>
    (hf r).after (h s t ht)

/-- What never stops short and keeps the whole state comes to a value in the state that it began in. -/
theorem always_ok_of_keeps {x : ShellM α} [hx : Unfailing x] [hkeeps : Keeps (same id) x] (s : Shell) :
    (x.startedIn s).Always fun r => ∃ a, r = (.ok a, s) := by
  refine ((hx.ok s).and (hkeeps.always s)).mono ?_
  rintro ⟨r, t⟩ ⟨⟨a, hr⟩, ht⟩
  exact ⟨a, Prod.ext hr ht⟩

/-- A computation that ends the process keeps whatever one asks for. -/
class NeverEnds (x : ShellM α) : Prop where
  always : ∀ s P, (x.startedIn s).Always P

instance neverEnds_leave (code : Int) : NeverEnds (leave code : ShellM α) :=
  ⟨fun _ _ never => nomatch never⟩

instance neverEnds_bind {x : ShellM α} {f : α → ShellM β} [Unfailing x]
    [hf : ∀ a, NeverEnds (f a)] : NeverEnds (x >>= f) :=
  ⟨fun _ P => always_unfailing_bind (P := fun _ => True)
    (Host.Program.always_of (fun _ => trivial) _) fun a t _ => (hf a).always t P⟩

instance neverEnds_bind_left {x : ShellM α} {f : α → ShellM β} [hx : NeverEnds x] :
    NeverEnds (x >>= f) := by
  constructor
  intro s P
  show ((x.startedIn s).bind _).Always _
  rw [Host.Program.always_bind]
  exact hx.always s _

theorem keeps_of_neverEnds (x : ShellM α) [h : NeverEnds x] : Keeps R x := ⟨fun s => h.always s _⟩

instance keeps_pure (a : α) : Keeps R (pure a : ShellM α) := ⟨R.refl⟩

instance keeps_throw (e : Stop) : Keeps R (throw e : ShellM α) := ⟨R.refl⟩

instance keeps_fail (f : Fault) : Keeps R (fail f : ShellM α) := keeps_throw _

instance keeps_jump (j : Jump) : Keeps R (jump j : ShellM α) := keeps_throw _

instance keeps_get : Keeps R (get : ShellM Shell) := ⟨R.refl⟩

instance keeps_ask (c : Call) : @Keeps (no_index (Reply c)) R (ask c) := ⟨fun s _ => R.refl s⟩

protected theorem Keeps.bind {x : ShellM α} {f : α → ShellM β} [hx : Keeps R x]
    (hf : ∀ a, Keeps R (f a)) : Keeps R (x >>= f) := by
  constructor
  intro s
  exact always_bind (P := R s) (hx.always s) (fun a _ ht => (hf a).after ht) fun _ _ ht => ht

instance keeps_bind {x : ShellM α} {f : α → ShellM β} [Keeps R x] [hf : ∀ a, Keeps R (f a)] :
    Keeps R (x >>= f) := .bind hf

/-- Nothing comes after a failure. -/
instance keeps_fail_bind (e : Fault) (f : α → ShellM β) : Keeps R (fail e >>= f) := ⟨R.refl⟩

instance keeps_map {f : α → β} {x : ShellM α} [Keeps R x] : Keeps R (f <$> x) := by
  rw [map_eq_pure_bind]
  infer_instance

protected theorem Keeps.ite {c : Prop} [Decidable c] {x y : ShellM α} (hx : Keeps R x)
    (hy : Keeps R y) : Keeps R (if c then x else y) := by
  split
  · exact hx
  · exact hy

instance keeps_ite {c : Prop} [Decidable c] {x y : ShellM α} [hx : Keeps R x] [hy : Keeps R y] :
    Keeps R (if c then x else y) := hx.ite hy

instance keeps_attempt {x : ShellM α} [hx : Keeps R x] : Keeps R (attempt x) := by
  constructor
  intro s
  show ((x.startedIn s).bind _).Always _
  rw [Host.Program.always_bind]
  exact (hx.always s).mono fun r hr => hr

instance keeps_ofExcept (r : Except Fault α) : Keeps R (ofExcept r) := by
  cases r with
  | ok a => exact keeps_pure a
  | error f => exact keeps_fail f

instance keeps_resume (r : Except Stop α) : Keeps R (resume r) := by
  cases r with
  | ok a => exact keeps_pure a
  | error e => exact keeps_throw e

instance keeps_quietly {x : ShellM Unit} [Keeps R x] : Keeps R (quietly x) := keeps_bind

/-- Every round of a loop keeps the relation, so the loop does. -/
protected theorem Keeps.iterateFor {step : σ → ShellM (σ ⊕ α)} (h : ∀ a, Keeps R (step a)) (n : Nat)
    (a : σ) : Keeps R (iterateFor step n a) := by
  induction n generalizing a with
  | zero => exact keeps_fail _
  | succ n ih =>
      refine .bind fun r => ?_
      cases r with
      | inl a' => exact ih a'
      | inr b => exact keeps_pure b

protected theorem Keeps.iterate {step : σ → ShellM (σ ⊕ α)} (h : ∀ a, Keeps R (step a)) (a : σ) :
    Keeps R (iterate step a) := .iterateFor h roundLimit a

instance keeps_forM {f : β → ShellM Unit} [∀ b, Keeps R (f b)] (bs : List β) :
    Keeps R (bs.forM f) := by
  induction bs with
  | nil => exact keeps_pure ()
  | cons b bs ih => exact keeps_bind

end

/-! ## Changes of the state -/

section

variable {R : Bond} [hR : Lenient R]

/-- A change that neither scopes nor variables show. -/
protected theorem Keeps.modify {f : Shell → Shell} (hscopes : ∀ s, (f s).scopes = s.scopes)
    (hvariables : ∀ s, (f s).variables = s.variables) : Keeps R (modify f : ShellM Unit) :=
  ⟨fun s => hR.stands ⟨⟨hscopes s, .of_eq (congrArg Variables.frames (hvariables s))⟩,
    congrArg Variables.params (hvariables s)⟩⟩

instance keeps_setStatus (code : Int) : Keeps R (setStatus code) :=
  .modify (fun _ => rfl) fun _ => rfl

instance keeps_modifyJobs (f : Jobs → Jobs) : Keeps R (modifyJobs f) :=
  .modify (fun _ => rfl) fun _ => rfl

instance keeps_modifyDefinitions (f : Definitions → Definitions) : Keeps R (modifyDefinitions f) :=
  .modify (fun _ => rfl) fun _ => rfl

omit hR in
/-- A change of the variables that may be refused. -/
protected theorem Keeps.updateVariables {f : Variables → Except Fault Variables}
    (h : ∀ s vs, f s.variables = .ok vs → R s { s with «variables» := vs }) :
    Keeps R (updateVariables f) := by
  constructor
  intro s
  show ((do
    let vs ← ofExcept (f s.variables)
    modify fun sh => { sh with «variables» := vs } : ShellM Unit).startedIn s).Always _
  cases hf : f s.variables with
  | error e => exact R.refl s
  | ok vs => exact h s vs hf

theorem Variables.assignWith_ok {vs vs' : Variables} {name : Text} {value : Option Text}
    {exported readOnly : Bool} (h : vs.assignWith name value exported readOnly = .ok vs') :
    vs'.frames = vs.frames ∧ vs'.params = vs.params := by
  unfold Variables.assignWith at h
  dsimp only at h
  split at h
  · cases h
  · cases h
    exact ⟨rfl, rfl⟩

theorem Variables.unset_ok {vs vs' : Variables} {name : Text} (h : vs.unset name = .ok vs') :
    vs'.frames = vs.frames ∧ vs'.params = vs.params := by
  unfold Variables.unset at h
  split at h
  · cases h
  · cases h
    exact ⟨rfl, rfl⟩

theorem Variables.shadow_ok {vs vs' : Variables} {name : Text} (h : vs.shadow name = .ok vs') :
    Variables.Grown vs.frames vs'.frames ∧ vs'.params = vs.params := by
  unfold Variables.shadow at h
  split at h
  · cases h
  · rename_i frame rest hframes
    split at h
    · cases h
      exact ⟨.refl _, rfl⟩
    · cases h
      rw [hframes]
      exact ⟨.newest [_] frame rest, rfl⟩

instance keeps_updateAssignWith (name : Text) (value : Option Text) (exported readOnly : Bool) :
    Keeps R (updateVariables (·.assignWith name value exported readOnly)) :=
  .updateVariables fun _ _ h =>
    have ⟨hframes, hparams⟩ := Variables.assignWith_ok h
    hR.stands (.variables (.of_eq hframes) hparams)

instance keeps_updateExportValue (name value : Text) :
    Keeps R (updateVariables (·.exportValue name value)) :=
  keeps_updateAssignWith name (some value) true false

instance keeps_updateShadow (name : Text) : Keeps R (updateVariables (·.shadow name)) :=
  .updateVariables fun _ _ h =>
    have ⟨hframes, hparams⟩ := Variables.shadow_ok h
    hR.stands (.variables hframes hparams)

/-- The change of the whole state that an assignment is opens or closes no frame. -/
theorem assign_ok {s t : Shell} {name value : Text} (h : s.assign name value = .ok t) : Stands s t := by
  unfold assign at h
  cases ha : s.variables.assignWith name (some value) (s.has .allexport) false with
  | error e =>
      rw [ha] at h
      cases h
  | ok vs =>
      rw [ha] at h
      cases h
      obtain ⟨hframes, hparams⟩ := Variables.assignWith_ok ha
      exact ⟨⟨(Nests.variables (.of_eq hframes)).scopes, .of_eq hframes⟩, hparams⟩

theorem unset_ok {s t : Shell} {name : Text} (h : s.unset name = .ok t) : Stands s t := by
  unfold unset at h
  cases hu : s.variables.unset name with
  | error e =>
      rw [hu] at h
      cases h
  | ok vs =>
      rw [hu] at h
      cases h
      obtain ⟨hframes, hparams⟩ := Variables.unset_ok hu
      exact ⟨⟨(Nests.variables (.of_eq hframes)).scopes, .of_eq hframes⟩, hparams⟩

omit hR in
/-- A change of the state that may be refused. -/
protected theorem Keeps.update {f : Shell → Except Fault Shell} (h : ∀ s t, f s = .ok t → R s t) :
    Keeps R (do set (← ofExcept (f (← get)))) := by
  constructor
  intro s
  show ((ofExcept (f s) >>= fun t => set t : ShellM Unit).startedIn s).Always _
  cases hf : f s with
  | error e => exact R.refl s
  | ok t => exact h s t hf

/-- A relation that assignments keep. -/
class KeptByAssignments (R : Bond) : Prop where
  assign : ∀ {s t : Shell} {name value : Text}, s.assign name value = .ok t → R s t

/-- A relation that expansions keep: they assign, and note how substituted commands ended. -/
class KeptByExpansions (R : Bond) : Prop extends KeptByAssignments R where
  substituted : ∀ (s : Shell) (code : Option Int), R s { s with substitutionStatus := code }

instance keptByExpansions_lenient : KeptByExpansions R where
  assign h := hR.stands (assign_ok h)
  substituted _ _ := hR.stands ⟨⟨rfl, .refl _⟩, rfl⟩

omit hR in
instance keeps_assignVariable [hA : KeptByAssignments R] (name value : Text) :
    Keeps R (assignVariable name value) := .update fun _ _ h => hA.assign h

instance keeps_unsetVariable (name : Text) : Keeps R (unsetVariable name) :=
  .update fun _ _ h => hR.stands (unset_ok h)

end

/-! ## Input and output -/

section

variable {R : Bond}

instance keeps_setDispositions (ds : List (Signal × Host.Disposition)) :
    Keeps R (setDispositions ds) := keeps_forM ds

instance keeps_refreshSignals : Keeps R refreshSignals := keeps_bind

instance keeps_writeBytes (fd : Nat) (data : Host.Bytes) : Keeps R (writeBytes fd data) := by
  refine .iterate (fun rest => .ite inferInstance (.bind fun r => ?_)) data
  cases r with
  | ok n => infer_instance
  | error e => infer_instance

instance keeps_write (fd : Nat) (t : Text) : Keeps R (write fd t) := keeps_writeBytes fd _

instance keeps_writeOut (t : Text) : Keeps R (writeOut t) := keeps_write 1 t

instance keeps_writeErr (t : Text) : Keeps R (writeErr t) := keeps_write 2 t

instance keeps_report (message : Text) : Keeps R (report message) := keeps_bind

instance keeps_reportStop (s : Stop) : Keeps R (reportStop s) := keeps_ite

instance keeps_readSome (fd count : Nat) : Keeps R (readSome fd count) := by
  refine .iterate (fun _ => .bind fun r => ?_) ()
  cases r with
  | ok bs => infer_instance
  | error e => infer_instance

instance keeps_readAll (fd : Nat) : Keeps R (readAll fd) := by
  refine .iterate (fun chunks => .bind fun r => ?_) []
  split
  · infer_instance
  · infer_instance
  · infer_instance

instance keeps_duplicateOnto (fd target : Nat) : Keeps R (duplicateOnto fd target) := keeps_ite

instance keeps_closeOrFail (fd : Nat) : Keeps R (closeOrFail fd) := by
  refine .bind fun r => ?_
  cases r with
  | ok u => infer_instance
  | error e => infer_instance

instance keeps_openFile (path : Text) (flags : Host.OpenFlags) : Keeps R (openFile path flags) := by
  unfold openFile
  cases pathBytes? path with
  | some p => infer_instance
  | none => infer_instance

instance keeps_statusAt (path? : Option Host.Bytes) (follow : Bool) :
    Keeps R (statusAt path? follow) := by
  unfold statusAt
  cases path? with
  | some p => infer_instance
  | none => infer_instance

instance keeps_fileStatus (path : Text) (follow : Bool) : Keeps R (fileStatus path follow) :=
  keeps_statusAt _ follow

instance keeps_canAccess (path : Text) (permission : Host.Permission) :
    Keeps R (canAccess path permission) := by
  unfold canAccess
  cases pathBytes? path with
  | some p => infer_instance
  | none => infer_instance

instance keeps_isRegularFile (path : Text) : Keeps R (isRegularFile path) := by
  refine .bind fun r => ?_
  cases r with
  | ok st => infer_instance
  | error e => infer_instance

instance keeps_isDirectory (path : Text) : Keeps R (isDirectory path) := by
  refine .bind fun r => ?_
  cases r with
  | ok st => infer_instance
  | error e => infer_instance

instance keeps_isExecutable (path : Text) : Keeps R (isExecutable path) := keeps_bind

instance keeps_currentDirectory : Keeps R currentDirectory := keeps_bind

instance keeps_readFile (path : Text) : Keeps R (readFile path) := by
  refine .bind fun r => ?_
  cases r with
  | ok fd => infer_instance
  | error e => infer_instance

instance keeps_findInPath (name path : Text) : Keeps R (findInPath name path) := by
  have h : ∀ paths fallback, Keeps R (searchAmong fallback paths) := by
    intro paths
    induction paths with
    | nil => exact fun _ => keeps_pure _
    | cons p paths ih => exact fun _ => keeps_bind
  exact h _ none

/-! ## Processes -/

instance keeps_leave (code : Int) : Keeps R (leave code : ShellM α) := keeps_of_neverEnds _

instance neverEnds_exitChild (ev : Evaluator) (r : Except Stop Unit) :
    NeverEnds (exitChild ev r : ShellM α) := by
  have hstatus : Unfailing (childStatus r) :=
    ⟨fun s => (childStatus_always r s).mono fun _ h => ⟨_, h⟩⟩
  have hexit : ∀ code, NeverEnds (exitShell ev code : ShellM α) := fun code => neverEnds_bind
  exact neverEnds_bind

instance keeps_exitChild (ev : Evaluator) (r : Except Stop Unit) :
    Keeps R (exitChild ev r : ShellM α) := keeps_of_neverEnds _

instance keeps_leaveUnstarted (command reason : Text) (code : Int) :
    Keeps R (leaveUnstarted command reason code) := keeps_bind

instance keeps_executeProgram (path : Text) (args : List Text) :
    Keeps R (executeProgram path args) := keeps_bind

instance keeps_anyPending (ss : List Signal) : Keeps R (anyPending ss) := by
  induction ss with
  | nil => exact keeps_pure _
  | cons s ss ih => exact keeps_bind

instance keeps_peekPending? : Keeps R peekPending? := by
  have h : ∀ ss, Keeps R (firstPending? ss) := by
    intro ss
    induction ss with
    | nil => exact keeps_pure _
    | cons s ss ih => exact keeps_bind
  exact keeps_bind

end

section

variable {R : Bond} [Lenient R]

/-- The child of a fork never comes back, so only the parent counts. -/
instance keeps_forkJob (ev : Evaluator) (text : Text) (body : ShellM Unit) :
    Keeps R (forkJob ev text body) := by
  refine .bind fun s => .bind fun r => ?_
  rcases r with e | _ | child
  · infer_instance
  · exact keeps_of_neverEnds _
  · infer_instance

instance keeps_resolvePath (name : Text) : Keeps R (resolvePath name) := by
  have hsearch : Keeps R (searchPath name) := by
    refine .bind fun s => .bind fun found => ?_
    cases found with
    | found path => infer_instance
    | notExecutable path => infer_instance
    | notFound => infer_instance
  refine .ite inferInstance (.bind fun s => ?_)
  cases s.definitions.paths.get? name with
  | some path => infer_instance
  | none => infer_instance

instance keeps_asSubshell : Keeps R (modify Shell.asSubshell) :=
  .modify (fun _ => rfl) fun _ => rfl

instance keeps_exportAll (assigned : List (Text × Text)) : Keeps R (exportAll assigned) := by
  induction assigned with
  | nil => exact keeps_pure ()
  | cons a rest ih => exact keeps_bind

instance keeps_waitFor (target : Option ProcessId) (noHang untraced : Bool) :
    Keeps R (waitFor target noHang untraced) := by
  refine .bind fun r => ?_
  rcases r with e | _ | ⟨pid, status⟩
  · infer_instance
  · infer_instance
  · infer_instance

instance keeps_reap (untraced : Bool) : Keeps R (reap untraced) := by
  refine .iterate (fun _ => .bind fun r => ?_) ()
  rcases r with e | _ | pid
  · infer_instance
  · infer_instance
  · infer_instance

instance keeps_waitForeground (untraced : Bool) : Keeps R (waitForeground untraced) := by
  refine .iterate (fun _ => .bind fun s => ?_) ()
  cases s.jobs.foreground.bind runningProcess? with
  | none => infer_instance
  | some pid =>
      refine .bind fun r => ?_
      rcases r with e | _ | pid
      · infer_instance
      · infer_instance
      · infer_instance

instance keeps_tellStopped (job : Job) : Keeps R (tellStopped job) := by
  refine .bind fun s => .bind fun _ => ?_
  dsimp only
  split
  · infer_instance
  · infer_instance

instance keeps_runForeground (job : Job) : Keeps R (runForeground job) := by
  refine .bind fun s => .bind fun _ => .bind fun waited => .bind fun s => ?_
  cases s.jobs.foreground with
  | none => infer_instance
  | some job =>
      refine .bind fun _ => .bind fun _ => .ite inferInstance ?_
      cases job.processes.getLast? with
      | some p => infer_instance
      | none => infer_instance

end

end Shell

end CommandShell
