import CommandShell.Proofs.FileView
import CommandShell.Proofs.Lockstep.Constructs

/-!
# The remembered paths of commands

A path that a search for a command came to is remembered. While files and working directory stay as
they are, nothing is different for it: `hash_transparent` says that in every state that a script
comes to, and at both ends of every command in it, a command is found where a search of `PATH` finds
it. This needs that `PATH` is given no value for a while, by `local` or in front of a command. Such
a value is put back without the remembered paths being forgotten: `PATH=/b hash t` leaves the path
of `t` in `/b` behind (`not_hash_transparent`).
-/

namespace CommandShell.Shell

open Script (Word Node Command)
open Host (Event FileView abandonCode)
open Host.Program (Outcome Follows)
open Commands (splitOperand)

/-! ## States whose remembered paths are right -/

variable {v : FileView}

/-- The search path. -/
def pathOf (bindings : Table Variable) : Text := ((bindings.get? "PATH").bind (·.value)).getD []

/-- Every remembered path is what a search comes to, and no open frame will change the search
path. -/
structure PathsSettled (v : FileView) (bindings : Table Variable) (frames : List (List Shadowed))
    (paths : Table Text) : Prop where
  found : ∀ b ∈ paths.toList, findUnder v b.1 (pathOf bindings) = .found b.2
  frames : ∀ frame ∈ frames, ∀ s ∈ frame, s.name ≠ "PATH"

/-- States that are the same, with paths settled, under files that stay as they are. -/
def settledUnder (v : FileView) : Likeness where
  exact := True
  inv _ := PathsSettled v
  permits name := name ≠ "PATH"
  answers := v.Agrees

section

variable {bs bs' : Table Variable} {fs fs' : List (List Shadowed)} {ps ps' : Table Text}

/-- Nothing is remembered, so nothing is wrong. -/
theorem PathsSettled.of_empty (h : ∀ frame ∈ fs, ∀ s ∈ frame, s.name ≠ "PATH") :
    PathsSettled v bs fs .empty :=
  ⟨fun _ hb => absurd hb List.not_mem_nil, h⟩

theorem PathsSettled.of_pathOf (h : PathsSettled v bs fs ps) (hp : pathOf bs' = pathOf bs)
    (hf : ∀ frame ∈ fs', ∀ s ∈ frame, s.name ≠ "PATH") : PathsSettled v bs' fs' ps :=
  ⟨fun b hb => hp ▸ h.found b hb, hf⟩

/-- What a search came to may be remembered. -/
theorem PathsSettled.remember (h : PathsSettled v bs fs ps) {name path : Text}
    (hn : findUnder v name (pathOf bs) = .found path) :
    PathsSettled v bs fs (ps.insert name path) := by
  refine ⟨fun b hb => ?_, h.frames⟩
  rcases Table.mem_insert hb with rfl | hb
  · exact hn
  · exact h.found b hb

theorem pathOf_insert_of_ne {name : Text} (h : name ≠ "PATH") (x : Variable) :
    pathOf (bs.insert name x) = pathOf bs := by
  unfold pathOf
  rw [Table.get?_insert_of_ne (Ne.symm h)]

theorem pathOf_erase_of_ne {name : Text} (h : name ≠ "PATH") :
    pathOf (bs.erase name) = pathOf bs := by
  unfold pathOf
  rw [Table.get?_erase_of_ne (Ne.symm h)]

theorem pathOf_foldl_restore {frame : List Shadowed} (h : ∀ s ∈ frame, s.name ≠ "PATH") :
    pathOf (frame.foldl Variables.restore bs) = pathOf bs := by
  induction frame generalizing bs with
  | nil => rfl
  | cons s frame ih =>
      have hs : s.name ≠ "PATH" := h s List.mem_cons_self
      have hrest : pathOf (Variables.restore bs s) = pathOf bs := by
        unfold Variables.restore
        cases s.prior with
        | some x => exact pathOf_insert_of_ne hs x
        | none => exact pathOf_erase_of_ne hs
      exact (ih fun s' hs' => h s' (List.mem_cons_of_mem _ hs')).trans hrest

end

section

variable {vs vs' : Variables} {ps : Table Text} {name : Text}

/-- An assignment settles the paths if it also forgets them where it changes the search path. -/
theorem PathsSettled.assignWith {value : Option Text} {exported readOnly : Bool}
    (h : PathsSettled v vs.bindings vs.frames ps)
    (ha : vs.assignWith name value exported readOnly = .ok vs') :
    PathsSettled v vs'.bindings vs'.frames
      (if name = "PATH" ∧ value.isSome then .empty else ps) := by
  unfold Variables.assignWith at ha
  dsimp only at ha
  split at ha
  · cases ha
  · cases ha
    by_cases hn : name = "PATH"
    · subst hn
      cases value with
      | some t =>
          rw [if_pos ⟨rfl, rfl⟩]
          exact .of_empty h.frames
      | none =>
          rw [if_neg fun hx => Bool.false_ne_true hx.2]
          refine h.of_pathOf ?_ h.frames
          unfold pathOf
          rw [Table.get?_insert_self]
          show (((vs.bindings.get? "PATH").getD {}).value).getD [] = _
          cases vs.bindings.get? "PATH" with
          | some x => rfl
          | none => rfl
    · rw [if_neg fun hx => hn hx.1]
      exact h.of_pathOf (pathOf_insert_of_ne hn _) h.frames

theorem PathsSettled.unset (h : PathsSettled v vs.bindings vs.frames ps)
    (hu : vs.unset name = .ok vs') :
    PathsSettled v vs'.bindings vs'.frames (if name = "PATH" then .empty else ps) := by
  unfold Variables.unset at hu
  split at hu
  · cases hu
  · cases hu
    by_cases hn : name = "PATH"
    · rw [if_pos hn]
      exact .of_empty h.frames
    · rw [if_neg hn]
      exact h.of_pathOf (pathOf_erase_of_ne hn) h.frames

theorem PathsSettled.shadow (hn : name ≠ "PATH") (h : PathsSettled v vs.bindings vs.frames ps)
    (hs : vs.shadow name = .ok vs') : PathsSettled v vs'.bindings vs'.frames ps := by
  unfold Variables.shadow at hs
  split at hs
  · cases hs
  · rename_i frame rest hframes
    split at hs
    · cases hs
      exact h
    · cases hs
      refine ⟨h.found, fun f hf => ?_⟩
      have hall := h.frames
      rw [hframes] at hall
      rcases List.mem_cons.mp hf with rfl | hf
      · intro s hs
        rcases List.mem_cons.mp hs with rfl | hs
        · exact hn
        · exact hall frame List.mem_cons_self s hs
      · exact hall f (List.mem_cons_of_mem _ hf)

theorem PathsSettled.closeFrame (h : PathsSettled v vs.bindings vs.frames ps) :
    PathsSettled v vs.closeFrame.bindings vs.closeFrame.frames ps := by
  unfold Variables.closeFrame
  cases hframes : vs.frames with
  | nil =>
      have hf := h.frames
      rw [hframes] at hf
      exact ⟨h.found, h.frames⟩
  | cons frame rest =>
      have hall := h.frames
      rw [hframes] at hall
      exact h.of_pathOf (pathOf_foldl_restore (hall frame List.mem_cons_self))
        fun f hf => hall f (List.mem_cons_of_mem _ hf)

end

/-- A search remembers what it came to. -/
theorem steady_searchPath (name : Text) : Steady (settledUnder v) (searchPath name) := by
  refine ⟨fun {s t} hst => ?_⟩
  obtain rfl : t = s := hst.2.2 trivial
  have hfind := (alike_findInPath name (pathOf t.variables.bindings)).follows hst
  show Follows v.Agrees _ (((findInPath name (pathOf t.variables.bindings)).run.run t).bind _)
    (((findInPath name (pathOf t.variables.bindings)).run.run t).bind _)
  refine Follows.bind (hfind.and_under (under_findInPath v _ _ t)) ?_
  rintro ⟨a, s⟩ ⟨b, u⟩ ⟨⟨hab, hsu⟩, ha⟩
  obtain ⟨rfl, rfl⟩ := Prod.mk.inj ha
  dsimp only at hab hsu
  subst hab
  obtain rfl : u = s := hsu.2.2 trivial
  cases hsearch : findUnder v name (pathOf u.variables.bindings) with
  | found path =>
      exact .done ⟨rfl, hst.1.remember hsearch, ⟨_, (withErrexit_self _).symm⟩, fun _ => rfl⟩
  | notExecutable path => exact .done ⟨rfl, hst⟩
  | notFound => exact .done ⟨rfl, hst⟩

instance settledUnder_kept : (settledUnder v).Kept where
  assignWith h _ ha := PathsSettled.assignWith h ha
  unset h hu := PathsSettled.unset h hu
  exportValue hn h ha := by
    have hk := PathsSettled.assignWith h ha
    rw [if_neg fun hx => hn hx.1] at hk
    exact hk
  shadow hn h hs := PathsSettled.shadow hn h hs
  openFrame h := ⟨h.found, fun frame hf => by
    rcases List.mem_cons.mp hf with rfl | hf
    · exact fun s hs => absurd hs List.not_mem_nil
    · exact h.frames frame hf⟩
  closeFrame h := PathsSettled.closeFrame h
  forget h hsub := ⟨fun b hb => h.found b (hsub hb), h.frames⟩
  search := steady_searchPath
  workingDirectory := by
    constructor
    · exact fun h => nomatch h
    · exact fun h => nomatch h

/-! ## Commands found through remembered paths -/

/-- What a command that was searched for comes to. -/
def PathSearch.answer (name : Text) : PathSearch → Except Stop Text
  | .found path => .ok path
  | .notExecutable _ => .error (.ofFault (.permissionDenied name))
  | .notFound => .error (.ofFault (.commandNotFound name))

/-- Every command is found where a search of `PATH` finds it. -/
def HashTransparent (v : FileView) (s : Shell) : Prop :=
  ∀ name : Text, name.contains '/' = false → ∃ found,
    ((findInPath name ((s.value? "PATH").getD [])).startedIn s).under v = .done (.ok found, s) ∧
    ∃ t, ((resolvePath name).startedIn s).under v = .done (found.answer name, t)

theorem under_searchPath (name : Text) (s : Shell) :
    ∃ t, ((searchPath name).startedIn s).under v =
      .done ((findUnder v name (pathOf s.variables.bindings)).answer name, t) := by
  show ∃ t, (((findInPath name (pathOf s.variables.bindings)).startedIn s).bind _).under v = _
  rw [Host.Program.under_bind (under_findInPath v _ _ s)]
  cases findUnder v name (pathOf s.variables.bindings) with
  | found path => exact ⟨_, rfl⟩
  | notExecutable path => exact ⟨_, rfl⟩
  | notFound => exact ⟨_, rfl⟩

theorem under_resolvePath {name : Text} (hname : name.contains '/' = false) (s : Shell) :
    ((resolvePath name).startedIn s).under v =
      match s.definitions.paths.get? name with
      | some path =>
        if isExecutableUnder v path then .done (.ok path, s)
        else ((searchPath name).startedIn s).under v
      | none => ((searchPath name).startedIn s).under v := by
  show ((if name.contains '/' = true then _ else _ : ShellM Text).run.run s).under v = _
  rw [if_neg (by rw [hname]; exact Bool.false_ne_true)]
  show ((match s.definitions.paths.get? name with
    | some path => do if ← isExecutable path then return path else searchPath name
    | none => searchPath name : ShellM Text).run.run s).under v = _
  cases s.definitions.paths.get? name with
  | none => rfl
  | some path =>
      show (((isExecutable path).startedIn s).bind _).under v =
        if isExecutableUnder v path then Outcome.done (Except.ok path, s)
        else ((searchPath name).startedIn s).under v
      rw [Host.Program.under_bind (under_isExecutable v path s)]
      cases isExecutableUnder v path with
      | true => rfl
      | false => rfl

/-- Settled paths make no difference. -/
theorem hashTransparent_of_settled {s : Shell} (h : (settledUnder v).Holds s) :
    s.HashTransparent v := by
  intro name hname
  refine ⟨_, under_findInPath v _ _ s, ?_⟩
  rw [under_resolvePath hname]
  cases hget : s.definitions.paths.get? name with
  | none => exact under_searchPath name s
  | some path =>
      have hfound : findUnder v name (pathOf s.variables.bindings) = .found path :=
        h.found _ (Table.mem_of_get? hget)
      show ∃ t, (if isExecutableUnder v path then _ else _) =
        Outcome.done ((findUnder v name (pathOf s.variables.bindings)).answer name, t)
      rw [if_pos (isExecutableUnder_of_searchAmongUnder hfound), hfound]
      exact ⟨s, rfl⟩

/-- A path that is remembered is taken, and has to be what a search comes to. -/
theorem HashTransparent.findUnder_eq {s : Shell} (h : s.HashTransparent v) {name path : Text}
    (hname : name.contains '/' = false) (hget : s.definitions.paths.get? name = some path)
    (hpath : isExecutableUnder v path = true) :
    (findUnder v name (pathOf s.variables.bindings)).answer name = .ok path := by
  obtain ⟨found, hfind, t, hresolve⟩ := h name hname
  have hfound := (under_findInPath v name (pathOf s.variables.bindings) s).symm.trans hfind
  rw [under_resolvePath hname, hget] at hresolve
  dsimp only at hresolve
  rw [if_pos hpath] at hresolve
  cases hfound
  exact (congrArg Prod.fst (Outcome.done.inj hresolve)).symm

/-- Admits no value of `PATH` for a while: neither in front of a command nor by `local`. -/
def pathWatch : Watch where
  admits _ node :=
    match node.command with
    | .simple assigns (_ :: _) _ => assigns.all (·.assignedName? != some "PATH")
    | _ => true
  admitsBuiltin b args := b != .local_ || args.all fun arg => (splitOperand arg).1 != "PATH"
  admitsTexts := true
  accepts _ _ _ := true

open Classical in
/-- Gives up before and after every command whose state finds some command elsewhere. -/
noncomputable def transparencyWatch (v : FileView) : Watch where
  admits s _ := decide (s.HashTransparent v)
  admitsBuiltin _ _ := true
  admitsTexts := true
  accepts s _ _ := decide (s.HashTransparent v)

theorem pathWatch_ensures (v : FileView) : pathWatch.Ensures (settledUnder v) where
  admits {s node} h := by
    unfold pathWatch at h
    dsimp only at h
    cases hc : node.command with
    | simple assigns words redirects =>
        refine ⟨fun _ _ => .inl trivial, fun _ _ => .inl trivial, fun _ _ => .inl trivial, ?_⟩
        intro hwords w hw name hname
        cases words with
        | nil => exact absurd rfl hwords
        | cons word words =>
            rw [hc] at h
            have hne := List.all_eq_true.mp h w hw
            rw [hname] at hne
            intro hpath
            subst hpath
            exact absurd hne (by decide)
    | forIn var items body =>
        cases items with
        | some words => exact fun _ _ => .inl trivial
        | none => trivial
    | caseOf subject arms => exact ⟨.inl trivial, fun _ _ _ _ _ => .inl trivial⟩
    | subshell body redirects => exact fun _ _ => .inl trivial
    | redirected body redirects => exact fun _ _ => .inl trivial
    | _ => trivial
  admitsBuiltin {b args} h := by
    refine ⟨fun hb arg harg => ?_, fun _ => .inl trivial, fun _ _ hs _ _ _ hu => hu⟩
    subst hb
    exact bne_iff_ne.mp (List.all_eq_true.mp h arg harg)
  accepts := .inl trivial

open Classical in
/-- A run that gives `PATH` no value for a while never gives up for a path that was remembered. -/
theorem pathWatch_implies (v : FileView) :
    pathWatch.Implies (transparencyWatch v) (settledUnder v) where
  admits {s t node} hst _ := by
    obtain rfl : t = s := hst.2.2 trivial
    exact decide_eq_true (hashTransparent_of_settled hst.1)
  admitsBuiltin _ := rfl
  admitsTexts _ := rfl
  accepts {s t node place} hst _ := by
    obtain rfl : t = s := hst.2.2 trivial
    exact decide_eq_true (hashTransparent_of_settled hst.1)

/-- A script that gives `PATH` no value for a while, and is run while files stay as they are, finds
every command where a search finds it: in the state it ends in, and before and after each command
in it. -/
theorem hash_transparent (v : FileView) (depth : Nat) (script : Text) (s : Shell)
    (es : List Event) (o : Outcome (Except Stop Unit × Shell))
    (hs : PathsSettled v s.variables.bindings s.variables.frames s.definitions.paths)
    (h : (((watchedOf pathWatch depth).source script).startedIn s).Comes es o)
    (hes : ∀ e ∈ es, v.Agrees e) (ho : o ≠ .asks (.exit abandonCode)) :
    (((evaluatorOf depth).source script).startedIn s).Comes es o ∧
      (((watchedOf (transparencyWatch v) depth).source script).startedIn s).Comes es o ∧
      ∀ r t, o = .done (r, t) → t.HashTransparent v ∧
        PathsSettled v t.variables.bindings t.variables.frames t.definitions.paths := by
  have hreal := (watched_alike (pathWatch_ensures v) (pathWatch.implies_all _) depth).source script
  have hchecked := (watched_alike (pathWatch_ensures v) (pathWatch_implies v) depth).source script
  rw [watchedOf_all] at hreal
  obtain ⟨hcomes, hend⟩ := hreal.comes trivial hs h hes ho
  refine ⟨hcomes, (hchecked.comes trivial hs h hes ho).1, fun r t ht => ?_⟩
  have hsettled := hend r t ht
  exact ⟨hashTransparent_of_settled hsettled, hsettled⟩

/-- The state of a shell that searches one directory. -/
def searching (dir : Text) : Shell :=
  { «variables» := { bindings := ⟨[("PATH", { value := some dir })]⟩ } }

/-- Files that can all be executed. -/
def allExecutable : FileView where
  status _ _ := .ok ⟨.regular, 0o755, 0, 1, 0⟩
  access _ _ := .ok ()

/-- What the system is asked for a file that can be executed, and that no signal arrived. -/
def hashEvents (path : Host.Bytes) : List Event :=
  [⟨.fileStatus path true, .ok ⟨.regular, 0o755, 0, 1, 0⟩⟩, ⟨.access path .execute, .ok ()⟩,
    ⟨.takeArrived, false⟩]

theorem agrees_hashEvents (path : Host.Bytes) : ∀ e ∈ hashEvents path, allExecutable.Agrees e := by
  refine List.forall_mem_cons.mpr ⟨fun r hr => Option.some.inj hr, ?_⟩
  refine List.forall_mem_cons.mpr ⟨fun r hr => Option.some.inj hr, ?_⟩
  exact List.forall_mem_cons.mpr ⟨fun r hr => (nomatch hr), fun _ he => absurd he List.not_mem_nil⟩

theorem pathsSettled_searching (dir : Text) :
    PathsSettled v (searching dir).variables.bindings (searching dir).variables.frames
      (searching dir).definitions.paths :=
  .of_empty fun _ hf => absurd hf List.not_mem_nil

/-- `hash t` remembers `/a/t`. -/
theorem hash_transparent_hash :
    ∃ o, (((watchedOf pathWatch 3).source "hash t").startedIn (searching "/a")).Comes
        (hashEvents [47, 97, 47, 116]) o ∧ o ≠ .asks (.exit abandonCode) ∧
      (((evaluatorOf 3).source "hash t").startedIn (searching "/a")).Comes
        (hashEvents [47, 97, 47, 116]) o ∧
      (((watchedOf (transparencyWatch allExecutable) 3).source "hash t").startedIn
        (searching "/a")).Comes (hashEvents [47, 97, 47, 116]) o ∧
      ∀ r t, o = .done (r, t) → t.HashTransparent allExecutable ∧
        PathsSettled allExecutable t.variables.bindings t.variables.frames t.definitions.paths := by
  obtain ⟨r, hr, -⟩ := Host.Program.comes_of_endsIn (f := fun _ => true)
    (show (((watchedOf pathWatch 3).source "hash t").startedIn (searching "/a")).endsIn _
      (hashEvents [47, 97, 47, 116]) = true by decide +kernel)
  exact ⟨_, hr, (nomatch ·), hash_transparent allExecutable 3 "hash t" (searching "/a") _ _
    (pathsSettled_searching _) hr (agrees_hashEvents _) (nomatch ·)⟩

/-- `PATH=/b hash t` leaves a path behind that is not where `t` is found afterwards. -/
theorem not_hash_transparent :
    ¬ ∀ (v : FileView) (depth : Nat) (script : Text) (s : Shell) (es : List Event)
      (r : Except Stop Unit) (t : Shell),
      PathsSettled v s.variables.bindings s.variables.frames s.definitions.paths →
      (((evaluatorOf depth).source script).startedIn s).Comes es (.done (r, t)) →
      (∀ e ∈ es, v.Agrees e) → t.HashTransparent v := by
  intro h
  obtain ⟨⟨r, t⟩, hr, ht⟩ := Host.Program.comes_of_endsIn
    (f := fun r => r.2.value? "PATH" == some ("/a" : Text) &&
      r.2.definitions.paths.get? "t" == some ("/b/t" : Text))
    (show (((evaluatorOf 4).source "PATH=/b hash t").startedIn (searching "/a")).endsIn _
      (hashEvents [47, 98, 47, 116]) = true by decide +kernel)
  obtain ⟨hpath, hget⟩ := Bool.and_eq_true_iff.mp ht
  have htransparent := h allExecutable 4 _ _ _ r t (pathsSettled_searching _) hr
    (agrees_hashEvents _)
  have heq := htransparent.findUnder_eq (by decide) (eq_of_beq hget) (by decide)
  have hdir : pathOf t.variables.bindings = "/a" := by
    show (t.value? "PATH").getD [] = _
    rw [eq_of_beq hpath]
    rfl
  have hfind : findUnder allExecutable "t" "/a" = .found "/a/t" := by decide
  rw [hdir, hfind] at heq
  exact absurd (Except.ok.inj heq) (by decide)

end CommandShell.Shell
