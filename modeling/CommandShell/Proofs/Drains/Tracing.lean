import CommandShell.Proofs.Drains

/-!
# Runs are paths

A process keeps a diary of the signals that arrived and of the calls that were made, in this order
(`Diary`). Signals may arrive at any moment of a run. Whatever a shell has done up to some moment is a path
of the machine, with the same marks, with the calls of the run and no others, and with the signals arriving
between the same calls (`Tracks.reaches`).
-/

namespace CommandShell

open Host (Arrivals Call Event Program Reply Surroundings)
open Host.Program (Reaches)
open Shell (evaluatorOf Routine StaysStill LeavesMarks)

/-! ## Diaries -/

/-- What happens to a process. -/
inductive Entry where
  | arrived (s : Signal)
  | called (e : Event)

/-- The marks of a process, with what happened to it. -/
structure Diary where
  marks : Arrivals
  entries : List Entry

/-- Signals arrive at any moment. -/
def signals : Surroundings Diary where
  drifts d d' := ∃ s, d' = ⟨d.marks.note s, d.entries ++ [.arrived s]⟩
  answers d e d' := d.marks.answers e.1 e.2 d'.marks ∧ d'.entries = d.entries ++ [.called e]

namespace Vigil

/-- What the diary tells of a deed. -/
def Deed.entries : Deed → List Entry
  | .arrives s => [.arrived s]
  | d => (d.event?.map .called).toList

variable {α β γ : Type} {W W' : Scope} {c c' : Control} {ds ds' : List Deed} {d d' : Diary}
  {es : List Event}

/-! ## Programs on the machine -/

/-- A program that does what a path from a control on does, call by call, and whose results are related to
the control that it comes to. -/
def Tracks (W : Scope) (Q : α → Control → Prop) : Program α → Control → Prop
  | .done b, c => ∃ ds c', ds.flatMap Deed.entries = [] ∧ (∀ a, Path W ⟨c, a⟩ ds ⟨c', a⟩) ∧ Q b c'
  | .call q k, c => ∀ a r a', a.answers q r a' → ∃ ds c', ds.flatMap Deed.entries = [.called ⟨q, r⟩] ∧
      Path W ⟨c, a⟩ ds ⟨c', a'⟩ ∧ Tracks W Q (k r) c'

namespace Tracks

variable {Q : α → Control → Prop} {R : β → Control → Prop} {p : Program α}

/-- The machine may go ahead of the program by steps that leave the marks alone. -/
theorem of_path (hds : ds.flatMap Deed.entries = []) (h : ∀ a, Path W ⟨c, a⟩ ds ⟨c', a⟩)
    (hp : Tracks W Q p c') : Tracks W Q p c := by
  cases p with
  | done b =>
      obtain ⟨ds', c'', hds', hpath, hQ⟩ := hp
      exact ⟨ds ++ ds', c'', by simp [hds, hds'], fun a => (h a).append (hpath a), hQ⟩
  | call q k =>
      intro a r a' ha
      obtain ⟨ds', c'', hds', hpath, hk⟩ := hp a r a' ha
      exact ⟨ds ++ ds', c'', by simp [hds, hds'], (h a).append hpath, hk⟩

theorem of_step {e : Deed} (he : e.entries = []) (h : ∀ a, Step W ⟨c, a⟩ e ⟨c', a⟩)
    (hp : Tracks W Q p c') : Tracks W Q p c := by
  refine of_path ?_ (fun a => (h a).path) hp
  rw [List.flatMap_singleton]
  exact he

protected theorem done {b : α} (h : Q b c) : Tracks W Q (.done b) c :=
  ⟨[], c, rfl, fun _ => .nil _, h⟩

protected theorem bind {f : α → Program β} (hf : ∀ a c, Q a c → Tracks W R (f a) c) (hp : Tracks W Q p c) :
    Tracks W R (p.bind f) c := by
  induction p generalizing c with
  | done a =>
      obtain ⟨ds, c', hds, hpath, hQ⟩ := hp
      exact of_path hds hpath (hf a c' hQ)
  | call q k ih =>
      intro a r a' ha
      obtain ⟨ds, c', hds, hpath, hk⟩ := hp a r a' ha
      exact ⟨ds, c', hds, hpath, ih r hk⟩

/-- What is known of the results. -/
theorem and_always {P : α → Prop} (h : p.Always P) (hp : Tracks W Q p c) :
    Tracks W (fun b c => P b ∧ Q b c) p c := by
  induction p generalizing c with
  | done b =>
      obtain ⟨ds, c', hds, hpath, hQ⟩ := hp
      exact ⟨ds, c', hds, hpath, h, hQ⟩
  | call q k ih =>
      intro a r a' ha
      obtain ⟨ds, c', hds, hpath, hk⟩ := hp a r a' ha
      exact ⟨ds, c', hds, hpath, ih r (h r) hk⟩

/-- A path may contain more. -/
theorem mono (hdepths : ∀ n, W.depths n → W'.depths n) (houtside : W.outside → W'.outside)
    (hp : Tracks W Q p c) : Tracks W' Q p c := by
  induction p generalizing c with
  | done b =>
      obtain ⟨ds, c', hds, hpath, hQ⟩ := hp
      exact ⟨ds, c', hds, fun a => (hpath a).mono hdepths houtside, hQ⟩
  | call q k ih =>
      intro a r a' ha
      obtain ⟨ds, c', hds, hpath, hk⟩ := hp a r a' ha
      exact ⟨ds, c', hds, hpath.mono hdepths houtside, ih r hk⟩

/-- A step that answers the call that the program makes. -/
theorem of_call {q : Call} {k : Reply q → Program α} (h : ∀ a r a', a.answers q r a' → ∃ e c',
    e.entries = [.called ⟨q, r⟩] ∧ Step W ⟨c, a⟩ e ⟨c', a'⟩ ∧ Tracks W Q (k r) c') :
    Tracks W Q (.call q k) c := by
  intro a r a' ha
  obtain ⟨e, c', he, hstep, hk⟩ := h a r a' ha
  refine ⟨[e], c', ?_, hstep.path, hk⟩
  rw [List.flatMap_singleton]
  exact he

/-- The command of a trap is run by the machine call by call. -/
theorem of_body {later : List Signal} {status : Int} (body : Program (Except Stop Unit × Shell)) :
    Tracks W (fun b c => c = .running later status (.done b)) body (.running later status body) := by
  induction body with
  | done b => exact .done rfl
  | call q k ih => exact .of_call fun a r a' ha => ⟨.answers ⟨q, r⟩, _, rfl, .answers ha, ih r⟩

/-- The message about the error of a command is written call by call. -/
theorem of_message {later : List Signal} {status : Int} (message : Program (Except Stop Unit × Shell)) :
    Tracks W (fun b c => c = .telling later status (.done b)) message (.telling later status message) := by
  induction message with
  | done b => exact .done rfl
  | call q k ih => exact .of_call fun a r a' ha => ⟨.answers ⟨q, r⟩, _, rfl, .tells ha, ih r⟩

/-- A sequence, with what holds between its parts. -/
theorem run_bind {x : ShellM α} {f : α → ShellM β} {s : Shell}
    {Q : Except Stop α × Shell → Control → Prop} {R : Except Stop β × Shell → Control → Prop}
    (hx : Tracks W Q (x.startedIn s) c)
    (hok : ∀ a t c, Q (.ok a, t) c → Tracks W R ((f a).startedIn t) c)
    (herror : ∀ e t c, Q (.error e, t) c → R (.error e, t) c) :
    Tracks W R ((x >>= f).startedIn s) c := by
  show Tracks W R ((x.startedIn s).bind _) c
  refine Tracks.bind ?_ hx
  rintro ⟨r, t⟩ c h
  cases r with
  | ok a => exact hok a t c h
  | error e => exact .done (herror e t c h)

/-- What follows a call goes on from the answer. -/
theorem ask_bind {q : Call} {f : Reply q → ShellM β} {s : Shell}
    {R : Except Stop β × Shell → Control → Prop}
    (h : ∀ a r a', a.answers q r a' → ∃ e c', e.entries = [.called ⟨q, r⟩] ∧
      Step W ⟨c, a⟩ e ⟨c', a'⟩ ∧ Tracks W R ((f r).startedIn s) c') :
    Tracks W R ((Shell.ask q >>= f).startedIn s) c := of_call h

theorem get_bind {f : Shell → ShellM β} {s : Shell} {R : Except Stop β × Shell → Control → Prop}
    (h : Tracks W R ((f s).startedIn s) c) : Tracks W R ((get >>= f).startedIn s) c := h

/-- What follows an attempt is done however the attempt ended. -/
theorem attempt_bind {x : ShellM α} {f : Except Stop α → ShellM β} {s : Shell}
    {Q : Except Stop α × Shell → Control → Prop} {R : Except Stop β × Shell → Control → Prop}
    (hx : Tracks W Q (x.startedIn s) c)
    (hf : ∀ r t c, Q (r, t) c → Tracks W R ((f r).startedIn t) c) :
    Tracks W R ((Shell.attempt x >>= f).startedIn s) c := by
  have hattempt : Tracks W (fun b c => ∃ r, b.1 = .ok r ∧ Q (r, b.2) c)
      ((Shell.attempt x).startedIn s) c := by
    show Tracks W _ ((x.startedIn s).bind _) c
    refine Tracks.bind ?_ hx
    exact fun b c h => .done ⟨b.1, rfl, h⟩
  refine run_bind hattempt ?_ ?_
  · rintro r t c ⟨r', heq, h⟩
    cases heq
    exact hf r t c h
  · rintro e t c ⟨r', heq, -⟩
    cases heq

end Tracks

/-- What happens while time goes by. -/
theorem path_of_drifts (h : signals.Drifts d d') (c : Control) :
    ∃ ds, Path W ⟨c, d.marks⟩ ds ⟨c, d'.marks⟩ ∧ d'.entries = d.entries ++ ds.flatMap Deed.entries := by
  induction h with
  | refl => exact ⟨[], .nil _, (List.append_nil _).symm⟩
  | tail _ hstep ih =>
      obtain ⟨ds, hpath, hentries⟩ := ih
      obtain ⟨s, rfl⟩ := hstep
      exact ⟨ds ++ [.arrives s], hpath.append (Step.arrives s).path, by simp [hentries, Deed.entries]⟩

/-- A run of a program that tracks the machine is a path. -/
theorem Tracks.reaches {Q : α → Control → Prop} {p q : Program α} (hp : Tracks W Q p c)
    (h : Reaches p es q) (ht : signals.Takes d es d') :
    ∃ ds c', Path W ⟨c, d.marks⟩ ds ⟨c', d'.marks⟩ ∧
      d'.entries = d.entries ++ ds.flatMap Deed.entries ∧ Tracks W Q q c' := by
  induction h generalizing c d with
  | here p =>
      cases ht with
      | idle hd =>
          obtain ⟨ds, hpath, hentries⟩ := path_of_drifts hd c
          exact ⟨ds, c, hpath, hentries, hp⟩
  | step _ ih =>
      cases ht with
      | call hd ha ht =>
          -- signals arrive first, then the call is made, then the rest of the run follows
          obtain ⟨ds₁, hpath₁, hentries₁⟩ := path_of_drifts hd c
          obtain ⟨ds₂, c₂, hds₂, hpath₂, hk⟩ := hp _ _ _ ha.1
          obtain ⟨ds₃, c₃, hpath₃, hentries₃, hq⟩ := ih hk ht
          refine ⟨ds₁ ++ ds₂ ++ ds₃, c₃, (hpath₁.append hpath₂).append hpath₃, ?_, hq⟩
          rw [hentries₃, ha.2, hentries₁, ← hds₂]
          simp

/-! ## Drains -/

section

variable {depth : Nat} {sh : Shell}

theorem tracks_anyPending (later : List Signal) (sh : Shell) :
    Tracks W (fun b c => b.2 = sh ∧ ∃ found, b.1 = .ok found ∧
      c = if found = true then .found sh else .leaving [] sh)
      ((Shell.anyPending later).startedIn sh) (.leaving later sh) := by
  induction later with
  | nil => exact .done ⟨rfl, false, rfl, rfl⟩
  | cons s later ih =>
      apply Tracks.of_call
      rintro a r a' ⟨hr, rfl⟩
      cases r with
      | true => exact ⟨.finds s, .found sh, rfl, .finds hr.symm, .done ⟨rfl, true, rfl, rfl⟩⟩
      | false => exact ⟨.misses s, .leaving later sh, rfl, .misses hr.symm, ih⟩

/-- The machine at the end of a drain that got through all signals, or at rest after it was left. -/
def Handled (later : List Signal) (b : Except Stop α × Shell) (c : Control) : Prop :=
  b.2.inTrap = false ∧ c = if b.1.isOk = true then .scanning later b.2 else .rest b.2

/-- What a drain does with the command of a trap. -/
theorem tracks_runTrap (later : List Signal) (t : Text) :
    Tracks W (Handled later) ((Shell.runTrap (evaluatorOf depth) later t).startedIn sh)
      (.running later sh.status (((evaluatorOf depth).source t).startedIn { sh with inTrap := true })) := by
  show Tracks W _
    ((Shell.attempt ((evaluatorOf depth).source t) >>= _).startedIn { sh with inTrap := true }) _
  -- the body runs call by call, and then the drain looks at how it ended
  refine Tracks.attempt_bind (.of_body _) ?_
  rintro r u c rfl
  cases r with
  | ok v => exact .of_step rfl (fun a => .stops) (.done ⟨rfl, rfl⟩)
  | error e =>
      show Tracks W _ ((if e.isJump = true then do
          if ← Shell.anyPending later then Shell.ask .markArrived
          throw e
        else do
          Shell.reportStop e
          Shell.setStatus sh.status : ShellM Unit).startedIn { u with inTrap := false }) _
      split
      -- the jump leaves the drain, which announces the marks that it did not come to
      · rename_i hjump
        refine .of_step rfl (fun a => .jumps hjump) (.run_bind (tracks_anyPending later _) ?_ ?_)
        · rintro found v c ⟨rfl, found', heq, rfl⟩
          cases heq
          cases found with
          | true =>
              apply Tracks.of_call
              rintro a r a' rfl
              exact ⟨.announces, .rest { u with inTrap := false }, rfl, .announces, .done ⟨rfl, rfl⟩⟩
          | false => exact .of_step rfl (fun a => .leaves) (.done ⟨rfl, rfl⟩)
        · rintro e v c ⟨rfl, found', heq, rfl⟩
          cases heq
      · rename_i hjump
        have hkept : ((Shell.reportStop e).startedIn { u with inTrap := false }).Always
            fun b => b = (.ok (), { u with inTrap := false }) :=
          (Shell.always_ok_of_keeps _).mono fun _ ⟨(), hb⟩ => hb
        refine .of_step rfl (fun a => .fails (Bool.eq_false_iff.mpr hjump))
          (((Tracks.of_message _).and_always hkept).run_bind ?_ ?_)
        · rintro v w c ⟨heq, rfl⟩
          cases heq
          exact .of_step rfl (fun a => .told) (.done ⟨rfl, rfl⟩)
        · rintro e v c ⟨heq, rfl⟩
          cases heq

/-- A drain over some signals. -/
theorem tracks_handleArrived (hW : W.depths depth) (hsh : sh.inTrap = false) (ss : List Signal) :
    Tracks W (Handled []) ((Shell.handleArrived (evaluatorOf depth) ss).startedIn sh)
      (.scanning ss sh) := by
  induction ss generalizing sh with
  | nil => exact .done ⟨hsh, rfl⟩
  | cons s later ih =>
      unfold Shell.handleArrived
      -- one call takes the mark of the signal, if it has one
      refine .ask_bind ?_
      rintro a r a' ⟨hr, rfl⟩
      cases r with
      | false =>
          refine ⟨.passes s, .scanning later sh, rfl, ?_, ih hsh⟩
          rw [Host.Arrivals.take_eq_self hr.symm]
          exact .passes hr.symm
      | true =>
          cases htrap : sh.traps.get? s.number with
          | some action =>
              cases action with
              | command t =>
                  refine ⟨.runs s t, _, rfl, .runs hW hr.symm htrap, .get_bind ?_⟩
                  rw [htrap]
                  refine (tracks_runTrap later t).run_bind ?_ ?_
                  · rintro _ u c ⟨hu, rfl⟩
                    exact ih hu
                  · rintro e u c ⟨hu, rfl⟩
                    exact ⟨hu, rfl⟩
              | ignore =>
                  -- without a command the signal is taken and nothing is run
                  refine ⟨.drops s, _, rfl, .drops hr.symm fun t ht => ?_, .get_bind ?_⟩
                  · cases htrap.symm.trans ht
                  · rw [htrap]
                    exact ih hsh
          | none =>
              refine ⟨.drops s, _, rfl, .drops hr.symm fun t ht => ?_, .get_bind ?_⟩
              · cases htrap.symm.trans ht
              · rw [htrap]
                refine (ih hsh).run_bind ?_ ?_
                · rintro rest u c ⟨hu, rfl⟩
                  exact .done ⟨hu, rfl⟩
                · rintro e u c ⟨hu, rfl⟩
                  exact ⟨hu, rfl⟩

end

/-! ## Shells at rest -/

/-- The machine is at rest in the state that a computation came to. -/
def Rests (b : Except Stop α × Shell) (c : Control) : Prop := b.2.inTrap = false ∧ c = .rest b.2

/-- Outside of traps a computation is one that the machine does. -/
def Attends (W : Scope) (x : ShellM α) : Prop :=
  ∀ sh, sh.inTrap = false → Tracks W Rests (x.startedIn sh) (.rest sh)

namespace Attends

theorem mono (hdepths : ∀ n, W.depths n → W'.depths n) (houtside : W.outside → W'.outside)
    {x : ShellM α} (hx : Attends W x) : Attends W' x :=
  fun sh hsh => (hx sh hsh).mono hdepths houtside

theorem silent (hW : W.outside) {x : ShellM α}
    (h : ∀ s, ∃ r t, x.startedIn s = .done (r, t) ∧ Shell.Alters s t) : Attends W x := by
  intro sh hsh
  obtain ⟨r, t, hx, ht⟩ := h sh
  rw [hx]
  exact .of_step rfl (fun a => .works hW ht) (.done ⟨ht.inTrap.trans hsh, rfl⟩)

protected theorem ask (hW : W.outside) {q : Call} (h : q.isPlain = true) : Attends W (Shell.ask q) :=
  fun sh hsh => .of_call fun _ r _ ha => ⟨.calls ⟨q, r⟩, .rest sh, rfl,
    .calls hW (Shell.issues_of_isPlain h sh) (Host.Call.leavesMarks_of_isPlain h) ha, .done ⟨hsh, rfl⟩⟩

/-- Signals are set in the state that gives the orders. -/
theorem orders (hW : W.outside) {f : Shell → List (Signal × Host.Disposition) × Shell}
    (halters : ∀ s, Shell.Alters s (f s).2) (h : ∀ s, ∀ sd ∈ (f s).1, (f s).2.Orders sd.1 sd.2) :
    Attends W (do Shell.setDispositions (← modifyGet f)) := by
  intro sh hsh
  have hin : (f sh).2.inTrap = false := (halters sh).inTrap.trans hsh
  refine .of_step rfl (fun a => .works hW (halters sh)) ?_
  show Tracks W Rests ((Shell.setDispositions (f sh).1).startedIn (f sh).2) (.rest (f sh).2)
  have hds := h sh
  revert hds
  generalize (f sh).1 = ds
  intro hds
  induction ds with
  | nil => exact .done ⟨hin, rfl⟩
  | cons sd ds ih =>
      have hrest := ih fun sd' hsd' => hds sd' (List.mem_cons_of_mem _ hsd')
      exact .of_call fun _ r _ ha =>
        ⟨.calls ⟨_, r⟩, .rest _, rfl, .calls hW (hds sd List.mem_cons_self) rfl ha, hrest⟩

protected theorem bind {x : ShellM α} {f : α → ShellM β} (hx : Attends W x) (hf : ∀ a, Attends W (f a)) :
    Attends W (x >>= f) := by
  intro sh hsh
  refine (hx sh hsh).run_bind ?_ ?_
  · rintro a t c ⟨ht, rfl⟩
    exact hf a t ht
  · rintro e t c ⟨ht, rfl⟩
    exact ⟨ht, rfl⟩

protected theorem attempt {x : ShellM α} (hx : Attends W x) : Attends W (Shell.attempt x) := by
  intro sh hsh
  show Tracks W _ ((x.startedIn sh).bind _) _
  refine Tracks.bind ?_ (hx sh hsh)
  rintro b c ⟨hb, rfl⟩
  exact .done ⟨hb, rfl⟩

/-- A drain is one of the machine, which does nothing else meanwhile. -/
theorem runTraps (depth : Nat) : Attends (.drain depth) (Shell.runTraps (evaluatorOf depth)) := by
  intro sh hsh
  show Tracks _ _ ((if sh.inTrap = true then return else do
    if !(← Shell.ask .takeArrived) then return
    if ← Shell.handleArrived (evaluatorOf depth) Signal.all then Shell.jump .interrupted :
    ShellM Unit).startedIn sh) _
  rw [if_neg (Bool.eq_false_iff.mp hsh)]
  refine .of_call ?_
  rintro a r a' ⟨hr, rfl⟩
  cases r with
  | false =>
      refine ⟨.idles, .rest sh, rfl, ?_, .done ⟨hsh, rfl⟩⟩
      obtain ⟨any, pending⟩ := a
      obtain rfl : any = false := hr.symm
      exact .idles rfl
  | true =>
      refine ⟨.begins, .scanning Signal.all sh, rfl, .begins hsh hr.symm,
        (tracks_handleArrived (W := .drain depth) rfl hsh Signal.all).run_bind ?_ ?_⟩
      · rintro interrupted u c ⟨hu, rfl⟩
        refine .of_step rfl (fun a => .ends) ?_
        cases interrupted with
        | true => exact .done ⟨hu, rfl⟩
        | false => exact .done ⟨hu, rfl⟩
      · rintro e u c ⟨hu, rfl⟩
        exact ⟨hu, rfl⟩

end Attends

/-- An evaluator all whose commands the machine does. -/
structure AllAttend (W : Scope) (ev : Evaluator) : Prop where
  node : ∀ node place, Attends W (ev.node node place)
  source : ∀ t, Attends W (ev.source t)
  command : ∀ args, Attends W (ev.command args)
  builtin : ∀ b name args, Attends W (ev.builtin b name args)

theorem attends_of_routine {depth : Nat} {x : ShellM α} (h : Routine (evaluatorOf depth) x)
    (hev : AllAttend (.shell depth) (evaluatorOf depth)) : Attends (.shell depth) x := by
  induction h with
  | silent h => exact .silent trivial h
  | ask c h => exact .ask trivial h
  | orders halters h => exact .orders trivial halters h
  | sequence _ _ ihx ihf => exact ihx.bind ihf
  | attempt _ ih => exact ih.attempt
  | node node place => exact hev.node node place
  | source t => exact hev.source t
  | command args => exact hev.command args
  | builtin b name args => exact hev.builtin b name args
  | drain => exact (Attends.runTraps depth).mono (fun _ => Nat.le_of_eq) False.elim

theorem allAttend_evaluatorOf (depth : Nat) : AllAttend (.shell depth) (evaluatorOf depth) := by
  induction depth with
  | zero =>
      have hfail : ∀ f, Attends (.shell 0) (Shell.fail f : ShellM Unit) :=
        fun f => .silent trivial fun s => ⟨.error (.ofFault f), s, rfl, .refl s⟩
      exact ⟨fun _ _ => hfail _, fun _ => hfail _, fun _ => hfail _, fun _ _ _ => hfail _⟩
  | succ depth ih =>
      -- what is one deeper is made of what the deeper evaluator does
      have hdeeper : ∀ {x : ShellM Unit}, Routine (evaluatorOf depth) x → Attends (.shell (depth + 1)) x :=
        fun hx => (attends_of_routine hx ih).mono (fun _ => Nat.le_succ_of_le) fun _ => trivial
      exact ⟨fun node place => hdeeper (Shell.routine_runNode node place),
        fun t => hdeeper (Shell.routine_runText t),
        fun args => hdeeper (Shell.routine_runArguments .empty args [] [] {}),
        fun b name args => hdeeper (Shell.routine_runBuiltin b name args)⟩

end Vigil

end CommandShell
