import CommandShell.Proofs.Procedures.Trails

/-!
# Signals that were ignored from the start

A shell that is not interactive looks at the signals that it may lock when it starts, and remembers
which of them it finds ignored. `LeavesAlone` says that a signal is remembered and ignored and has no
trap. Every act keeps it so (`Acts.leavesAlone`): a trap that is set is for another signal, and so is an
order to the system, but for those of a child, which are to ignore it. So all that a shell and its
children do keeps it so, from startup files to the command for the end (`ignored_signals_stay_ignored`).

The shell looks at `INT`, `QUIT`, `TERM` and `HUP` and at no other signal. Any other that was ignored may
get a trap (`not_ignored_signals_stay_ignored`).
-/

namespace CommandShell

open Host (Call Disposition Event Program)
open Host.Program (Comes Reaches)

theorem Host.Program.Comes.of_call {α : Type} {c : Call} {k : Host.Reply c → Program α}
    {es : List Event} {a : α} (h : (Program.call c k).Comes es (.done a)) :
    ∃ r es', es = ⟨c, r⟩ :: es' ∧ (k r).Comes es' (.done a) := by
  cases h with
  | step h => exact ⟨_, _, rfl, h⟩

namespace Dispositions

variable {D : Dispositions} {es es' : List Event}

/-- The answer to a call that sets a signal is what was done with the signal before. -/
def Answers (D : Dispositions) : Event → Bool
  | ⟨.setDisposition s _, old⟩ => old = D s
  | _ => true

/-- Each answer is true of what the calls before it made of the signals. -/
def Truthful (D : Dispositions) : List Event → Bool
  | [] => true
  | e :: es => D.Answers e && Truthful (D.afterCall e) es

theorem truthful_append :
    D.Truthful (es ++ es') ↔ D.Truthful es ∧ (D.after es).Truthful es' := by
  induction es generalizing D with
  | nil => exact (and_iff_right rfl).symm
  | cons e es ih =>
      simp only [List.cons_append, Truthful, Bool.and_eq_true, ih, and_assoc]
      rfl

/-- To look at a signal is to set it, and to set it back. -/
theorem set_set_self (D : Dispositions) (s : Signal) (d : Disposition) :
    (D.set s d).set s (D s) = D := by
  unfold set
  split
  · rfl
  · rw [Function.update_idem, Function.update_eq_self]

/-- An order about another signal, or to ignore the signal, leaves it ignored. -/
theorem set_ignored {s s' : Signal} {d : Disposition} (h : D s = .ignore)
    (hd : s' = s → d = .ignore) : D.set s' d s = .ignore := by
  by_cases hs : s' = s
  · subst hs
    rw [hd rfl]
    cases hcatch : s'.uncatchable with
    | true => exact (set_of_uncatchable hcatch D s' _).trans h
    | false => exact set_self hcatch D _
  · exact (set_of_ne (Ne.symm hs) D d).trans h

end Dispositions

theorem Traps.get?_inSubshell_of_eq_none {ts : Traps} {n : Nat} (h : ts.get? n = none) :
    ts.inSubshell.get? n = none :=
  List.lookup_eq_none_iff.mpr fun entry hentry =>
    List.lookup_eq_none_iff.mp h entry (List.mem_filter.mp hentry).1

namespace Shell

variable {sig : Signal} {D : Dispositions} {s t u : Shell} {a : Act} {as : List Act} {α β : Type}

/-! ## Acts -/

/-- A signal is remembered as one that was ignored from the start, is ignored, and has no trap. -/
structure LeavesAlone (sh : Shell) (sig : Signal) (D : Dispositions) : Prop where
  locked : sh.traps.isLocked sig.number = true
  untrapped : sh.traps.get? sig.number = none
  ignored : D sig = .ignore

/-- No act changes which signals are remembered. -/
theorem Acts.locked (h : Acts s a t) : t.traps.locked = s.traps.locked := by
  cases h with
  | calls _ => rfl
  | changes _ _ _ => rfl
  | sets options => rfl
  | traps _ action => rfl
  | parts => rfl
  | ends =>
      unfold takeExitCommand
      split
      · rfl
      · rfl
  | works _ _ htraps _ => rw [htraps]

theorem Acts.isLocked (h : Acts s a t) (n : Nat) : t.traps.isLocked n = s.traps.isLocked n := by
  unfold Traps.isLocked
  rw [h.locked]

theorem not_mem_actions_of_get?_eq_none {ts : Traps} {n : Nat} (h : ts.get? n = none)
    (action : TrapAction) : (n, action) ∉ ts.actions := by
  intro hmem
  have hne := List.lookup_eq_none_iff.mp h _ hmem
  simp at hne

/-- A child is told to ignore the signal, or nothing about it. -/
theorem LeavesAlone.ignore_of_orders {d : Disposition} (h : s.LeavesAlone sig D)
    (hd : s.Orders sig d) : d = .ignore := by
  cases hd with
  | own hfree => exact absurd (hfree.symm.trans h.locked) Bool.false_ne_true
  | child quiet hd =>
      rcases List.mem_append.mp hd with hd | hd
      · obtain ⟨sig', -, heq⟩ := List.mem_map.mp hd
        cases heq
        unfold Traps.childDisposition
        rw [h.locked]
        rfl
      · obtain ⟨⟨n, action⟩, hmem, heq⟩ := List.mem_filterMap.mp hd
        dsimp only at heq
        split at heq
        · rename_i hn
          cases heq
          rw [← Signal.number_of_ofNumber? hn] at hmem
          exact absurd hmem (not_mem_actions_of_get?_eq_none h.untrapped _)
        · cases heq

/-- What the shell leaves alone, it leaves alone after the next act. -/
theorem Acts.leavesAlone (h : Acts s a t) (hs : s.LeavesAlone sig D) :
    t.LeavesAlone sig (D.after (events [a])) := by
  refine ⟨(h.isLocked _).trans hs.locked, ?_, ?_⟩
  · cases h with
    | calls _ => exact hs.untrapped
    | changes _ _ _ => exact hs.untrapped
    | sets options => exact hs.untrapped
    | traps hfree action =>
        -- a signal that gets a trap is not remembered, so it is another one
        refine (Traps.get?_set _ _ _ _).trans ((if_neg ?_).trans hs.untrapped)
        rintro rfl
        exact absurd (hfree.symm.trans hs.locked) Bool.false_ne_true
    | parts => exact Traps.get?_inSubshell_of_eq_none hs.untrapped
    | ends =>
        unfold takeExitCommand
        split
        · exact hs.untrapped
        · exact (Traps.get?_set _ _ _ _).trans (by split <;> first | rfl | exact hs.untrapped)
    | works _ _ htraps _ => exact htraps ▸ hs.untrapped
  · cases h with
    | calls hissues =>
        rename_i e
        obtain ⟨c, r⟩ := e
        cases c with
        | setDisposition sig' d =>
            refine Dispositions.set_ignored hs.ignored ?_
            rintro rfl
            exact hs.ignore_of_orders hissues
        | _ => exact hs.ignored
    | _ => exact hs.ignored

theorem Trail.leavesAlone (h : Trail s as t) (hs : s.LeavesAlone sig D) :
    t.LeavesAlone sig (D.after (events as)) := by
  induction h generalizing D with
  | nil s => exact hs
  | @cons s t u a as ha _ ih =>
      rw [show a :: as = [a] ++ as from rfl, events_append, Dispositions.after_append]
      exact ih (ha.leavesAlone hs)

/-- A trail at no state of which a signal is anything but left alone. -/
def Trail.Spares (sig : Signal) (D : Dispositions) (s : Shell) (as : List Act) : Prop :=
  ∀ as₁ as₂ t, as₁ ++ as₂ = as → Trail s as₁ t → t.LeavesAlone sig (D.after (events as₁))

/-- However far a computation came, the signal was left alone all the way. -/
theorem Trails.spares {x : ShellM α} (hx : Trails x) (hs : s.LeavesAlone sig D)
    {es : List Event} {p : Program (Except Stop α × Shell)} (h : Reaches (x.startedIn s) es p) :
    ∃ as t, Trail s as t ∧ events as = es ∧ Traces t p ∧ Trail.Spares sig D s as := by
  obtain ⟨as, t, has, hes, hp⟩ := (hx s).reaches h
  exact ⟨as, t, has, hes, hp, fun as₁ _ _ _ h₁ => h₁.leavesAlone hs⟩

theorem Trails.leavesAlone {x : ShellM α} (hx : Trails x) (hs : s.LeavesAlone sig D)
    {es : List Event} {r : Except Stop α} (h : (x.startedIn s).Comes es (.done (r, t))) :
    t.LeavesAlone sig (D.after es) := by
  obtain ⟨as, has, rfl⟩ := (hx s).comes h
  exact has.leavesAlone hs

/-! ## Nothing about signals -/

/-- A computation that does nothing about signals. -/
class LeavesSignals (x : ShellM α) : Prop where
  comes : ∀ {s es r t}, (x.startedIn s).Comes es (.done (r, t)) →
    t.traps = s.traps ∧ ∀ D : Dispositions, D.after es = D

theorem leavesSignals_silent {x : ShellM α}
    (h : ∀ s, ∃ r t, x.startedIn s = .done (r, t) ∧ t.traps = s.traps) : LeavesSignals x := by
  constructor
  intro s es r t hrun
  obtain ⟨r', t', hx, htraps⟩ := h s
  rw [hx] at hrun
  cases hrun
  exact ⟨htraps, fun _ => rfl⟩

instance leavesSignals_pure (a : α) : LeavesSignals (pure a : ShellM α) :=
  leavesSignals_silent fun s => ⟨.ok a, s, rfl, rfl⟩

instance leavesSignals_get : LeavesSignals (get : ShellM Shell) :=
  leavesSignals_silent fun s => ⟨.ok s, s, rfl, rfl⟩

instance leavesSignals_modifyVariables (f : Variables → Variables) :
    LeavesSignals (modifyVariables f) :=
  leavesSignals_silent fun s => ⟨.ok (), { s with «variables» := f s.variables }, rfl, rfl⟩

instance leavesSignals_updateVariables (f : Variables → Except Fault Variables) :
    LeavesSignals (updateVariables f) := by
  refine leavesSignals_silent fun s => ?_
  show ∃ r t, (do
    let vs ← ofExcept (f s.variables)
    modify fun sh => { sh with «variables» := vs } : ShellM Unit).startedIn s = _ ∧ _
  cases f s.variables with
  | ok vs => exact ⟨.ok (), { s with «variables» := vs }, rfl, rfl⟩
  | error e => exact ⟨.error (.ofFault e), s, rfl, rfl⟩

instance leavesSignals_ask (c : Call) [h : Evident c.isPlain] :
    @LeavesSignals (no_index (Host.Reply c)) (ask c) := by
  constructor
  intro s es r t hrun
  cases hrun with
  | step hdone =>
      cases hdone
      refine ⟨rfl, fun D => ?_⟩
      cases c with
      | setDisposition sig d => cases h.holds
      | _ => rfl

protected theorem LeavesSignals.bind {x : ShellM α} {f : α → ShellM β} [hx : LeavesSignals x]
    (hf : ∀ a, LeavesSignals (f a)) : LeavesSignals (x >>= f) := by
  constructor
  intro s es r t h
  obtain ⟨es₁, es₂, ⟨r₁, t₁⟩, rfl, h₁, h₂⟩ := Comes.of_bind h
  obtain ⟨htraps, hD⟩ := hx.comes h₁
  cases r₁ with
  | ok a =>
      obtain ⟨htraps', hD'⟩ := (hf a).comes h₂
      exact ⟨htraps'.trans htraps, fun D => by rw [Dispositions.after_append, hD, hD']⟩
  | error e =>
      cases h₂
      exact ⟨htraps, fun D => by rw [List.append_nil, hD]⟩

instance leavesSignals_bind {x : ShellM α} {f : α → ShellM β} [LeavesSignals x]
    [hf : ∀ a, LeavesSignals (f a)] : LeavesSignals (x >>= f) := .bind hf

instance leavesSignals_ite {c : Prop} [Decidable c] {x y : ShellM α} [hx : LeavesSignals x]
    [hy : LeavesSignals y] : LeavesSignals (if c then x else y) := by
  split
  · exact hx
  · exact hy

theorem leavesSignals_of_neverEnds (x : ShellM α) [h : NeverEnds x] : LeavesSignals x := by
  constructor
  intro s es r t hrun
  exact (Program.Always.of_comes (h.always s fun _ => False) hrun).elim

end Shell

/-! ## The start of a shell -/

namespace Startup

open Shell

variable {α : Type} {D : Dispositions} {sig : Signal} {s t : Shell} {es : List Event}
  {environment : List Host.Bytes} {name : Text} {line : CommandLine}

instance leavesSignals_setDefault (name value : Text) : LeavesSignals (setDefault name value) :=
  leavesSignals_updateVariables _

instance leavesSignals_setMissing (name value : Text) : LeavesSignals (setMissing name value) :=
  leavesSignals_bind

instance leavesSignals_inheritedDirectoryHolds (directory : Host.Bytes) :
    LeavesSignals (inheritedDirectoryHolds directory) := by
  refine .bind fun s => ?_
  split
  · refine .bind fun r => ?_
    cases r with
    | ok real => infer_instance
    | error e => infer_instance
  · infer_instance

instance leavesSignals_setUpDirectory : LeavesSignals setUpDirectory := by
  refine .bind fun r => ?_
  cases r with
  | ok directory => infer_instance
  | error e => infer_instance

instance leavesSignals_setUpVariables (environment : List Host.Bytes) :
    LeavesSignals (setUpVariables environment) :=
  .bind fun _ => .bind fun _ => .bind fun _ => .bind fun _ => .bind fun _ => inferInstance

instance leavesSignals_refuse (message : Text) (code : Int) :
    LeavesSignals (refuse message code : ShellM α) := by
  have hnever : NeverEnds (refuse message code : ShellM α) := neverEnds_bind
  exact leavesSignals_of_neverEnds _

instance leavesSignals_openFile (path : Text) (flags : Host.OpenFlags) :
    LeavesSignals (openFile path flags) := by
  unfold openFile
  cases pathBytes? path with
  | some p => infer_instance
  | none => infer_instance

instance leavesSignals_openScript (path : Text) : LeavesSignals (openScript path) := by
  refine .bind fun r => ?_
  cases r with
  | error e => infer_instance
  | ok fd =>
      refine .bind fun r => ?_
      cases r with
      | error e => infer_instance
      | ok high => infer_instance

instance leavesSignals_openSource (source : CommandSource) : LeavesSignals (openSource source) := by
  cases source with
  | text t => exact leavesSignals_pure _
  | file path => exact leavesSignals_bind
  | standardInput => exact leavesSignals_pure _

/-- The signals that are found ignored are those that are, and they stay so. -/
theorem comes_ignoredAmong {ss : List Signal} {r : Except Stop (List Signal)}
    (h : ((ignoredAmong ss).startedIn s).Comes es (.done (r, t))) (hes : D.Truthful es) :
    r = .ok (ss.filter fun sig => D sig = .ignore) ∧ t = s ∧ D.after es = D := by
  induction ss generalizing es r t with
  | nil =>
      cases h
      exact ⟨rfl, rfl, rfl⟩
  | cons sig ss ih =>
      obtain ⟨old, es, rfl, hback⟩ := Comes.of_call h
      obtain ⟨back, es, rfl, hmore⟩ := Comes.of_call hback
      replace hmore : ((do
          let more ← ignoredAmong ss
          return if old = .ignore then sig :: more else more : ShellM (List Signal)).startedIn
        s).Comes es (.done (r, t)) := hmore
      obtain ⟨hold, hes⟩ := Bool.and_eq_true_iff.mp hes
      obtain rfl : old = D sig := of_decide_eq_true hold
      replace hes := (Bool.and_eq_true_iff.mp hes).2
      -- the answer was true, so the second call puts back what the first one changed
      have hlooked : Dispositions.afterCall (D.afterCall ⟨.setDisposition sig .default, D sig⟩)
          ⟨.setDisposition sig (D sig), back⟩ = D := D.set_set_self sig .default
      rw [hlooked] at hes
      obtain ⟨es, es', ⟨r₁, t₁⟩, rfl, h₁, h₂⟩ := Comes.of_bind hmore
      obtain ⟨rfl, rfl, hD⟩ := ih h₁ (Dispositions.truthful_append.mp hes).1
      cases h₂
      refine ⟨?_, rfl, ?_⟩
      · rw [List.filter_cons]
        split <;> simp_all
      · show Dispositions.after (Dispositions.afterCall _ _) (es ++ []) = D
        rw [hlooked, List.append_nil, hD]

/-- The shell remembers the signals that it looks at and finds ignored, and leaves them as they are. -/
theorem comes_lockIgnored {r : Except Stop Unit}
    (h : (lockIgnored.startedIn s).Comes es (.done (r, t))) (hes : D.Truthful es) :
    r = .ok () ∧ D.after es = D ∧ t = { s with traps := { s.traps with
      locked := s.traps.locked ++ lockable.filter fun sig => D sig = .ignore } } := by
  obtain ⟨es₁, es₂, ⟨r₁, t₁⟩, rfl, h₁, h₂⟩ := Comes.of_bind h
  have hignored : ((ignoredAmong lockable).startedIn s).Comes es₁ (.done (r₁, t₁)) := h₁
  obtain ⟨rfl, rfl, hD⟩ := comes_ignoredAmong hignored (Dispositions.truthful_append.mp hes).1
  cases h₂
  exact ⟨rfl, (List.append_nil es₁).symm ▸ hD, rfl⟩

/-- What a shell does with signals once it looked which of them are ignored. -/
def takeUp (options : CommandShell.Options) : ShellM Unit := do
  if options.has .monitor then Commands.setUpJobControl
  refreshSignals

instance procedure_takeUp {ev : Evaluator} {E : Exits} (options : CommandShell.Options) :
    Procedure ev E (takeUp options) := by
  unfold takeUp
  infer_instance

theorem settles_findTerminal (s : Shell) : Settles Commands.findTerminal s s id := by
  refine (Settles.ask (fun _ _ => rfl) s).after fun r => ?_
  cases r with
  | error e => exact Settles.pure _ s
  | ok fd =>
      refine (Settles.ask (fun _ _ => rfl) s).after fun terminal => ?_
      split
      · exact Settles.pure _ s
      · exact Settles.pure _ s

theorem comes_setUpJobControl {r : Except Stop Unit}
    (h : (Commands.setUpJobControl.startedIn s).Comes es (.done (r, t))) :
    r = .ok () ∧ t.isInteractive = s.isInteractive ∧ t.traps = s.traps := by
  obtain ⟨es₁, es₂, ⟨r₁, t₁⟩, rfl, h₁, h₂⟩ := Comes.of_bind h
  obtain ⟨⟨terminal, rfl⟩, rfl, -⟩ := settles_findTerminal s _ _ _ h₁
  cases terminal with
  | some fd =>
      cases h₂
      exact ⟨rfl, rfl, rfl⟩
  | none =>
      cases h₂
      exact ⟨rfl, rfl, rfl⟩

/-- Whether the shell talks to a person stays as it is, and so does what is remembered. -/
theorem comes_takeUp {options : CommandShell.Options} {r : Except Stop Unit}
    (h : ((takeUp options).startedIn s).Comes es (.done (r, t))) :
    t.isInteractive = s.isInteractive ∧ t.traps = s.traps := by
  unfold takeUp at h
  split at h
  · obtain ⟨es₁, es₂, ⟨r₁, t₁⟩, rfl, h₁, h₂⟩ := Comes.of_bind h
    obtain ⟨rfl, hkept⟩ := comes_setUpJobControl h₁
    obtain ⟨-, rfl, -⟩ := settles_refreshSignals t₁ _ _ _ h₂
    exact hkept
  · obtain ⟨-, rfl, -⟩ := settles_refreshSignals s _ _ _ h
    exact ⟨rfl, rfl⟩

theorem settles_isConversation (source : CommandSource) (s : Shell) :
    Settles (isConversation source) s s id := by
  unfold isConversation
  split
  · refine (Settles.ask (fun _ _ => rfl) s).after fun terminal => ?_
    split
    · exact Settles.ask (fun _ _ => rfl) s
    · exact Settles.pure _ s
  · exact Settles.pure _ s

/-- The signals that a shell remembers are those that it looks at and finds ignored, if it does not
talk to a person, and it leaves them alone. -/
theorem comes_configure {r : Except Stop Unit} (hfresh : s.traps = {})
    (h : ((configure name line).startedIn s).Comes es (.done (r, t))) (hes : D.Truthful es)
    (hplain : t.isInteractive = false) :
    t.traps.locked = lockable.filter (fun sig => D sig = .ignore) ∧
      ∀ sig ∈ lockable, D sig = .ignore → t.LeavesAlone sig (D.after es) := by
  obtain ⟨es₁, es₂, ⟨r₁, t₁⟩, rfl, h₁, h₂⟩ := Comes.of_bind h
  obtain ⟨⟨conversation, rfl⟩, rfl, hD⟩ := settles_isConversation _ _ _ _ _ h₁
  have hes₂ := (Dispositions.truthful_append.mp hes).2
  rw [hD, id] at hes₂
  rw [Dispositions.after_append, hD, id]
  let options := startOptions line conversation
  let u : Shell := { t₁ with
    options
    name := line.name.getD name
    «variables» := t₁.variables.withParams line.params }
  have hu : u.traps = {} := hfresh
  have hrest : ((if !options.has .interactive then do
      lockIgnored
      takeUp options
    else takeUp options : ShellM Unit).startedIn u).Comes es₂ (.done (r, t)) := h₂
  split at hrest
  · obtain ⟨es₃, es₄, ⟨r₃, t₃⟩, rfl, h₃, h₄⟩ := Comes.of_bind hrest
    obtain ⟨rfl, hD₃, rfl⟩ := comes_lockIgnored h₃ (Dispositions.truthful_append.mp hes₂).1
    have hlocked : t.traps.locked = lockable.filter fun sig => D sig = .ignore := by
      rw [(comes_takeUp h₄).2]
      simp [hu]
    refine ⟨hlocked, fun sig hsig hD => ?_⟩
    rw [Dispositions.after_append, hD₃]
    refine Trails.leavesAlone ((procedure_takeUp (E := .any) options).trails (allTrails_evaluatorOf 0))
      ⟨?_, ?_, hD⟩ h₄
    · simp only [Traps.isLocked, hu, List.nil_append, List.any_filter, List.any_eq_true]
      exact ⟨sig, hsig, by simp [hD]⟩
    · rw [hu]
      rfl
  · rename_i hinteractive
    have htalks : t.isInteractive = options.has .interactive := (comes_takeUp hrest).1
    simp [htalks.symm.trans hplain] at hinteractive

/-- A fresh shell has no trap. -/
theorem comes_setUp {r : Except Stop Unit}
    (h : ((setUp environment).startedIn s).Comes es (.done (r, t))) :
    t.traps = {} ∧ ∀ D : Dispositions, D.after es = D := by
  obtain ⟨es₁, es₂, ⟨r₁, t₁⟩, rfl, h₁, h₂⟩ := Comes.of_bind h
  have hpid : ((ask .processId).startedIn s).Comes es₁ (.done (r₁, t₁)) := h₁
  have hasks := LeavesSignals.comes hpid
  obtain ⟨pid, rfl⟩ : ∃ pid, r₁ = .ok pid := by
    cases hpid with
    | step h => cases h; exact ⟨_, rfl⟩
  have hvariables : ((setUpVariables environment).startedIn { pid }).Comes es₂ (.done (r, t)) := h₂
  have hsets := LeavesSignals.comes hvariables
  refine ⟨hsets.1, fun D => ?_⟩
  rw [Dispositions.after_append, hasks.2, hsets.2]

/-- What a shell remembers when it starts. -/
theorem comes_start {source : ScriptSource}
    (h : ((start environment name line).startedIn s).Comes es (.done (.ok source, t)))
    (hes : D.Truthful es) (hplain : t.isInteractive = false) :
    t.traps.locked = lockable.filter (fun sig => D sig = .ignore) ∧
      ∀ sig ∈ lockable, D sig = .ignore → t.LeavesAlone sig (D.after es) := by
  obtain ⟨es₁, es, ⟨r₁, t₁⟩, rfl, h₁, h⟩ := Comes.of_bind h
  have hfresh := comes_setUp h₁
  cases r₁ with
  | error e => cases h
  | ok u =>
      obtain ⟨es₂, es, ⟨r₂, t₂⟩, rfl, h₂, h⟩ := Comes.of_bind h
      have hopens := LeavesSignals.comes (x := openSource line.source) h₂
      cases r₂ with
      | error e => cases h
      | ok source' =>
          obtain ⟨es₃, es₄, ⟨r₃, t₃⟩, rfl, h₃, h₄⟩ := Comes.of_bind h
          rw [Dispositions.truthful_append, Dispositions.truthful_append, hfresh.2, hopens.2,
            Dispositions.truthful_append] at hes
          rw [Dispositions.after_append, Dispositions.after_append, hfresh.2, hopens.2]
          cases r₃ with
          | error e => cases h₄
          | ok u' =>
              cases h₄
              rw [List.append_nil]
              exact comes_configure (hopens.1.trans hfresh.1) h₃ hes.2.2.1 hplain

/-- A shell that is not interactive remembers the signals that it looks at and finds ignored when it
starts. From then on, however far the shell or a child of it came, whatever scripts did, and in every
state on the way, such a signal was ignored and had no trap. Every command leaves it so. -/
theorem ignored_signals_stay_ignored {source : ScriptSource}
    (h : ((start environment name line).startedIn s).Comes es (.done (.ok source, t)))
    (hes : D.Truthful es) (hplain : t.isInteractive = false) :
    t.traps.locked = lockable.filter (fun sig => D sig = .ignore) ∧
      ∀ sig ∈ lockable, D sig = .ignore → t.LeavesAlone sig (D.after es) ∧
        (∀ (depth : Nat) (login : Bool) (source' : ScriptSource) (es' : List Event)
            (p : Program (Except Stop Empty × Shell)),
          Reaches ((live (evaluatorOf depth) line login source').startedIn t) es' p →
          ∃ as u, Trail t as u ∧ events as = es' ∧ Traces u p ∧
            Trail.Spares sig (D.after es) t as) ∧
        ∀ (depth : Nat) (node : Script.Node) (place : Place) (u v : Shell) (D' : Dispositions)
            (es' : List Event) (r' : Except Stop Unit), u.LeavesAlone sig D' →
          (((evaluatorOf depth).node node place).startedIn u).Comes es' (.done (r', v)) →
          v.LeavesAlone sig (D'.after es') := by
  obtain ⟨hlocked, hleaves⟩ := comes_start h hes hplain
  refine ⟨hlocked, fun sig hsig hD => ⟨hleaves sig hsig hD, ?_, ?_⟩⟩
  · intro depth login source' es' p hp
    have hlive := (procedure_live (α := Empty) (E := .any) line login source').trails
      (allTrails_evaluatorOf depth)
    exact hlive.spares (hleaves sig hsig hD) hp
  · intro depth node place u v D' es' r' hu hrun
    exact ((allTrails_evaluatorOf depth).node node place).leavesAlone hu hrun

/-- All signals at their defaults but one that is ignored. -/
def ignoring (sig : Signal) : Dispositions := Dispositions.set (fun _ => .default) sig .ignore

/-- A command line that has the shell run a text. -/
def runs (text : Text) : CommandLine :=
  { source := .text text, options := .none, interactive := false, login := false, decidesMonitor := false }

/-- What such a shell asks when it starts, in a process that ignores one of the signals. -/
def startEvents (sig : Signal) : List Event :=
  [⟨.processId, 7⟩, ⟨.userName, none⟩, ⟨.parentId, 1⟩, ⟨.currentDirectory, .error .noEntry⟩] ++
  (lockable.flatMap fun s =>
    [⟨.setDisposition s .default, ignoring sig s⟩, ⟨.setDisposition s (ignoring sig s), .default⟩]) ++
  ((Traps.managed.filter fun s => s ≠ sig || s ∉ lockable).map fun s =>
    ⟨.setDisposition s .default, ignoring sig s⟩)

/-- The command `trap x` for a condition. -/
def trapCommand (condition : Text) : Script.Node :=
  .mk (.simple [] ([("trap" : Text), "x", condition].map fun t => .mk t [.literal t] 1) []) 1

theorem truthful_startEvents (sig : Signal) : (ignoring sig).Truthful (startEvents sig) := by
  cases sig <;> rfl

/-- A shell that was started with `INT` ignored sets no trap for it. -/
theorem ignored_signals_stay_ignored_interrupt :
    ∃ source t, ((start [] [] (runs "trap x INT")).startedIn {}).Comes (startEvents .int)
        (.done (.ok source, t)) ∧
      ∀ es r u, (((evaluatorOf 4).node (trapCommand "INT") {}).startedIn t).Comes es (.done (r, u)) →
        u.LeavesAlone .int (((ignoring .int).after (startEvents .int)).after es) := by
  obtain ⟨⟨r, t⟩, hrun, ht⟩ := Host.Program.comes_of_endsIn
    (show ((start [] [] (runs "trap x INT")).startedIn {}).endsIn
      (fun r => r.1.isOk && !r.2.isInteractive) (startEvents .int) = true by decide +kernel)
  obtain ⟨hr, hplain⟩ := Bool.and_eq_true_iff.mp ht
  cases r with
  | error e => cases hr
  | ok source =>
      obtain ⟨-, hleaves⟩ := ignored_signals_stay_ignored hrun (truthful_startEvents .int)
        (by simpa using hplain)
      obtain ⟨hint, -, hkeeps⟩ := hleaves .int (by decide) (by decide)
      exact ⟨source, t, hrun, fun es r u h => hkeeps 4 (trapCommand "INT") {} t u _ es r hint h⟩

/-- A shell that was started with `USR1` ignored sets a trap for it. -/
theorem not_ignored_signals_stay_ignored :
    ¬ ∀ (D : Dispositions) (t : Shell) (es : List Event) (r : Except Stop Unit)
        (environment : List Host.Bytes) (name : Text) (line : CommandLine) (node : Script.Node)
        (sig : Signal),
      ((do
          let _ ← start environment name line
          (evaluatorOf 4).node node {} : ShellM Unit).startedIn {}).Comes es (.done (r, t)) →
      D.Truthful es → t.isInteractive = false → D sig = .ignore →
      D.after es sig = .ignore ∧ t.traps.get? sig.number = none := by
  intro h
  obtain ⟨⟨r, t⟩, hrun, ht⟩ := Host.Program.comes_of_endsIn
    (show ((do
        let _ ← start [] [] (runs "trap x USR1")
        (evaluatorOf 4).node (trapCommand "USR1") {} : ShellM Unit).startedIn {}).endsIn
      (fun r => !r.2.isInteractive)
      (startEvents .usr1 ++ [⟨.setDisposition .usr1 .caught, .ignore⟩, ⟨.takeArrived, false⟩]) = true by
        decide +kernel)
  have hignored := (h (ignoring .usr1) _ _ _ _ _ _ _ .usr1 hrun
    (Dispositions.truthful_append.mpr ⟨truthful_startEvents .usr1, by decide⟩)
    (by simpa using ht) (by decide)).1
  exact absurd hignored (by decide)

end Startup

end CommandShell
