import CommandShell.Proofs.Drains.Tracing
import CommandShell.Proofs.Procedures.Trails

/-!
# No trapped signal is lost

`trapped_signals_answered` says what becomes of signals that arrive at any moment, also during a drain.
All that a shell does is a path of the machine of drains, call by call. On every path a signal that waits
to be handled is announced whenever no drain is in progress, also after a drain that was left early. A
signal that arrives is taken by the end of the next drain that gets through, which runs the command of its
trap, if there is one by then. No trap begins inside another one, and a drain that does not fail leaves `$?`
alone.

A trap may be gone when the drain comes to its signal, for instance because another trap removed it. Its
command is not run then (`not_trapped_signals_answered`).
-/

namespace CommandShell

open Host (Arrivals Call Reply)
open Host.Program (Comes Reaches)

namespace Shell

variable {α β : Type} {ev : Evaluator}

/-! ## Drains and `$?` -/

/-- A computation that does not fail has `$?` as it was. -/
def KeepsStatus (x : ShellM α) : Prop :=
  ∀ s, (x.startedIn s).Always fun b => ∀ a, b.1 = .ok a → b.2.status = s.status

namespace KeepsStatus

protected theorem pure (a : α) : KeepsStatus (pure a : ShellM α) := fun _ _ _ => rfl

protected theorem jump (j : Jump) : KeepsStatus (jump j : ShellM α) := fun _ _ h => nomatch h

protected theorem ask (c : Call) : KeepsStatus (ask c) := fun _ _ _ _ => rfl

protected theorem get : KeepsStatus (get : ShellM Shell) := fun _ _ _ => rfl

protected theorem bind {x : ShellM α} {f : α → ShellM β} (hx : KeepsStatus x)
    (hf : ∀ a, KeepsStatus (f a)) : KeepsStatus (x >>= f) := by
  intro s
  show ((x.startedIn s).bind _).Always _
  rw [Host.Program.always_bind]
  refine (hx s).mono ?_
  rintro ⟨r, t⟩ ht
  cases r with
  | ok a =>
      have hstatus : t.status = s.status := ht a rfl
      rw [← hstatus]
      exact hf a t
  | error e => exact fun _ h => nomatch h

/-- `$?` is set back after the command of a trap, unless that jumped. -/
theorem runTrap (later : List Signal) (t : Text) : KeepsStatus (runTrap ev later t) := by
  intro s
  show ((attempt (ev.source t) >>= _).startedIn { s with inTrap := true }).Always _
  refine always_attempt_bind (P := fun _ => True) (Host.Program.always_of (fun _ => trivial) _)
    fun r u _ => ?_
  cases r with
  -- a command that did not fail leaves the status that there was before it
  | ok v => exact fun _ _ => rfl
  | error e =>
      show ((if e.isJump = true then do
          if ← anyPending later then ask .markArrived
          throw e
        else do
          reportStop e
          setStatus s.status : ShellM Unit).startedIn { u with inTrap := false }).Always _
      split
      -- a jump is handed on, so that the drain fails whether another signal waits or not
      · refine always_bind (P := fun _ => True) (Host.Program.always_of (fun _ => trivial) _)
          (fun found v _ => ?_) fun _ _ _ _ h => nomatch h
        cases found with
        | true => exact fun _ _ h => nomatch h
        | false => exact fun _ h => nomatch h
      · exact always_bind (P := fun _ => True) (Host.Program.always_of (fun _ => trivial) _)
          (fun _ _ _ _ _ => rfl) fun _ _ _ _ h => nomatch h

theorem handleArrived (ss : List Signal) : KeepsStatus (handleArrived ev ss) := by
  induction ss with
  | nil => exact .pure _
  | cons s later ih =>
      refine .bind (.ask _) fun taken => ?_
      split
      · exact ih
      · refine .bind .get fun sh => ?_
        split
        · exact .bind (.runTrap later _) fun _ => ih
        · exact ih
        · exact .bind ih fun _ => .pure _

theorem runTraps : KeepsStatus (runTraps ev) := by
  refine .bind .get fun sh => ?_
  split
  · exact .pure _
  · refine .bind (.ask _) fun arrived => ?_
    split
    · exact .pure _
    · refine .bind (.handleArrived _) fun interrupted => ?_
      split
      · exact .jump _
      · exact .pure _

end KeepsStatus

end Shell

namespace Vigil

open Shell (evaluatorOf Procedure)

variable {α : Type} {W : Scope}

/-! ## Runs -/

/-- What a computation has done so far, begun outside of traps, is a path of the machine with the same calls
and the same arrivals between them, and it ends at rest in the state that the computation comes to. -/
def Traced (W : Scope) (x : ShellM α) : Prop :=
  ∀ ⦃sh : Shell⦄ ⦃d d' : Diary⦄ ⦃es q⦄, sh.inTrap = false → Reaches (x.startedIn sh) es q →
    signals.Takes d es d' → ∃ ds c, Path W ⟨.rest sh, d.marks⟩ ds ⟨c, d'.marks⟩ ∧
      d'.entries = d.entries ++ ds.flatMap Deed.entries ∧ ∀ r t, q = .done (r, t) → c = .rest t

theorem Attends.traced {x : ShellM α} (h : Attends W x) : Traced W x := by
  intro sh d d' es q hsh hq ht
  obtain ⟨ds, c, hpath, hentries, htracks⟩ := (h sh hsh).reaches hq ht
  cases q with
  | done b =>
      obtain ⟨ds', c', hds', hpath', -, rfl⟩ := htracks
      refine ⟨ds ++ ds', _, hpath.append (hpath' _), by simp [hentries, hds'], fun r t heq => ?_⟩
      cases heq
      rfl
  | call c' k => exact ⟨ds, c, hpath, hentries, fun r t heq => nomatch heq⟩

theorem traced_of_procedure {depth : Nat} {x : ShellM α} (h : Procedure (evaluatorOf depth) .within x) :
    Traced (.shell depth) x :=
  (attends_of_routine h.routine (allAttend_evaluatorOf depth)).traced

/-! ## The fate of a signal -/

/-- Whatever a shell has done so far, with signals arriving at any moment, is a path of the machine with the
same calls: all that a shell does once it has its options, each script and each command. A drain is one in
which nothing is done but what a drain does, and commands of traps are run as the evaluator runs them.

On every path that begins at rest with no mark overlooked: marks are announced whenever the shell is at rest;
a signal that arrives is taken by the end of the next drain that gets through; when it is taken the command
that its trap has is started, unless it has none; a trap comes to its end before another one begins, and its
command makes no call that a drain makes. And `$?` is the same after a drain that does not fail. -/
theorem trapped_signals_answered (depth : Nat) :
    ((∀ line login source,
        Traced (.shell depth) (Startup.live (evaluatorOf depth) line login source : ShellM Empty)) ∧
      (∀ top src, Traced (.shell depth) (Shell.runSource (evaluatorOf depth) top src)) ∧
      (∀ node place, Traced (.shell depth) ((evaluatorOf depth).node node place)) ∧
      Traced (.drain depth) (Shell.runTraps (evaluatorOf depth))) ∧
    (∀ (W : Scope) (sh : Shell) (a : Arrivals), a.Announced →
      (∀ (ds : List Deed) (sh' : Shell) (a' : Arrivals), Path W ⟨.rest sh, a⟩ ds ⟨.rest sh', a'⟩ →
        a'.Announced) ∧
      (∀ (ds₀ ds ds' : List Deed) (s : Signal) (m : Vigil),
        Path W ⟨.rest sh, a⟩ (ds₀ ++ .arrives s :: ds ++ .begins :: ds' ++ [.ends true]) m →
        (∃ t, .runs s t ∈ ds ++ ds') ∨ .drops s ∈ ds ++ ds') ∧
      (∀ (ds : List Deed) (s : Signal) (c : Control) (a' : Arrivals),
        (∀ t, Path W ⟨.rest sh, a⟩ (ds ++ [.runs s t]) ⟨c, a'⟩ →
          ∃ (n : Nat) (later : List Signal) (u : Shell), W.depths n ∧
            u.traps.get? s.number = some (.command t) ∧
            c = .running later u.status (((evaluatorOf n).source t).startedIn { u with inTrap := true })) ∧
        (Path W ⟨.rest sh, a⟩ (ds ++ [.drops s]) ⟨c, a'⟩ →
          ∃ (later : List Signal) (u : Shell), c = .scanning later u ∧
            ∀ t, u.traps.get? s.number ≠ some (.command t))) ∧
      (∀ (ds₀ ds : List Deed) (s s' : Signal) (t t' : Text) (m : Vigil),
        Path W ⟨.rest sh, a⟩ (ds₀ ++ .runs s t :: ds ++ [.runs s' t']) m → .stops ∈ ds) ∧
      ∀ (ds : List Deed) (later : List Signal) (status : Int) (c : Call)
        (k : Reply c → Host.Program (Except Stop Unit × Shell)) (a' : Arrivals),
        Path W ⟨.rest sh, a⟩ ds ⟨.running later status (.call c k), a'⟩ → c.leavesMarks = true) ∧
    ∀ sh : Shell, ((Shell.runTraps (evaluatorOf depth)).startedIn sh).Always fun b =>
      b.1 = .ok () → b.2.status = sh.status := by
  refine ⟨⟨fun line login source => traced_of_procedure (Startup.procedure_live line login source),
    fun top src => traced_of_procedure (Shell.procedure_runSource top src),
    fun node place => ((allAttend_evaluatorOf depth).node node place).traced,
    (Attends.runTraps depth).traced⟩, fun W sh a ha => ?paths, fun sh => ?status⟩
  case paths =>
    have hsound := sound_rest sh ha
    refine ⟨fun ds sh' a' h => h.announced hsound rfl, fun ds₀ ds ds' s m h => ?_,
      fun ds s c a' => ⟨fun t h => h.starts, fun h => h.lacks⟩,
      fun ds₀ ds s s' t t' m h => h.stops_between,
      fun ds later status c k a' h => ((h.sound hsound).body _ rfl).1⟩
    -- the deed that took the signal either ran a command or dropped it
    obtain ⟨e, he, htaken⟩ := Path.takes hsound h
    cases e with
    | runs s' t =>
        obtain rfl : s' = s := Option.some.inj htaken
        exact .inl ⟨t, he⟩
    | drops s' =>
        obtain rfl : s' = s := Option.some.inj htaken
        exact .inr he
    | _ => cases htaken
  case status => exact (Shell.KeepsStatus.runTraps sh).mono fun b h hb => h () hb

/-! ## A trap that removes another one -/

/-- A shell with a trap that removes the other one. -/
def twoTraps : Shell where
  traps := (({} : Traps).set Signal.usr2.number (some (.command "echo two"))).set Signal.usr1.number
    (some (.command "trap - USR2"))

/-- The one call of the trap that removes the other one. -/
def removalCall : Host.Event := ⟨.setDisposition .usr2 .default, .caught⟩

/-- What a drain does when both signals arrived. -/
def removal : List Deed :=
  (Signal.all.take 9).map .passes ++
    [.runs .usr1 "trap - USR2", .answers removalCall, .stops, .passes .segv, .drops .usr2] ++
    (Signal.all.drop 12).map .passes

theorem path_passes (ss later : List Signal) (sh : Shell) (a : Arrivals)
    (h : ∀ s ∈ ss, a.isPending s = false) :
    Path W ⟨.scanning (ss ++ later) sh, a⟩ (ss.map .passes) ⟨.scanning later sh, a⟩ := by
  induction ss with
  | nil => exact .nil _
  | cons s ss ih =>
      exact .step (.passes (h s List.mem_cons_self)) (ih fun s' hs' => h s' (List.mem_cons_of_mem _ hs'))

theorem path_of_reaches (later : List Signal) (status : Int) {a : Arrivals}
    {p q : Host.Program (Except Stop Unit × Shell)} {es : List Host.Event} (h : Reaches p es q)
    (hes : ∀ e ∈ es, a.answers e.1 e.2 a) :
    Path W ⟨.running later status p, a⟩ (es.map .answers) ⟨.running later status q, a⟩ := by
  induction h with
  | here p => exact .nil _
  | step _ ih =>
      exact .step (.answers (hes _ List.mem_cons_self)) (ih fun e he => hes e (List.mem_cons_of_mem _ he))

theorem path_removal : ∃ sh, Path (.drain 4) ⟨.rest twoTraps, {}⟩
    (.arrives .usr2 :: [.arrives .usr1] ++ .begins :: removal ++ [.ends true]) ⟨.rest sh, {}⟩ := by
  -- the evaluator's run of the first trap, which takes the second one off
  obtain ⟨⟨r, u⟩, hrun, hend⟩ := Host.Program.comes_of_endsIn
    (show (((evaluatorOf 4).source "trap - USR2").startedIn { twoTraps with inTrap := true }).endsIn
      (fun b => b.1.isOk && (b.2.traps.get? Signal.usr2.number).isNone)
      [removalCall] = true by decide +kernel)
  obtain ⟨hr, hu⟩ := Bool.and_eq_true_iff.mp hend
  cases r with
  | error e => cases hr
  | ok v =>
      let now : Shell := { u with inTrap := false, status := twoTraps.status }
      let both : Arrivals := { any := false, pending := [.usr2, .usr1] }
      let second : Arrivals := { any := false, pending := [.usr2] }
      have hnone : ∀ t, now.traps.get? Signal.usr2.number ≠ some (.command t) := by
        intro t ht
        rw [show now.traps.get? Signal.usr2.number = none from Option.isNone_iff_eq_none.mp hu] at ht
        cases ht
      have hanswers : ∀ e ∈ [removalCall], second.answers e.1 e.2 second := by
        intro e he
        obtain rfl := List.mem_singleton.mp he
        rfl
      -- nine signals come before the first of the two, one between them, and the rest after
      have hbefore := path_passes (W := .drain 4) (Signal.all.take 9) (Signal.all.drop 9) twoTraps both
        (by decide)
      have hbody := path_of_reaches (W := .drain 4) (Signal.all.drop 10) twoTraps.status hrun hanswers
      have hafter := path_passes (W := .drain 4) (Signal.all.drop 12) [] now {} (by decide)
      have hdrain : Path (.drain 4) ⟨.scanning Signal.all twoTraps, both⟩ (removal ++ [.ends true])
          ⟨.rest now, {}⟩ := by
        refine ((hbefore.append ?_).append hafter).append (Step.ends.path)
        have hdepth : (Scope.drain 4).depths 4 := rfl
        refine .step (.runs hdepth rfl rfl) (hbody.append ?_)
        exact .step .stops (.step (.passes rfl) (.step (.drops rfl hnone) (.nil _)))
      exact ⟨now, .step (.arrives .usr2) (.step (.arrives .usr1) (.step (.begins rfl rfl) hdrain))⟩

/-- The calls of a drain for signals that do not wait. -/
def passedBy (ss : List Signal) : List Host.Event := ss.map fun s => ⟨.takePending s, false⟩

/-- The calls of a drain that comes to both signals. -/
def removalCalls : List Host.Event :=
  ⟨.takeArrived, true⟩ :: passedBy (Signal.all.take 9) ++
    [⟨.takePending .usr1, true⟩, removalCall, ⟨.takePending .segv, false⟩, ⟨.takePending .usr2, true⟩] ++
    passedBy (Signal.all.drop 12)

/-- Calls and their answers, with what the diary tells of them. -/
theorem takes_called {a b : Arrivals} {l : List Entry} {e : Host.Event} {es : List Host.Event}
    {d : Diary} (h : a.answers e.1 e.2 b) (ht : signals.Takes ⟨b, l ++ [.called e]⟩ es d) :
    signals.Takes ⟨a, l⟩ (e :: es) d := .call .refl ⟨h, rfl⟩ ht

theorem takes_passedBy (ss : List Signal) {a : Arrivals} (l : List Entry)
    (h : ∀ s ∈ ss, a.isPending s = false) :
    signals.Takes ⟨a, l⟩ (passedBy ss) ⟨a, l ++ (passedBy ss).map .called⟩ := by
  induction ss generalizing l with
  | nil =>
      rw [show l ++ (passedBy []).map .called = l from List.append_nil l]
      exact .idle .refl
  | cons s ss ih =>
      have hs := h s List.mem_cons_self
      have hrest := ih (l ++ [.called ⟨.takePending s, false⟩])
        fun s' hs' => h s' (List.mem_cons_of_mem _ hs')
      rw [List.append_assoc] at hrest
      exact takes_called ⟨hs.symm, (Host.Arrivals.take_eq_self hs).symm⟩ hrest

/-- Both signals are taken, in the run of the drain and on the path. -/
theorem trapped_signals_answered_removal :
    (∃ ds c, Path (.drain 4) ⟨.rest twoTraps, ⟨true, [.usr2, .usr1]⟩⟩ ds ⟨c, {}⟩ ∧
      ds.flatMap Deed.entries = removalCalls.map .called) ∧
    ((∃ t, Deed.runs .usr2 t ∈ [.arrives .usr1] ++ removal) ∨
      Deed.drops .usr2 ∈ [.arrives .usr1] ++ removal) := by
  obtain ⟨⟨-, -, -, hdrain⟩, hpaths, -⟩ := trapped_signals_answered 4
  constructor
  · obtain ⟨b, hrun, -⟩ := Host.Program.comes_of_endsIn
      (show ((Shell.runTraps (evaluatorOf 4)).startedIn twoTraps).endsIn (fun b => b.1.isOk)
        removalCalls = true by decide +kernel)
    have hboth : ∀ l, signals.Takes ⟨⟨false, [.usr2, .usr1]⟩, l⟩
        [⟨.takePending .usr1, true⟩, removalCall, ⟨.takePending .segv, false⟩, ⟨.takePending .usr2, true⟩]
        ⟨{}, l ++ [.called ⟨.takePending .usr1, true⟩] ++ [.called removalCall] ++
          [.called ⟨.takePending .segv, false⟩] ++ [.called ⟨.takePending .usr2, true⟩]⟩ :=
      fun l => takes_called (b := ⟨false, [.usr2]⟩) ⟨rfl, rfl⟩ (takes_called rfl
        (takes_called (b := ⟨false, [.usr2]⟩) ⟨rfl, rfl⟩ (takes_called ⟨rfl, rfl⟩ (.idle .refl))))
    have hbefore : signals.Takes ⟨⟨true, [.usr2, .usr1]⟩, []⟩
        (⟨.takeArrived, true⟩ :: passedBy (Signal.all.take 9)) ⟨⟨false, [.usr2, .usr1]⟩,
          [.called ⟨.takeArrived, true⟩] ++ (passedBy (Signal.all.take 9)).map .called⟩ :=
      takes_called ⟨rfl, rfl⟩ (takes_passedBy _ _ (by decide))
    have htakes : signals.Takes ⟨⟨true, [.usr2, .usr1]⟩, []⟩ removalCalls ⟨{}, removalCalls.map .called⟩ :=
      (hbefore.append (hboth _)).append (takes_passedBy (Signal.all.drop 12) _ (by decide))
    obtain ⟨ds, c, hpath, hentries, -⟩ := hdrain rfl hrun htakes
    exact ⟨ds, c, hpath, hentries.symm⟩
  · obtain ⟨sh, hpath⟩ := path_removal
    obtain ⟨-, hanswered, -⟩ := hpaths (.drain 4) twoTraps {} fun _ h => nomatch h
    exact hanswered [] [.arrives .usr1] removal .usr2 ⟨.rest sh, {}⟩ hpath

/-- A signal that arrives may be taken without a run of the command that it had then. -/
theorem not_trapped_signals_answered :
    ¬ ∀ (sh : Shell) (a : Arrivals) (ds ds' : List Deed) (s : Signal) (t : Text) (m : Vigil),
      a.Announced → sh.traps.get? s.number = some (.command t) →
      Path (.drain 4) ⟨.rest sh, a⟩ (.arrives s :: ds ++ .begins :: ds' ++ [.ends true]) m →
      ∃ t', .runs s t' ∈ ds ++ ds' := by
  intro h
  obtain ⟨sh, hpath⟩ := path_removal
  obtain ⟨t, ht⟩ := h twoTraps {} [.arrives .usr1] removal .usr2 "echo two" ⟨.rest sh, {}⟩
    (fun _ h => nomatch h) rfl hpath
  simp [removal, -List.map_take, -List.map_drop] at ht

end Vigil

end CommandShell
