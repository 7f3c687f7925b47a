import CommandShell.Proofs.Procedures

/-!
# How procedures end

A procedure ends among the loops that it began in, with a stop that is allowed there, and it does not
begin to end the shell and go on (`Leaves`). What is caught, and what a loop or a function takes, is
accounted for by the rules of `EndsFor`; so a procedure ends so if the commands that its evaluator runs end
within the loops around them (`Procedure.ends`).
-/

namespace CommandShell.Shell

open Host (Call Program)

variable {ev : Evaluator} {E F : Exits} {σ α β : Type} {s t : Shell}

/-- What is left when a computation ended that may stop for `E`. -/
structure Leaves (E : Exits) (s : Shell) (r : Except Stop α × Shell) : Prop where
  loopDepth : r.2.loopDepth = s.loopDepth
  running : s.isExiting = false → r.2.isExiting = false
  stops : ∀ e, r.1 = .error e → E.allows s.loopDepth e

/-- A computation that ends so, from whatever state it begins in. -/
def EndsFor (E : Exits) (x : ShellM α) : Prop := ∀ s, (x.startedIn s).Always (Leaves E s)

theorem Leaves.trans {a : α} {r : Except Stop β × Shell} (h : Leaves E s (.ok a, t))
    (hr : Leaves E t r) : Leaves E s r where
  loopDepth := hr.loopDepth.trans h.loopDepth
  running hs := hr.running (h.running hs)
  stops e he := h.loopDepth ▸ hr.stops e he

/-- What goes on with an outcome at hand may hand it on. -/
theorem Leaves.handed {o : Except Stop α} {r : Except Stop β × Shell} (h : Leaves F s (o, t))
    (hr : Leaves (.handed F o E) t r) : Leaves E s r where
  loopDepth := hr.loopDepth.trans h.loopDepth
  running hs := hr.running (h.running hs)
  stops e he := by
    have hdepth : t.loopDepth = s.loopDepth := h.loopDepth
    exact hdepth ▸ hr.stops e he fun e' he' => hdepth ▸ h.stops e' he'

namespace EndsFor

theorem silent {x : ShellM α} (h : ∀ s, ∃ r t, x.startedIn s = .done (r, t) ∧ Leaves E s (r, t)) :
    EndsFor E x := by
  intro s
  obtain ⟨r, t, hx, ht⟩ := h s
  rw [hx]
  exact ht

theorem modify {f : Shell → Shell} (hdepth : ∀ s, (f s).loopDepth = s.loopDepth)
    (hexiting : ∀ s, (f s).isExiting = s.isExiting) : EndsFor E (modify f : ShellM Unit) :=
  .silent fun s => ⟨.ok (), f s, rfl, hdepth s, (hexiting s).trans, fun _ he => nomatch he⟩

protected theorem pure (a : α) : EndsFor E (pure a : ShellM α) :=
  .silent fun s => ⟨.ok a, s, rfl, rfl, id, fun _ he => nomatch he⟩

protected theorem get : EndsFor E (get : ShellM Shell) :=
  .silent fun s => ⟨.ok s, s, rfl, rfl, id, fun _ he => nomatch he⟩

protected theorem throw {e : Stop} (h : ∀ depth, E.allows depth e) : EndsFor E (throw e : ShellM α) :=
  .silent fun s => ⟨.error e, s, rfl, rfl, id, by rintro _ ⟨⟩; exact h _⟩

protected theorem ask (c : Call) : EndsFor E (ask c) :=
  fun _ _ => ⟨rfl, id, fun _ he => nomatch he⟩

theorem sequence {P : α → Prop} {x : ShellM α} {f : α → ShellM β} (hx : EndsFor E x) (hP : Yields P x)
    (hf : ∀ a, P a → EndsFor E (f a)) : EndsFor E (x >>= f) := by
  intro s
  show ((x.startedIn s).bind _).Always _
  rw [Program.always_bind]
  refine ((hx s).and (hP s)).mono ?_
  rintro ⟨r, t⟩ ⟨h, ha⟩
  cases r with
  | ok a => exact (hf a (ha a rfl) t).mono fun _ hr => h.trans hr
  | error e => exact ⟨h.loopDepth, h.running, by rintro _ ⟨⟩; exact h.stops e rfl⟩

protected theorem bind {x : ShellM α} {f : α → ShellM β} (hx : EndsFor E x) (hf : ∀ a, EndsFor E (f a)) :
    EndsFor E (x >>= f) :=
  hx.sequence (P := fun _ => True) (fun _ => Program.always_of (fun _ _ _ => trivial) _)
    fun a _ => hf a

theorem caught {x : ShellM α} {f : Except Stop α → ShellM β} (hx : EndsFor F x)
    (hf : ∀ r, EndsFor (.handed F r E) (f r)) : EndsFor E (attempt x >>= f) := by
  intro s
  show (((x.startedIn s).bind _).bind _).Always _
  rw [Program.bind_assoc, Program.always_bind]
  refine (hx s).mono ?_
  rintro ⟨r, t⟩ h
  exact (hf r t).mono fun _ hr => h.handed hr

protected theorem ite {c : Prop} [Decidable c] {x y : ShellM α} (hx : EndsFor E x) (hy : EndsFor E y) :
    EndsFor E (if c then x else y) := by
  split
  · exact hx
  · exact hy

theorem setDispositions (ds : List (Signal × Host.Disposition)) :
    EndsFor E (setDispositions ds) := by
  induction ds with
  | nil => exact .pure ()
  | cons d ds ih => exact .bind (.bind (.ask _) fun _ => .pure ()) fun _ => ih

theorem of_neverEnds {x : ShellM α} (h : NeverEnds x) : EndsFor E x := fun s => h.always s _

/-- The outcome of what stops for no loops. -/
theorem yields {x : ShellM α} (h : EndsFor .outside x) :
    Yields (fun r => ∀ e, r = .error e → e.levels? = none) (attempt x) := by
  intro s
  show ((x.startedIn s).bind _).Always _
  rw [Program.always_bind]
  refine (h s).mono fun r hr => ?_
  rintro _ ⟨⟩
  exact hr.stops

/-- A loop takes one of the levels that its rounds go out of. -/
theorem withinLoop (hE : E.Open) {body : ShellM Int} (h : EndsFor .lowered body) :
    EndsFor E (withinLoop body) := by
  intro s
  let inside : Shell := { s with loopDepth := s.loopDepth + 1 }
  have hbody : EndsFor .lowered (do setStatus (← body)) :=
    h.bind fun n => .modify (fun _ => rfl) fun _ => rfl
  show ((ShellM.startedIn (do setStatus (← body)) inside).bind _ |>.bind _).Always _
  rw [Program.bind_assoc, Program.always_bind]
  refine (hbody inside).mono ?_
  rintro ⟨r, t⟩ ht
  -- the rounds left the depth as it was inside, and the loop takes itself out of it
  have hdepth : t.loopDepth - 1 = s.loopDepth := by
    rw [show t.loopDepth = s.loopDepth + 1 from ht.loopDepth, Nat.add_sub_cancel]
  cases r with
  | ok u => exact ⟨hdepth, ht.running, fun _ he => nomatch he⟩
  | error e =>
      refine ⟨hdepth, ht.running, ?_⟩
      rintro _ ⟨⟩
      exact hE.le (ht.stops e rfl)

/-- A `return` is for the function, and no other stop of it is for loops. -/
theorem takeReturn {r : Except Stop Unit} (h : ∀ e, r = .error e → e.levels? = none) :
    EndsFor E (takeReturn r) := by
  unfold Shell.takeReturn
  split
  · exact .modify (fun _ => rfl) fun _ => rfl
  · cases r with
    | ok u => exact .pure u
    | error e => exact .throw fun depth => E.others depth (h e rfl)

/-- The loops around a function are not those around its body. -/
theorem withinFunction (params : List Text) (assigned : List (Text × Text)) {body : ShellM Unit}
    (h : EndsFor .within (do shadowAll assigned; body)) :
    EndsFor E (withinFunction params assigned body) := by
  unfold Shell.withinFunction withFrame
  simp only [bind_assoc, pure_bind]
  intro s
  let inside : Shell := { s with
    «variables» := (s.variables.withParams params).openFrame
    loopDepth := 0
    functionDepth := s.functionDepth + 1 }
  show ((ShellM.startedIn (do shadowAll assigned; body) inside).bind _ |>.bind _).Always _
  rw [Program.bind_assoc, Program.always_bind]
  refine (h inside).mono ?_
  rintro ⟨r, t⟩ ht
  let outside : Shell := { t with
    «variables» := t.variables.closeFrame.withParams s.variables.params
    loopDepth := s.loopDepth
    functionDepth := t.functionDepth - 1 }
  -- there were no loops around the body, so no stop of it is for loops
  have hout : Leaves E s ((.ok () : Except Stop Unit), outside) :=
    ⟨rfl, ht.running, fun _ he => nomatch he⟩
  exact (takeReturn (fun e he => (ht.stops e he).levels?) outside).mono fun _ hr => hout.trans hr

/-! ## Drains -/

theorem iterateFor {step : σ → ShellM (σ ⊕ α)} (h : ∀ a, EndsFor E (step a)) (n : Nat) (a : σ) :
    EndsFor E (iterateFor step n a) := by
  induction n generalizing a with
  | zero => exact .throw fun depth => E.others depth rfl
  | succ n ih =>
      refine .bind (h a) fun r => ?_
      cases r with
      | inl a' => exact ih a'
      | inr b => exact .pure b

protected theorem iterate {step : σ → ShellM (σ ⊕ α)} (h : ∀ a, EndsFor E (step a)) (a : σ) :
    EndsFor E (iterate step a) := iterateFor h roundLimit a

theorem writeBytes (fd : Nat) (data : Host.Bytes) : EndsFor E (writeBytes fd data) := by
  refine .iterate (fun rest => ?_) data
  refine .ite (.pure _) (.bind (.ask _) fun r => ?_)
  cases r with
  | ok n => exact .pure _
  | error e => exact .ite (.pure _) (.throw fun depth => E.others depth rfl)

theorem reportStop (e : Stop) : EndsFor E (reportStop e) :=
  .ite (.pure ()) (.bind .get fun _ => .caught (F := E) (writeBytes _ _) fun _ => .pure ())

theorem anyPending (ss : List Signal) : EndsFor E (anyPending ss) := by
  induction ss with
  | nil => exact .pure false
  | cons s ss ih => exact .bind (.ask _) fun pending => .ite (.pure true) ih

section

variable (hsource : ∀ t, EndsFor .within (ev.source t)) [hE : E.Open]

include hsource

/-- A jump out of the command of a trap is handed on. -/
theorem runTrap (later : List Signal) (command : Text) : EndsFor E (runTrap ev later command) := by
  refine .bind .get fun s => .bind (.modify (fun _ => rfl) fun _ => rfl) fun _ =>
    .caught (hsource command) fun r => .bind (.modify (fun _ => rfl) fun _ => rfl) fun _ => ?_
  have hstatus : ∀ {E : Exits}, EndsFor E (setStatus s.status) :=
    .modify (fun _ => rfl) fun _ => rfl
  cases r with
  | ok u => exact hstatus
  | error e =>
      -- the command is read by the shell itself, so what it stops with is within the loops here
      have hthrow : EndsFor (.handed .within (.error e : Except Stop Unit) E) (throw e : ShellM Unit) :=
        .throw fun depth h => hE.le (h e rfl)
      refine .ite (.bind (anyPending later) fun found => ?_) (.bind (reportStop e) fun _ => hstatus)
      cases found with
      | true => exact .bind (.ask _) fun _ => hthrow
      | false => exact hthrow

theorem handleArrived (ss : List Signal) : EndsFor E (handleArrived ev ss) := by
  induction ss with
  | nil => exact .pure false
  | cons signal later ih =>
      refine .bind (.ask _) fun taken => .ite ih (.bind .get fun s => ?_)
      split
      · exact .bind (runTrap hsource later _) fun _ => ih
      · exact ih
      · exact .bind ih fun rest => .pure _

theorem runTraps : EndsFor E (runTraps ev) :=
  .bind .get fun _ => .ite (.pure ()) <| .bind (.ask _) fun _ => .ite (.pure ()) <|
    .bind (handleArrived hsource Signal.all) fun _ =>
      .ite (.throw fun depth => E.others depth rfl) (.pure ())

end

end EndsFor

/-! ## Procedures -/

/-- An evaluator of which every command ends among the loops around it. -/
structure EndsWithin (ev : Evaluator) : Prop where
  node : ∀ node place, EndsFor .within (ev.node node place)
  source : ∀ t, EndsFor .within (ev.source t)
  command : ∀ args, EndsFor .within (ev.command args)
  builtin : ∀ b name args, EndsFor .within (ev.builtin b name args)

theorem EndsFor.mono {E E' : Exits} {x : ShellM α} (h : EndsFor E x) (hE : E ≤ E') : EndsFor E' x :=
  fun s => (h s).mono fun _ hr => ⟨hr.loopDepth, hr.running, fun e he => hE (hr.stops e he)⟩

protected theorem Procedure.ends {x : ShellM α} (h : Procedure ev E x) (hev : EndsWithin ev) :
    EndsFor E x := by
  induction h with
  | silent h =>
      refine .silent fun s => ?_
      obtain ⟨r, t, hx, hmoves, hstops⟩ := h s
      exact ⟨r, t, hx, hmoves.loopDepth, hmoves.running, hstops⟩
  | ask c h => exact .ask c
  | orders hmoves h =>
      refine .bind (.silent fun s => ?_) fun ds => .setDispositions ds
      exact ⟨_, _, rfl, (hmoves s).loopDepth, (hmoves s).running, fun _ he => nomatch he⟩
  | sequence _ hP _ ihx ihf => exact ihx.sequence hP ihf
  | caught _ _ ihx ihf => exact ihx.caught ihf
  | loop hE _ ih => exact .withinLoop hE ih
  | function params assigned _ ih => exact .withinFunction params assigned ih
  | exit code => exact .of_neverEnds neverEnds_bind
  | node hE node place => exact (hev.node node place).mono hE.le
  | source hE t => exact (hev.source t).mono hE.le
  | command hE args => exact (hev.command args).mono hE.le
  | builtin hE b name args => exact (hev.builtin b name args).mono hE.le
  | drain hE => exact .runTraps hev.source

end CommandShell.Shell
