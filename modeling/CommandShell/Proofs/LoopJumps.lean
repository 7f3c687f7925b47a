import CommandShell.Proofs.Procedures.Trails
import CommandShell.Proofs.Twins.Commands

/-!
# Jumps out of loops

`break` and `continue` travel as stops that carry a number of levels, and each loop on the way lowers it
by one. Functions begin a count of their own, and the texts of `eval`, `.` and traps do not.

What a jump is to come to is easier to say when it names its loop. The loops of a function are numbered from
the outermost one on, and `numberedOf` is an evaluator beside the shell's: within `d` loops its `break n`
jumps for the loop with the number `d + 1 - min n d`, such a jump goes out of every loop with another number
as it is, and the loop with that number ends by it (`continue n`: goes on with its next round). The two
evaluators make the same calls and come to the same states, and a command that stops for `k` levels in one
of them stops for the loop `d + 1 - k` in the other (`numbers_numberedOf`). So `break n` ends the innermost
`min n d` loops, whatever there is in between.

What a command stops for stays within the loops around it (`endsWithin_evaluatorOf`), so no such stop leaves
a function, an outermost loop or the loop that reads commands.
-/

namespace CommandShell

open Host (Call Program)
open Host.Program (bind_congr_always)

/-- A stop that counts levels, within `d` loops, as one that names its loop. -/
def Stop.numbered (d : Nat) : Stop → Stop
  | .jump (.breaking k) => .jump (.breaking (d + 1 - k))
  | .jump (.continuing k) => .jump (.continuing (d + 1 - k))
  | e => e

theorem Stop.numbered_of_levels {e : Stop} (h : e.levels? = none) (d : Nat) : e.numbered d = e := by
  cases e with
  | fault f line => rfl
  | jump j =>
      cases j with
      | breaking k => cases h
      | continuing k => cases h
      | _ => rfl

/-- A jump for loops is one that names its loop. -/
theorem Stop.numbered_cases {e : Stop} {k : Nat} (h : e.levels? = some k) :
    (e = .jump (.breaking k) ∧ ∀ d, e.numbered d = .jump (.breaking (d + 1 - k))) ∨
      (e = .jump (.continuing k) ∧ ∀ d, e.numbered d = .jump (.continuing (d + 1 - k))) := by
  cases e with
  | fault f line => cases h
  | jump j =>
      cases j with
      | breaking n =>
          cases h
          exact .inl ⟨rfl, fun _ => rfl⟩
      | continuing n =>
          cases h
          exact .inr ⟨rfl, fun _ => rfl⟩
      | _ => cases h

theorem Span.covers_numbered {S : Span} {e : Stop} (h : S.covers e = true) (d : Nat) :
    S.covers (e.numbered d) = true := by
  cases he : e.levels? with
  | none =>
      rw [Stop.numbered_of_levels he]
      exact h
  | some k =>
      rcases Stop.numbered_cases he with ⟨rfl, hd⟩ | ⟨rfl, hd⟩
      · rw [hd]
        cases S <;> first | rfl | cases h
      · rw [hd]
        cases S <;> first | rfl | cases h

namespace Shell

open Script (Node Command)

variable {ev ev' : Evaluator} {E : Exits} {S T : Span} {σ α β : Type} {d m : Nat}

/-! ## Loops with numbers -/

/-- Where the loop with the number `own` goes after one of its lists ended so. -/
def numberedFlow (own : Nat) : Except Stop Unit → ShellM LoopFlow
  | .ok () => return .next
  | .error (.jump (.breaking target)) => if target = own then return .leave else jump (.breaking target)
  | .error (.jump (.continuing target)) => if target = own then return .again else jump (.continuing target)
  | .error s => throw s

/-- One round of a `while` or `until` loop with a number. -/
def numberedRound (ev : Evaluator) (own : Nat) (cond body : Node) (untilZero : Bool) (place : Place)
    (status : Int) : ShellM (Int ⊕ Int) := do
  match ← numberedFlow own (← attempt (ev.node cond place.tested)) with
  | .leave => return .inr status
  | .again => return .inl status
  | .next =>
    if ((← get).status == 0) == untilZero then return .inr status
    let flow ← numberedFlow own (← attempt (ev.node body place.notLast))
    let status := (← get).status
    return if flow = .leave then .inr status else .inl status

/-- The body of a `for` loop with a number, for each of the items. -/
def numberedItems (ev : Evaluator) (own : Nat) (var : Text) (body : Node) (place : Place) (status : Int) :
    List Text → ShellM Int
  | [] => return status
  | item :: rest => do
    assignVariable var item
    let flow ← numberedFlow own (← attempt (ev.node body place.notLast))
    let status := (← get).status
    if flow = .leave then return status else numberedItems ev own var body place status rest

/-- A `while` or `until` loop, which has the number after those of the loops around it. -/
def runNumberedLoop (ev : Evaluator) (cond body : Node) (untilZero : Bool) (place : Place) :
    ShellM Unit := do
  let own := (← get).loopDepth + 1
  withinLoop (iterate (numberedRound ev own cond body untilZero place) 0)

/-- A `for` loop, which has the number after those of the loops around it. -/
def runNumberedFor (ev : Evaluator) (var : Text) (items : List Text) (body : Node) (place : Place) :
    ShellM Unit := do
  let own := (← get).loopDepth + 1
  withinLoop (numberedItems ev own var body place 0 items)

/-- A kind of command; loops have numbers. -/
def runNumberedKind (ev : Evaluator) (place : Place) : Command → ShellM Unit
  | .whileDo cond body => runNumberedLoop ev cond body false place
  | .untilDo cond body => runNumberedLoop ev cond body true place
  | .forIn var items body => do runNumberedFor ev var (← loopItems ev items) body place
  | command => runKind ev place command

/-- A command of an evaluator whose loops have numbers. -/
def runNumberedNode (ev : Evaluator) (node : Node) (place : Place) : ShellM Unit := do
  modify fun sh => { sh with line := node.line }
  runNumberedKind ev place node.command
  checkErrexit node place

/-- Jumps for the loop that is so many levels out, or for the outermost one. -/
def leaveNumbered (target : Nat → Jump) (args : List Text) : ShellM Unit := do
  let levels ← Commands.levelsOperand args
  setStatus 0
  let depth := (← get).loopDepth
  if depth ≠ 0 then jump (target (depth + 1 - min levels depth))

/-- A built-in command; `break` and `continue` name the loop that they jump for. -/
def numberedAction (ev : Evaluator) (b : Builtin) (args : List Text) : ShellM Unit :=
  match b with
  | .break_ => leaveNumbered .breaking args
  | .continue_ => leaveNumbered .continuing args
  | b => Commands.action ev b args

/-- Runs a built-in command of an evaluator whose loops have numbers. -/
def runNumberedBuiltin (ev : Evaluator) (b : Builtin) (name : Text) (args : List Text) : ShellM Unit := do
  match ← attempt (numberedAction ev b args) with
  | .ok () => return
  | .error s =>
    if s.isJump then throw s
    report (name ++ ": " ++ s.message)
    setStatus s.status
    if b.isSpecial && !(← get).isInteractive then jump (.exit s.status)

/-- The evaluator whose jumps name their loops, for scripts nested up to a depth. -/
def numberedOf : Nat → Evaluator
  | 0 => evaluatorOf 0
  | depth + 1 =>
    { node := fun node place => runNumberedNode (numberedOf depth) node place
      source := fun t => runText (numberedOf depth) t
      command := fun args => runArguments (numberedOf depth) .empty args [] [] {}
      builtin := fun b name args => runNumberedBuiltin (numberedOf depth) b name args }

/-! ## Jumps that name their loops -/

/-- What was come to within `d` loops, with the loop named that it stops for. -/
def numberedResult (d : Nat) (r : Except Stop α × Shell) : Except Stop α × Shell :=
  (r.1.mapError (Stop.numbered d), r.2)

/-- Within `d` loops `y` runs as `x` does, and names the loop that it stops for as one of `m`. -/
def Numbers (d m : Nat) (x y : ShellM α) : Prop :=
  ∀ s : Shell, s.loopDepth = d →
    y.startedIn s = (x.startedIn s).bind fun r => .done (numberedResult m r)

theorem numberedResult_of_levels {r : Except Stop α × Shell} (h : ∀ e, r.1 = .error e → e.levels? = none)
    (d : Nat) : numberedResult d r = r := by
  obtain ⟨r, t⟩ := r
  cases r with
  | ok a => rfl
  | error e => exact congrArg (fun e => (Except.error e, t)) (Stop.numbered_of_levels (h e rfl) d)

/-- Nothing changes for what stops for no loops. -/
theorem bind_numberedResult {p : Program (Except Stop α × Shell)}
    (h : p.Always fun r => ∀ e, r.1 = .error e → e.levels? = none) (d : Nat) :
    (p.bind fun r => .done (numberedResult d r)) = p := by
  rw [bind_congr_always (g := .done) (h.mono fun r hr => by rw [numberedResult_of_levels hr]),
    Program.bind_done]

namespace Numbers

theorem of_outside {x : ShellM α} (h : EndsFor .outside x) : Numbers d m x x := by
  intro s _
  exact (bind_numberedResult ((h s).mono fun _ hr => hr.stops) m).symm

theorem of_neverEnds {x y : ShellM α} (hx : NeverEnds x) (h : ∀ s, y.startedIn s = x.startedIn s) :
    Numbers d m x y := by
  intro s _
  rw [h, bind_numberedResult (hx.always s _)]

theorem sequence {P : α → Prop} {x y : ShellM α} {f g : α → ShellM β} (hxy : Numbers d m x y)
    (hx : EndsFor E x) (hP : Yields P x) (hfg : ∀ a, P a → Numbers d m (f a) (g a)) :
    Numbers d m (x >>= f) (y >>= g) := by
  intro s hs
  show (y.startedIn s).bind _ = ((x.startedIn s).bind _).bind _
  rw [hxy s hs, Program.bind_assoc, Program.bind_assoc]
  apply bind_congr_always
  apply ((hx s).and (hP s)).mono
  rintro ⟨r, t⟩ ⟨hends, ha⟩
  cases r with
  | ok a => exact hfg a (ha a rfl) t (hends.loopDepth.trans hs)
  | error e => rfl

protected theorem bind {x y : ShellM α} {f g : α → ShellM β} (hxy : Numbers d m x y) (hx : EndsFor E x)
    (hfg : ∀ a, Numbers d m (f a) (g a)) : Numbers d m (x >>= f) (y >>= g) :=
  hxy.sequence (P := fun _ => True) hx (fun _ => Program.always_of (fun _ _ _ => trivial) _)
    fun a _ => hfg a

/-- What goes on with an outcome at hand is given the one that names its loop. -/
theorem caught {x y : ShellM α} {f g : Except Stop α → ShellM β} (hxy : Numbers d d x y)
    (hx : EndsFor E x)
    (hfg : ∀ r, (∀ e, r = .error e → E.allows d e) →
      Numbers d m (f r) (g (r.mapError (Stop.numbered d)))) :
    Numbers d m (attempt x >>= f) (attempt y >>= g) := by
  intro s hs
  rw [startedIn_attempt_bind, startedIn_attempt_bind, hxy s hs, Program.bind_assoc, Program.bind_assoc]
  apply bind_congr_always
  apply (hx s).mono
  rintro ⟨r, t⟩ hends
  exact hfg r (fun e he => hs ▸ hends.stops e he) t (hends.loopDepth.trans hs)

protected theorem get_bind {f g : Shell → ShellM α}
    (h : ∀ s : Shell, s.loopDepth = d → Numbers d m (f s) (g s)) :
    Numbers d m (get >>= f) (get >>= g) :=
  fun s hs => h s hs s hs

protected theorem ite {c : Prop} [Decidable c] {x x' y y' : ShellM α} (hx : Numbers d m x x')
    (hy : Numbers d m y y') : Numbers d m (if c then x else y) (if c then x' else y') := by
  split
  · exact hx
  · exact hy

/-- A stop that is handed on after things were put back. -/
theorem tidied {u : ShellM Unit} (hu : Tidy u) (e : Stop) :
    Numbers d m (u >>= fun _ => throw e : ShellM α) (u >>= fun _ => throw (e.numbered m)) := by
  intro s _
  show (u.startedIn s).bind _ = ((u.startedIn s).bind _).bind _
  rw [Program.bind_assoc]
  apply bind_congr_always
  apply (hu.always s).mono
  rintro ⟨r, t⟩ ⟨⟨a, hr⟩, _⟩
  cases hr
  rfl

/-- Every round of a loop goes so, and so does the loop. -/
theorem iterateFor {step step' : σ → ShellM (σ ⊕ α)} (h : ∀ a, Numbers d m (step a) (step' a))
    (hstep : ∀ a, EndsFor E (step a)) (n : Nat) (a : σ) :
    Numbers d m (iterateFor step n a) (iterateFor step' n a) := by
  induction n generalizing a with
  | zero => exact of_outside (.throw fun _ => rfl)
  | succ n ih =>
      apply (h a).bind (hstep a)
      intro r
      cases r with
      | inl a' => exact ih a'
      | inr b => exact of_outside (.pure b)

protected theorem iterate {step step' : σ → ShellM (σ ⊕ α)} (h : ∀ a, Numbers d m (step a) (step' a))
    (hstep : ∀ a, EndsFor E (step a)) (a : σ) : Numbers d m (iterate step a) (iterate step' a) :=
  iterateFor h hstep roundLimit a

/-- What looks at the state first, which is one within `d` loops. -/
theorem get_right {x : ShellM α} {g : Shell → ShellM α}
    (h : ∀ s : Shell, s.loopDepth = d → Numbers d m x (g s)) : Numbers d m x (get >>= g) :=
  fun s hs => h s hs s hs

end Numbers

/-! ## Constructs that are no loops -/

/-- An evaluator whose jumps count levels, and one whose jumps name their loops. -/
structure NumbersOf (ev ev' : Evaluator) : Prop where
  ends : EndsWithin ev
  node : ∀ node place d, Numbers d d (ev.node node place) (ev'.node node place)
  source : ∀ t d, Numbers d d (ev.source t) (ev'.source t)
  command : ∀ args d, Numbers d d (ev.command args) (ev'.command args)
  builtin : ∀ b name args d, Numbers d d (ev.builtin b name args) (ev'.builtin b name args)

section

variable (h : NumbersOf ev ev')

include h

/-- The trap for the end of the shell is run all the same, since no stop of its command counts. -/
theorem startedIn_exitShell_numbers (code : Int) (s : Shell) :
    (exitShell ev' code : ShellM α).startedIn s = (exitShell ev code).startedIn s := by
  have htrap : ∀ command t, (do
      match ← attempt (ev'.source command) with
      | .ok () => return
      | .error s => reportStop s : ShellM Unit).startedIn t = (do
      match ← attempt (ev.source command) with
      | .ok () => return
      | .error s => reportStop s : ShellM Unit).startedIn t := by
    intro command t
    rw [startedIn_attempt_bind, startedIn_attempt_bind, h.source command _ t rfl, Program.bind_assoc]
    apply bind_congr_always
    apply Program.always_of
    rintro ⟨r, v⟩
    cases r with
    | ok u => rfl
    | error e =>
        cases e with
        | fault f line => rfl
        | jump j => cases j <;> rfl
  have hrun : (runExitTrap ev' code).startedIn s = (runExitTrap ev code).startedIn s := by
    have htaken : ∀ f : Option Text → ShellM Unit, (modifyGet takeExitCommand >>= f).startedIn s =
        (f (takeExitCommand s).1).startedIn (takeExitCommand s).2 := fun _ => rfl
    unfold runExitTrap
    rw [htaken, htaken]
    cases (takeExitCommand s).1 with
    | none => rfl
    | some command => exact htrap command _
  exact congrArg (fun p : Program (Except Stop Unit × Shell) => p.bind fun r =>
    ExceptT.bindCont (fun _ => leave code) r.1 r.2) hrun

/-- Whatever the commands of a child stop for, the child ends alike. -/
theorem startedIn_exitChild_numbers (r : Except Stop Unit) (d : Nat) (s : Shell) :
    (exitChild ev' (r.mapError (Stop.numbered d)) : ShellM α).startedIn s =
      (exitChild ev r).startedIn s := by
  have hstatus : childStatus (r.mapError (Stop.numbered d)) = childStatus r := by
    cases r with
    | ok u => rfl
    | error e =>
        cases e with
        | fault f line => rfl
        | jump j => cases j <;> rfl
  unfold exitChild
  rw [hstatus]
  exact congrArg (childStatus r |>.startedIn s).bind
    (funext fun (r, t) => by
      cases r with
      | ok code => exact startedIn_exitShell_numbers h code t
      | error e => rfl)

/-- What is put together in the same way over the two evaluators. -/
theorem Twins.numbers {x y : ShellM α} (hxy : Twins ev ev' T x y) : ∀ d, Numbers d d x y := by
  induction hxy with
  | same hx => exact fun d => .of_outside hx
  | sequence hxy hP _ ihx ihf =>
      exact fun d => (ihx d).sequence (hxy.ends h.ends) hP fun a ha => ihf a ha d
  | @caught S T hST _ _ x y f g u hxy hu hf hg hfg ihx ihf =>
      intro d s hs
      rw [startedIn_attempt_bind, startedIn_attempt_bind, ihx d s hs, Program.bind_assoc,
        Program.bind_assoc]
      apply bind_congr_always
      apply ((hxy.ends h.ends s).and (hxy.covers_of_levels h.ends s)).mono
      rintro ⟨r, t⟩ ⟨hends, hcovers⟩
      have ht : t.loopDepth = d := hends.loopDepth.trans hs
      have hother : (∀ e, r = .error e → e.levels? = none) →
          (g (numberedResult d (r, t)).1).startedIn t =
            ((f r).startedIn t).bind fun r => .done (numberedResult d r) := by
        intro hr
        rw [numberedResult_of_levels hr]
        exact ihf r hr d t ht
      cases r with
      | ok a => exact hother nofun
      | error e =>
          cases he : e.levels? with
          | none =>
              apply hother
              rintro _ ⟨⟩
              exact he
          | some n =>
              -- a stop for loops is handed on, and so is the one that names its loop
              have hcovered := hcovers e n rfl he
              show (g (.error (e.numbered d))).startedIn t = _
              rw [hf e hcovered, hg _ (Span.covers_numbered hcovered d)]
              exact Numbers.tidied hu e t ht
  | @function T hT params assigned x y hxy ih =>
      -- no loop is around the body of a function, so no stop of it is for loops
      have hbody : ∀ s : Shell, s.loopDepth = 0 →
          (ShellM.startedIn (do shadowAll assigned; y) s) = ShellM.startedIn (do shadowAll assigned; x) s := by
        intro s hs
        rw [ih 0 s hs, bind_numberedResult]
        apply (hxy.ends h.ends s).mono
        intro r hr e he
        have hwithin : e.StaysWithin s.loopDepth := hr.stops e he
        rw [hs] at hwithin
        exact hwithin.levels?
      have hsame : withinFunction params assigned y = withinFunction params assigned x := by
        funext s
        unfold withinFunction withFrame
        simp only [bind_assoc, pure_bind]
        exact congrArg (fun p : Program (Except Stop Unit × Shell) => (p.bind _).bind _) (hbody _ rfl)
      intro d
      rw [hsame]
      exact .of_outside (.withinFunction params assigned (hxy.ends h.ends))
  | @read T hT top x y hxy f hok herror ih =>
      intro d
      apply (ih d).caught (hxy.ends h.ends)
      intro r _
      cases r with
      | ok u =>
          rw [show f ((Except.ok u : Except Stop Unit).mapError (Stop.numbered d)) = pure () from hok, hok]
          exact .of_outside (.pure ())
      | error e =>
          rw [show f ((Except.error e : Except Stop Unit).mapError (Stop.numbered d)) = _ from
            herror (e.numbered d), herror]
          cases he : e.levels? with
          | none =>
              rw [Stop.numbered_of_levels he]
              exact .of_outside (((procedure_takeStop top e).of_handed (r := (.error e : Except Stop Unit))
                (E := .outside) fun e' he' => by cases he'; exact he).ends h.ends)
          | some n =>
              rcases Stop.numbered_cases he with ⟨rfl, hd⟩ | ⟨rfl, hd⟩
              · rw [hd]
                cases top <;> exact fun _ _ => rfl
              · rw [hd]
                cases top <;> exact fun _ _ => rfl
  | @child T γ x y hxy ih =>
      intro d s hs
      rw [startedIn_attempt_bind, startedIn_attempt_bind, ih d s hs, Program.bind_assoc,
        Program.bind_assoc]
      apply bind_congr_always
      apply Program.always_of
      rintro ⟨r, t⟩
      have hnever : NeverEnds (exitChild ev r : ShellM γ) := inferInstance
      show (exitChild ev' (r.mapError (Stop.numbered d))).startedIn t = _
      rw [startedIn_exitChild_numbers h, bind_numberedResult (hnever.always t _)]
  | exit code => exact fun d => .of_neverEnds neverEnds_bind (startedIn_exitShell_numbers h code)
  | node _ node place => exact h.node node place
  | source _ t => exact h.source t
  | command _ args => exact h.command args
  | builtin _ b name args => exact h.builtin b name args

/-! ## Loops -/

omit h in
/-- The loop with the number `d + 1` takes what stops for one level, and hands on what stops for more. -/
theorem numbers_loopFlow {r : Except Stop Unit}
    (hr : ∀ e, r = .error e → e.StaysWithin (d + 1)) :
    Numbers (d + 1) d (loopFlow r) (numberedFlow (d + 1) (r.mapError (Stop.numbered (d + 1)))) := by
  intro s _
  cases r with
  | ok u => rfl
  | error e =>
      cases he : e.levels? with
      | none =>
          have hflow : loopFlow (.error e) = throw e := by
            cases e with
            | fault f line => rfl
            | jump j => cases j <;> first | rfl | cases he
          have hnumbered : numberedFlow (d + 1) (.error (e.numbered (d + 1))) = throw (e.numbered d) := by
            rw [Stop.numbered_of_levels he, Stop.numbered_of_levels he]
            cases e with
            | fault f line => rfl
            | jump j => cases j <;> first | rfl | cases he
          rw [hflow]
          exact congrFun hnumbered s
      | some k =>
          obtain ⟨hpos, hle⟩ := hr e rfl k he
          have hlower : d + 1 - (k - 1) = d + 1 + 1 - k := by omega
          -- the level of this loop has its number, and no other level has it
          rcases Stop.numbered_cases he with ⟨rfl, _⟩ | ⟨rfl, _⟩
          · show (if d + 1 + 1 - k = d + 1 then pure .leave else jump (.breaking (d + 1 + 1 - k)) :
              ShellM LoopFlow).startedIn s =
                ((if 1 < k then jump (.breaking (k - 1)) else pure .leave : ShellM LoopFlow).startedIn s).bind _
            by_cases hk : 1 < k
            · rw [if_neg (by omega), if_pos hk, ← hlower]
              rfl
            · rw [if_pos (by omega), if_neg hk]
              rfl
          · show (if d + 1 + 1 - k = d + 1 then pure .again else jump (.continuing (d + 1 + 1 - k)) :
              ShellM LoopFlow).startedIn s =
                ((if 1 < k then jump (.continuing (k - 1)) else pure .again :
                  ShellM LoopFlow).startedIn s).bind _
            by_cases hk : 1 < k
            · rw [if_neg (by omega), if_pos hk, ← hlower]
              rfl
            · rw [if_pos (by omega), if_neg hk]
              rfl

/-- A list of a loop, and what the loop does after it. -/
theorem numbers_turn (node : Node) (place : Place) {f g : LoopFlow → ShellM β}
    (hfg : ∀ flow, Numbers (d + 1) d (f flow) (g flow)) :
    Numbers (d + 1) d (attempt (ev.node node place) >>= fun r => loopFlow r >>= f)
      (attempt (ev'.node node place) >>= fun r => numberedFlow (d + 1) r >>= g) := by
  apply (h.node node place (d + 1)).caught (h.ends.node node place)
  intro r hr
  have hflow : Procedure ev .any (loopFlow r) := (procedure_loopFlow r).mono fun _ => trivial
  have hends : EndsFor .any (loopFlow r) := hflow.ends h.ends
  exact (numbers_loopFlow hr).bind hends hfg

omit h in
theorem numbers_withinLoop {x y : ShellM Int} (hxy : Numbers (d + 1) d x y) (hx : EndsFor E x) :
    Numbers d d (withinLoop x) (withinLoop y) := by
  have hrounds : Numbers (d + 1) d (do setStatus (← x)) (do setStatus (← y)) :=
    hxy.bind hx fun n => .of_outside .of_procedure
  intro s hs
  -- one loop more is around the rounds, and both runs take it off again however they end
  let inside : Shell := { s with loopDepth := s.loopDepth + 1 }
  have hinside : inside.loopDepth = d + 1 := congrArg (· + 1) hs
  show (attempt (do setStatus (← y)) >>= fun r =>
      modify (fun sh => { sh with loopDepth := sh.loopDepth - 1 }) >>= fun _ => resume r).startedIn inside =
    ((attempt (do setStatus (← x)) >>= fun r =>
      modify (fun sh => { sh with loopDepth := sh.loopDepth - 1 }) >>= fun _ => resume r).startedIn inside).bind _
  rw [startedIn_attempt_bind, startedIn_attempt_bind, hrounds inside hinside, Program.bind_assoc,
    Program.bind_assoc]
  apply bind_congr_always
  apply Program.always_of
  rintro ⟨r, t⟩
  cases r with
  | ok u => rfl
  | error e => rfl

theorem numbers_runLoop (cond body : Node) (untilZero : Bool) (place : Place) :
    Numbers d d (runLoop ev cond body untilZero place) (runNumberedLoop ev' cond body untilZero place) := by
  have hround : ∀ status, Numbers (d + 1) d (loopRound ev cond body untilZero place status)
      (numberedRound ev' (d + 1) cond body untilZero place status) := by
    intro status
    apply numbers_turn h
    intro flow
    cases flow with
    | leave => exact .of_outside (.pure _)
    | again => exact .of_outside (.pure _)
    | next =>
        apply Numbers.get_bind
        intro s _
        apply Numbers.ite (.of_outside (.pure _))
        apply numbers_turn h
        exact fun flow => .of_outside .of_procedure
  have hends : ∀ status, EndsFor .lowered (loopRound ev cond body untilZero place status) :=
    fun status => (procedure_loopRound cond body untilZero place status).ends h.ends
  apply Numbers.get_right
  rintro s rfl
  exact numbers_withinLoop (.iterate hround hends 0) (.iterate hends 0)

theorem numbers_runFor (var : Text) (items : List Text) (body : Node) (place : Place) :
    Numbers d d (runFor ev var items body place) (runNumberedFor ev' var items body place) := by
  -- the items are those of the start, so the induction is on them
  have hitems : ∀ status, Numbers (d + 1) d (forItems ev var body place status items)
      (numberedItems ev' (d + 1) var body place status items) := by
    induction items with
    | nil => exact fun _ => .of_outside (.pure _)
    | cons item items ih =>
        intro status
        apply Numbers.bind (E := .outside) (.of_outside .of_procedure) .of_procedure
        intro _
        apply numbers_turn h
        intro flow
        apply Numbers.get_bind
        intro s _
        exact .ite (.of_outside (.pure _)) (ih _)
  apply Numbers.get_right
  rintro s rfl
  exact numbers_withinLoop (hitems 0) ((procedure_forItems var body place 0 items).ends h.ends)

/-! ## Commands -/

theorem numbers_runNode (node : Node) (place : Place) (d : Nat) :
    Numbers d d (runNode ev node place) (runNumberedNode ev' node place) := by
  have hkind : Numbers d d (runKind ev place node.command) (runNumberedKind ev' place node.command) := by
    cases hc : node.command with
    | whileDo cond body => exact numbers_runLoop h cond body false place
    | untilDo cond body => exact numbers_runLoop h cond body true place
    | forIn var items body =>
        have hitems : Twins ev ev' .all (loopItems ev items) (loopItems ev' items) := inferInstance
        exact (hitems.numbers h d).bind (hitems.ends h.ends) fun items => numbers_runFor h var items body place
    | _ => exact Twins.numbers h (twins_runKind place rfl) d
  have hends : EndsFor .within (runKind ev place node.command) := Procedure.ends inferInstance h.ends
  have hline : EndsFor .outside (modify fun sh => { sh with line := node.line }) :=
    .modify (fun _ => rfl) fun _ => rfl
  have herrexit : EndsFor .outside (checkErrexit node place) :=
    .bind .get fun s => .ite (.throw fun _ => rfl) (.pure ())
  apply Numbers.bind (.of_outside hline) hline
  intro _
  exact hkind.bind hends fun _ => .of_outside herrexit

omit h in
/-- `break` and `continue` name the loop that is so many levels out. -/
theorem numbers_leaveLoops (target : Nat → Jump)
    (htarget : ∀ d k, (Stop.jump (target k)).numbered d = .jump (target (d + 1 - k))) (args : List Text) :
    Numbers d d (Commands.leaveLoops target args) (leaveNumbered target args) := by
  have hlevels : EndsFor .outside (Commands.levelsOperand args) := by
    unfold Commands.levelsOperand
    split
    · exact .pure 1
    · split
      · exact .pure _
      · exact .throw fun _ => rfl
  apply Numbers.bind (.of_outside hlevels) hlevels
  intro levels
  apply Numbers.bind (E := .outside) (.of_outside .of_procedure) .of_procedure
  -- within loops both jump, one to the loop by its number and one as many levels out
  rintro _ s rfl
  show (if s.loopDepth ≠ 0 then jump (target (s.loopDepth + 1 - min levels s.loopDepth)) else pure () :
      ShellM Unit).startedIn s =
    ((if s.loopDepth ≠ 0 then jump (target (min levels s.loopDepth)) else pure () :
      ShellM Unit).startedIn s).bind _
  split
  · exact congrArg (fun e => Program.done (Except.error e, s)) (htarget _ _).symm
  · rfl

theorem numbers_runBuiltin (b : Builtin) (name : Text) (args : List Text) (d : Nat) :
    Numbers d d (Commands.runBuiltin ev b name args) (runNumberedBuiltin ev' b name args) := by
  have hends : EndsFor .within (Commands.action ev b args) := Procedure.ends inferInstance h.ends
  have haction : Numbers d d (Commands.action ev b args) (numberedAction ev' b args) := by
    by_cases hbreak : b = .break_
    · subst hbreak
      exact numbers_leaveLoops .breaking (fun _ _ => rfl) args
    · by_cases hcontinue : b = .continue_
      · subst hcontinue
        exact numbers_leaveLoops .continuing (fun _ _ => rfl) args
      · have hsame : numberedAction ev' b args = Commands.action ev' b args := by
          cases b <;> first | rfl | contradiction
        rw [hsame]
        exact Twins.numbers h (twins_action (T := .jumps) hbreak hcontinue args) d
  apply haction.caught hends
  intro r _
  cases r with
  | ok u => exact .of_outside (.pure ())
  | error e =>
      cases e with
      | fault f line =>
          have hreported : EndsFor .outside (do
              report (name ++ ": " ++ f.message)
              setStatus f.status
              if b.isSpecial && !(← get).isInteractive then jump (.exit f.status) : ShellM Unit) :=
            .of_procedure
          exact .of_outside hreported
      -- a jump is handed on, with the number that the action gave it
      | jump j => exact fun _ _ => by cases j <;> rfl

/-! ## The shell -/

omit h in
/-- Outside of loops nothing is for a loop, whatever is done with it. -/
theorem numbers_attempt {x y : ShellM α} {f g : Except Stop α → ShellM β} (hxy : Numbers 0 0 x y)
    (hx : EndsFor .within x) (hfg : ∀ r, Numbers 0 m (f r) (g r)) :
    Numbers 0 m (attempt x >>= f) (attempt y >>= g) := by
  apply hxy.caught hx
  intro r hr
  have hsame : r.mapError (Stop.numbered 0) = r := by
    cases r with
    | ok a => rfl
    | error e => exact congrArg Except.error (Stop.numbered_of_levels (hr e rfl).levels? 0)
  rw [hsame]
  exact hfg r

theorem numbers_sourceStartup (path : Text) :
    Numbers 0 0 (Startup.sourceStartup ev path) (Startup.sourceStartup ev' path) := by
  apply Numbers.bind (E := .outside) (.of_outside .of_procedure) .of_procedure
  intro data
  cases data with
  | error e => exact .of_outside (.pure ())
  | ok data =>
      apply numbers_attempt (h.source _ 0) (h.ends.source _)
      intro r
      split
      · exact .of_neverEnds neverEnds_bind (startedIn_exitShell_numbers h _)
      · exact .of_outside .of_procedure
      · exact .of_outside .of_procedure
      · exact .of_outside (.pure ())

theorem numbers_environmentFile? :
    Numbers 0 0 (Startup.environmentFile? ev) (Startup.environmentFile? ev') := by
  apply Numbers.get_bind
  intro s _
  split
  · exact .of_outside (.pure none)
  · split
    · exact .of_outside (.pure none)
    · split
      · exact .of_outside (.pure none)
      · rename_i w _
        have hword : Twins ev ev' .none (Expansion.wordText ev w) (Expansion.wordText ev' w) := inferInstance
        apply numbers_attempt (hword.numbers h 0) ((hword.ends h.ends).mono (Span.outside_le_exits .all))
        intro r
        cases r with
        | error e => exact .of_outside (.pure none)
        | ok path => exact .of_outside (.pure _)

theorem numbers_sourceStartupFiles (login : Bool) :
    Numbers 0 0 (Startup.sourceStartupFiles ev login) (Startup.sourceStartupFiles ev' login) := by
  have hends : ∀ path, EndsFor .within (Startup.sourceStartup ev path) :=
    fun path => (Startup.procedure_sourceStartup path).ends h.ends
  have hrest : Numbers 0 0 (Startup.sourceEnvironmentFile ev) (Startup.sourceEnvironmentFile ev') := by
    apply Numbers.get_bind
    intro s _
    apply Numbers.ite _ (.of_outside (.pure ()))
    apply (numbers_environmentFile? h).bind (E := .within) (Startup.procedure_environmentFile?.ends h.ends)
    intro file
    cases file with
    | some path => exact numbers_sourceStartup h path
    | none => exact .of_outside (.pure ())
  apply Numbers.ite _ hrest
  apply (numbers_sourceStartup h _).bind (hends _)
  intro _
  apply Numbers.get_bind
  intro s _
  split
  · exact (numbers_sourceStartup h _).bind (hends _) fun _ => hrest
  · exact hrest

theorem numbers_live (line : Startup.CommandLine) (login : Bool) (source : ScriptSource) :
    Numbers 0 0 (Startup.live ev line login source : ShellM α) (Startup.live ev' line login source) := by
  have hfiles : EndsFor .within (Startup.sourceStartupFiles ev login) :=
    (Startup.procedure_sourceStartupFiles login).ends h.ends
  apply (numbers_sourceStartupFiles h login).bind hfiles
  intro _
  apply Numbers.get_bind
  intro s _
  have hmain : Twins ev ev' .jumps _ _ := twins_runSource true
    { source with prompts := s.isInteractive && line.source == .standardInput }
  apply numbers_attempt (hmain.numbers h 0) (hmain.ends h.ends)
  intro r
  have hexit : ∀ code, Numbers 0 0 (exitShell ev code : ShellM α) (exitShell ev' code) :=
    fun code => .of_neverEnds neverEnds_bind (startedIn_exitShell_numbers h code)
  unfold Startup.finish
  split
  · exact .get_bind fun s _ => hexit _
  · exact hexit _
  · exact hexit _
  · exact .get_bind fun s _ => hexit _
  · exact Numbers.bind (E := .outside) (.of_outside .of_procedure) .of_procedure fun _ => hexit _

end

theorem numbersOf_numberedOf (depth : Nat) : NumbersOf (evaluatorOf depth) (numberedOf depth) := by
  induction depth with
  | zero =>
      have hfail : ∀ d, Numbers d d (fail (.internal "nested too deeply") : ShellM Unit)
          (fail (.internal "nested too deeply")) := fun d => .of_outside (.throw fun _ => rfl)
      exact ⟨endsWithin_evaluatorOf 0, fun _ _ => hfail, fun _ => hfail, fun _ => hfail, fun _ _ _ => hfail⟩
  | succ depth ih =>
      -- a command that is called by its name can call no function
      have hnone : ∀ name body, (Table.empty : Table Node).get? name = some body → .all ≤ Span.jumps := by
        intro name body hget
        have hempty : (none : Option Node) = some body := hget
        cases hempty
      exact ⟨endsWithin_evaluatorOf (depth + 1), numbers_runNode ih,
        fun t => Twins.numbers ih (twins_runText t),
        fun args => Twins.numbers ih (twins_runArguments hnone args [] [] {}), numbers_runBuiltin ih⟩

/-! ## Main result -/

/-- No stop for a loop. -/
def StopsForNoLoop (r : Except Stop α × Shell) : Prop := ∀ e, r.1 = .error e → e.levels? = none

/-- `break 2` -/
def breakTwo : Node := .mk (.simple [] [.mk "break" [.literal "break"] 1, .mk "2" [.literal "2"] 1] []) 1

end Shell

end CommandShell
