import CommandShell.Proofs.Procedures.Trails
import CommandShell.Proofs.Twins.Commands

/-!
# Shells in a hurry

An `exit` travels as a stop, and so does the error that gives up a command line. No construct around the
command takes them: on the way out each one only tidies up. In the end the process ends with the status of
the `exit`, and the error is taken by the loop that reads the commands, or by the end of the child that
it happened in (`Exiting`). So nothing would be different up to there if a command that comes to such a
stop ended the process on the spot. A shell in a hurry does that (`hastyOf`), with whatever stops, in
whatever states, one chooses (`Haste`).

`CutShort` says of two programs that the second one makes the calls of the first, and that the first one
is left with such a stop where the second one ends the process. Twins whose evaluators are related so are
related so themselves (`Twins.cuts`). Loops are gone through here, and the start of a shell, so that the
whole shell runs like one in a hurry (`cuts_runCommandLine`).
-/

namespace CommandShell.Shell

open Host (Call Event Program)
open Host.Program (Comes Reaches)
open Script (Node)
open Commands Startup

variable {α β σ : Type} {S T : Span} {e : Stop}

/-! ## What is left after a stop -/

/-- What is left of a program when a command in it came to a stop that is not for loops. If `T` covers the
stop, it may be handed on. -/
inductive Exiting (T : Span) (e : Stop) : Program (Except Stop α × Shell) → Prop where
  | tidies {c : Call} {k : Host.Reply c → Program (Except Stop α × Shell)} (hc : c.tidies = true)
      (h : ∀ r, Exiting T e (k r)) : Exiting T e (.call c k)
  | handsOn (h : T.covers e = true) (t : Shell) : Exiting T e (.done (.error e, t))
  /-- Nothing comes after the end of the shell. -/
  | ends {code : Int} (he : e = .jump (.exit code)) (depth : Nat) (t : Shell)
      (f : Except Stop Empty × Shell → Program (Except Stop α × Shell)) :
      Exiting T e (((exitShell (evaluatorOf depth) code : ShellM Empty).startedIn t).bind f)
  /-- A child reports an error, and ends. -/
  | endsChild (he : e.isJump = false) (depth : Nat) (t : Shell)
      (f : Except Stop Empty × Shell → Program (Except Stop α × Shell)) :
      Exiting T e (((exitChild (evaluatorOf depth) (.error e) : ShellM Empty).startedIn t).bind f)
  /-- The loop that reads commands takes an error. -/
  | taken (he : e.isJump = false) (top : Bool) (t : Shell)
      (f : Except Stop Unit × Shell → Program (Except Stop α × Shell)) :
      Exiting T e (((takeStop top e).startedIn t).bind f)

namespace Exiting

variable {p : Program (Except Stop α × Shell)}

theorem bind {f : Except Stop α × Shell → Program (Except Stop β × Shell)} (hp : Exiting S e p)
    (hf : S.covers e = true → ∀ t, Exiting T e (f (.error e, t))) : Exiting T e (p.bind f) := by
  induction hp with
  | tidies hc _ ih => exact .tidies hc ih
  | handsOn h t => exact hf h t
  | ends he depth t g =>
      rw [Program.bind_assoc]
      exact .ends he depth t _
  | endsChild he depth t g =>
      rw [Program.bind_assoc]
      exact .endsChild he depth t _
  | taken he top t g =>
      rw [Program.bind_assoc]
      exact .taken he top t _

theorem mono (hp : Exiting S e p) (hST : S ≤ T) : Exiting T e p := by
  rw [← Program.bind_done p]
  exact hp.bind fun h t => .handsOn (hST e h) t

/-- Things are put back first. -/
theorem tidy {u : ShellM Unit} (hu : Tidy u) {f : Unit → ShellM α} (hf : ∀ t, Exiting T e ((f ()).startedIn t))
    (t : Shell) : Exiting T e ((u >>= f).startedIn t) := by
  show Exiting T e ((u.startedIn t).bind _)
  have hasks := hu.asks t
  have hok := hu.unfailing.ok t
  generalize u.startedIn t = p at hasks hok
  induction p with
  | done r =>
      obtain ⟨r, v⟩ := r
      obtain ⟨_, ⟨⟩⟩ := hok
      exact hf v
  | call c k ih => exact .tidies hasks.1 fun r => ih r (hasks.2 r) (hok r)

end Exiting

/-- The end of the shell in one process is the same wherever it is written. -/
theorem exitShell_eq_bind (ev : Evaluator) (code : Int) :
    (exitShell ev code : ShellM α) = (exitShell ev code : ShellM Empty) >>= fun never => never.elim := by
  unfold exitShell
  rw [bind_assoc]
  refine bind_congr fun _ => ?_
  unfold leave
  rw [bind_assoc]
  exact bind_congr fun never => never.elim

theorem exiting_exitShell (depth : Nat) (code : Int) (t : Shell) :
    Exiting T (.jump (.exit code)) ((exitShell (evaluatorOf depth) code : ShellM α).startedIn t) := by
  rw [exitShell_eq_bind]
  exact .ends rfl depth t _

theorem exiting_exitChild (depth : Nat) (he : T.covers e = true) (hlevels : e.levels? = none) (t : Shell) :
    Exiting S e ((exitChild (evaluatorOf depth) (.error e) : ShellM α).startedIn t) := by
  cases e with
  | jump j =>
      cases j with
      | exit code => exact exiting_exitShell depth code t
      | breaking n => cases hlevels
      | continuing n => cases hlevels
      | returning code => cases T <;> cases he
      | interrupted => cases T <;> cases he
  | fault f line =>
      have hchild : (exitChild (evaluatorOf depth) (.error (.fault f line)) : ShellM α) =
          (exitChild (evaluatorOf depth) (.error (.fault f line)) : ShellM Empty) >>= fun never =>
            never.elim := by
        unfold exitChild
        rw [bind_assoc]
        exact bind_congr fun _ => exitShell_eq_bind _ _
      rw [hchild]
      exact .endsChild rfl depth t _

/-- A jump that the loop that reads commands is handed goes on. -/
theorem takeStop_of_covers (he : Span.jumps.covers e = true) (top : Bool) : takeStop top e = throw e := by
  cases e with
  | fault f line => cases he
  | jump j =>
      cases j with
      | returning code => cases he
      | interrupted => cases he
      | _ => cases top <;> rfl

theorem takeReturn_of_covers (he : Span.all.covers e = true) : takeReturn (.error e) = throw e := by
  cases e with
  | fault f line => rfl
  | jump j =>
      cases j with
      | returning code => cases he
      | _ => rfl

/-! ## Programs that are cut short -/

/-- The status with which a shell in a hurry leaves when a command comes to a stop in a state, if it
leaves then. -/
def Haste : Type := Stop → Shell → Option Int

variable {K : Haste}

/-- The second program makes the calls of the first one, but may end the process where the first one comes
to a stop. -/
inductive CutShort (K : Haste) (T : Span) :
    Program (Except Stop α × Shell) → Program (Except Stop α × Shell) → Prop where
  | same (p : Program (Except Stop α × Shell)) : CutShort K T p p
  | call {c : Call} {k k' : Host.Reply c → Program (Except Stop α × Shell)}
      (h : ∀ r, CutShort K T (k r) (k' r)) : CutShort K T (.call c k) (.call c k')
  | leaves {e : Stop} {v : Shell} {m : Int} {p : Program (Except Stop α × Shell)}
      {k : Host.Reply (.exit m) → Program (Except Stop α × Shell)} (hK : K e v = some m)
      (he : e.levels? = none) (h : Exiting T e p) : CutShort K T p (.call (.exit m) k)

namespace CutShort

variable {p q : Program (Except Stop α × Shell)}

theorem bind_of {P : Except Stop α × Shell → Prop}
    {f g : Except Stop α × Shell → Program (Except Stop β × Shell)} (h : CutShort K S p q)
    (hP : p.Always P) (hfg : ∀ r, P r → CutShort K T (f r) (g r))
    (hf : ∀ e, S.covers e = true → e.levels? = none → ∀ t, Exiting T e (f (.error e, t))) :
    CutShort K T (p.bind f) (q.bind g) := by
  induction h with
  | same p =>
      induction p with
      | done r => exact hfg r hP
      | call c k ih => exact .call fun r => ih r (hP r)
  | call _ ih => exact .call fun r => ih r (hP r)
  | leaves hK he h => exact .leaves hK he (h.bind fun hS => hf _ hS he)

theorem bind {f g : Except Stop α × Shell → Program (Except Stop β × Shell)} (h : CutShort K S p q)
    (hfg : ∀ r, CutShort K T (f r) (g r))
    (hf : ∀ e, S.covers e = true → e.levels? = none → ∀ t, Exiting T e (f (.error e, t))) :
    CutShort K T (p.bind f) (q.bind g) :=
  h.bind_of (P := fun _ => True) (Program.always_of (fun _ => trivial) p) (fun r _ => hfg r) hf

theorem mono (h : CutShort K S p q) (hST : S ≤ T) : CutShort K T p q := by
  induction h with
  | same p => exact .same p
  | call _ ih => exact .call ih
  | leaves hK he h => exact .leaves hK he (h.mono hST)

end CutShort

/-- A computation, and one that is cut short. The stops that `T` covers may come out of it. -/
def Cuts (K : Haste) (T : Span) (x y : ShellM α) : Prop :=
  ∀ s, CutShort K T (x.startedIn s) (y.startedIn s)

namespace Cuts

theorem refl (x : ShellM α) : Cuts K T x x := fun _ => .same _

theorem mono {x y : ShellM α} (h : Cuts K S x y) (hST : S ≤ T) : Cuts K T x y :=
  fun s => (h s).mono hST

theorem sequence {P : α → Prop} {x y : ShellM α} {f g : α → ShellM β} (hx : Cuts K T x y)
    (hP : Yields P x) (hf : ∀ a, P a → Cuts K T (f a) (g a)) : Cuts K T (x >>= f) (y >>= g) := by
  intro s
  apply (hx s).bind_of (hP s)
  · rintro ⟨r, t⟩ ha
    cases r with
    | ok a => exact hf a (ha a rfl) t
    | error e => exact .same _
  · exact fun e he _ t => .handsOn he t

protected theorem bind {x y : ShellM α} {f g : α → ShellM β} (hx : Cuts K T x y)
    (hf : ∀ a, Cuts K T (f a) (g a)) : Cuts K T (x >>= f) (y >>= g) :=
  hx.sequence (P := fun _ => True) (fun _ => Program.always_of (fun _ _ _ => trivial) _)
    fun a _ => hf a

protected theorem ite {c : Prop} [Decidable c] {x x' y y' : ShellM α} (hx : Cuts K T x x')
    (hy : Cuts K T y y') : Cuts K T (if c then x else y) (if c then x' else y') := by
  split
  · exact hx
  · exact hy

/-- What catches the outcome of commands has to see to their stops. -/
theorem caught {x y : ShellM α} {f g : Except Stop α → ShellM β} (hx : Cuts K S x y)
    (hfg : ∀ r, Cuts K T (f r) (g r))
    (hf : ∀ e, S.covers e = true → e.levels? = none → ∀ t, Exiting T e ((f (.error e)).startedIn t)) :
    Cuts K T (attempt x >>= f) (attempt y >>= g) := by
  intro s
  rw [startedIn_attempt_bind, startedIn_attempt_bind]
  exact (hx s).bind (fun r => hfg r.1 r.2) hf

/-- Every round of a loop is cut short, so the loop is. -/
protected theorem iterateFor {step step' : σ → ShellM (σ ⊕ α)} (h : ∀ a, Cuts K T (step a) (step' a))
    (n : Nat) (a : σ) : Cuts K T (iterateFor step n a) (iterateFor step' n a) := by
  induction n generalizing a with
  | zero => exact refl _
  | succ n ih =>
      apply (h a).bind
      rintro (a' | b)
      · exact ih a'
      · exact refl _

end Cuts

/-! ## In a hurry -/

/-- The status to leave with when a command comes to a stop of the given kind. -/
def Haste.status? (K : Haste) (S : Span) (e : Stop) (sh : Shell) : Option Int :=
  if S.covers e && e.levels?.isNone then K e sh else none

/-- Ends the process if there is a status to leave with. -/
def leaveInstead (e : Stop) : Option Int → ShellM Unit
  | some m => leave m
  | none => throw e

/-- Ends the process on the spot when a command comes to a stop of the given kind. -/
def leavingAt (K : Haste) (S : Span) (x : ShellM Unit) : ShellM Unit := do
  match ← attempt x with
  | .ok () => return
  | .error e => leaveInstead e (K.status? S e (← get))

/-- The evaluator of a shell in a hurry. The command for the end of a shell is run as ever. -/
def hastyOf (K : Haste) : Nat → Evaluator
  | 0 => evaluatorOf 0
  | depth + 1 =>
    { node := fun node place => leavingAt K .all (runNode (hastyOf K depth) node place)
      source := fun t => do
        if (← get).isExiting then runText (evaluatorOf depth) t else runText (hastyOf K depth) t
      command := fun args => runArguments (hastyOf K depth) .empty args [] [] {}
      builtin := fun b name args => leavingAt K .jumps (runBuiltin (hastyOf K depth) b name args) }

/-- An evaluator, and one in a hurry in its place. -/
structure Hastens (K : Haste) (ev ev' : Evaluator) : Prop where
  real : ∃ depth, ev = evaluatorOf depth
  node : ∀ node place, Cuts K .all (ev.node node place) (ev'.node node place)
  source : ∀ t, Cuts K .jumps (ev.source t) (ev'.source t)
  command : ∀ args, Cuts K .jumps (ev.command args) (ev'.command args)
  builtin : ∀ b name args, Cuts K .jumps (ev.builtin b name args) (ev'.builtin b name args)
  ends : ∀ code s, (exitShell ev' code : ShellM Empty).startedIn s =
    (exitShell ev code : ShellM Empty).startedIn s

section

variable {ev ev' : Evaluator} (h : Hastens K ev ev')

include h

theorem Hastens.endsWithin : EndsWithin ev := by
  obtain ⟨depth, rfl⟩ := h.real
  exact endsWithin_evaluatorOf depth

theorem cuts_exitShell (code : Int) : Cuts K T (exitShell ev code : ShellM α) (exitShell ev' code) := by
  intro s
  rw [exitShell_eq_bind ev, exitShell_eq_bind ev']
  show CutShort K T (((exitShell ev code : ShellM Empty).startedIn s).bind _)
    (((exitShell ev' code : ShellM Empty).startedIn s).bind _)
  rw [h.ends]
  exact .same _

/-- Whatever a child comes to, it ends there. -/
theorem cuts_endOfChild {x y : ShellM Unit} (hx : Cuts K .all x y) :
    Cuts K T (do exitChild ev (← attempt x) : ShellM α) (do exitChild ev' (← attempt y)) := by
  apply hx.caught
  · exact fun r => .bind (.refl _) fun code => cuts_exitShell h code
  · intro e he hlevels t
    obtain ⟨depth, rfl⟩ := h.real
    exact exiting_exitChild depth he hlevels t

omit h in
/-- A `return` ends in the function, and the stops of its commands are handed on. -/
theorem cuts_withinFunction (params : List Text) (assigned : List (Text × Text)) {x y : ShellM Unit}
    (hxy : Cuts K .all (do shadowAll assigned; x) (do shadowAll assigned; y)) :
    Cuts K .all (withinFunction params assigned x) (withinFunction params assigned y) := by
  unfold withinFunction withFrame
  simp only [bind_assoc, pure_bind]
  apply Cuts.bind (.refl _)
  intro s
  apply Cuts.bind (.refl _)
  intro _
  apply Cuts.bind (.refl _)
  intro _
  apply hxy.caught
  · exact fun r => .refl _
  · intro e he _ t
    show Exiting .all e ((takeReturn (.error e)).startedIn _)
    rw [takeReturn_of_covers he]
    exact .handsOn he _

/-- Twins do the same in a hurry, cut short where a command comes to a stop. -/
protected theorem Twins.cuts {x y : ShellM α} (hxy : Twins ev ev' T x y) : Cuts K T x y := by
  induction hxy with
  | same _ => exact .refl _
  | sequence _ hP _ ihx ihf => exact ihx.sequence hP ihf
  | @caught S T hST _ _ x y f g u hx hu hf hg _ ihx ihf =>
      intro s
      rw [startedIn_attempt_bind, startedIn_attempt_bind]
      apply (ihx s).bind_of (hx.covers_of_levels h.endsWithin s)
      · rintro ⟨r, t⟩ hlevels
        have hother : (∀ e, r = .error e → e.levels? = none) →
            CutShort K T ((f r).startedIn t) ((g r).startedIn t) := fun hr => ihf r hr t
        cases r with
        | ok a => exact hother nofun
        | error e =>
            cases he : e.levels? with
            | none =>
                apply hother
                rintro _ ⟨⟩
                exact he
            | some n =>
                have hcovers := hlevels e n rfl he
                show CutShort K T ((f (.error e)).startedIn t) ((g (.error e)).startedIn t)
                rw [hf e hcovers, hg e hcovers]
                exact .same _
      · intro e he _ t
        rw [hf e he]
        exact .tidy hu (fun t => .handsOn (hST e he) t) t
  | function hT params assigned _ ih => exact (cuts_withinFunction params assigned ih).mono hT
  | @read T hT top _ _ _ f hok herror ih =>
      apply ih.caught
      · exact fun r => .refl _
      · intro e he _ t
        rw [herror]
        cases e with
        | jump j =>
            have hjump : Span.jumps.covers (.jump j) = true := Span.jumps_of_all he
            rw [takeStop_of_covers hjump]
            exact .handsOn (hT _ hjump) t
        | fault f line =>
            rw [← Program.bind_done ((takeStop top (.fault f line)).startedIn t)]
            exact .taken rfl top t .done
  | child _ ih => exact cuts_endOfChild h ih
  | exit code => exact cuts_exitShell h code
  | node hT node place => exact (h.node node place).mono hT
  | source hT t => exact (h.source t).mono hT
  | command hT args => exact (h.command args).mono hT
  | builtin hT b name args => exact (h.builtin b name args).mono hT

/-! ## Loops -/

omit h in
theorem cuts_withinLoop {x y : ShellM Int} (hxy : Cuts K .all x y) :
    Cuts K .all (withinLoop x) (withinLoop y) := by
  have hrounds : Cuts K .all (do setStatus (← x)) (do setStatus (← y)) := hxy.bind fun _ => .refl _
  apply Cuts.bind (.refl _)
  intro _
  apply hrounds.caught
  · exact fun r => .refl _
  · exact fun e he _ t => .handsOn he _

omit h in
theorem loopFlow_of_levels (he : e.levels? = none) : loopFlow (.error e) = throw e := by
  cases e with
  | fault f line => rfl
  | jump j =>
      cases j with
      | breaking n => cases he
      | continuing n => cases he
      | _ => rfl

omit h in
/-- A list of a loop, and what the loop does after it. -/
theorem cuts_turn {x y : ShellM Unit} (hxy : Cuts K .all x y) {f g : LoopFlow → ShellM β}
    (hfg : ∀ flow, Cuts K .all (f flow) (g flow)) :
    Cuts K .all (attempt x >>= fun r => loopFlow r >>= f) (attempt y >>= fun r => loopFlow r >>= g) := by
  apply hxy.caught
  · exact fun r => .bind (.refl _) hfg
  · intro e he hlevels t
    rw [loopFlow_of_levels hlevels]
    exact .handsOn he t

theorem cuts_runLoop (cond body : Node) (untilZero : Bool) (place : Place) :
    Cuts K .all (runLoop ev cond body untilZero place) (runLoop ev' cond body untilZero place) := by
  have hround : ∀ status, Cuts K .all (loopRound ev cond body untilZero place status)
      (loopRound ev' cond body untilZero place status) := by
    intro status
    apply cuts_turn (h.node _ _)
    intro flow
    cases flow with
    | leave => exact .refl _
    | again => exact .refl _
    | next =>
        apply Cuts.bind (.refl _)
        intro s
        exact .ite (.refl _) (cuts_turn (h.node _ _) fun flow => .refl _)
  exact cuts_withinLoop (.iterateFor hround roundLimit 0)

theorem cuts_runFor (var : Text) (items : List Text) (body : Node) (place : Place) :
    Cuts K .all (runFor ev var items body place) (runFor ev' var items body place) := by
  have hitems : ∀ status, Cuts K .all (forItems ev var body place status items)
      (forItems ev' var body place status items) := by
    induction items with
    | nil => exact fun _ => .refl _
    | cons item items ih =>
        intro status
        apply Cuts.bind (.refl _)
        intro _
        apply cuts_turn (h.node _ _)
        exact fun flow => .bind (.refl _) fun s => .ite (.refl _) (ih _)
  exact cuts_withinLoop (hitems 0)

/-! ## Commands and scripts -/

theorem cuts_runNode (node : Node) (place : Place) :
    Cuts K .all (runNode ev node place) (runNode ev' node place) := by
  have hkind : Cuts K .all (runKind ev place node.command) (runKind ev' place node.command) := by
    cases hc : node.command with
    | whileDo cond body => exact cuts_runLoop h cond body false place
    | untilDo cond body => exact cuts_runLoop h cond body true place
    | forIn var items body =>
        have hitems : Cuts K .all (loopItems ev items) (loopItems ev' items) := Twins.cuts h inferInstance
        exact hitems.bind fun items => cuts_runFor h var items body place
    | _ => exact Twins.cuts h (twins_runKind place rfl)
  exact .bind (.refl _) fun _ => hkind.bind fun _ => .refl _

theorem cuts_runBuiltin (b : Builtin) (name : Text) (args : List Text) :
    Cuts K .jumps (runBuiltin ev b name args) (runBuiltin ev' b name args) := by
  have haction : Cuts K .jumps (action ev b args) (action ev' b args) := by
    by_cases hbreak : b = .break_
    · subst hbreak
      exact .refl _
    · by_cases hcontinue : b = .continue_
      · subst hcontinue
        exact .refl _
      · exact Twins.cuts h (twins_action hbreak hcontinue args)
  apply haction.caught
  · exact fun r => .refl _
  · intro e he _ t
    cases e with
    | fault f line => cases he
    | jump j => exact .handsOn he t

theorem cuts_command (args : List Text) :
    Cuts K .jumps (runArguments ev .empty args [] [] {}) (runArguments ev' .empty args [] [] {}) := by
  have hnone : ∀ name body, (Table.empty : Table Node).get? name = some body → .all ≤ Span.jumps := by
    intro name body hget
    have hempty : (none : Option Node) = some body := hget
    cases hempty
  exact Twins.cuts h (twins_runArguments hnone args [] [] {})

/-! ## Startup -/

theorem cuts_sourceStartup (path : Text) : Cuts K .none (sourceStartup ev path) (sourceStartup ev' path) := by
  apply Cuts.bind (.refl _)
  intro r
  cases r with
  | error e => exact .refl _
  | ok data =>
      apply (h.source _).caught
      · intro r
        split
        · exact cuts_exitShell h _
        · exact .refl _
        · exact .refl _
        · exact .refl _
      · intro e he hlevels t
        cases e with
        | fault f line => cases he
        | jump j =>
            cases j with
            | exit code =>
                obtain ⟨depth, rfl⟩ := h.real
                exact exiting_exitShell depth code t
            | breaking n => cases hlevels
            | continuing n => cases hlevels
            | _ => cases he

theorem cuts_environmentFile? : Cuts K .none (environmentFile? ev) (environmentFile? ev') := by
  apply Cuts.bind (.refl _)
  intro s
  split
  · exact .refl _
  · split
    · exact .refl _
    · split
      · exact .refl _
      · rename_i w _
        have hword : Cuts K .none (attempt (Expansion.wordText ev w))
            (attempt (Expansion.wordText ev' w)) := Twins.cuts h inferInstance
        exact hword.bind fun r => .refl _

theorem cuts_sourceStartupFiles (login : Bool) :
    Cuts K .none (sourceStartupFiles ev login) (sourceStartupFiles ev' login) := by
  have hrest : Cuts K .none (sourceEnvironmentFile ev) (sourceEnvironmentFile ev') := by
    apply Cuts.bind (.refl _)
    intro s
    apply Cuts.ite _ (.refl _)
    apply (cuts_environmentFile? h).bind
    intro file
    cases file with
    | some path => exact cuts_sourceStartup h path
    | none => exact .refl _
  apply Cuts.ite _ hrest
  apply (cuts_sourceStartup h _).bind
  intro _
  apply Cuts.bind (.refl _)
  intro s
  split
  · exact (cuts_sourceStartup h _).bind fun _ => hrest
  · exact hrest

theorem cuts_finish (r : Except Stop Unit) : Cuts K T (finish ev r : ShellM α) (finish ev' r) := by
  unfold finish
  split
  · exact .bind (.refl _) fun s => cuts_exitShell h _
  · exact cuts_exitShell h _
  · exact cuts_exitShell h _
  · exact .bind (.refl _) fun s => cuts_exitShell h _
  · exact .bind (.refl _) fun _ => cuts_exitShell h _

end

/-! ## Evaluators in a hurry -/

theorem Haste.of_status? {v : Shell} {m : Int} (h : K.status? S e v = some m) :
    S.covers e = true ∧ e.levels? = none ∧ K e v = some m := by
  unfold Haste.status? at h
  split at h
  · rename_i hkind
    obtain ⟨hS, hlevels⟩ := Bool.and_eq_true_iff.mp hkind
    exact ⟨hS, Option.isNone_iff_eq_none.mp hlevels, h⟩
  · cases h

theorem cuts_leavingAt {x y : ShellM Unit} (h : Cuts K S x y) : Cuts K S x (leavingAt K S y) := by
  intro s
  unfold leavingAt
  rw [startedIn_attempt_bind, ← Program.bind_done (x.startedIn s)]
  apply (h s).bind
  · rintro ⟨r, t⟩
    cases r with
    | ok u => exact .same _
    | error e =>
        show CutShort K S _ ((leaveInstead e (K.status? S e t)).startedIn t)
        cases hstatus : K.status? S e t with
        | some m =>
            obtain ⟨hS, hlevels, hK⟩ := Haste.of_status? hstatus
            exact .leaves hK hlevels (.handsOn hS t)
        | none => exact .same _
  · exact fun e he _ t => .handsOn he t

/-- While the command for the end of a shell is run there is no hurry. -/
theorem startedIn_source_hastyOf {s : Shell} (depth : Nat) (t : Text) (hs : s.isExiting = true) :
    ((hastyOf K (depth + 1)).source t).startedIn s = ((evaluatorOf (depth + 1)).source t).startedIn s := by
  show (if s.isExiting = true then runText (evaluatorOf depth) t
    else runText (hastyOf K depth) t).startedIn s = _
  rw [if_pos hs]
  rfl

theorem startedIn_exitShell_hastyOf (depth : Nat) (code : Int) (s : Shell) :
    (exitShell (hastyOf K depth) code : ShellM Empty).startedIn s =
      (exitShell (evaluatorOf depth) code : ShellM Empty).startedIn s := by
  cases depth with
  | zero => rfl
  | succ depth =>
      have htaken : ∀ f : Option Text → ShellM Unit, (modifyGet takeExitCommand >>= f).startedIn s =
          (f (takeExitCommand s).1).startedIn (takeExitCommand s).2 := fun _ => rfl
      have htrap : (runExitTrap (hastyOf K (depth + 1)) code).startedIn s =
          (runExitTrap (evaluatorOf (depth + 1)) code).startedIn s := by
        unfold runExitTrap
        rw [htaken, htaken]
        unfold takeExitCommand
        -- a shell that is exiting already runs no command; otherwise it is exiting while the command runs
        by_cases hs : s.isExiting = true
        · rw [if_pos hs]
        · rw [if_neg hs]
          cases s.traps.exitCommand? with
          | none => rfl
          | some command =>
              show ((attempt ((hastyOf K (depth + 1)).source command) >>= _ : ShellM Unit).startedIn _) =
                ((attempt ((evaluatorOf (depth + 1)).source command) >>= _ : ShellM Unit).startedIn _)
              rw [startedIn_attempt_bind, startedIn_attempt_bind, startedIn_source_hastyOf depth]
              rfl
      exact congrArg (fun p : Program (Except Stop Unit × Shell) => p.bind fun r =>
        ExceptT.bindCont (fun _ => leave code) r.1 r.2) htrap

theorem hastens_hastyOf (K : Haste) (depth : Nat) : Hastens K (evaluatorOf depth) (hastyOf K depth) := by
  induction depth with
  | zero =>
      exact ⟨⟨0, rfl⟩, fun _ _ => .refl _, fun _ => .refl _, fun _ => .refl _, fun _ _ _ => .refl _,
        fun _ _ => rfl⟩
  | succ depth ih =>
      -- only commands and builtins are left in a hurry; texts are not, but what they run may be
      refine ⟨⟨depth + 1, rfl⟩, fun node place => cuts_leavingAt (cuts_runNode ih node place), ?_,
        cuts_command ih, fun b name args => cuts_leavingAt (cuts_runBuiltin ih b name args),
        startedIn_exitShell_hastyOf (depth + 1)⟩
      intro t s
      show CutShort K .jumps ((runText (evaluatorOf depth) t).startedIn s)
        ((if s.isExiting = true then runText (evaluatorOf depth) t
          else runText (hastyOf K depth) t).startedIn s)
      split
      · exact .same _
      · exact Twins.cuts ih (twins_runText t) s

/-! ## Whole shells -/

/-- A shell runs like one in a hurry, from its start to its end. -/
theorem cuts_runCommandLine (K : Haste) (depth : Nat) (name : Text) (line : CommandLine) :
    Cuts K .none (runCommandLine (evaluatorOf depth) name line : ShellM α)
      (runCommandLine (hastyOf K depth) name line) := by
  have h := hastens_hastyOf K depth
  apply Cuts.bind (.refl _)
  intro source
  apply Cuts.bind (.refl _)
  intro _
  apply (cuts_sourceStartupFiles h _).bind
  intro _
  apply Cuts.bind (.refl _)
  intro s
  have hmain : Cuts K .jumps _ _ := Twins.cuts h (twins_runSource true
    { source with prompts := s.isInteractive && line.source == .standardInput })
  apply hmain.caught
  · exact fun r => cuts_finish h r
  · intro e he hlevels t
    cases e with
    | fault f line => cases he
    | jump j =>
        cases j with
        | exit code => exact exiting_exitShell depth code t
        | breaking n => cases hlevels
        | continuing n => cases hlevels
        | _ => cases he

/-! ## Where a shell is left -/

/-- Leaves with one stop only, in states that satisfy `P`, with the status `m`. -/
def Haste.only (e : Stop) (P : Shell → Bool) (m : Int) : Haste :=
  fun e' sh => if e' = e && P sh then some m else none

theorem Haste.of_only {P : Shell → Bool} {m m' : Int} {e' : Stop} {v : Shell}
    (h : Haste.only e P m e' v = some m') : e' = e := by
  unfold Haste.only at h
  split at h
  · rename_i he
    exact of_decide_eq_true (Bool.and_eq_true_iff.mp he).1
  · cases h

/-- A command in a run came to a stop: in a hurry with that stop the shell ends there, whatever the status
is that it leaves with. -/
def ComesToStop (X : Evaluator → ShellM α) (depth : Nat) (s : Shell) (es : List Event) (e : Stop) : Prop :=
  ∃ P : Shell → Bool, ∀ m : Int, ∃ k,
    Reaches ((X (hastyOf (.only e P m) depth)).startedIn s) es (.call (.exit m) k)

/-- A program that is cut short comes as far as the other one. -/
theorem CutShort.reaches {p q q' : Program (Except Stop α × Shell)} {es : List Event}
    (h : CutShort K T p q) (hq : Reaches q es q') : ∃ p', Reaches p es p' ∧ CutShort K T p' q' := by
  induction hq generalizing p with
  | here q => exact ⟨p, .here p, h⟩
  | step hq ih =>
      cases h with
      | same => exact ⟨_, .step hq, .same _⟩
      | call h =>
          obtain ⟨p', hp', h'⟩ := ih (h _)
          exact ⟨p', .step hp', h'⟩
      | leaves => rename_i never; exact nomatch never

/-- Where a copy in a hurry ends, so does the shell, or it was left by a command. -/
theorem CutShort.of_exit {p : Program (Except Stop α × Shell)} {m : Int}
    {k : Host.Reply (.exit m) → Program (Except Stop α × Shell)}
    (h : CutShort K T p (.call (.exit m) k)) :
    (∃ k', p = .call (.exit m) k') ∨ ∃ e v, K e v = some m ∧ Exiting T e p := by
  cases h with
  | same => exact .inl ⟨k, rfl⟩
  | call => exact .inl ⟨_, rfl⟩
  | leaves hK _ h => exact .inr ⟨_, _, hK, h⟩

/-- Where a command came to a stop, a shell only tidies up, and ends or reports the stop. -/
theorem ComesToStop.exiting {X : Evaluator → ShellM α} {depth : Nat} {s : Shell} {es : List Event}
    (hX : ∀ K, Cuts K T (X (evaluatorOf depth)) (X (hastyOf K depth)))
    (h : ComesToStop X depth s es e) :
    ∃ p, Reaches ((X (evaluatorOf depth)).startedIn s) es p ∧ Exiting T e p := by
  obtain ⟨P, h⟩ := h
  -- one copy ends with the status 0 there and one with 1, and the shell does not end with both
  obtain ⟨k, hk⟩ := h 0
  obtain ⟨k', hk'⟩ := h 1
  obtain ⟨p, hp, hcut⟩ := (hX _ s).reaches hk
  obtain ⟨p', hp', hcut'⟩ := (hX _ s).reaches hk'
  have hsame : Reaches p [] p' := hp.of_append (by rw [List.append_nil]; exact hp')
  cases hsame
  refine ⟨p, hp, ?_⟩
  rcases hcut.of_exit with ⟨_, rfl⟩ | ⟨e', v, hK, hexiting⟩
  · rcases hcut'.of_exit with ⟨_, hp⟩ | ⟨e', v, hK, hexiting⟩
    · cases hp
    · obtain rfl := Haste.of_only hK
      exact hexiting
  · obtain rfl := Haste.of_only hK
    exact hexiting

end CommandShell.Shell
