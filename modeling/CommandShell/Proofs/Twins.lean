import CommandShell.Proofs.Procedures.Constructs
import CommandShell.Proofs.Surroundings

/-!
# One construct over two evaluators

Every construct of the shell takes the evaluator for the commands inside it as an argument. Over two
evaluators it is put together in the same way twice. `Twins` says this of two computations, part by
part, and tells which stops of the commands inside may come out of them (`Span`). A construct that
catches the outcome of a command either hands such a stop on, after it tidied up, or is one of the places
where it is taken: a function, the loop that reads commands, or the end of a child.

What holds of two runs is proved of the parts, once, and then of all constructs. Loops, `break` and
`continue` are no parts here: what becomes of the stops that are meant for loops is what the modules that
use this one are about.
-/

namespace CommandShell

open Host (Call Program)

/-- Calls that put descriptors back, and those that see to it that no signal is forgotten. -/
def Host.Call.tidies : Call → Bool
  | .duplicateOnto .. | .close _ | .isPending _ | .markArrived => true
  | _ => false

/-- Which stops of commands may come out of a computation. -/
inductive Span where
  /-- None: commands are run in children only. -/
  | none
  /-- Exits, and jumps for loops. -/
  | jumps
  /-- Errors that a command line ends with as well. -/
  | all
  deriving DecidableEq

namespace Span

/-- Whether a stop is one of those. -/
def covers : Span → Stop → Bool
  | jumps, .jump (.exit _) | jumps, .jump (.breaking _) | jumps, .jump (.continuing _) => true
  | all, .jump (.exit _) | all, .jump (.breaking _) | all, .jump (.continuing _) => true
  | all, .fault f _ => f.stopClass = .expansion || f.stopClass = .execution
  | _, _ => false

instance : LE Span := ⟨fun S T => ∀ e, S.covers e = true → T.covers e = true⟩

theorem le_refl (S : Span) : S ≤ S := fun _ h => h

theorem none_le (S : Span) : none ≤ S := fun e h => by cases e <;> cases h

theorem jumps_le_all : jumps ≤ all := by
  intro e h
  cases e with
  | fault f line => cases h
  | jump j => cases j <;> first | rfl | cases h

theorem jumps_of_all {j : Jump} (h : all.covers (.jump j) = true) : jumps.covers (.jump j) = true := by
  cases j <;> first | rfl | cases h

theorem covers_jumps {e : Stop} (h : jumps.covers e = true) : e.isJump = true := by
  cases e with
  | fault f line => cases h
  | jump j => rfl

/-- The stops that a computation may end with from which these come out. -/
def exits : Span → Exits
  | none => .outside
  | jumps | all => .within

theorem exits_of_le {T : Span} (h : jumps ≤ T) : T.exits = .within := by
  cases T with
  | none => exact nomatch h (.jump (.exit 0)) rfl
  | jumps => rfl
  | all => rfl

theorem none_or_jumps_le (S : Span) : S = none ∨ jumps ≤ S := by
  cases S with
  | none => exact .inl rfl
  | jumps => exact .inr (le_refl jumps)
  | all => exact .inr jumps_le_all

theorem outside_le_exits (T : Span) : Exits.outside ≤ T.exits := fun h => T.exits.others _ h

/-- A jump for loops comes out wherever any jump does. -/
theorem jumps_covers_of_levels {e : Stop} {n : Nat} (h : e.levels? = some n) : jumps.covers e = true := by
  cases e with
  | fault f line => cases h
  | jump j => cases j <;> first | rfl | cases h

end Span

namespace Shell

open Script (Node)

variable {ev ev' : Evaluator} {S T : Span} {α β σ : Type}

/-! ## Tidying up -/

/-- A computation puts things back, and does not fail whatever the answers are. -/
structure Tidy (x : ShellM α) : Prop where
  asks : OnlyAsks (fun c => c.tidies = true) x
  ends : EndsFor .outside x
  unfailing : Unfailing x

namespace Tidy

theorem always {x : ShellM α} (h : Tidy x) (s : Shell) :
    (x.startedIn s).Always fun r => (∃ a, r.1 = .ok a) ∧ r.2.loopDepth = s.loopDepth :=
  ((h.unfailing.ok s).and (h.ends s)).mono fun _ hr => ⟨hr.1, hr.2.loopDepth⟩

protected theorem pure (a : α) : Tidy (pure a : ShellM α) := ⟨.pure a, .pure a, unfailing_pure a⟩

protected theorem modify {f : Shell → Shell} (hdepth : ∀ s, (f s).loopDepth = s.loopDepth)
    (hexiting : ∀ s, (f s).isExiting = s.isExiting) : Tidy (modify f : ShellM Unit) :=
  ⟨.modify f, .modify hdepth hexiting, unfailing_modify f⟩

protected theorem ask {c : Call} (hc : c.tidies = true) : Tidy (ask c) :=
  ⟨.ask hc, .ask c, unfailing_ask c⟩

protected theorem bind {x : ShellM α} {f : α → ShellM β} (hx : Tidy x) (hf : ∀ a, Tidy (f a)) :
    Tidy (x >>= f) :=
  ⟨hx.asks.bind fun a => (hf a).asks, hx.ends.bind fun a => (hf a).ends,
    @unfailing_bind _ _ _ _ hx.unfailing fun a => (hf a).unfailing⟩

protected theorem get_bind {f : Shell → ShellM α} (hf : ∀ s, Tidy (f s)) : Tidy (get >>= f) :=
  ⟨OnlyAsks.get.bind fun s => (hf s).asks, EndsFor.get.bind fun s => (hf s).ends,
    @unfailing_bind _ _ _ _ unfailing_get fun s => (hf s).unfailing⟩

protected theorem ite {c : Prop} [Decidable c] {x y : ShellM α} (hx : Tidy x) (hy : Tidy y) :
    Tidy (if c then x else y) := by
  split
  · exact hx
  · exact hy

protected theorem forM {f : β → ShellM Unit} (h : ∀ b, Tidy (f b)) (bs : List β) :
    Tidy (bs.forM f) := by
  induction bs with
  | nil => exact .pure ()
  | cons b bs ih => exact (h b).bind fun _ => ih

theorem closeSaved : Tidy closeSaved := by
  have hback : ∀ saved, Tidy (restoreDescriptor saved) := by
    intro saved
    unfold restoreDescriptor
    split
    · exact .bind (.ite (.pure _) (.ask rfl)) fun _ => .bind (.ask rfl) fun _ => .pure ()
    · exact .bind (.ask rfl) fun _ => .pure ()
  refine .get_bind fun s => ?_
  split
  · exact .pure ()
  · exact .bind (.modify (fun _ => rfl) fun _ => rfl) fun _ => .forM hback _

theorem anyPending (signals : List Signal) : Tidy (anyPending signals) := by
  induction signals with
  | nil => exact .pure false
  | cons signal signals ih => exact .bind (.ask rfl) fun _ => .ite (.pure true) ih

end Tidy

/-! ## Twins -/

/-- What catches an outcome hands the stops that come out of commands on, after it tidied up. -/
def HandsOn (S : Span) (u : ShellM Unit) (f : Except Stop α → ShellM β) : Prop :=
  ∀ e, S.covers e = true → f (.error e) = (u >>= fun _ => throw e)

/-- Two computations that are put together in the same way from parts of two evaluators. -/
class inductive Twins (ev ev' : Evaluator) : Span → {α : Type} → ShellM α → ShellM α → Prop where
  /-- No part of an evaluator. -/
  | same {T : Span} {α : Type} {x : ShellM α} (h : EndsFor .outside x) : Twins ev ev' T x x
  /-- A sequence, with what is known of the values of its first part. -/
  | sequence {T : Span} {α β : Type} {P : α → Prop} {x y : ShellM α} {f g : α → ShellM β}
      (hxy : Twins ev ev' T x y) (hP : Yields P x) (hfg : ∀ a, P a → Twins ev ev' T (f a) (g a)) :
      Twins ev ev' T (x >>= f) (y >>= g)
  /-- The outcome of the first part is handed on, or else it is no jump for loops. -/
  | caught {S T : Span} (hST : S ≤ T) {α β : Type} {x y : ShellM α} {f g : Except Stop α → ShellM β}
      {u : ShellM Unit} (hxy : Twins ev ev' S x y) (hu : Tidy u) (hf : HandsOn S u f) (hg : HandsOn S u g)
      (hfg : ∀ r, (∀ e, r = .error e → e.levels? = none) → Twins ev ev' T (f r) (g r)) :
      Twins ev ev' T (attempt x >>= f) (attempt y >>= g)
  /-- Jumps for loops stay in a function. -/
  | function {T : Span} (hT : .all ≤ T) (params : List Text) (assigned : List (Text × Text))
      {x y : ShellM Unit} (hxy : Twins ev ev' .all (do shadowAll assigned; x) (do shadowAll assigned; y)) :
      Twins ev ev' T (withinFunction params assigned x) (withinFunction params assigned y)
  /-- The loop that reads commands takes their errors. -/
  | read {T : Span} (hT : .jumps ≤ T) (top : Bool) {x y : ShellM Unit} (hxy : Twins ev ev' .all x y)
      {f : Except Stop Unit → ShellM Unit} (hok : f (.ok ()) = pure ())
      (herror : ∀ e, f (.error e) = takeStop top e) :
      Twins ev ev' T (attempt x >>= f) (attempt y >>= f)
  /-- A child ends with whatever its commands came to. -/
  | child {T : Span} {α : Type} {x y : ShellM Unit} (hxy : Twins ev ev' .all x y) :
      Twins ev ev' T (do exitChild ev (← attempt x) : ShellM α) (do exitChild ev' (← attempt y))
  | exit {T : Span} {α : Type} (code : Int) :
      Twins ev ev' T (exitShell ev code : ShellM α) (exitShell ev' code)
  | node {T : Span} (hT : .all ≤ T) (node : Node) (place : Place) :
      Twins ev ev' T (ev.node node place) (ev'.node node place)
  | source {T : Span} (hT : .jumps ≤ T) (t : Text) : Twins ev ev' T (ev.source t) (ev'.source t)
  | command {T : Span} (hT : .jumps ≤ T) (args : List Text) :
      Twins ev ev' T (ev.command args) (ev'.command args)
  | builtin {T : Span} (hT : .jumps ≤ T) (b : Builtin) (name : Text) (args : List Text) :
      Twins ev ev' T (ev.builtin b name args) (ev'.builtin b name args)

/-! ## Rules -/

theorem HandsOn.of_none (u : ShellM Unit) (f : Except Stop α → ShellM β) : HandsOn .none u f :=
  fun e he => by cases e <;> cases he

theorem HandsOn.resume : HandsOn S (pure ()) (resume : Except Stop α → ShellM α) := fun _ _ => rfl

/-- Things are put back first. -/
theorem HandsOn.after {v : ShellM Unit} {f : Except Stop α → ShellM β} (hf : HandsOn S v f)
    (u : ShellM Unit) : HandsOn S (u >>= fun _ => v) fun r => (u >>= fun _ => f r) := by
  intro e he
  show (u >>= fun _ => f (.error e)) = _
  rw [hf e he, bind_assoc]

theorem EndsFor.of_procedure {E : Exits} {x : ShellM α} [h : Procedure (evaluatorOf 0) E x] :
    EndsFor E x := h.ends (endsWithin_evaluatorOf 0)

/-- What is no part of any evaluator. -/
instance (priority := high) twins_same {x : ShellM α} [Procedure (evaluatorOf 0) .outside x] :
    Twins ev ev' T x x := .same .of_procedure

protected theorem Twins.pure (a : α) : Twins ev ev' T (pure a : ShellM α) (pure a) := .same (.pure a)

instance twins_ask (c : Call) : @Twins ev ev' T (no_index (Host.Reply c)) (ask c) (ask c) :=
  .same (.ask c)

protected theorem Twins.bind {x y : ShellM α} {f g : α → ShellM β} (hxy : Twins ev ev' T x y)
    (hfg : ∀ a, Twins ev ev' T (f a) (g a)) : Twins ev ev' T (x >>= f) (y >>= g) :=
  .sequence (P := fun _ => True) hxy (fun _ => Program.always_of (fun _ _ _ => trivial) _)
    fun a _ => hfg a

instance twins_bind {x y : ShellM α} {f g : α → ShellM β} [hxy : Twins ev ev' T x y]
    [hfg : ∀ a, Twins ev ev' T (f a) (g a)] : Twins ev ev' T (x >>= f) (y >>= g) := hxy.bind hfg

instance twins_map {f : α → β} {x y : ShellM α} [Twins ev ev' T x y] :
    Twins ev ev' T (f <$> x) (f <$> y) := by
  have hpure : ∀ a, Twins ev ev' T (pure (f a) : ShellM β) (pure (f a)) := fun a => .same (.pure _)
  rw [map_eq_pure_bind, map_eq_pure_bind]
  infer_instance

protected theorem Twins.ite {c : Prop} [Decidable c] {x x' y y' : ShellM α}
    (hx : Twins ev ev' T x x') (hy : Twins ev ev' T y y') :
    Twins ev ev' T (if c then x else y) (if c then x' else y') := by
  split
  · exact hx
  · exact hy

instance twins_ite {c : Prop} [Decidable c] {x x' y y' : ShellM α} [hx : Twins ev ev' T x x']
    [hy : Twins ev ev' T y y'] : Twins ev ev' T (if c then x else y) (if c then x' else y') := hx.ite hy

/-- What runs commands in children only may be caught for any purpose. -/
protected theorem Twins.attempt_bind {x y : ShellM α} {f g : Except Stop α → ShellM β}
    (hxy : Twins ev ev' .none x y)
    (hfg : ∀ r, (∀ e, r = .error e → e.levels? = none) → Twins ev ev' T (f r) (g r)) :
    Twins ev ev' T (attempt x >>= f) (attempt y >>= g) :=
  .caught (Span.none_le T) hxy (.pure ()) (.of_none _ f) (.of_none _ g) hfg

instance twins_attempt {x y : ShellM α} [hxy : Twins ev ev' .none x y] :
    Twins ev ev' T (attempt x) (attempt y) := by
  rw [← bind_pure (attempt x), ← bind_pure (attempt y)]
  exact hxy.attempt_bind fun r _ => .pure r

/-- What is handed on after things were put back. -/
protected theorem Twins.handed {u : ShellM Unit} (hST : S ≤ T) {x y : ShellM α}
    {f : Except Stop α → ShellM β} (hxy : Twins ev ev' S x y) (hu : Tidy u) (hf : HandsOn S u f)
    (h : ∀ r, (∀ e, r = .error e → e.levels? = none) → EndsFor .outside (f r)) :
    Twins ev ev' T (attempt x >>= f) (attempt y >>= f) :=
  .caught hST hxy hu hf hf fun r hr => .same (h r hr)

/-- Every round of a loop is put together so, and so is the loop. -/
protected theorem Twins.iterateFor {step step' : σ → ShellM (σ ⊕ α)}
    (h : ∀ a, Twins ev ev' T (step a) (step' a)) (n : Nat) (a : σ) :
    Twins ev ev' T (iterateFor step n a) (iterateFor step' n a) := by
  induction n generalizing a with
  | zero => exact .same (.throw fun _ => rfl)
  | succ n ih =>
      refine (h a).bind fun r => ?_
      cases r with
      | inl a' => exact ih a'
      | inr b => exact .same (.pure b)

/-- All jumps may come out, and perhaps errors too. -/
class Jumping (T : Span) : Prop where
  le : .jumps ≤ T

instance jumping_jumps : Jumping .jumps := ⟨Span.le_refl .jumps⟩

instance jumping_all : Jumping .all := ⟨Span.jumps_le_all⟩

instance twins_node (node : Node) (place : Place) :
    Twins ev ev' .all (ev.node node place) (ev'.node node place) :=
  .node (Span.le_refl .all) node place

instance twins_source [hT : Jumping T] (t : Text) : Twins ev ev' T (ev.source t) (ev'.source t) :=
  .source hT.le t

instance twins_command [hT : Jumping T] (args : List Text) :
    Twins ev ev' T (ev.command args) (ev'.command args) := .command hT.le args

instance twins_builtin [hT : Jumping T] (b : Builtin) (name : Text) (args : List Text) :
    Twins ev ev' T (ev.builtin b name args) (ev'.builtin b name args) := .builtin hT.le b name args

instance twins_exitShell (code : Int) :
    Twins ev ev' T (exitShell ev code : ShellM α) (exitShell ev' code) := .exit code

/-! ## How twins end -/

theorem EndsFor.of_outside {E : Exits} {x : ShellM α} (h : EndsFor .outside x) : EndsFor E x :=
  h.mono fun he => E.others _ he

protected theorem EndsFor.attempt {E F : Exits} {x : ShellM α} (h : EndsFor F x) :
    EndsFor E (attempt x) := by
  rw [← bind_pure (attempt x)]
  exact h.caught fun r => .pure r

/-- The first of two twins ends as its evaluator does, and stops for loops only where jumps come out. -/
protected theorem Twins.ends {x y : ShellM α} (h : Twins ev ev' T x y) (hev : EndsWithin ev) :
    EndsFor T.exits x := by
  induction h with
  | same h => exact h.of_outside
  | sequence _ hP _ ihx ihf => exact ihx.sequence hP ihf
  | @caught S T hST _ _ _ _ f g u _ hu hf _ _ ihx ihf =>
      rcases S.none_or_jumps_le with rfl | hS
      · exact .sequence ihx.attempt ihx.yields ihf
      · have hT : T.exits = .within := Span.exits_of_le fun e he => hST e (hS e he)
        rw [Span.exits_of_le hS] at ihx
        refine ihx.caught fun r => ?_
        -- what is no stop for loops may go on in any way
        have hother : (∀ e, r = .error e → e.levels? = none) →
            EndsFor (.handed .within r T.exits) (f r) :=
          fun hr => (ihf r hr).mono (Exits.le_handed r)
        cases r with
        | ok a => exact hother nofun
        | error e =>
            cases he : e.levels? with
            | none =>
                apply hother
                rintro _ ⟨⟩
                exact he
            | some n =>
                -- a stop for loops is among those that are handed on
                rw [hf e (hS e (Span.jumps_covers_of_levels he)), hT]
                exact hu.ends.of_outside.bind fun _ => .throw fun depth h => h e rfl
  | function _ params assigned _ ih => exact .withinFunction params assigned ih
  | @read T hT top _ _ _ f hok herror ih =>
      rw [Span.exits_of_le hT]
      refine EndsFor.caught (F := .within) ih fun r => ?_
      cases r with
      | ok u =>
          rw [hok]
          exact .pure ()
      | error e =>
          rw [herror]
          exact (procedure_takeStop top e).ends hev
  | child _ _ => exact .of_neverEnds neverEnds_bind
  | exit code => exact (Procedure.exit code).ends hev
  | node hT node place =>
      rw [Span.exits_of_le fun e he => hT e (Span.jumps_le_all e he)]
      exact hev.node node place
  | source hT t =>
      rw [Span.exits_of_le hT]
      exact hev.source t
  | command hT args =>
      rw [Span.exits_of_le hT]
      exact hev.command args
  | builtin hT b name args =>
      rw [Span.exits_of_le hT]
      exact hev.builtin b name args

/-- A stop for loops that comes out of the first of two twins is one that may come out. -/
theorem Twins.covers_of_levels {x y : ShellM α} (h : Twins ev ev' T x y) (hev : EndsWithin ev) (s : Shell) :
    (x.startedIn s).Always fun r => ∀ e n, r.1 = .error e → e.levels? = some n → T.covers e = true := by
  apply (h.ends hev s).mono
  intro r hr e n he hn
  rcases T.none_or_jumps_le with rfl | hT
  · exact nomatch (hr.stops e he : e.levels? = none).symm.trans hn
  · exact hT e (Span.jumps_covers_of_levels hn)

end Shell

end CommandShell
