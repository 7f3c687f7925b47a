import CommandShell.Execution.Evaluator

/-!
# Two runs in lockstep

Two computations of the shell go in lockstep when they make the same calls, for as long as the
system answers both alike, and come to the same result. `Alike` says this of computations that
start from states which differ in no more than the option `errexit`, and adds an invariant that both
runs keep. What the states may differ in, and the invariant, are data: a `Likeness`. The first of
the two runs may give up at any moment with a status that no shell ends with; nothing is asked of
the second one from there on.

The rules below follow the way computations are put together. The modules beside this one apply them
to every function of the evaluator.
-/

namespace CommandShell

open Host (Call Reply Program)

namespace Host

/-- A call with the answer to it. -/
abbrev Event := (c : Call) × Reply c

/-- The status by which a run gives up. No shell ends with it. -/
def abandonCode : Int := -1

namespace Program

variable {α β γ δ : Type}

/-- What holds of every value holds of every result. -/
theorem always_of {P : α → Prop} (h : ∀ a, P a) : ∀ p : Program α, p.Always P
  | done a => h a
  | call _ k => fun r => always_of h (k r)

theorem Always.mono {P P' : α → Prop} (h : ∀ a, P a → P' a) :
    ∀ {p : Program α}, p.Always P → p.Always P'
  | done a, hp => h a hp
  | call _ _, hp => fun r => (hp r).mono h

/-- What follows a program counts only for the results that it comes to. -/
theorem bind_congr_always {p : Program α} {f g : α → Program β}
    (h : p.Always fun a => f a = g a) : p.bind f = p.bind g := by
  induction p with
  | done a => exact h
  | call c k ih => exact congrArg (call c) (funext fun r => ih r (h r))

/-- What is left of a program after calls and the answers to them. -/
inductive Reaches : Program α → List Event → Program α → Prop where
  | here (p : Program α) : Reaches p [] p
  | step {c : Call} {k : Reply c → Program α} {r : Reply c} {es : List Event} {q : Program α} :
      Reaches (k r) es q → Reaches (.call c k) (⟨c, r⟩ :: es) q

theorem Reaches.trans {p q r : Program α} {es es' : List Event} (h : Reaches p es q)
    (h' : Reaches q es' r) : Reaches p (es ++ es') r := by
  induction h with
  | here p => exact h'
  | step _ ih => exact .step (ih h')

theorem Reaches.bind {p q : Program α} {es : List Event} (h : Reaches p es q)
    (f : α → Program β) : Reaches (p.bind f) es (q.bind f) := by
  induction h with
  | here p => exact .here _
  | step _ ih => exact .step ih

/-- The answers to calls settle what is left of a program. -/
theorem Reaches.of_append {p p' q : Program α} {es es' : List Event} (h : Reaches p es p')
    (hq : Reaches p (es ++ es') q) : Reaches p' es' q := by
  induction h with
  | here p => exact hq
  | step h ih =>
      cases hq with
      | step hq => exact ih hq

/-- What comes of a program under the answers to its calls: a result, or a call that has no answer
yet. -/
inductive Outcome (α : Type) where
  | done (a : α)
  | asks (c : Call)

/-- Results that are related, or the same call. -/
def Outcome.Related (Q : α → β → Prop) : Outcome α → Outcome β → Prop
  | done a, done b => Q a b
  | asks c, asks d => d = c
  | _, _ => False

/-- The outcome with a function applied to the result. -/
def Outcome.map (f : α → β) : Outcome α → Outcome β
  | done a => done (f a)
  | asks c => asks c

/-- A program comes to an outcome after calls and the answers to them. -/
def Comes (p : Program α) (es : List Event) : Outcome α → Prop
  | .done a => Reaches p es (.done a)
  | .asks c => ∃ k, Reaches p es (.call c k)

deriving instance DecidableEq for Call

/-- Whether a program, asked nothing but the given calls, ends with a result that satisfies `f`. -/
def endsIn (f : α → Bool) : Program α → List Event → Bool
  | done a, [] => f a
  | call c k, e :: es => if h : e.1 = c then endsIn f (k (h ▸ e.2)) es else false
  | _, _ => false

theorem comes_of_endsIn {f : α → Bool} {p : Program α} {es : List Event}
    (h : p.endsIn f es = true) : ∃ a, p.Comes es (.done a) ∧ f a = true := by
  induction es generalizing p with
  | nil =>
      cases p with
      | done a => exact ⟨a, .here _, h⟩
      | call c k => cases h
  | cons e es ih =>
      cases p with
      | done a => cases h
      | call c k =>
          unfold endsIn at h
          split at h
          · rename_i hc
            subst hc
            obtain ⟨a, ha, hf⟩ := ih h
            exact ⟨a, .step ha, hf⟩
          · cases h

/-- The second program makes the calls of the first for as long as the answers satisfy `ok`, and
their results are related by `Q`, unless the first one gives up. -/
inductive Follows (ok : Event → Prop) (Q : α → β → Prop) : Program α → Program β → Prop where
  | done {a : α} {b : β} : Q a b → Follows ok Q (.done a) (.done b)
  | call {c : Call} {k : Reply c → Program α} {k' : Reply c → Program β} :
      (∀ r, ok ⟨c, r⟩ → Follows ok Q (k r) (k' r)) → Follows ok Q (.call c k) (.call c k')
  | abandoned {k : Reply (.exit abandonCode) → Program α} {q : Program β} :
      Follows ok Q (.call (.exit abandonCode) k) q

section

variable {ok : Event → Prop}

theorem Follows.bind {Q : α → β → Prop} {Q' : γ → δ → Prop} {p : Program α} {q : Program β}
    {f : α → Program γ} {g : β → Program δ} (h : Follows ok Q p q)
    (hfg : ∀ a b, Q a b → Follows ok Q' (f a) (g b)) :
    Follows ok Q' (p.bind f) (q.bind g) := by
  induction h with
  | done h => exact hfg _ _ h
  | call _ ih => exact .call ih
  | abandoned => exact .abandoned

/-- What every result of the first program satisfies may be used of it. -/
theorem Follows.and_always {Q : α → β → Prop} {P : α → Prop} {p : Program α} {q : Program β}
    (h : Follows ok Q p q) (hp : p.Always P) : Follows ok (fun a b => Q a b ∧ P a) p q := by
  induction h with
  | done h => exact .done ⟨h, hp⟩
  | call _ ih => exact .call fun r hr => ih r hr (hp r)
  | abandoned => exact .abandoned

/-- The second program goes wherever the first one does before it gives up. -/
theorem Follows.reaches {Q : α → β → Prop} {p p' : Program α} {q : Program β} {es : List Event}
    (h : Follows ok Q p q) (hp : Reaches p es p') (hes : ∀ e ∈ es, ok e) :
    (∃ k, p' = .call (.exit abandonCode) k) ∨ ∃ q', Reaches q es q' ∧ Follows ok Q p' q' := by
  induction hp generalizing q with
  | here p => exact .inr ⟨q, .here q, h⟩
  | step hr ih =>
      rename_i c k r es p'
      cases h with
      | call hk =>
          rcases ih (hk r (hes _ List.mem_cons_self)) fun e he => hes e (List.mem_cons_of_mem _ he)
            with hstop | ⟨q', hq, hf⟩
          · exact .inl hstop
          · exact .inr ⟨q', .step hq, hf⟩
      | abandoned => exact nomatch r

/-- What comes of the first program comes of the second one, unless the first one gave up. -/
theorem Follows.comes {Q : α → β → Prop} {p : Program α} {q : Program β} {es : List Event}
    {o : Outcome α} (h : Follows ok Q p q) (hp : p.Comes es o) (hes : ∀ e ∈ es, ok e)
    (ho : o ≠ .asks (.exit abandonCode)) : ∃ o', q.Comes es o' ∧ o.Related Q o' := by
  cases o with
  | done a =>
      rcases h.reaches hp hes with ⟨k, hk⟩ | ⟨q', hq, hf⟩
      · exact nomatch hk
      · cases hf with
        | done hab => exact ⟨.done _, hq, hab⟩
  | asks c =>
      obtain ⟨k, hp⟩ := hp
      rcases h.reaches hp hes with ⟨k', hk⟩ | ⟨q', hq, hf⟩
      · cases hk
        exact absurd rfl ho
      · cases hf with
        | call _ => exact ⟨.asks c, ⟨_, hq⟩, rfl⟩
        | abandoned => exact absurd rfl ho

end

end Program

end Host

/-- The program that a computation is in a state. -/
abbrev ShellM.startedIn {α : Type} (x : ShellM α) (s : Shell) :
    Program (Except Stop α × Shell) := x.run.run s

/-- Two options are set in either order. -/
theorem Options.set_comm (os : Options) {o o' : ShellOption} (h : o ≠ o') (on on' : Bool) :
    (os.set o on).set o' on' = (os.set o' on').set o on := by
  show Options.mk _ = Options.mk _
  congr 1
  funext p
  by_cases hp : p = o
  · subst hp
    simp [set, h]
  · simp [set, hp]

namespace Shell

open Host (Event)
open Host.Program (Comes Follows Outcome)

/-! ## States that differ in one option -/

/-- The state with `errexit` turned on or off. -/
def withErrexit (sh : Shell) (on : Bool) : Shell :=
  { sh with options := sh.options.set .errexit on }

theorem withErrexit_self (sh : Shell) : sh.withErrexit (sh.has .errexit) = sh := by
  have h : sh.options.set .errexit (sh.has .errexit) = sh.options := by
    cases ho : sh.options with
    | mk on =>
        show Options.mk _ = Options.mk on
        congr 1
        funext o
        show (if o = .errexit then sh.options.has .errexit else on o) = on o
        by_cases hoe : o = .errexit
        · rw [if_pos hoe, hoe, ho]
        · rw [if_neg hoe]
  unfold withErrexit
  rw [h]

/-- What two runs may differ in, and what is known of both. -/
structure Likeness where
  /-- The states do not differ at all. -/
  exact : Prop
  /-- What holds of the option `allexport`, of variables, open frames and remembered paths. -/
  inv : Bool → Table Variable → List (List Shadowed) → Table Text → Prop
  /-- Names that may be given a value for a while. -/
  permits : Text → Prop
  /-- What is known of the answers of the system. -/
  answers : Event → Prop

namespace Likeness

/-- The invariant of a state. -/
def Holds (L : Likeness) (sh : Shell) : Prop :=
  L.inv (sh.has .allexport) sh.variables.bindings sh.variables.frames sh.definitions.paths

/-- Two states that are alike. -/
def Like (L : Likeness) (s t : Shell) : Prop :=
  L.Holds s ∧ (∃ on, t = s.withErrexit on) ∧ (L.exact → t = s)

end Likeness

variable {L : Likeness} {α β σ : Type}

/-- Two computations that go in lockstep from any two states that are alike. -/
class Alike (L : Likeness) (x y : ShellM α) : Prop where
  follows : ∀ {s t}, L.Like s t →
    Follows L.answers (fun a b => a.1 = b.1 ∧ L.Like a.2 b.2) (x.run.run s) (y.run.run t)

/-- A computation that goes in lockstep with itself. -/
abbrev Steady (L : Likeness) (x : ShellM α) : Prop := Alike L x x

/-- Every value that a computation comes to satisfies `P`. -/
def Yields (P : α → Prop) (x : ShellM α) : Prop :=
  ∀ s, (x.run.run s).Always fun r => ∀ a, r.1 = .ok a → P a

/-- What follows a computation counts only for the values that it comes to. -/
theorem Yields.bind_congr {P : α → Prop} {x : ShellM α} (hx : Yields P x) {f g : α → ShellM β}
    (h : ∀ a, P a → f a = g a) : x >>= f = x >>= g := by
  funext s
  refine Host.Program.bind_congr_always ((hx s).mono ?_)
  rintro ⟨r, t⟩ hr
  cases r with
  | ok a => exact congrFun (h a (hr a rfl)) t
  | error e => rfl

/-- What comes of the first computation comes of the second one, if their states do not differ. -/
theorem Alike.comes {x y : ShellM α} (h : Alike L x y) (hL : L.exact) {s : Shell} (hs : L.Holds s)
    {es : List Event} {o : Outcome (Except Stop α × Shell)} (hx : (x.startedIn s).Comes es o)
    (hes : ∀ e ∈ es, L.answers e) (ho : o ≠ .asks (.exit Host.abandonCode)) :
    (y.startedIn s).Comes es o ∧ ∀ r t, o = .done (r, t) → L.Holds t := by
  have hlike : L.Like s s := ⟨hs, ⟨_, (withErrexit_self _).symm⟩, fun _ => rfl⟩
  obtain ⟨o', hy, hrel⟩ := (h.follows hlike).comes hx hes ho
  cases o with
  | done r =>
      cases o' with
      | done r' =>
          obtain ⟨hr, ht, _, hex⟩ := hrel
          obtain rfl : r' = r := Prod.ext hr.symm (hex hL)
          refine ⟨hy, fun a t heq => ?_⟩
          cases heq
          exact ht
      | asks c => exact hrel.elim
  | asks c =>
      cases o' with
      | done r' => exact hrel.elim
      | asks c' =>
          obtain rfl : c' = c := hrel
          exact ⟨hy, fun _ _ heq => nomatch heq⟩

/-! ## What values a computation comes to -/

namespace Yields

variable {P : α → Prop}

protected theorem pure {a : α} (h : P a) : Yields P (pure a) := by
  intro s b hb
  cases hb
  exact h

protected theorem throw (e : Stop) : Yields P (throw e) := by
  intro s b hb
  cases hb

protected theorem fail (f : Fault) : Yields P (fail f) := Yields.throw _

/-- A sequence comes to the values of its second part. -/
protected theorem bind_of {P : β → Prop} {Q : α → Prop} {x : ShellM α} {f : α → ShellM β}
    (hx : Yields Q x) (hf : ∀ a, Q a → Yields P (f a)) : Yields P (x >>= f) := by
  intro s
  show ((x.run.run s).bind _).Always _
  rw [Host.Program.always_bind]
  refine (hx s).mono ?_
  rintro ⟨a, t⟩ ha
  cases a with
  | ok a => exact hf a (ha a rfl) t
  | error e => exact Yields.throw e t

protected theorem bind {P : β → Prop} {x : ShellM α} {f : α → ShellM β}
    (hf : ∀ a, Yields P (f a)) : Yields P (x >>= f) :=
  Yields.bind_of (Q := fun _ => True) (fun _ => Host.Program.always_of (fun _ _ _ => trivial) _)
    fun a _ => hf a

end Yields

theorem yields_iterate {step : σ → ShellM (σ ⊕ α)} {I : σ → Prop} {P : α → Prop}
    (h : ∀ a, I a → Yields (fun r => (∀ a', r = .inl a' → I a') ∧ ∀ b, r = .inr b → P b) (step a))
    {a : σ} (ha : I a) : Yields P (iterate step a) := by
  have hn : ∀ n a, I a → Yields P (iterateFor step n a) := by
    intro n
    induction n with
    | zero => exact fun _ _ => Yields.fail _
    | succ n ih =>
        intro a ha
        refine (h a ha).bind_of fun r hr => ?_
        cases r with
        | inl a' => exact ih a' (hr.1 a' rfl)
        | inr b => exact Yields.pure (hr.2 b rfl)
  exact hn roundLimit a ha

/-! ## Rules -/

instance alike_pure (a : α) : Steady L (pure a) := ⟨fun h => .done ⟨rfl, h⟩⟩

instance alike_throw (e : Stop) : Alike L (throw e : ShellM α) (throw e) :=
  ⟨fun h => .done ⟨rfl, h⟩⟩

instance alike_fail (f : Fault) : Alike L (fail f : ShellM α) (fail f) := alike_throw _

instance alike_jump (j : Jump) : Alike L (jump j : ShellM α) (jump j) := alike_throw _

instance alike_ask (c : Call) : @Alike (no_index (Reply c)) L (ask c) (ask c) :=
  ⟨fun h => .call fun _ _ => .done ⟨rfl, h⟩⟩

/-- A sequence, with what is known of the values of its first part. -/
protected theorem Alike.bind_of {P : α → Prop} {x y : ShellM α} {f g : α → ShellM β}
    (hx : Alike L x y) (hP : Yields P x) (hf : ∀ a, P a → Alike L (f a) (g a)) :
    Alike L (x >>= f) (y >>= g) :=
  ⟨fun {s t} h => by
    refine Follows.bind ((hx.follows h).and_always (hP s)) ?_
    rintro ⟨a, s⟩ ⟨b, t⟩ ⟨⟨hab, hst⟩, ha⟩
    dsimp only at hab hst ha
    subst hab
    cases a with
    | ok a => exact (hf a (ha a rfl)).follows hst
    | error e => exact .done ⟨rfl, hst⟩⟩

protected theorem Alike.bind {x y : ShellM α} {f g : α → ShellM β} (hx : Alike L x y)
    (hf : ∀ a, Alike L (f a) (g a)) : Alike L (x >>= f) (y >>= g) :=
  hx.bind_of (P := fun _ => True) (fun _ => Host.Program.always_of (fun _ _ _ => trivial) _)
    fun a _ => hf a

instance alike_bind {x y : ShellM α} {f g : α → ShellM β} [hx : Alike L x y]
    [hf : ∀ a, Alike L (f a) (g a)] : Alike L (x >>= f) (y >>= g) := hx.bind hf

/-- Nothing comes after a failure. -/
instance alike_fail_bind (e : Fault) (f g : α → ShellM β) :
    Alike L (fail e >>= f) (fail e >>= g) := ⟨fun h => .done ⟨rfl, h⟩⟩

instance alike_map {f : α → β} {x y : ShellM α} [Alike L x y] : Alike L (f <$> x) (f <$> y) := by
  rw [map_eq_pure_bind, map_eq_pure_bind]
  infer_instance

/-- A look at the state, by what sees no difference if there is one. -/
protected theorem Alike.get_bind_of {f g : Shell → ShellM α}
    (hg : L.exact ∨ ∀ s on, g (s.withErrexit on) = g s) (h : ∀ s, Alike L (f s) (g s)) :
    Alike L (get >>= f) (get >>= g) :=
  ⟨fun {s t} hst => by
    have hgt : g t = g s := by
      obtain ⟨_, ⟨on, rfl⟩, hex⟩ := hst
      rcases hg with hL | hg
      · rw [hex hL]
      · exact hg s on
    show Follows _ _ ((f s).run.run s) ((g t).run.run t)
    rw [hgt]
    exact (h s).follows hst⟩

protected theorem Alike.get_bind {f g : Shell → ShellM α} (hg : ∀ s on, g (s.withErrexit on) = g s)
    (h : ∀ s, Alike L (f s) (g s)) : Alike L (get >>= f) (get >>= g) :=
  .get_bind_of (.inr hg) h

/-- A change of the state with a value, that leaves `errexit` alone and keeps the invariant. -/
protected theorem Alike.modifyGet {f : Shell → α × Shell}
    (hf : ∀ s on, f (s.withErrexit on) = ((f s).1, (f s).2.withErrexit on))
    (hi : ∀ s, L.Holds s → L.Holds (f s).2) :
    Alike L (modifyGet f : ShellM α) (modifyGet f) :=
  ⟨fun {s t} hst => by
    obtain ⟨hs, ⟨on, rfl⟩, hex⟩ := hst
    refine .done ⟨?_, hi s hs, ⟨on, ?_⟩, fun h => ?_⟩
    · exact congrArg (fun r => Except.ok r.1) (hf s on).symm
    · exact congrArg Prod.snd (hf s on)
    · exact congrArg (fun s => (f s).2) (hex h)⟩

/-- A change that leaves `errexit` alone and keeps the invariant. -/
protected theorem Alike.modify {f : Shell → Shell}
    (hf : ∀ s on, f (s.withErrexit on) = (f s).withErrexit on)
    (hi : ∀ s, L.Holds s → L.Holds (f s)) :
    Steady L (modify f : ShellM Unit) :=
  .modifyGet (fun s on => congrArg (((), ·)) (hf s on)) hi

protected theorem Alike.ite {c : Prop} [Decidable c] {x y x' y' : ShellM α} (hx : Alike L x x')
    (hy : Alike L y y') : Alike L (if c then x else y) (if c then x' else y') := by
  split
  · exact hx
  · exact hy

instance alike_ite {c : Prop} [Decidable c] {x y x' y' : ShellM α} [hx : Alike L x x']
    [hy : Alike L y y'] : Alike L (if c then x else y) (if c then x' else y') := hx.ite hy

instance alike_attempt {x y : ShellM α} [h : Alike L x y] : Alike L (attempt x) (attempt y) :=
  ⟨fun hst => by
    refine Follows.bind (h.follows hst) ?_
    rintro ⟨a, s⟩ ⟨b, t⟩ ⟨hab, hst⟩
    dsimp only at hab hst
    subst hab
    exact .done ⟨rfl, hst⟩⟩

instance alike_ofExcept (a : Except Fault α) : Steady L (ofExcept a) := by
  cases a with
  | ok a => exact alike_pure a
  | error f => exact alike_fail f

instance alike_resume (a : Except Stop α) : Steady L (resume a) := by
  cases a with
  | ok a => exact alike_pure a
  | error s => exact alike_throw s

instance alike_quietly {x y : ShellM Unit} [Alike L x y] : Alike L (quietly x) (quietly y) :=
  alike_bind

/-- A loop whose values all satisfy `P`. -/
protected theorem Alike.iterateFor_of {P : σ → Prop} {f g : σ → ShellM (σ ⊕ α)}
    (h : ∀ s, P s → Alike L (f s) (g s))
    (hP : ∀ s, P s → Yields (fun r => ∀ s', r = .inl s' → P s') (f s)) (n : Nat) {s : σ} (hs : P s) :
    Alike L (iterateFor f n s) (iterateFor g n s) := by
  induction n generalizing s with
  | zero => exact alike_fail _
  | succ n ih =>
      refine (h s hs).bind_of (hP s hs) ?_
      intro r hr
      cases r with
      | inl s' => exact ih (hr s' rfl)
      | inr a => exact alike_pure a

protected theorem Alike.iterate {f g : σ → ShellM (σ ⊕ α)} (h : ∀ s, Alike L (f s) (g s)) (s : σ) :
    Alike L (iterate f s) (iterate g s) :=
  Alike.iterateFor_of (P := fun _ => True) (fun s _ => h s)
    (fun _ _ _ => Host.Program.always_of (fun _ _ _ _ _ => trivial) _) roundLimit trivial

instance alike_forM {f g : β → ShellM Unit} [∀ b, Alike L (f b) (g b)] (bs : List β) :
    Alike L (bs.forM f) (bs.forM g) := by
  induction bs with
  | nil => exact alike_pure ()
  | cons b bs ih => exact alike_bind

end Shell

end CommandShell
