import Mathlib.Logic.Relation
import CommandShell.Proofs.ChildStatus

/-!
# Runs in changing surroundings

What the system answers to a call depends on what happens around the shell: children end, signals
arrive. `Surroundings` says what may happen by itself at any moment and how calls are answered then.
`Takes` follows the calls of a run through the surroundings, with anything happening around each of
them, and `Ensures` is what holds after every such run of a computation that came to an end.

A run never gets lost in between: where the surroundings answer every call sooner or later, every
program goes on until it is done or ends its process (`Surroundings.Lively.comes`).
-/

namespace CommandShell

open Host (Call Reply Program Event)
open Host.Program (Comes Reaches Outcome)

namespace Host

/-- The surroundings of a program. -/
structure Surroundings (σ : Type) where
  /-- What may happen by itself. -/
  drifts : σ → σ → Prop
  /-- A call that is answered, and what the surroundings are then. -/
  answers : σ → Event → σ → Prop

namespace Program

variable {α β : Type} {P P' : Call → Prop}

/-- Every call that the program may make satisfies `P`. -/
def OnlyAsks (P : Call → Prop) : Program α → Prop
  | .done _ => True
  | .call c k => P c ∧ ∀ r, (k r).OnlyAsks P

theorem OnlyAsks.bind {f : α → Program β} (hf : ∀ a, (f a).OnlyAsks P) :
    ∀ {p : Program α}, p.OnlyAsks P → (p.bind f).OnlyAsks P
  | .done a, _ => hf a
  | .call _ _, hp => ⟨hp.1, fun r => .bind hf (hp.2 r)⟩

/-- A program that goes on from results which are known to satisfy something. -/
theorem OnlyAsks.bind_always {Q : α → Prop} {f : α → Program β} (hf : ∀ a, Q a → (f a).OnlyAsks P) :
    ∀ {p : Program α}, p.OnlyAsks P → p.Always Q → (p.bind f).OnlyAsks P
  | .done a, _, hq => hf a hq
  | .call _ _, hp, hq => ⟨hp.1, fun r => .bind_always hf (hp.2 r) (hq r)⟩

theorem OnlyAsks.mono {P' : Call → Prop} (h : ∀ c, P c → P' c) :
    ∀ {p : Program α}, p.OnlyAsks P → p.OnlyAsks P'
  | .done _, _ => trivial
  | .call c _, hp => ⟨h c hp.1, fun r => (hp.2 r).mono h⟩

theorem OnlyAsks.of_reaches {p q : Program α} {es : List Event} (h : p.OnlyAsks P)
    (hq : Reaches p es q) : q.OnlyAsks P ∧ ∀ e ∈ es, P e.1 := by
  induction hq with
  | here p => exact ⟨h, fun e he => absurd he List.not_mem_nil⟩
  | step _ ih =>
      obtain ⟨hq, hes⟩ := ih (h.2 _)
      refine ⟨hq, fun e he => ?_⟩
      rcases List.mem_cons.mp he with rfl | he
      · exact h.1
      · exact hes e he

end Program

namespace Surroundings

variable {σ : Type} {W : Surroundings σ} {w w' w'' : σ} {es es' : List Event}

/-- What may happen by itself in some time. -/
abbrev Drifts (W : Surroundings σ) : σ → σ → Prop := Relation.ReflTransGen W.drifts

/-- Calls are answered in turn, and anything may happen around them. -/
inductive Takes (W : Surroundings σ) : σ → List Event → σ → Prop where
  | idle {w w' : σ} : W.Drifts w w' → Takes W w [] w'
  | call {w w₁ w₂ w' : σ} {e : Event} {es : List Event} : W.Drifts w w₁ → W.answers w₁ e w₂ →
      Takes W w₂ es w' → Takes W w (e :: es) w'

theorem Takes.of_drifts (h : W.Drifts w w') (ht : W.Takes w' es w'') : W.Takes w es w'' := by
  cases ht with
  | idle h' => exact .idle (h.trans h')
  | call h' ha ht => exact .call (h.trans h') ha ht

theorem Takes.append (h : W.Takes w es w') (h' : W.Takes w' es' w'') :
    W.Takes w (es ++ es') w'' := by
  induction h with
  | idle hd => exact h'.of_drifts hd
  | call hd ha _ ih => exact .call hd ha (ih h')

theorem Takes.of_append (h : W.Takes w (es ++ es') w'') :
    ∃ w', W.Takes w es w' ∧ W.Takes w' es' w'' := by
  induction es generalizing w with
  | nil => exact ⟨w, .idle .refl, h⟩
  | cons e es ih =>
      cases h with
      | call hd ha ht =>
          obtain ⟨w', h, h'⟩ := ih ht
          exact ⟨w', .call hd ha h, h'⟩

/-- What is kept by all that happens by itself, and by all answers, is kept by a run. -/
theorem Takes.keeps {P : σ → Prop} (hdrift : ∀ w w', W.drifts w w' → P w → P w')
    (hanswer : ∀ w e w', e ∈ es → W.answers w e w' → P w → P w') (h : W.Takes w es w')
    (hw : P w) : P w' := by
  have hdrifts : ∀ {w w' : σ}, W.Drifts w w' → P w → P w' := by
    intro w w' hd hw
    induction hd with
    | refl => exact hw
    | tail _ hstep ih => exact hdrift _ _ hstep ih
  induction h with
  | idle hd => exact hdrifts hd hw
  | call hd ha _ ih =>
      exact ih (fun w e w' he => hanswer w e w' (List.mem_cons_of_mem _ he))
        (hanswer _ _ _ List.mem_cons_self ha (hdrifts hd hw))

/-- Every call is answered sooner or later. -/
def Lively (W : Surroundings σ) : Prop :=
  ∀ (w : σ) (c : Call), (∀ code, c ≠ .exit code) →
    ∃ (w₁ : σ) (r : Reply c) (w₂ : σ), W.Drifts w w₁ ∧ W.answers w₁ ⟨c, r⟩ w₂

/-- A program that never ends its process comes to a result. -/
theorem Lively.comes (h : W.Lively) {α : Type} {p : Program α} {P : Call → Prop}
    (hp : p.OnlyAsks P) (hexit : ∀ code, ¬ P (.exit code)) (w : σ) :
    ∃ es a w', p.Comes es (.done a) ∧ W.Takes w es w' := by
  induction p generalizing w with
  | done a => exact ⟨[], a, w, .here _, .idle .refl⟩
  | call c k ih =>
      have hc : ∀ code, c ≠ .exit code := by
        rintro code rfl
        exact hexit code hp.1
      obtain ⟨w₁, r, w₂, hd, ha⟩ := h w c hc
      obtain ⟨es, a, w', hes, ht⟩ := ih r (hp.2 r) w₂
      exact ⟨⟨c, r⟩ :: es, a, w', .step hes, .call hd ha ht⟩

end Surroundings

end Host

namespace Shell

open Host (Surroundings)

variable {σ τ α β : Type} {W : Surroundings σ} {s t : Shell} {w : σ}

/-- Every call that a computation may make satisfies `P`. -/
def OnlyAsks (P : Call → Prop) (x : ShellM α) : Prop := ∀ s, (x.startedIn s).OnlyAsks P

namespace OnlyAsks

variable {P : Call → Prop}

protected theorem pure (a : α) : OnlyAsks P (pure a : ShellM α) := fun _ => trivial

protected theorem throw (e : Stop) : OnlyAsks P (throw e : ShellM α) := fun _ => trivial

protected theorem get : OnlyAsks P (get : ShellM Shell) := fun _ => trivial

protected theorem modify (f : Shell → Shell) : OnlyAsks P (modify f : ShellM Unit) := fun _ => trivial

protected theorem ask {c : Call} (h : P c) : OnlyAsks P (ask c) := fun _ => ⟨h, fun _ => trivial⟩

protected theorem bind {x : ShellM α} {f : α → ShellM β} (hx : OnlyAsks P x)
    (hf : ∀ a, OnlyAsks P (f a)) : OnlyAsks P (x >>= f) := by
  intro s
  refine Host.Program.OnlyAsks.bind ?_ (hx s)
  rintro ⟨r, t⟩
  cases r with
  | ok a => exact hf a t
  | error e => exact trivial

protected theorem iterate {step : τ → ShellM (τ ⊕ α)} (h : ∀ a, OnlyAsks P (step a)) (a : τ) :
    OnlyAsks P (iterate step a) := by
  have hn : ∀ n a, OnlyAsks P (iterateFor step n a) := by
    intro n
    induction n with
    | zero => exact fun _ => OnlyAsks.throw _
    | succ n ih =>
        intro a
        refine (h a).bind fun r => ?_
        cases r with
        | inl a' => exact ih a'
        | inr b => exact OnlyAsks.pure b
  exact hn roundLimit a

protected theorem quietly {x : ShellM Unit} (hx : OnlyAsks P x) : OnlyAsks P (quietly x) := by
  have hattempt : OnlyAsks P (Shell.attempt x) := by
    intro s
    show ((x.startedIn s).bind _).OnlyAsks _
    refine Host.Program.OnlyAsks.bind ?_ (hx s)
    exact fun _ => trivial
  exact hattempt.bind fun _ => .pure _

protected theorem writeBytes {fd : Nat} (h : ∀ data, P (.write fd data)) (data : Host.Bytes) :
    OnlyAsks P (writeBytes fd data) := by
  refine .iterate (fun rest => ?_) data
  split
  · exact .pure _
  · refine .bind (.ask (h rest)) fun r => ?_
    cases r with
    | ok n => exact .pure _
    | error e =>
        dsimp only
        split
        · exact .pure _
        · exact .throw _

end OnlyAsks

/-- What holds after every run of a computation in the surroundings that came to an end. -/
def Ensures (W : Surroundings σ) (x : ShellM α) (s : Shell) (w : σ)
    (Q : Except Stop α → Shell → σ → Prop) : Prop :=
  ∀ ⦃es r t w'⦄, (x.startedIn s).Comes es (.done (r, t)) → W.Takes w es w' → Q r t w'

namespace Ensures

theorem mono {x : ShellM α} {Q Q' : Except Stop α → Shell → σ → Prop} (hx : Ensures W x s w Q)
    (h : ∀ r t w', Q r t w' → Q' r t w') : Ensures W x s w Q' :=
  fun _ _ _ _ hes ht => h _ _ _ (hx hes ht)

theorem and {x : ShellM α} {Q Q' : Except Stop α → Shell → σ → Prop} (hx : Ensures W x s w Q)
    (hx' : Ensures W x s w Q') : Ensures W x s w fun r t w' => Q r t w' ∧ Q' r t w' :=
  fun _ _ _ _ hes ht => ⟨hx hes ht, hx' hes ht⟩

/-- What holds at the end of every run still holds when time goes by after it. -/
theorem stays {x : ShellM α} {Q : Except Stop α → Shell → σ → Prop} (hx : Ensures W x s w Q) :
    Ensures W x s w fun r t w' => ∀ w'', W.Drifts w' w'' → Q r t w'' := by
  intro es r t w' hes ht w'' hd
  refine hx hes ?_
  rw [← List.append_nil es]
  exact ht.append (.idle hd)

protected theorem pure {a : α} {Q : Except Stop α → Shell → σ → Prop}
    (h : ∀ w', W.Drifts w w' → Q (.ok a) s w') : Ensures W (pure a) s w Q := by
  intro es r t w' hes ht
  cases hes
  cases ht with
  | idle hd => exact h w' hd

protected theorem throw {e : Stop} {Q : Except Stop α → Shell → σ → Prop}
    (h : ∀ w', W.Drifts w w' → Q (.error e) s w') : Ensures W (throw e) s w Q := by
  intro es r t w' hes ht
  cases hes
  cases ht with
  | idle hd => exact h w' hd

protected theorem modify {f : Shell → Shell} {Q : Except Stop Unit → Shell → σ → Prop}
    (h : ∀ w', W.Drifts w w' → Q (.ok ()) (f s) w') : Ensures W (modify f) s w Q := by
  intro es r t w' hes ht
  cases hes
  cases ht with
  | idle hd => exact h w' hd

protected theorem ask {c : Call} {Q : Except Stop (Reply c) → Shell → σ → Prop}
    (h : ∀ w₁ r w₂ w', W.Drifts w w₁ → W.answers w₁ ⟨c, r⟩ w₂ → W.Drifts w₂ w' → Q (.ok r) s w') :
    Ensures W (ask c) s w Q := by
  intro es r t w' hes ht
  cases hes with
  | step hes =>
      cases hes
      cases ht with
      | call hd ha ht =>
          cases ht with
          | idle hd' => exact h _ _ _ _ hd ha hd'

/-- A sequence, with what holds between its parts. -/
protected theorem bind {x : ShellM α} {f : α → ShellM β} {R : Except Stop α → Shell → σ → Prop}
    {Q : Except Stop β → Shell → σ → Prop} (hx : Ensures W x s w R)
    (hok : ∀ a t w', R (.ok a) t w' → Ensures W (f a) t w' Q)
    (herror : ∀ e t w', R (.error e) t w' → Q (.error e) t w') : Ensures W (x >>= f) s w Q := by
  intro es r t w' hes ht
  obtain ⟨es₁, es₂, ⟨r₁, t₁⟩, rfl, h₁, h₂⟩ := Comes.of_bind hes
  obtain ⟨w₁, ht₁, ht₂⟩ := ht.of_append
  cases r₁ with
  | ok a => exact hok a t₁ w₁ (hx h₁ ht₁) h₂ ht₂
  | error e =>
      cases h₂
      rw [List.append_nil] at ht
      exact herror e t w' (hx h₁ ht)

/-- What follows a call goes on from the answer. -/
theorem ask_bind {c : Call} {f : Reply c → ShellM β} {Q : Except Stop β → Shell → σ → Prop}
    (h : ∀ w₁ r w₂, W.Drifts w w₁ → W.answers w₁ ⟨c, r⟩ w₂ → Ensures W (f r) s w₂ Q) :
    Ensures W (Shell.ask c >>= f) s w Q := by
  intro es r t w' hes ht
  cases hes with
  | step hes =>
      cases ht with
      | call hd ha ht => exact h _ _ _ hd ha hes ht

theorem get_bind {f : Shell → ShellM β} {Q : Except Stop β → Shell → σ → Prop}
    (h : Ensures W (f s) s w Q) : Ensures W (MonadState.get >>= f) s w Q := h

theorem modify_bind {f : Shell → Shell} {g : Unit → ShellM β}
    {Q : Except Stop β → Shell → σ → Prop} (h : Ensures W (g ()) (f s) w Q) :
    Ensures W (MonadStateOf.modifyGet (fun s => ((), f s)) >>= g) s w Q := h

theorem attempt {x : ShellM α} {Q : Except Stop (Except Stop α) → Shell → σ → Prop}
    (hx : Ensures W x s w fun r => Q (.ok r)) : Ensures W (attempt x) s w Q := by
  intro es r t w' hes ht
  obtain ⟨es₁, es₂, ⟨r₁, t₁⟩, rfl, h₁, h₂⟩ := Comes.of_bind hes
  cases h₂
  rw [List.append_nil] at ht
  exact hx h₁ ht

/-- What follows an attempt is done however the attempt ended. -/
theorem attempt_bind {x : ShellM α} {f : Except Stop α → ShellM β}
    {R : Except Stop α → Shell → σ → Prop} {Q : Except Stop β → Shell → σ → Prop}
    (hx : Ensures W x s w R) (hf : ∀ r t w', R r t w' → Ensures W (f r) t w' Q) :
    Ensures W (Shell.attempt x >>= f) s w Q := by
  refine Ensures.bind (R := fun r t w' => ∃ r', r = .ok r' ∧ R r' t w')
    (Ensures.attempt (hx.mono fun r t w' h => ⟨r, rfl, h⟩)) ?_ ?_
  · rintro r t w' ⟨r', heq, h⟩
    cases heq
    exact hf r t w' h
  · rintro e t w' ⟨r', heq, -⟩
    cases heq

/-- A loop whose every round keeps an invariant and lets a number grow that has a bound. -/
theorem iterate {step : τ → ShellM (τ ⊕ α)} {I : τ → Shell → σ → Prop} {size : σ → Nat}
    {bound : Nat} {Q : Except Stop α → Shell → σ → Prop} (hbound : ∀ w, size w ≤ bound)
    (hlimit : bound < roundLimit)
    (hstep : ∀ a s w, I a s w → Ensures W (step a) s w fun r t w' => match r with
      | .ok (.inl a') => I a' t w' ∧ size w < size w'
      | .ok (.inr b) => Q (.ok b) t w'
      | .error e => Q (.error e) t w') {a : τ} (h : I a s w) : Ensures W (iterate step a) s w Q := by
  have hn : ∀ n a s w, I a s w → bound < n + size w → Ensures W (iterateFor step n a) s w Q := by
    intro n
    induction n with
    | zero =>
        intro a s w _ hw
        have hle := hbound w
        omega
    | succ n ih =>
        intro a s w h hw
        refine Ensures.bind (hstep a s w h).stays (fun r t w' hr => ?_) fun e t w' he => he w' .refl
        cases r with
        | inl a' =>
            obtain ⟨h', hlt⟩ := hr w' .refl
            exact ih a' t w' h' (by omega)
        | inr b => exact Ensures.pure hr
  exact hn roundLimit a s w h (by omega)

end Ensures

end Shell

end CommandShell
