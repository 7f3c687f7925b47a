import CommandShell.Proofs.ChildStatus

/-!
# Every run of a computation

`EveryRun` says what holds of all runs of a computation from a state: of the calls with their answers,
of the outcome and of the state that is left. The rules follow the way computations are put together.

Most computations leave the shell as it was and make calls of one kind only (`Unchanged`). Writing is
such a computation, and if it fails then some write was the last call (`everyRun_writeBytes`).
-/

namespace CommandShell

open Host (Call Reply Program Event)

/-- The calls that write to a descriptor. -/
inductive Host.WritesTo (fd : Nat) : Event → Prop where
  | wrote (data : Host.Bytes) (r : Except Errno Nat) : WritesTo fd ⟨.write fd data, r⟩

namespace Shell

variable {α β σ : Type} {s t u : Shell}

/-- `Q` holds of the calls, the outcome and the last state of every run. -/
structure EveryRun (x : ShellM α) (s : Shell) (Q : List Event → Except Stop α → Shell → Prop) :
    Prop where
  holds : ∀ {es r t}, (x.startedIn s).Comes es (.done (r, t)) → Q es r t

/-- The shell is as before, and every call was one of which `P` holds. -/
structure Unchanged (P : Event → Prop) (s : Shell) (es : List Event) (t : Shell) : Prop where
  state : t = s
  events : ∀ e ∈ es, P e

namespace Unchanged

variable {P : Event → Prop} {e : Event} {es es' : List Event}

theorem here (P : Event → Prop) (s : Shell) : Unchanged P s [] s :=
  ⟨rfl, List.forall_mem_nil P⟩

theorem single (h : P e) (s : Shell) : Unchanged P s [e] s := by
  refine ⟨rfl, ?_⟩
  simp only [List.mem_singleton, forall_eq]
  exact h

theorem append (h : Unchanged P s es t) (h' : Unchanged P t es' u) : Unchanged P s (es ++ es') u :=
  ⟨h'.state.trans h.state, List.forall_mem_append.mpr ⟨h.events, h'.events⟩⟩

end Unchanged

/-! ## Putting runs together -/

namespace EveryRun

variable {Q Q' : List Event → Except Stop α → Shell → Prop}

protected theorem mono {x : ShellM α} (h : EveryRun x s Q) (hQ : ∀ es r t, Q es r t → Q' es r t) :
    EveryRun x s Q' := ⟨fun hrun => hQ _ _ _ (h.holds hrun)⟩

protected theorem and {x : ShellM α} (h : EveryRun x s Q) (h' : EveryRun x s Q') :
    EveryRun x s fun es r t => Q es r t ∧ Q' es r t :=
  ⟨fun hrun => ⟨h.holds hrun, h'.holds hrun⟩⟩

/-- A computation without a call. -/
theorem of_eq {x : ShellM α} {r : Except Stop α} (h : x.startedIn s = .done (r, t))
    (hQ : Q [] r t) : EveryRun x s Q := by
  constructor
  intro es r' t' hrun
  rw [h] at hrun
  cases hrun
  exact hQ

protected theorem pure {a : α} (h : Q [] (.ok a) s) : EveryRun (pure a) s Q := of_eq rfl h

protected theorem fail {f : Fault} (h : Q [] (.error (.ofFault f)) s) : EveryRun (fail f) s Q :=
  of_eq rfl h

protected theorem ask {c : Call} {Q : List Event → Except Stop (Reply c) → Shell → Prop}
    (h : ∀ r, Q [⟨c, r⟩] (.ok r) s) : EveryRun (ask c) s Q := by
  constructor
  intro es r t hrun
  cases hrun with
  | step hrun =>
      cases hrun
      exact h _

protected theorem bind {x : ShellM α} {f : α → ShellM β} {P : List Event → Except Stop α → Shell → Prop}
    {Q : List Event → Except Stop β → Shell → Prop} (hx : EveryRun x s P)
    (herror : ∀ es e t, P es (.error e) t → Q es (.error e) t)
    (hok : ∀ es a t, P es (.ok a) t → EveryRun (f a) t fun es' r u => Q (es ++ es') r u) :
    EveryRun (x >>= f) s Q := by
  constructor
  intro es r u hrun
  -- a run of both is a run of the first part, and if that came to a value one of the second
  obtain ⟨es₁, es₂, ⟨r₁, t⟩, rfl, h₁, h₂⟩ := Host.Program.Comes.of_bind hrun
  have hP := hx.holds h₁
  cases r₁ with
  | ok a => exact (hok es₁ a t hP).holds h₂
  | error e =>
      cases h₂
      rw [List.append_nil]
      exact herror es₁ e _ hP

/-- Of the runs that come to a value only those count for which the first part came to one. -/
protected theorem bind_ok {x : ShellM α} {f : α → ShellM β} {b : β}
    {P : List Event → Except Stop α → Shell → Prop} {Q : List Event → Shell → Prop} (hx : EveryRun x s P)
    (hok : ∀ es a t, P es (.ok a) t → EveryRun (f a) t fun es' r u => r = .ok b → Q (es ++ es') u) :
    EveryRun (x >>= f) s fun es r u => r = .ok b → Q es u := by
  apply hx.bind
  · intro es e t _ h
    cases h
  · exact hok

/-- A call, and what is done with the answer. -/
protected theorem ask_bind {c : Call} {f : Reply c → ShellM α}
    (h : ∀ reply, EveryRun (f reply) s fun es r t => Q (⟨c, reply⟩ :: es) r t) :
    EveryRun (ask c >>= f) s Q := by
  constructor
  intro es r t hrun
  cases hrun with
  | step hrun => exact (h _).holds hrun

protected theorem get_bind {f : Shell → ShellM α} (h : EveryRun (f s) s Q) :
    EveryRun (get >>= f) s Q :=
  ⟨fun hrun => h.holds hrun⟩

protected theorem modify_bind {g : Shell → Shell} {f : Unit → ShellM α} (h : EveryRun (f ()) (g s) Q) :
    EveryRun (modify g >>= f) s Q :=
  ⟨fun hrun => h.holds hrun⟩

/-! ## Loops -/

/-- What is done for each element of a list changes nothing if no step does. -/
theorem forM {f : β → ShellM Unit} {P : Event → Prop}
    (hf : ∀ b s, EveryRun (f b) s fun es r t => Unchanged P s es t ∧ r = .ok ()) (bs : List β)
    (s : Shell) : EveryRun (bs.forM f) s fun es r t => Unchanged P s es t ∧ r = .ok () := by
  induction bs generalizing s with
  | nil => exact .pure ⟨.here P s, rfl⟩
  | cons b bs ih =>
      apply (hf b s).bind
      · rintro es e t ⟨-, h⟩
        cases h
      · rintro es _ t ⟨h, -⟩
        apply (ih t).mono
        rintro es' r u ⟨h', hr⟩
        exact ⟨h.append h', hr⟩

/-- A loop that fails has made a call, if every step makes one but the one that ends the loop. -/
theorem iterate {step : σ → ShellM (σ ⊕ α)} {P : Event → Prop}
    (hstep : ∀ a s, EveryRun (step a) s fun es r t =>
      Unchanged P s es t ∧ ((∀ b, r ≠ .ok (.inr b)) → es ≠ [])) (a : σ) (s : Shell) :
    EveryRun (iterate step a) s fun es r t =>
      Unchanged P s es t ∧ ∀ e, r = .error e → es ≠ [] := by
  -- a loop out of rounds fails as well, but not before it made a call in each of them
  have hrounds : ∀ n a s, EveryRun (iterateFor step n a) s fun es r t =>
      Unchanged P s es t ∧ ∀ e, r = .error e → n ≠ 0 → es ≠ [] := by
    intro n
    induction n with
    | zero =>
        -- out of rounds
        intro a s
        exact .fail ⟨.here P s, fun _ _ h => absurd rfl h⟩
    | succ n ih =>
        intro a s
        apply (hstep a s).bind
        · rintro es e t ⟨h, hes⟩
          exact ⟨h, fun _ _ _ => hes nofun⟩
        · rintro es r t ⟨h, hes⟩
          cases r with
          | inr b => exact .pure ⟨h.append (.here P t), nofun⟩
          | inl a' =>
              apply (ih a' t).mono
              rintro es' r u ⟨h', -⟩
              exact ⟨h.append h', fun _ _ _ => List.append_ne_nil_of_left_ne_nil (hes nofun) es'⟩
  apply (hrounds roundLimit a s).mono
  rintro es r t ⟨h, hes⟩
  exact ⟨h, fun e he => hes e he (by decide)⟩

/-- A loop makes a call if its first step does. -/
theorem iterate_ne_nil {step : σ → ShellM (σ ⊕ α)} {a : σ}
    (h : EveryRun (step a) s fun es _ _ => es ≠ []) :
    EveryRun (Shell.iterate step a) s fun es _ _ => es ≠ [] := by
  show EveryRun (step a >>= _) s _
  apply h.bind
  · intro es e t hes
    exact hes
  · intro es b t hes
    exact ⟨fun _ => List.append_ne_nil_of_left_ne_nil hes _⟩

end EveryRun

/-! ## Writing -/

theorem everyRun_writeBytes (fd : Nat) (data : Host.Bytes) (s : Shell) :
    EveryRun (writeBytes fd data) s fun es r t =>
      Unchanged (Host.WritesTo fd) s es t ∧ ∀ e, r = .error e → es ≠ [] := by
  apply EveryRun.iterate
  intro rest s
  split
  -- nothing is left to write
  · refine .pure ⟨.here _ s, fun h => ?_⟩
    exact absurd rfl (h ())
  · apply EveryRun.ask_bind
    intro reply
    -- whatever the answer is, the write was the only call of this step
    have hdone : ∀ {x : ShellM (Host.Bytes ⊕ Unit)} {r}, x.startedIn s = .done (r, s) →
        EveryRun x s fun es r t => Unchanged (Host.WritesTo fd) s (⟨.write fd rest, reply⟩ :: es) t ∧
          ((∀ b, r ≠ .ok (.inr b)) → ⟨.write fd rest, reply⟩ :: es ≠ []) := by
      intro x r hx
      exact .of_eq hx ⟨.single (.wrote rest reply) s, fun _ => List.cons_ne_nil _ _⟩
    cases reply with
    | ok n => exact hdone rfl
    | error e =>
        dsimp only
        split
        · exact hdone rfl
        · exact hdone rfl

/-- Something to write makes a call. -/
theorem everyRun_writeBytes_ne_nil (fd : Nat) {data : Host.Bytes} (hdata : data ≠ []) :
    EveryRun (writeBytes fd data) s fun es _ _ => es ≠ [] := by
  apply EveryRun.iterate_ne_nil
  have hsome : ¬ data.isEmpty = true := by simpa using hdata
  rw [if_neg hsome]
  apply EveryRun.ask_bind
  intro reply
  exact ⟨fun _ => List.cons_ne_nil _ _⟩

end Shell

end CommandShell
