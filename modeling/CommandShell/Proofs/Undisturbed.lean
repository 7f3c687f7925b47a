import CommandShell.Proofs.Scopes
import CommandShell.Proofs.Surroundings

/-!
# Runs that no signal disturbs

What a script leaves behind depends on the signals that arrive while it runs, since their traps are
scripts too. `Undisturbed` is for programs that do nothing but write and set what is done with signals: it
says what holds of their results as long as they are told of no signal. What the writes are answered
does not matter.

A computation `Completes` from a state if it is such a program and does not stop short.
-/

namespace CommandShell

open Host (Call Reply Program Event)

namespace Host

/-- A call that leaves files, processes and descriptors alone. -/
def Call.isHarmless : Call → Bool
  | .write .. | .setDisposition .. | .takeArrived => true
  | _ => false

/-- The program is told that a signal arrived. -/
def tellsOfSignal (c : Call) (r : Reply c) : Prop := (⟨c, r⟩ : Event) = ⟨.takeArrived, true⟩

namespace Program

variable {α β : Type}

/-- The program makes harmless calls only, and as long as it is told of no signal it comes to a result
of which `Q` holds. -/
def Undisturbed (Q : α → Prop) : Program α → Prop
  | .done a => Q a
  | .call c k => c.isHarmless = true ∧ ∀ r, ¬ tellsOfSignal c r → (k r).Undisturbed Q

theorem undisturbed_bind {Q : β → Prop} (p : Program α) (f : α → Program β) :
    (p.bind f).Undisturbed Q ↔ p.Undisturbed fun a => (f a).Undisturbed Q := by
  induction p with
  | done a => rfl
  | call c k ih => simp [bind, Undisturbed, ih]

theorem Undisturbed.mono {Q Q' : α → Prop} (h : ∀ a, Q a → Q' a) {p : Program α}
    (hp : p.Undisturbed Q) : p.Undisturbed Q' := by
  induction p with
  | done a => exact h a hp
  | call c k ih => exact ⟨hp.1, fun r hr => ih r (hp.2 r hr)⟩

theorem Undisturbed.and {Q Q' : α → Prop} {p : Program α} (hp : p.Undisturbed Q)
    (hp' : p.Undisturbed Q') : p.Undisturbed fun a => Q a ∧ Q' a := by
  induction p with
  | done a => exact ⟨hp, hp'⟩
  | call c k ih => exact ⟨hp.1, fun r hr => ih r (hp.2 r hr) (hp'.2 r hr)⟩

/-- There is a run that is told of no signal. -/
theorem Undisturbed.exists {Q : α → Prop} {p : Program α} (hp : p.Undisturbed Q) : ∃ a, Q a := by
  have hreply : ∀ c : Call, c.isHarmless = true → ∃ r : Reply c, ¬ tellsOfSignal c r := by
    intro c hc
    cases c with
    | write fd bs => exact ⟨.ok 0, nofun⟩
    | setDisposition n d => exact ⟨d, nofun⟩
    | takeArrived => exact ⟨false, nofun⟩
    | _ => exact nomatch hc
  induction p with
  | done a => exact ⟨a, hp⟩
  | call c k ih =>
      obtain ⟨r, hr⟩ := hreply c hp.1
      exact ih r (hp.2 r hr)

theorem undisturbed_of_onlyAsks {Q : α → Prop} {p : Program α}
    (hp : p.OnlyAsks fun c => c.isHarmless = true) (hQ : p.Always Q) : p.Undisturbed Q := by
  induction p with
  | done a => exact hQ
  | call c k ih => exact ⟨hp.1, fun r _ => ih r (hp.2 r) (hQ r)⟩

end Program

end Host

namespace Shell

variable {α β : Type} {s t : Shell}

/-- As long as no signal arrives the computation goes through without an error, and `Q` holds of its
value and of the state after it. -/
def Completes (x : ShellM α) (s : Shell) (Q : α → Shell → Prop) : Prop :=
  (x.startedIn s).Undisturbed fun o => ∃ a, o.1 = .ok a ∧ Q a o.2

theorem Completes.mono {x : ShellM α} {Q Q' : α → Shell → Prop} (h : Completes x s Q)
    (hQ : ∀ a t, Q a t → Q' a t) : Completes x s Q' :=
  Host.Program.Undisturbed.mono (fun o ⟨a, ho, ha⟩ => ⟨a, ho, hQ a o.2 ha⟩) h

/-- What is true of all runs that no signal disturbs is true of one. -/
theorem Completes.exists {x : ShellM α} {Q : α → Shell → Prop} (h : Completes x s Q) :
    ∃ a t, Q a t := by
  obtain ⟨⟨_, t⟩, a, _, ha⟩ := Host.Program.Undisturbed.exists h
  exact ⟨a, t, ha⟩

theorem Completes.and {x : ShellM α} {Q Q' : α → Shell → Prop} (h : Completes x s Q)
    (h' : Completes x s Q') : Completes x s fun a t => Q a t ∧ Q' a t := by
  refine (Host.Program.Undisturbed.and h h').mono ?_
  rintro o ⟨⟨a, ho, ha⟩, ⟨a', ho', ha'⟩⟩
  obtain rfl := Except.ok.inj (ho.symm.trans ho')
  exact ⟨a, ho, ha, ha'⟩

/-- A computation without a call. -/
theorem completes_of_eq {x : ShellM α} {a : α} {Q : α → Shell → Prop}
    (h : x.startedIn s = .done (.ok a, t)) (hQ : Q a t) : Completes x s Q := by
  unfold Completes
  rw [h]
  exact ⟨a, rfl, hQ⟩

theorem completes_pure {a : α} {Q : α → Shell → Prop} (h : Q a s) : Completes (pure a) s Q :=
  ⟨a, rfl, h⟩

theorem completes_modify {f : Shell → Shell} {Q : Unit → Shell → Prop} (h : Q () (f s)) :
    Completes (modify f) s Q :=
  ⟨(), rfl, h⟩

theorem Completes.bind {x : ShellM α} {f : α → ShellM β} {P : α → Shell → Prop}
    {Q : β → Shell → Prop} (hx : Completes x s P) (hf : ∀ a t, P a t → Completes (f a) t Q) :
    Completes (x >>= f) s Q := by
  refine (Host.Program.undisturbed_bind _ _).mpr (Host.Program.Undisturbed.mono ?_ hx)
  rintro ⟨r, t⟩ ⟨a, rfl, ha⟩
  exact hf a t ha

theorem completes_get_bind {f : Shell → ShellM β} {Q : β → Shell → Prop} (h : Completes (f s) s Q) :
    Completes (get >>= f) s Q := h

theorem completes_modify_bind {g : Shell → Shell} {f : Unit → ShellM β} {Q : β → Shell → Prop}
    (h : Completes (f ()) (g s) Q) : Completes (modify g >>= f) s Q := h

theorem Completes.forM_singleton {f : α → ShellM Unit} {a : α} {Q : Unit → Shell → Prop}
    (h : Completes (f a) s Q) : Completes ([a].forM f) s Q :=
  h.bind fun _ _ ht => completes_pure ht

theorem Completes.attempt {x : ShellM α} {Q : α → Shell → Prop} (h : Completes x s Q) :
    Completes (attempt x) s fun r t => ∃ a, r = .ok a ∧ Q a t := by
  refine (Host.Program.undisturbed_bind _ _).mpr (Host.Program.Undisturbed.mono ?_ h)
  rintro ⟨r, t⟩ ⟨a, rfl, ha⟩
  exact ⟨.ok a, rfl, a, rfl, ha⟩

/-- An answered call that tells of no signal. -/
theorem completes_ask {c : Call} (hc : c.isHarmless = true) {Q : Reply c → Shell → Prop}
    (h : ∀ r, ¬ Host.tellsOfSignal c r → Q r s) : Completes (ask c) s Q :=
  ⟨hc, fun r hr => ⟨r, rfl, h r hr⟩⟩

/-- Harmless calls, and a result whatever they are answered. -/
theorem completes_of_onlyAsks {x : ShellM α} {Q : α → Shell → Prop}
    (hasks : OnlyAsks (fun c => c.isHarmless = true) x)
    (h : (x.startedIn s).Always fun o => ∃ a, o.1 = .ok a ∧ Q a o.2) : Completes x s Q :=
  Host.Program.undisturbed_of_onlyAsks (hasks s) h

/-- A message leaves the state alone, whatever becomes of it. -/
theorem completes_quietly_writeErr (t : Text) :
    Completes (quietly (writeErr t)) s fun _ s' => s' = s := by
  have hasks : OnlyAsks (fun c => c.isHarmless = true) (quietly (writeErr t)) :=
    .quietly (.writeBytes (fun _ => rfl) _)
  refine completes_of_onlyAsks hasks ((always_ok_of_keeps s).mono ?_)
  rintro _ ⟨a, rfl⟩
  exact ⟨a, rfl, rfl⟩

-- to unfold it for a shell that is known is to run the computation
attribute [irreducible] Completes

end Shell

end CommandShell
