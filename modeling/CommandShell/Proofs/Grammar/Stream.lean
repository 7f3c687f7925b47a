import CommandShell.Proofs.Grammar
import CommandShell.Proofs.Reading.Aliases

/-!
# Reading from a sequence of tokens

To the functions that read commands an input without aliases is the sequence of its tokens, with
one that may have been put back. `Upcoming` says which tokens are still to come, and the rules here
lead a reader along them: `Finds` for what it comes to if it succeeds, and `Yields` for what it
does come to once it has enough steps.
-/

namespace CommandShell.Script

open Reader

variable {α β : Type} {ts us : List Token} {tk : Token} {i j : Input}

/-- The tokens of an input up to its end: none of them asks for a here-document, and the words in
them do not either. -/
def Lexes : List Token → Input → Prop
  | [], _ => False
  | tk :: ts, i => ∃ j, readToken.on i = (.ok tk, j) ∧ j.bodies = [] ∧
    (∀ fd op, tk.kind = .redirect fd op → op.isHereDoc = false) ∧
    match tk.kind with
    | .endOfInput => ts = []
    | _ => Lexes ts j

/-- The tokens that are still to come. -/
structure Upcoming (ts : List Token) (i : Input) : Prop extends Sane .empty i where
  lexes : Lexes ts i
  bodies : i.bodies = []

/-- A token was taken, and the others are still to come. -/
structure Taken (tk : Token) (ts : List Token) (i : Input) : Prop extends Lexing .empty i where
  bodies : i.bodies = []
  noHereDoc : ∀ fd op, tk.kind = .redirect fd op → op.isHereDoc = false
  rest : match tk.kind with
    | .endOfInput => ts = []
    | _ => Lexes ts i

theorem empty_plain : ∀ b ∈ (Table.empty : Table Text).toList, Plain b.2 := fun _ hb => nomatch hb

/-- What is to come starts with a token. -/
theorem Upcoming.takes (h : Upcoming ts i) :
    ∃ tk us j, ts = tk :: us ∧ readToken.on i = (.ok tk, j) ∧ Taken tk us j := by
  cases ts with
  | nil => exact h.lexes.elim
  | cons tk us =>
      obtain ⟨j, hread, hbodies, hnone, hrest⟩ := h.lexes
      refine ⟨tk, us, j, rfl, hread, ⟨?_, hbodies, hnone, hrest⟩⟩
      have hends := (suffices_all empty_plain i.stepBound).nextToken h.toSane (by
        have := weight_le_stepBound i
        omega)
      rw [readToken_on] at hread
      exact (hends.value hread).toLexing

theorem Taken.upcoming (h : Taken tk ts i) (hne : tk.kind ≠ .endOfInput) : Upcoming ts i := by
  refine ⟨h.toSane, ?_, h.bodies⟩
  have hrest := h.rest
  split at hrest
  · exact absurd ‹_› hne
  · exact hrest

/-- The token is put back. -/
theorem Taken.pushed (h : Taken tk ts i) : Upcoming (tk :: ts) { i with pushback := some tk } := by
  have hpos : 1 ≤ { i with pushback := some tk }.stepBound := by
    have := weight_le_stepBound { i with pushback := some tk }
    omega
  obtain ⟨m, hm⟩ := Nat.exists_eq_add_of_le' hpos
  have hpushback : { i with pushback := none } = i := by
    rw [← h.pushback]
  refine ⟨{ h.toSane with }, ⟨i, ?_, h.bodies, h.noHereDoc, h.rest⟩, h.bodies⟩
  rw [readToken_on, hm, Suffices.nextToken_pushback rfl]
  show (Except.ok tk, { i with pushback := none }) = _
  rw [hpushback]

/-! ## Taking the next token -/

/-- A reader that takes the next token. -/
class Draws (r : Nat → Reader Token) : Prop where
  takes : ∀ {ts i}, Upcoming ts i → ∃ tk us j, ts = tk :: us ∧ Taken tk us j ∧
    (∀ n, Meets (fun _ _ => True) (fun tk' j' => tk' = tk ∧ j' = j) (r n) i) ∧
    ∃ N, ∀ n, N ≤ n → (r n).on i = (.ok tk, j)

/-- An outcome that is not a lack of steps is the only one. -/
theorem refines_meets {f : Nat → Reader α} (hf : ∀ n, Grows f n) {m : Nat} {a : α}
    (h : (f m).on i = (.ok a, j)) (n : Nat) :
    Meets (fun _ _ => True) (fun b k => b = a ∧ k = j) (f n) i := by
  unfold Meets
  rcases Nat.le_total m n with hle | hle
  · rw [(refines_of_le hf hle).on_eq h (fun h => nomatch h)]
    exact ⟨rfl, rfl⟩
  · rcases (refines_of_le hf hle).agrees i with hout | heq
    · generalize (f n).on i = outcome at hout
      obtain ⟨r, k⟩ := outcome
      dsimp only at hout
      subst hout
      trivial
    · rw [← heq, h]
      exact ⟨rfl, rfl⟩

instance draws_nextToken : Draws nextToken where
  takes := by
    intro ts i h
    obtain ⟨tk, us, j, rfl, hread, htaken⟩ := h.takes
    rw [readToken_on] at hread
    have hgrows := fun n => (readersGrow n).nextToken
    refine ⟨tk, us, j, rfl, htaken, refines_meets hgrows hread, i.stepBound, fun n hn => ?_⟩
    exact (refines_of_le hgrows hn).on_eq hread (fun h => nomatch h)

/-- Without aliases a token stands for itself. -/
theorem expandAlias_on (hi : Sane .empty i) (n : Nat) (tk : Token) :
    (expandAlias (n + 1) tk).on i = (.ok tk, i) := by
  unfold expandAlias
  cases tk.literal?.filter fun name => !keywords.contains name with
  | none => rfl
  | some name =>
      have hnone : (aliasText? name).on i = (.ok none, i) := by
        unfold aliasText?
        show (if (i.frames.any fun f => f.name == name) = true then return none
          else return i.aliases.get? name : Reader (Option Text)).on i = _
        rw [(hi.quiet rfl).1, hi.aliases]
        rfl
      show (aliasText? name >>= _).on i = _
      rw [Reader.on_bind, hnone]
      rfl

theorem commandToken_on (hi : Sane .empty i) (n : Nat) :
    (commandToken (n + 1)).on i = (nextToken n >>= expandAlias n).on i := by
  have hsame : { i with aliasBlank := false } = i := by
    rw [← (hi.quiet rfl).2]
  show (nextToken n >>= expandAlias n).on { i with aliasBlank := false } = _
  rw [hsame]

instance draws_commandToken : Draws commandToken where
  takes := by
    intro ts i h
    obtain ⟨tk, us, j, rfl, htaken, hmeets, N, hN⟩ := draws_nextToken.takes h
    have hlarge : ∀ n, N + 2 ≤ n → (commandToken n).on i = (.ok tk, j) := by
      intro n hn
      obtain ⟨m, rfl⟩ := Nat.exists_eq_add_of_le' hn
      rw [show m + (N + 2) = m + N + 1 + 1 from rfl, commandToken_on h.toSane, Reader.on_bind,
        hN _ (by omega)]
      exact expandAlias_on htaken.toSane _ tk
    have hgrows := fun n => (readersGrow n).commandToken
    exact ⟨tk, us, j, rfl, htaken, refines_meets hgrows (hlarge _ (Nat.le_refl _)), _, hlarge⟩

/-! ## What a reader finds -/

/-- If the reader comes to a value, it took the first of the tokens and left the others, and `P`
holds of the value and of both. -/
def Finds (P : α → List Token → List Token → Prop) (ts : List Token) (r : Reader α)
    (i : Input) : Prop :=
  Meets (fun _ _ => True) (fun a j => ∃ us vs, ts = us ++ vs ∧ Upcoming vs j ∧ P a us vs) r i

section

variable {P : α → List Token → List Token → Prop} {Q : β → List Token → List Token → Prop}

theorem finds_pure {a : α} (h : Upcoming ts i) (hP : P a [] ts) : Finds P ts (pure a) i :=
  ⟨[], ts, rfl, h, hP⟩

/-- A sequence takes the tokens of its parts. -/
theorem Finds.bind {x : Reader α} {f : α → Reader β} (hx : Finds P ts x i)
    (hf : ∀ a us vs j, ts = us ++ vs → Upcoming vs j → P a us vs →
      Finds (fun b ws => Q b (us ++ ws)) vs (f a) j) : Finds Q ts (x >>= f) i := by
  refine Meets.bind hx fun a j ⟨us, vs, hts, hj, ha⟩ => (hf a us vs j hts hj ha).mono ?_
  rintro b k ⟨ws, rest, rfl, hk, hb⟩
  exact ⟨us ++ ws, rest, by rw [hts, List.append_assoc], hk, hb⟩

theorem Finds.mono {P' : α → List Token → List Token → Prop} {r : Reader α} (h : Finds P ts r i)
    (hP : ∀ a us vs, P a us vs → P' a us vs) : Finds P' ts r i :=
  Meets.mono h fun a _ ⟨us, vs, hts, hj, ha⟩ => ⟨us, vs, hts, hj, hP a us vs ha⟩

theorem Finds.ite {c : Prop} [Decidable c] {x y : Reader α} (hx : c → Finds P ts x i)
    (hy : ¬ c → Finds P ts y i) : Finds P ts (if c then x else y) i := Meets.ite hx hy

/-- A reader with the next token in hand. -/
theorem finds_draw {r : Nat → Reader Token} [Draws r] {f : Token → Reader β} (n : Nat)
    (h : Upcoming ts i) (hf : ∀ tk us j, ts = tk :: us → Taken tk us j → Finds Q ts (f tk) j) :
    Finds Q ts (r n >>= f) i := by
  obtain ⟨tk, us, j, hts, htaken, hmeets, -⟩ := Draws.takes (r := r) h
  refine Meets.bind (hmeets n) ?_
  rintro tk' j' ⟨rfl, rfl⟩
  exact hf tk' us j' hts htaken

/-- The token in hand is used. -/
theorem Taken.finds {r : Reader α} (h : Taken tk ts i) (hne : tk.kind ≠ .endOfInput)
    (hr : Upcoming ts i → Finds (fun a us => P a (tk :: us)) ts r i) : Finds P (tk :: ts) r i := by
  refine Meets.mono (hr (h.upcoming hne)) ?_
  rintro a j ⟨us, vs, rfl, hj, ha⟩
  exact ⟨tk :: us, vs, rfl, hj, ha⟩

/-- The token in hand is put back. -/
theorem Taken.finds_push {f : Unit → Reader β} (h : Taken tk ts i)
    (hf : ∀ j, Upcoming (tk :: ts) j → Finds Q (tk :: ts) (f ()) j) :
    Finds Q (tk :: ts) (pushToken tk >>= f) i := hf _ h.pushed

/-- The value comes with how it took the tokens. -/
theorem Finds.split {r : Reader α} (h : Finds P ts r i) :
    Finds (fun a us vs => ts = us ++ vs ∧ P a us vs) ts r i :=
  Meets.mono h fun _ _ ⟨us, vs, hts, hj, ha⟩ => ⟨us, vs, hts, hj, hts, ha⟩

end

/-! ## What a reader yields -/

/-- With enough steps the reader comes to the value, and leaves the tokens. -/
def Yields (r : Nat → Reader α) (i : Input) (a : α) (ts : List Token) : Prop :=
  ∃ j, Upcoming ts j ∧ ∃ N, ∀ n, N ≤ n → (r n).on i = (.ok a, j)

theorem yields_pure {a : α} (h : Upcoming ts i) : Yields (fun _ => pure a) i a ts :=
  ⟨i, h, 0, fun _ _ => rfl⟩

theorem Yields.bind {x : Nat → Reader α} {f : Nat → α → Reader β} {a : α} {b : β}
    (hx : Yields x i a ts) (hf : ∀ j, Upcoming ts j → Yields (fun n => f n a) j b us) :
    Yields (fun n => x n >>= f n) i b us := by
  obtain ⟨j, hj, N, hN⟩ := hx
  obtain ⟨k, hk, M, hM⟩ := hf j hj
  refine ⟨k, hk, N + M, fun n hn => ?_⟩
  rw [Reader.on_bind, hN n (by omega)]
  exact hM n (by omega)

/-- A function that is unfolded once. -/
theorem Yields.step {f : Nat → Reader α} {a : α} (h : Yields (fun n => f (n + 1)) i a ts) :
    Yields f i a ts := by
  obtain ⟨j, hj, N, hN⟩ := h
  refine ⟨j, hj, N + 1, fun n hn => ?_⟩
  obtain ⟨m, rfl⟩ := Nat.exists_eq_add_of_le' hn
  exact hN (m + N) (Nat.le_add_left N m)

theorem yields_draw {r : Nat → Reader Token} [Draws r] {f : Nat → Token → Reader β} {b : β}
    (h : Upcoming (tk :: ts) i) (hf : ∀ j, Taken tk ts j → Yields (fun n => f n tk) j b us) :
    Yields (fun n => r n >>= f n) i b us := by
  obtain ⟨tk', us', j, hts, htaken, -, N, hN⟩ := Draws.takes (r := r) h
  obtain ⟨rfl, rfl⟩ := List.cons.inj hts
  obtain ⟨k, hk, M, hM⟩ := hf j htaken
  refine ⟨k, hk, N + M, fun n hn => ?_⟩
  rw [Reader.on_bind, hN n (by omega)]
  exact hM n (by omega)

theorem Taken.yields_push {f : Nat → Unit → Reader β} {b : β} (h : Taken tk ts i)
    (hf : ∀ j, Upcoming (tk :: ts) j → Yields (fun n => f n ()) j b us) :
    Yields (fun n => pushToken tk >>= f n) i b us := hf _ h.pushed

/-! ## Looking at what is next -/

/-- Without aliases none ended in a blank. -/
theorem Sane.takeAliasBlank_on (hi : Sane .empty i) : takeAliasBlank.on i = (.ok false, i) := by
  have hblank := (hi.quiet rfl).2
  show (Except.ok i.aliasBlank, { i with aliasBlank := false }) = _
  rw [hblank, ← hblank]

theorem Taken.finds_takeAliasBlank {Q : β → List Token → List Token → Prop} {f : Bool → Reader β}
    (h : Taken tk ts i) (hf : Finds Q us (f false) i) : Finds Q us (takeAliasBlank >>= f) i := by
  unfold Finds Meets at hf ⊢
  rw [Reader.on_bind, h.takeAliasBlank_on]
  exact hf

theorem Taken.yields_takeAliasBlank {f : Nat → Bool → Reader β} {b : β} (h : Taken tk ts i)
    (hf : Yields (fun n => f n false) i b us) :
    Yields (fun n => takeAliasBlank >>= f n) i b us := by
  obtain ⟨j, hj, N, hN⟩ := hf
  refine ⟨j, hj, N, fun n hn => ?_⟩
  rw [Reader.on_bind, h.takeAliasBlank_on]
  exact hN n hn

theorem yields_peekToken (h : Upcoming (tk :: ts) i) : Yields peekToken i tk (tk :: ts) := by
  refine Yields.step (yields_draw h fun j hj => ?_)
  exact hj.yields_push fun k hk => yields_pure hk

theorem finds_peekToken (n : Nat) (h : Upcoming ts i) :
    Finds (fun tk us vs => us = [] ∧ ∃ ws, vs = tk :: ws) ts (peekToken n) i := by
  cases n with
  | zero => trivial
  | succ n =>
      refine finds_draw n h ?_
      rintro tk us j rfl hj
      exact hj.finds_push fun k hk => finds_pure hk ⟨rfl, us, rfl⟩

end CommandShell.Script
