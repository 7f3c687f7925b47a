import CommandShell.Proofs.WordTexts
import CommandShell.Proofs.Reading.LineEnds

/-!
# Where tokens start and end

The first character of a token says what it is, unless it starts a word. What is taken for a
redirection operator ends with a character that operators are made of.
-/

namespace CommandShell.Script

open Reader

variable {α β : Type} {n line : Nat} {i j k : Input}

/-! ## Single characters -/

theorem Alone.shows_peek (hi : Alone i) :
    Shows (fun c j => c = i.ahead.head? ∧ Alone j ∧ Same i j) peek i := by
  obtain ⟨j, hj, hj', hsame⟩ := hi.peek_on
  unfold Shows Meets
  rw [hj]
  exact ⟨rfl, hj', hsame⟩

theorem Excerpt.shows_peek (hi : Excerpt 0 [] i i) :
    Shows (fun c j => c = j.ahead.head? ∧ Excerpt 0 [] j j ∧ j.ahead = i.ahead) peek i := by
  obtain ⟨j, j', hj, hj', hcut, hsame, -⟩ := hi.peek_on
  obtain rfl : j = j' := congrArg Prod.snd (hj.symm.trans hj')
  unfold Shows Meets
  rw [hj]
  exact ⟨by rw [hsame.ahead], hcut, hsame.ahead⟩

/-- A character is taken, or there is none. -/
theorem Alone.shows_next (hi : Alone i) :
    Shows (fun c j => Alone j ∧ i.ahead = c.toList ++ j.ahead) next i := by
  unfold Shows Meets
  cases ht : i.ahead with
  | nil =>
      obtain ⟨j, hj, hj', hsame⟩ := hi.next_on_nil ht
      rw [hj]
      exact ⟨hj', (hsame.ahead.trans ht).symm⟩
  | cons c r =>
      obtain ⟨j, hj, hj', hr, -⟩ := hi.next_on_cons ht
      rw [hj]
      exact ⟨hj', congrArg (c :: ·) hr.symm⟩

/-- A character that was looked at is taken. -/
theorem Alone.shows_next_of_head (hi : Alone i) {c : Char} (h : i.ahead.head? = some c) :
    Shows (fun d j => d = some c ∧ Alone j ∧ i.ahead = c :: j.ahead) next i := by
  obtain ⟨r, ht⟩ := List.head?_eq_some_iff.mp h
  obtain ⟨j, hj, hj', hr, -⟩ := hi.next_on_cons ht
  unfold Shows Meets
  rw [hj]
  exact ⟨rfl, hj', by rw [ht, hr]⟩

/-! ## Redirection operators -/

/-- The characters of redirection operators. -/
def redirectChars : Text := "<>&|-"

/-- What was taken ends with a character of a redirection operator. -/
structure TookOperator (i j : Input) : Prop where
  alone : Alone j
  taken : ∃ taken, ∃ c ∈ redirectChars, i.ahead = taken ++ c :: j.ahead

theorem TookOperator.same (h : TookOperator i j) (hk : Alone k) (hsame : Same j k) :
    TookOperator i k :=
  ⟨hk, by rw [hsame.ahead]; exact h.taken⟩

theorem TookOperator.after {t : Text} (h : TookOperator j k) (ht : i.ahead = t ++ j.ahead) :
    TookOperator i k := by
  obtain ⟨taken, c, hc, hj⟩ := h.taken
  exact ⟨h.alone, t ++ taken, c, hc, by rw [ht, hj, List.append_assoc]⟩

/-- One more character of an operator is looked at, and taken. -/
theorem TookOperator.next (h : TookOperator i j) {c : Char} (hc : c ∈ redirectChars)
    (hhead : some c = j.ahead.head?) : Shows (fun _ k => TookOperator i k) next j := by
  obtain ⟨taken, d, -, hi⟩ := h.taken
  refine (h.alone.shows_next_of_head hhead.symm).mono ?_
  rintro o k ⟨-, hk, hahead⟩
  exact ⟨hk, taken ++ [d], c, hc, by rw [hi, hahead, List.append_assoc]; rfl⟩

theorem readRedirectOp_took (fd : Option Nat) (hi : Alone i) :
    Shows (fun _ j => TookOperator i j) (readRedirectOp fd) i := by
  have hfirst : ∀ {c j}, Alone j → i.ahead = (some c).toList ++ j.ahead → c ∈ redirectChars →
      TookOperator i j := fun hj hahead hc => ⟨hj, [], _, hc, hahead⟩
  have hsecond : ∀ {j k c} op, TookOperator i j → Alone k → Same j k → some c = j.ahead.head? →
      c ∈ redirectChars → Shows (fun _ l => TookOperator i l)
        (next >>= fun _ => (pure op : Reader RedirectOp) >>= fun op => pure (TokenKind.redirect fd op)) k := by
    intro j k c op hj hk hsame hhead hc
    exact ((hj.same hk hsame).next hc (by rw [hsame.ahead, hhead])).bind fun _ _ hl => hl
  unfold readRedirectOp
  refine hi.shows_next.bind ?_
  rintro c j ⟨hj, hahead⟩
  split
  · have hj := hfirst hj hahead (by decide)
    refine hj.alone.shows_peek.bind ?_
    rintro c k ⟨hc, hk, hsame⟩
    split
    · have hk := hj.same hk hsame
      rw [← hsame.ahead] at hc
      refine (hk.next (by decide) hc).bind fun _ l hl => ?_
      refine hl.alone.shows_peek.bind ?_
      rintro c m ⟨hc, hm, hsame⟩
      split
      · rename_i heq
        subst heq
        refine ((hl.same hm hsame).next (c := '-') (by decide) ?_).bind fun _ _ hp => hp
        rw [hsame.ahead]
        exact hc
      · exact hl.same hm hsame
    · exact hsecond _ hj hk hsame hc (by decide)
    · exact hsecond _ hj hk hsame hc (by decide)
    · exact hj.same hk hsame
  · have hj := hfirst hj hahead (by decide)
    refine hj.alone.shows_peek.bind ?_
    rintro c k ⟨hc, hk, hsame⟩
    split
    · exact hsecond _ hj hk hsame hc (by decide)
    · exact hsecond _ hj hk hsame hc (by decide)
    · exact hsecond _ hj hk hsame hc (by decide)
    · exact hj.same hk hsame
  · trivial

/-! ## Kinds of tokens -/

/-- What a token is, by its first character, and what was taken for it. -/
structure KindFits (i : Input) (kind : TokenKind) (j : Input) : Prop where
  newline : i.ahead.head? = some '\n' → kind = .newline
  endOfInput : i.ahead.head? = none → kind = .endOfInput
  ended : kind = .endOfInput → j.ahead = []
  rightParen : kind = .rightParen → i.ahead = ')' :: j.ahead
  redirect : ∀ {fd op}, kind = .redirect fd op → TookOperator i j

theorem KindFits.of_ahead {kind : TokenKind} (h : KindFits i kind j) (hsame : i.ahead = k.ahead) :
    KindFits k kind j where
  newline := hsame ▸ h.newline
  endOfInput := hsame ▸ h.endOfInput
  ended := h.ended
  rightParen := hsame ▸ h.rightParen
  redirect hkind := (h.redirect hkind).after (t := []) hsame.symm

theorem KindFits.of_end (hhead : i.ahead.head? = none) (hj : j.ahead = []) :
    KindFits i .endOfInput j :=
  ⟨fun hnl => (nomatch hhead.symm.trans hnl), fun _ => rfl, fun _ => hj, nofun, nofun⟩

theorem KindFits.of_newline (hhead : i.ahead.head? = some '\n') : KindFits i .newline j :=
  ⟨fun _ => rfl, fun hend => (nomatch hhead.symm.trans hend), nofun, nofun, nofun⟩

theorem KindFits.of_rightParen (h : i.ahead = ')' :: j.ahead) : KindFits i .rightParen j := by
  have hhead : i.ahead.head? = some ')' := by rw [h]; rfl
  refine ⟨fun hnl => ?_, fun hend => (nomatch hhead.symm.trans hend), nofun, fun _ => h, nofun⟩
  exact absurd (hhead.symm.trans hnl) (by decide)

/-- A kind that is no parenthesis, no redirection and not the end. -/
def TokenKind.Neutral (kind : TokenKind) : Prop :=
  kind ≠ .endOfInput ∧ kind ≠ .rightParen ∧ ∀ fd op, kind ≠ .redirect fd op

/-- Neither a line nor the text ends here. -/
def InLine (i : Input) : Prop := ∃ c, i.ahead.head? = some c ∧ c ≠ '\n'

theorem TokenKind.Neutral.fits {kind : TokenKind} (h : kind.Neutral) (hi : InLine i) :
    KindFits i kind j := by
  obtain ⟨c, hc, hne⟩ := hi
  refine ⟨fun hnl => ?_, fun hend => ?_, fun hk => absurd hk h.1, fun hk => absurd hk h.2.1,
    fun hk => absurd hk (h.2.2 _ _)⟩
  · exact absurd (Option.some.inj (hc.symm.trans hnl)) hne
  · exact nomatch hc.symm.trans hend

theorem TookOperator.fits (h : TookOperator i j) {fd : Option Nat} {op : RedirectOp}
    (hi : InLine i) : KindFits i (.redirect fd op) j := by
  obtain ⟨c, hc, hne⟩ := hi
  refine ⟨fun hnl => ?_, fun hend => ?_, nofun, nofun, fun _ => h⟩
  · exact absurd (Option.some.inj (hc.symm.trans hnl)) hne
  · exact nomatch hc.symm.trans hend

/-- What a reader takes of an input. -/
theorem Mirrors.shows {f : α → α} {r : Reader α} (hr : Mirrors 0 f r r) (hi : Excerpt 0 [] i i) :
    Shows (fun _ j => Excerpt 0 [] j j ∧ ∃ taken, i.ahead = taken ++ j.ahead) r i := by
  unfold Shows Meets
  cases hon : r.on i with
  | mk o j =>
      cases o with
      | error e => trivial
      | ok a =>
          have hstep := hr.self hi hon
          obtain ⟨taken, htaken, -⟩ := hstep.taken
          exact ⟨hstep.toExcerpt, taken, htaken.ahead⟩

/-- Reading a redirection operator after other text was taken. -/
theorem readRedirectOp_fits (fd : Option Nat) {t : Text} (hk : Alone k) (ht : i.ahead = t ++ k.ahead)
    (hin : InLine i) : Shows (fun kind j => KindFits i kind j) (readRedirectOp fd) k := by
  have htook := readRedirectOp_took fd hk
  have hgives := gives_readRedirectOp (P := fun kind => ∃ op, kind = .redirect fd op)
    (fun op => ⟨op, rfl⟩) k
  unfold Shows Meets at htook ⊢
  unfold Meets at hgives
  generalize (readRedirectOp fd).on k = outcome at htook hgives
  obtain ⟨o, j⟩ := outcome
  cases o with
  | error e => trivial
  | ok kind =>
      obtain ⟨op, rfl⟩ := hgives
      exact (TookOperator.after htook ht).fits hin

theorem wordHere_fits (hi : Excerpt 0 [] i i) (hin : InLine i) :
    Shows (fun kind j => KindFits i kind j) (wordHere n line) i := by
  have hparts := (readersMirror 0 n).readParts .base line line 0 (show [] = Part.downAll 0 [] from rfl)
  have hword : ∀ {w : Word} {j : Input}, KindFits i (.word w) j :=
    fun {w j} => TokenKind.Neutral.fits (by simp [TokenKind.Neutral]) hin
  unfold wordHere
  refine (hparts.captured.shows hi).bind ?_
  rintro p j ⟨hj, taken, htaken⟩
  dsimp only
  split
  · rename_i fd _
    refine hj.long.shows_peek.bind ?_
    rintro c k ⟨hc, hk, hsame⟩
    rw [← hsame.ahead] at htaken
    split
    · exact readRedirectOp_fits (some fd) hk htaken hin
    · exact readRedirectOp_fits (some fd) hk htaken hin
    · exact hword
  · exact hword

theorem shows_true (r : Reader α) (i : Input) : Shows (fun _ _ => True) r i := by
  unfold Shows Meets
  split
  · trivial
  · trivial

/-- The kind of a token fits its first character. -/
theorem kindHere_fits (hi : Excerpt 0 [] i i) :
    Shows (fun kind j => KindFits i kind j) (kindHere n line) i := by
  unfold kindHere
  refine hi.shows_peek.bind ?_
  rintro c k ⟨hc, hk, hahead⟩
  refine Meets.mono (Q := fun kind j => KindFits k kind j) ?_ fun _ _ h => h.of_ahead hahead
  have hoperator : ∀ {second : Char} {one two : TokenKind}, InLine k → one.Neutral → two.Neutral →
      Shows (fun kind j => KindFits k kind j) (readOperator second one two) k :=
    fun hin hone htwo => (gives_readOperator _ hone htwo k).mono fun _ _ hkind => hkind.fits hin
  split
  · have hnil : k.ahead = [] := List.head?_eq_none_iff.mp hc.symm
    refine ((readersMirror 0 n).readPending.shows hk).bind ?_
    rintro _ l ⟨_, taken, htaken⟩
    exact .of_end hc.symm (List.append_eq_nil_iff.mp (htaken.symm.trans hnil)).2
  · exact (shows_true _ _).bind fun _ _ _ => (shows_true _ _).bind fun _ _ _ => .of_newline hc.symm
  · exact hoperator ⟨_, hc.symm, by decide⟩ (by simp [TokenKind.Neutral]) (by simp [TokenKind.Neutral])
  · exact hoperator ⟨_, hc.symm, by decide⟩ (by simp [TokenKind.Neutral]) (by simp [TokenKind.Neutral])
  · exact hoperator ⟨_, hc.symm, by decide⟩ (by simp [TokenKind.Neutral]) (by simp [TokenKind.Neutral])
  · exact (shows_true _ _).bind fun _ _ _ =>
      TokenKind.Neutral.fits (by simp [TokenKind.Neutral]) ⟨_, hc.symm, by decide⟩
  · refine (hk.long.shows_next_of_head hc.symm).bind ?_
    rintro _ l ⟨_, _, htaken⟩
    exact .of_rightParen htaken
  · exact readRedirectOp_fits none hk.long (t := []) rfl ⟨_, hc.symm, by decide⟩
  · exact readRedirectOp_fits none hk.long (t := []) rfl ⟨_, hc.symm, by decide⟩
  · rename_i c hnl _ _ _ _ _ _ _
    exact wordHere_fits hk ⟨c, hc.symm, fun h => hnl (h ▸ rfl)⟩

theorem tokenHere_fits (hi : Excerpt 0 [] i i) {tk : Token}
    (hj : (ReadersObey.tokenHere n).on i = (.ok tk, j)) : KindFits i tk.kind j := by
  rw [tokenHere_eq] at hj
  change (kindHere n i.line >>= fun kind => pure (⟨kind, i.line⟩ : Token)).on i = _ at hj
  have hfits : Shows (fun tk j => KindFits i tk.kind j)
      (kindHere n i.line >>= fun kind => pure (⟨kind, i.line⟩ : Token)) i :=
    (kindHere_fits hi).bind fun _ _ hkind => hkind
  exact hfits.value hj

/-- The token that is read, and the text before it, which is skipped. -/
theorem BetweenTokens.token_fits (hi : BetweenTokens i) {tk : Token}
    (hread : readToken.on i = (.ok tk, j)) :
    ∃ gap k, i.ahead = gap ++ k.ahead ∧ TokenNext k.ahead ∧ KindFits k tk.kind j := by
  obtain ⟨n, k, gap, hk, hat, hgap, -, -, hj⟩ := hi.token_on hread
  exact ⟨gap, k, hgap, hat, tokenHere_fits hk.excerpt hj⟩

end CommandShell.Script
