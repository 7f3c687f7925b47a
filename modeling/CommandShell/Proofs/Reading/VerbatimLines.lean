import CommandShell.Proofs.Grammar.Completeness
import CommandShell.Proofs.Reading.Verbatim
import CommandShell.Proofs.Trees

/-!
# Reading lines of quoted words

A listing that can be read back is made of lines, and each of them is a simple command: words of plain
characters with a quoted text after them (`QuotedWord`), with blanks between and a newline at the end. A
quoted text may hold newlines, so that such a `Line` may go over many lines of the text.

The result is `parseCommand_line`: without aliases the next command of a text that starts with a line is
that simple command, and the rest of the text is left.
-/

namespace CommandShell.Script

open Reader

variable {α β : Type} {t rest : Text} {tk : Token} {i j : Input}

/-! ## Enough steps -/

/-- With enough steps the reader gives a value, and `Q` holds of it and of the input that is left. -/
def Obtains (r : Nat → Reader α) (i : Input) (Q : α → Input → Prop) : Prop :=
  ∃ a j, Q a j ∧ ∃ N, ∀ n, N ≤ n → (r n).on i = (.ok a, j)

section

variable {P : α → Input → Prop} {Q : β → Input → Prop}

theorem obtains_pure {a : α} (h : P a i) : Obtains (fun _ => pure a) i P :=
  ⟨a, i, h, 0, fun _ _ => rfl⟩

theorem Obtains.bind {x : Nat → Reader α} {f : Nat → α → Reader β} (hx : Obtains x i P)
    (hf : ∀ a j, P a j → Obtains (fun n => f n a) j Q) : Obtains (fun n => x n >>= f n) i Q := by
  obtain ⟨a, j, ha, N, hN⟩ := hx
  obtain ⟨b, k, hb, M, hM⟩ := hf a j ha
  refine ⟨b, k, hb, N + M, fun n hn => ?_⟩
  rw [Reader.on_bind, hN n (by omega)]
  exact hM n (by omega)

theorem Obtains.mono {P' : α → Input → Prop} {r : Nat → Reader α} (h : Obtains r i P)
    (hP : ∀ a j, P a j → P' a j) : Obtains r i P' :=
  h.imp fun a ⟨j, ha, hsteps⟩ => ⟨j, hP a j ha, hsteps⟩

/-- A function that is unfolded once. -/
theorem Obtains.step {f : Nat → Reader α} (h : Obtains (fun n => f (n + 1)) i P) : Obtains f i P := by
  obtain ⟨a, j, ha, N, hN⟩ := h
  refine ⟨a, j, ha, N + 1, fun n hn => ?_⟩
  obtain ⟨m, rfl⟩ := Nat.exists_eq_add_of_le' hn
  exact hN (m + N) (Nat.le_add_left N m)

/-- A sequence whose first part has one outcome, whatever the number of steps. -/
theorem Obtains.after {x : Reader α} {f : Nat → α → Reader β} {a : α} (hx : x.on i = (.ok a, j))
    (hf : Obtains (fun n => f n a) j Q) : Obtains (fun n => x >>= f n) i Q := by
  refine Obtains.bind (P := fun b k => b = a ∧ k = j) ⟨a, j, ⟨rfl, rfl⟩, 0, fun _ _ => hx⟩ ?_
  rintro b k ⟨rfl, rfl⟩
  exact hf

end

/-! ## The next token -/

/-- The token is the next one, and the text comes after it. -/
structure Before (tk : Token) (t : Text) (i : Input) : Prop extends Sane .empty i where
  next : ∃ j, Ahead .empty t j ∧ ∃ N, ∀ n, N ≤ n → (nextToken n).on i = (.ok tk, j)

section

variable {Q : β → Input → Prop}

/-- A token that is read with enough steps. -/
theorem Ahead.before {P : Token → Prop} {N : Nat} (hi : Ahead .empty t i)
    (h : ∀ n, N ≤ n → Takes .empty (nextToken n) t P rest) : ∃ tk, P tk ∧ Before tk rest i := by
  obtain ⟨tk, j, hread, htk, hj⟩ := (h N (Nat.le_refl N)).on hi
  refine ⟨tk, htk, hi.toSane, j, hj, N, fun n hn => ?_⟩
  exact (refines_of_le (fun n => (readersGrow n).nextToken) hn).on_eq hread (by simp)

/-- A token that was put back. -/
theorem Ahead.pushed (hi : Ahead .empty t i) (tk : Token) :
    Before tk t { i with pushback := some tk } := by
  have hpushback : { i with pushback := none } = i := by
    rw [← hi.pushback]
  refine ⟨{ hi.toSane with }, i, hi, 1, fun n hn => ?_⟩
  obtain ⟨m, rfl⟩ := Nat.exists_eq_add_of_le' hn
  rw [Suffices.nextToken_pushback rfl]
  show (Except.ok tk, { i with pushback := none }) = _
  rw [hpushback]

theorem Ahead.obtains_push {f : Nat → Unit → Reader β} (hi : Ahead .empty t i)
    (hf : ∀ j, Before tk t j → Obtains (fun n => f n ()) j Q) :
    Obtains (fun n => pushToken tk >>= f n) i Q :=
  .after rfl (hf _ (hi.pushed tk))

theorem Before.obtains {f : Nat → Token → Reader β} (h : Before tk t i)
    (hf : ∀ j, Ahead .empty t j → Obtains (fun n => f n tk) j Q) :
    Obtains (fun n => nextToken n >>= f n) i Q := by
  obtain ⟨j, hj, N, hN⟩ := h.next
  refine Obtains.bind (P := fun tk' j' => tk' = tk ∧ j' = j) ⟨tk, j, ⟨rfl, rfl⟩, N, hN⟩ ?_
  rintro tk' j' ⟨rfl, rfl⟩
  exact hf j' hj

/-- Without aliases a command starts with its first token. -/
theorem Before.obtains_command {f : Nat → Token → Reader β} (h : Before tk t i)
    (hf : ∀ j, Ahead .empty t j → Obtains (fun n => f n tk) j Q) :
    Obtains (fun n => commandToken n >>= f n) i Q := by
  obtain ⟨j, hj, N, hN⟩ := h.next
  have hcommand : ∀ n, N + 2 ≤ n → (commandToken n).on i = (.ok tk, j) := by
    intro n hn
    obtain ⟨m, rfl⟩ := Nat.exists_eq_add_of_le' hn
    rw [show m + (N + 2) = m + N + 1 + 1 from rfl, commandToken_on h.toSane, Reader.on_bind,
      hN _ (by omega)]
    exact expandAlias_on hj.toSane _ tk
  refine Obtains.bind (P := fun tk' j' => tk' = tk ∧ j' = j) ⟨tk, j, ⟨rfl, rfl⟩, N + 2, hcommand⟩ ?_
  rintro tk' j' ⟨rfl, rfl⟩
  exact hf j' hj

theorem Before.obtains_peek {f : Nat → Token → Reader β} (h : Before tk t i)
    (hf : ∀ j, Before tk t j → Obtains (fun n => f n tk) j Q) :
    Obtains (fun n => peekToken n >>= f n) i Q := by
  have hpeek : Obtains peekToken i fun tk' j => tk' = tk ∧ Before tk t j := by
    apply Obtains.step
    apply h.obtains
    intro j hj
    apply hj.obtains_push
    intro k hk
    exact obtains_pure ⟨rfl, hk⟩
  apply hpeek.bind
  rintro tk' j ⟨rfl, hj⟩
  exact hf j hj

end

/-! ## Lines -/

/-- A word as a listing writes it: plain characters, and a quoted text after them. -/
structure QuotedWord where
  head : Text
  body : Text
  plain : ∀ c ∈ head, Text.isPlainChar c = true

namespace QuotedWord

/-- The word that is a quoted text. -/
def ofText (t : Text) : QuotedWord := ⟨[], t, nofun⟩

/-- The word as it is written. -/
def spell (w : QuotedWord) : Text := w.head ++ Text.quote w.body

/-- The text that the word stands for. -/
def text (w : QuotedWord) : Text := w.head ++ w.body

/-- The parts as which the word is read. -/
def parts (w : QuotedWord) : List Part := wordParts w.head w.body

/-- The word would be read as an assignment where a command starts. -/
def Assigns (w : QuotedWord) : Prop := ∀ u : Word, u.parts = w.parts → u.isAssignment = true

/-- The word is read as a word where a command starts: it is no assignment and no keyword. -/
def Calls (w : QuotedWord) : Prop :=
  w.text ∉ keywords ∧ ∀ u : Word, u.parts = w.parts → u.isAssignment = false

/-- A word that needs no quotes and has no `=`. -/
theorem calls_ofText {t : Text} (hplain : isPlain t = true) (hkeyword : t ∉ keywords)
    (hequals : '=' ∉ t) : (ofText t).Calls := by
  have hparts : (ofText t).parts = [.literal t] := if_pos hplain
  refine ⟨hkeyword, ?_⟩
  intro u hu
  have hcut := cut?_eq_none hequals
  simp [Word.isAssignment, hu, hparts, Text.splitAssignment?, hcut]

end QuotedWord

/-- A simple command as a listing writes it: an assignment, or words. -/
inductive Line where
  | assignment (w : QuotedWord) (h : w.Assigns)
  | command (w : QuotedWord) (ws : List QuotedWord) (h : w.Calls)

namespace Line

/-- The line as it is written, with its newline. -/
def spell : Line → Text
  | assignment w _ => w.spell ++ "\n"
  | command w ws _ => w.spell ++ (ws.flatMap fun w => ' ' :: w.spell) ++ "\n"

/-- The command is the one that the line writes. -/
def Writes (l : Line) (n : Node) : Prop :=
  match l with
  | assignment w _ => ∃ u k, n = .mk (.simple [u] [] []) k ∧ u.parts = w.parts
  | command w ws _ => ∃ us k, n = .mk (.simple [] us []) k ∧
    us.map Word.parts = (w :: ws).map QuotedWord.parts

end Line

theorem endsWord_spell (ws : List QuotedWord) (rest : Text) :
    EndsWord ((ws.flatMap fun w => ' ' :: w.spell) ++ '\n' :: rest) := by
  cases ws with
  | nil =>
      rintro c ⟨rfl⟩
      decide
  | cons w ws =>
      rintro c ⟨rfl⟩
      decide

/-- A word, with blanks before it or none. -/
theorem Ahead.before_word (gap : Text) (hgap : ∀ c ∈ gap, c = ' ') (w : QuotedWord) (hrest : EndsWord rest)
    (hi : Ahead .empty (gap ++ (w.spell ++ rest)) i) : ∃ tk, tk.HasParts w.parts ∧ Before tk rest i := by
  apply hi.before (N := (gap ++ w.spell).length + 3)
  intro n hn
  have hword := takes_word (A := .empty) gap w.head hgap w.plain w.body hrest hn
  rwa [← List.append_assoc w.head] at hword

theorem Ahead.before_newline (hi : Ahead .empty ('\n' :: rest) i) :
    ∃ tk, tk.kind = .newline ∧ Before tk rest i := by
  apply hi.before (N := 3)
  intro n hn
  obtain ⟨n, rfl⟩ := Nat.exists_eq_add_of_le' hn
  exact takes_newline rest

/-- The words are next, and the newline that ends their line after them. -/
inductive AtWords (rest : Text) : List QuotedWord → Input → Prop
  | newline {tk : Token} {i : Input} (hkind : tk.kind = .newline) (h : Before tk rest i) :
    AtWords rest [] i
  | word {tk : Token} {i : Input} {w : QuotedWord} {ws : List QuotedWord} (hparts : tk.HasParts w.parts)
    (h : Before tk ((ws.flatMap fun w => ' ' :: w.spell) ++ '\n' :: rest) i) : AtWords rest (w :: ws) i

section

variable {ws : List QuotedWord} {Q : β → Input → Prop}

theorem Ahead.atWords (hi : Ahead .empty ((ws.flatMap fun w => ' ' :: w.spell) ++ '\n' :: rest) i) :
    AtWords rest ws i := by
  cases ws with
  | nil =>
      obtain ⟨tk, hkind, htk⟩ := hi.before_newline
      exact .newline hkind htk
  | cons w ws =>
      have hgap : ∀ c ∈ [' '], c = ' ' := fun c hc => List.mem_singleton.mp hc
      rw [List.flatMap_cons, List.append_assoc] at hi
      obtain ⟨tk, hparts, htk⟩ := hi.before_word [' '] hgap w (endsWord_spell ws rest)
      exact .word hparts htk

/-- None of the words is a parenthesis. -/
theorem AtWords.obtains_peek {f : Nat → Token → Reader β} (h : AtWords rest ws i)
    (hf : ∀ tk j, tk.isLeftParen = false → AtWords rest ws j → Obtains (fun n => f n tk) j Q) :
    Obtains (fun n => peekToken n >>= f n) i Q := by
  cases h with
  | @newline tk _ hkind h =>
      have hparen : tk.isLeftParen = false := by
        rw [Token.isLeftParen, hkind]
      exact h.obtains_peek fun j hj => hf tk j hparen (.newline hkind hj)
  | @word tk _ w ws hparts h =>
      obtain ⟨t, l, hkind⟩ := hparts
      have hparen : tk.isLeftParen = false := by
        rw [Token.isLeftParen, hkind]
      exact h.obtains_peek fun j hj => hf tk j hparen (.word ⟨t, l, hkind⟩ hj)

end

/-! ## Simple commands -/

section

variable (line : Nat) (assigns argv : List Word)

/-- Reads on after an assignment or a word of a simple command without redirections. -/
def readSimpleOn (n : Nat) : Reader Node := do
  let tk ← nextToken n
  if ← takeAliasBlank then
    let tk ← expandAlias n tk
    parseSimple n line assigns argv [] tk
  else parseSimple n line assigns argv [] tk

variable {line assigns argv} {ws : List QuotedWord} {Q : Node → Input → Prop}

theorem Before.obtains_simpleOn (h : Before tk t i) (hf : ∀ j, Ahead .empty t j →
      Obtains (fun n => parseSimple n line assigns argv [] tk) j Q) :
    Obtains (readSimpleOn line assigns argv) i Q := by
  apply h.obtains
  intro j hj
  apply Obtains.after hj.takeAliasBlank_on
  simp only [Bool.false_eq_true, if_false]
  exact hf j hj

/-- After a word of a command the words that are left are its further words. -/
theorem AtWords.obtains_simpleOn (hargv : argv = [] → ws = []) (h : AtWords rest ws i) :
    Obtains (readSimpleOn line assigns argv) i fun n j =>
      (∃ us, n = .mk (.simple assigns.reverse (argv.reverse ++ us) []) line ∧
        us.map Word.parts = ws.map QuotedWord.parts) ∧ AtWords rest [] j := by
  induction ws generalizing argv i with
  | nil =>
      obtain @⟨tk, _, hkind, htk⟩ := h
      apply htk.obtains_simpleOn
      intro j hj
      apply Obtains.step
      unfold parseSimple
      simp only [hkind]
      apply hj.obtains_push
      intro k hk
      exact obtains_pure ⟨⟨[], by rw [List.append_nil, List.reverse_nil], rfl⟩, .newline hkind hk⟩
  | cons w ws ih =>
      have hargv : argv.isEmpty = false :=
        List.isEmpty_eq_false_iff.mpr fun h => List.cons_ne_nil w ws (hargv h)
      obtain _ | @⟨tk, _, _, _, ⟨t, l, hkind⟩, htk⟩ := h
      apply htk.obtains_simpleOn
      intro j hj
      apply Obtains.step
      unfold parseSimple
      simp only [hkind, hargv, Bool.false_and, Bool.false_eq_true, if_false]
      refine Obtains.mono (ih (absurd · (List.cons_ne_nil _ _)) hj.atWords) ?_
      rintro n k ⟨⟨us, hn, hus⟩, hk⟩
      refine ⟨⟨.mk t w.parts l :: us, ?_, ?_⟩, hk⟩
      · rw [hn, List.reverse_cons, List.append_assoc]
        rfl
      · rw [List.map_cons, List.map_cons, hus]
        rfl

end

/-- The first word of a line, without the blank that stands before the others. -/
def Line.first : Line → QuotedWord
  | .assignment w _ => w
  | .command w _ _ => w

/-- The words of a line after the first one. -/
def Line.others : Line → List QuotedWord
  | .assignment .. => []
  | .command _ ws _ => ws

theorem Line.spell_eq (l : Line) (rest : Text) : l.spell ++ rest =
    l.first.spell ++ ((l.others.flatMap fun w => ' ' :: w.spell) ++ '\n' :: rest) := by
  cases l <;> simp [spell, first, others]

theorem Token.HasParts.eq_of_literal? {ps : List Part} (h : tk.HasParts ps) {kw : Text}
    (hkw : tk.literal? = some kw) : ps = [.literal kw] := by
  obtain ⟨t, k, hkind⟩ := h
  simp only [Token.literal?, Token.word?, hkind, Option.bind_some, Word.literal?] at hkw
  split at hkw
  · obtain rfl := Option.some.inj hkw
    assumption
  · cases hkw

section

variable {l : Line}

/-- The simple command that a line writes. -/
theorem Line.obtains_simple {line : Nat} (hparts : tk.HasParts l.first.parts)
    (hi : AtWords rest l.others i) :
    Obtains (fun n => parseSimple n line [] [] [] tk) i fun n j => l.Writes n ∧ AtWords rest [] j := by
  obtain ⟨t, k, hkind⟩ := hparts
  apply Obtains.step
  unfold parseSimple
  cases l with
  | assignment w h =>
      have hassign : (Word.mk t w.parts k).isAssignment = true := h _ rfl
      simp only [hkind, Line.first, hassign, List.isEmpty_nil, Bool.and_self, if_true]
      refine Obtains.mono (hi.obtains_simpleOn fun _ => rfl) ?_
      rintro n j ⟨⟨us, hn, hus⟩, hj⟩
      obtain rfl := List.map_eq_nil_iff.mp hus
      exact ⟨⟨_, line, hn, rfl⟩, hj⟩
  | command w ws h =>
      have hassign : (Word.mk t w.parts k).isAssignment = false := h.2 _ rfl
      simp only [hkind, Line.first, hassign, List.isEmpty_nil, Bool.and_false, Bool.false_eq_true,
        if_false, Bool.and_self, if_true]
      -- a parenthesis would make the word the name of a function
      apply hi.obtains_peek
      intro tk j htk hj
      simp only [htk, Bool.false_eq_true, if_false]
      refine Obtains.mono (hj.obtains_simpleOn (absurd · (List.cons_ne_nil _ _))) ?_
      rintro n j ⟨⟨us, hn, hus⟩, hj⟩
      refine ⟨⟨.mk t w.parts k :: us, line, hn, ?_⟩, hj⟩
      rw [List.map_cons, List.map_cons, hus]
      rfl

/-- The first word of a line is no keyword. -/
theorem Line.literal?_ne (hparts : tk.HasParts l.first.parts) {kw : Text} (hkw : kw ∈ keywords) :
    tk.literal? ≠ some kw := by
  intro hliteral
  have hone := hparts.eq_of_literal? hliteral
  cases l with
  | assignment w h =>
      have hassign : (Text.splitAssignment? kw).isSome = true := by
        have hword := h (.mk [] [.literal kw] 0) hone.symm
        simpa [Word.isAssignment, Word.parts] using hword
      have hnone : ∀ kw ∈ keywords, (Text.splitAssignment? kw).isSome = false := by decide
      rw [hnone kw hkw] at hassign
      exact Bool.false_ne_true hassign
  | command w ws h =>
      obtain rfl := wordParts_eq_literal hone
      exact h.1 hkw

/-- A line is one pipeline of one command. -/
theorem Line.obtains_pipeline (hparts : tk.HasParts l.first.parts)
    (hi : Before tk ((l.others.flatMap fun w => ' ' :: w.spell) ++ '\n' :: rest) i) :
    Obtains parsePipeline i fun n j => l.Writes n ∧ AtWords rest [] j := by
  have hbang : tk.isKeyword "!" = false :=
    beq_eq_false_iff_ne.mpr (Line.literal?_ne hparts (by decide))
  have hsimple : tk.StartsSimple := by
    obtain ⟨t, k, hkind⟩ := id hparts
    refine .inr ⟨_, hkind, ?_⟩
    rintro kw hkw
    have hliteral : tk.literal? = some kw := by
      rw [Token.literal?, Token.word?, hkind]
      exact hkw
    have hstarters : ∀ kw ∈ compoundStarters, kw ∈ keywords := by decide
    have henders : ∀ kw ∈ listEnders, kw ∈ keywords := by decide
    exact ⟨fun h => Line.literal?_ne hparts (hstarters kw h) hliteral,
      fun h => Line.literal?_ne hparts (henders kw h) hliteral⟩
  apply Obtains.step
  simp only [parsePipeline_eq]
  apply hi.obtains_command
  intro j hj
  simp only [hbang, Bool.false_eq_true, if_false]
  have hstage : Obtains (fun n => parseCommandAt n tk) j fun n j => l.Writes n ∧ AtWords rest [] j := by
    apply Obtains.step
    simp only [parseCommandAt_simple hsimple]
    exact Line.obtains_simple hparts hj.atWords
  apply hstage.bind
  rintro n k ⟨hn, @⟨tk, _, hkind, htk⟩⟩
  have hstages : Obtains (fun m => parseStages m [n]) k fun ns j => ns = [n] ∧ AtWords rest [] j := by
    apply Obtains.step
    unfold parseStages
    apply htk.obtains
    intro m hm
    simp only [hkind]
    apply hm.obtains_push
    intro p hp
    exact obtains_pure ⟨rfl, .newline hkind hp⟩
  apply hstages.bind
  rintro ns m ⟨rfl, hm⟩
  exact obtains_pure ⟨hn, hm⟩

/-- A line at the top level is a list of one command, which its newline ends. -/
theorem Line.obtains_list (hparts : tk.HasParts l.first.parts)
    (hi : Before tk ((l.others.flatMap fun w => ' ' :: w.spell) ++ '\n' :: rest) i) :
    Obtains (fun n => parseList true n []) i fun n j => l.Writes n ∧ Ahead .empty rest j := by
  have hchain : Obtains parseAndOr i fun n j => l.Writes n ∧ AtWords rest [] j := by
    apply Obtains.step
    unfold parseAndOr
    apply (Line.obtains_pipeline hparts hi).bind
    rintro n j ⟨hn, @⟨tk, _, hkind, htk⟩⟩
    apply Obtains.step
    unfold parseAndOrRest
    apply htk.obtains
    intro k hk
    simp only [hkind]
    apply hk.obtains_push
    intro m hm
    exact obtains_pure ⟨hn, .newline hkind hm⟩
  apply Obtains.step
  simp only [parseList_eq]
  apply hchain.bind
  rintro n j ⟨hn, @⟨tk, _, hkind, htk⟩⟩
  apply htk.obtains
  intro k hk
  simp only [hkind, if_true]
  exact obtains_pure ⟨hn, hk⟩

theorem Line.obtains_parseTop (hi : Ahead .empty (l.spell ++ rest) i) :
    Obtains parseTop i fun p j => (∃ n, p = .command n ∧ l.Writes n) ∧ Ahead .empty rest j := by
  rw [l.spell_eq] at hi
  have hprimary : Ahead .empty _ { i with primary := true } := { hi with }
  obtain ⟨tk, hparts, htk⟩ :=
    hprimary.before_word [] (fun _ hc => nomatch hc) l.first (endsWord_spell l.others rest)
  obtain ⟨t, k, hkind⟩ := id hparts
  apply Obtains.step
  unfold parseTop
  show Obtains (fun n => nextToken n >>= _) { i with primary := true } _
  apply htk.obtains
  intro j hj
  simp only [hkind]
  apply hj.obtains_push
  intro k hk
  apply (Line.obtains_list hparts hk).bind
  rintro n m ⟨hn, hm⟩
  have hfill : n.fill m.bodies = n := by rw [hm.bodies, n.fill_nil]
  apply Obtains.after (Reader.on_get _ m)
  exact obtains_pure ⟨⟨n, by rw [hfill], hn⟩, hm⟩

/-- The bound on the steps is enough for what is read with enough steps. -/
theorem Obtains.parseCommand_on {A : Table Text} {Q : Parsed → Input → Prop} (h : Obtains parseTop i Q)
    (hA : ∀ b ∈ A.toList, Plain b.2) (hi : Sane A i) :
    ∃ p j, parseCommand.on i = (.ok p, j) ∧ Q p j := by
  obtain ⟨p, j, hp, N, hN⟩ := h
  obtain ⟨o, hsettles, -⟩ := parseTop_settles hA hi
  have ho : o = (.ok p, j) := by
    rw [← hsettles.2 (i.stepBound + N) (Nat.le_add_right ..), hN _ (Nat.le_add_left ..)]
  exact ⟨p, j, ho ▸ hsettles.parseCommand_on, hp⟩

theorem Obtains.parseCommand {Q : Parsed → Input → Prop} (h : Obtains parseTop i Q)
    (hi : Ahead .empty t i) : ∃ p j, parseCommand.on i = (.ok p, j) ∧ Q p j :=
  h.parseCommand_on empty_plain hi.toSane

/-- The next command of a text that starts with a line is the one that the line writes. -/
theorem parseCommand_line (l : Line) (hi : Ahead .empty (l.spell ++ rest) i) :
    ∃ n j, parseCommand.on i = (.ok (.command n), j) ∧ l.Writes n ∧ Ahead .empty rest j := by
  obtain ⟨p, j, hread, ⟨n, rfl, hn⟩, hj⟩ := (Line.obtains_parseTop hi).parseCommand hi
  exact ⟨n, j, hread, hn, hj⟩

/-- No command is left at the end of a text. -/
theorem parseCommand_end (hi : Ahead .empty [] i) :
    ∃ j, parseCommand.on i = (.ok .done, j) ∧ Ahead .empty [] j := by
  have hprimary : Ahead .empty [] { i with primary := true } := { hi with }
  have hend : ∀ n, 3 ≤ n → Takes .empty (nextToken n) [] (fun tk => tk.kind = .endOfInput) [] := by
    intro n hn
    obtain ⟨n, rfl⟩ := Nat.exists_eq_add_of_le' hn
    exact takes_endOfInput
  obtain ⟨tk, hkind, htk⟩ := hprimary.before hend
  have htop : Obtains parseTop i fun p j => p = .done ∧ Ahead .empty [] j := by
    apply Obtains.step
    unfold parseTop
    show Obtains (fun n => nextToken n >>= _) { i with primary := true } _
    apply htk.obtains
    intro j hj
    simp only [hkind]
    exact obtains_pure ⟨rfl, hj⟩
  obtain ⟨p, j, hread, rfl, hj⟩ := htop.parseCommand hi
  exact ⟨j, hread, hj⟩

end

end CommandShell.Script
