import CommandShell.Proofs.Reading.Excerpts.Commands
import CommandShell.Proofs.Reading.Verbatim

/-!
# The texts of words

Without aliases and here-documents the text of a word is what was taken for it, and it reads by itself
as that word and nothing else, whatever line it stands on (`word_text_reads`). So a word may be printed
by its text.
-/

namespace CommandShell.Script

open Reader

variable {α β : Type} {n line : Nat} {t : Text} {i j k : Input} {w : Word}

/-! ## Between tokens -/

/-- An input before which a token ended. -/
structure BetweenTokens (i : Input) : Prop where
  alone : Alone i
  lexing : Lexing .empty i
  unasked : i.nextTicket = 0 → i.pending = [] ∧ i.bodies = []

/-- The input is an excerpt of itself. -/
theorem BetweenTokens.excerpt (h : BetweenTokens i) : Excerpt 0 [] i i where
  pushback := by rw [h.lexing.pushback]; rfl
  pending := rfl
  bodies := (Bodies.down_zero i.bodies).symm
  nextTicket := rfl
  unasked := h.unasked
  long := h.alone
  short := h.alone
  ahead := (List.append_nil _).symm
  line := rfl

theorem betweenTokens_ofText (t : Text) (line : Nat) : BetweenTokens (.ofText t line) where
  alone := alone_ofText t line
  lexing := (ahead_ofText .empty t line).toLexing
  unasked _ := ⟨rfl, rfl⟩

/-- What a reader takes of an excerpt that is the input itself. -/
theorem Tracks.self {f : α → α} {r : Reader α} {a : α} (h : Tracks 0 f [] r r i i)
    (hj : r.on i = (.ok a, j)) : InStep 0 [] i i j j := by
  unfold Tracks at h
  rw [hj] at h
  obtain ⟨s, hs, hstep⟩ := h.resolve_left (Nat.not_lt_zero _)
  obtain rfl : j = s := congrArg Prod.snd hs
  exact hstep

theorem Mirrors.self {f : α → α} {r : Reader α} {a : α} (hr : Mirrors 0 f r r)
    (h : Excerpt 0 [] i i)
    (hj : r.on i = (.ok a, j)) : InStep 0 [] i i j j :=
  (hr.tracks [] i i nofun h).self hj

theorem BetweenTokens.of_inStep (h : InStep 0 [] i i j j) (hj : Lexing .empty j) :
    BetweenTokens j :=
  ⟨h.long, hj, h.unasked⟩

/-- The inputs that reading a text token by token comes to. -/
inductive Lexed (t : Text) (line : Nat) : Input → Prop
  | start : Lexed t line (.ofText t line)
  | token {i j : Input} {tk : Token} (h : Lexed t line i) (hread : readToken.on i = (.ok tk, j)) :
    Lexed t line j

/-- A token was read. -/
theorem BetweenTokens.read (h : BetweenTokens i) {tk : Token} (hj : readToken.on i = (.ok tk, j)) :
    BetweenTokens j ∧ InStep 0 [] i i j j := by
  rw [readToken_on] at hj
  have hstep := (readersMirror 0 i.stepBound).nextToken.self h.excerpt hj
  have hends := (suffices_all empty_plain i.stepBound).nextToken h.lexing.toSane (by
    have := weight_le_stepBound i
    omega)
  exact ⟨.of_inStep hstep (hends.value hj).toLexing, hstep⟩

/-- What was read so far and what is ahead are the text. -/
theorem Lexed.betweenTokens (h : Lexed t line i) :
    BetweenTokens i ∧ ∃ passed, t = passed ++ i.ahead := by
  induction h with
  | start => exact ⟨betweenTokens_ofText t line, [], (Input.ahead_ofText t line).symm⟩
  | token _ hread ih =>
      obtain ⟨hi, passed, ht⟩ := ih
      obtain ⟨hj, hstep⟩ := hi.read hread
      obtain ⟨taken, htaken, -⟩ := hstep.taken
      refine ⟨hj, passed ++ taken, ?_⟩
      rw [ht, htaken.ahead, List.append_assoc]

/-! ## Where a word ends -/

/-- Reading stops before texts that satisfy `P`. -/
def Stops (P : Text → Prop) (r : Reader α) : Prop :=
  ∀ i a j, Excerpt 0 [] i i → r.on i = (.ok a, j) → P j.ahead

section

variable {P : Text → Prop} {f : α → α} {x : Reader α} {g : α → Reader β}

theorem Stops.bind (hx : Mirrors 0 f x x) (hg : ∀ a, Stops P (g a)) : Stops P (x >>= g) := by
  intro i b j hi hj
  rw [Reader.on_bind] at hj
  cases hon : x.on i with
  | mk o k =>
      rw [hon] at hj
      cases o with
      | error e => exact nomatch hj
      | ok a => exact hg a k b j (hx.self hi hon).toExcerpt hj

theorem Stops.ite {c : Prop} [Decidable c] {x y : Reader α} (hx : Stops P x) (hy : Stops P y) :
    Stops P (if c then x else y) := by
  split
  · exact hx
  · exact hy

theorem stops_throw (e : Halt) : Stops P (throw e : Reader α) := fun _ _ _ _ h => nomatch h

end

theorem readPartFrom_stops {start depth : Nat} {ps : PartsSoFar} (c : Char)
    (h : ∀ depth ps, Stops AtBreak (readParts .base start n depth ps)) :
    Stops AtBreak (readPartFrom .base start n depth ps c) := by
  have hm := readersMirror 0 n
  unfold readPartFrom
  rw [if_neg (by simp [WordContext.isParamArg]), if_neg (by simp [WordContext.isParamArg])]
  refine .ite ?_ (.ite ?_ (.ite ?_ (.ite ?_ (.ite ?_ (h _ _)))))
  · refine .bind .next fun c => ?_
    split
    · exact h _ _
    · exact .ite (h _ _) (h _ _)
    · exact h _ _
  · exact .bind (.readSingleQuoted start start n []) fun t => h _ _
  · exact .bind (hm.readDoubleQuoted start start rfl) fun inner => h _ _
  · refine .bind (hm.readDollar _) fun p => ?_
    cases p with
    | none => exact h _ _
    | some p => exact h _ _
  · exact .bind (hm.readBackQuoted _ start start) fun p => h _ _

/-- The parts of a word end before a character that ends words, or with the text. -/
theorem readParts_stops (start depth : Nat) (ps : PartsSoFar) :
    Stops AtBreak (readParts .base start n depth ps) := by
  induction n generalizing depth ps with
  | zero => exact stops_throw _
  | succ n ih =>
      intro i ps' j hi hj
      obtain ⟨k, k', hk, hk', hcut, hsame, -⟩ := hi.peek_on
      obtain rfl : k = k' := congrArg Prod.snd (hk.symm.trans hk')
      rw [readParts_eq, Reader.on_bind, hk] at hj
      dsimp only at hj
      cases ht : i.ahead.head? with
      | none =>
          rw [ht] at hj
          cases hj
          rw [hsame.ahead]
          unfold AtBreak
          rw [ht]
          exact nofun
      | some c =>
          rw [ht] at hj
          change (if (decide (WordContext.base = .base) && isWordBreak c) = true then _ else _ :
            Reader _).on k = _ at hj
          split at hj
          · rename_i hc
            cases hj
            rw [hsame.ahead]
            unfold AtBreak
            rw [ht]
            rintro _ ⟨rfl⟩
            exact (Bool.and_eq_true_iff.mp hc).2
          · exact Stops.bind .next (fun _ => readPartFrom_stops c ih) k ps' j hcut hj

/-- The text that was recorded is what was taken. -/
theorem captured_taken {f : α → α} {r : Reader α} {a : α} (hr : Mirrors 0 f r r) (hi : Excerpt 0 [] i i)
    (hj : (captured r).on i = (.ok (t, a), j)) :
    i.ahead = t ++ j.ahead ∧ ∃ k, r.on { i with captures := [] :: i.captures } = (.ok a, k) ∧
      k.ahead = j.ahead := by
  cases hk : r.on { i with captures := [] :: i.captures } with
  | mk o k =>
      cases o with
      | error e =>
          rw [captured_failed hk] at hj
          exact nomatch hj
      | ok b =>
          obtain ⟨taken, htaken, -⟩ := (hr.self hi.startCapture hk).taken
          rw [captured_on hk htaken.captures] at hj
          cases hj
          exact ⟨htaken.ahead, k, rfl, rfl⟩

/-! ## Reading a word -/

/-- The token that is read is no word. -/
def NoWord (r : Reader TokenKind) : Prop := ∀ i w j, r.on i ≠ (.ok (.word w), j)

theorem NoWord.bind {x : Reader α} {g : α → Reader TokenKind} (hg : ∀ a, NoWord (g a)) :
    NoWord (x >>= g) := by
  intro i w j hj
  rw [Reader.on_bind] at hj
  cases hon : x.on i with
  | mk o k =>
      rw [hon] at hj
      cases o with
      | error e => exact nomatch hj
      | ok a => exact hg a k w j hj

theorem noWord_pure {kind : TokenKind} (h : ∀ w, kind ≠ .word w) : NoWord (pure kind) :=
  fun _ w _ hj => h w (Except.ok.inj (congrArg Prod.fst hj))

theorem noWord_readRedirectOp (fd : Option Nat) : NoWord (readRedirectOp fd) := by
  have hop : ∀ op : Reader RedirectOp, NoWord (op >>= fun op => pure (.redirect fd op)) :=
    fun op => .bind fun op => noWord_pure nofun
  refine .bind fun c => ?_
  split
  · refine .bind fun c => ?_
    split
    · refine .bind fun _ => .bind fun c => ?_
      split
      · exact .bind fun _ => hop _
      · exact hop _
    · exact .bind fun _ => hop _
    · exact .bind fun _ => hop _
    · exact hop _
  · refine .bind fun c => ?_
    split
    · exact .bind fun _ => hop _
    · exact .bind fun _ => hop _
    · exact .bind fun _ => hop _
    · exact hop _
  · exact hop _

theorem noWord_readOperator (second : Char) {one two : TokenKind} (h1 : ∀ w, one ≠ .word w)
    (h2 : ∀ w, two ≠ .word w) : NoWord (readOperator second one two) := by
  refine .bind fun _ => .bind fun c => ?_
  split
  · exact .bind fun _ => noWord_pure h2
  · exact noWord_pure h1

/-- A word starts with a character that does not end words. -/
theorem kindHere_word (hi : Alone i) (hat : TokenNext i.ahead)
    (hj : (kindHere n line).on i = (.ok (.word w), j)) :
    ∃ c k, i.ahead.head? = some c ∧ isWordBreak c = false ∧ Alone k ∧ Same i k ∧
      (wordHere n line).on k = (.ok (.word w), j) := by
  obtain ⟨k, hk, hk', hsame⟩ := hi.peek_on
  unfold kindHere at hj
  rw [Reader.on_bind, hk] at hj
  dsimp only at hj
  have hblank := hat.notBlank
  generalize i.ahead.head? = b at hj hblank
  split at hj
  · refine absurd hj (NoWord.bind (fun _ => ?_) _ _ _)
    exact noWord_pure (by simp)
  · refine absurd hj (NoWord.bind (fun _ => .bind fun _ => ?_) _ _ _)
    exact noWord_pure (by simp)
  · exact absurd hj (noWord_readOperator ';' (by simp) (by simp) _ _ _)
  · exact absurd hj (noWord_readOperator '&' (by simp) (by simp) _ _ _)
  · exact absurd hj (noWord_readOperator '|' (by simp) (by simp) _ _ _)
  · refine absurd hj (NoWord.bind (fun _ => ?_) _ _ _)
    exact noWord_pure (by simp)
  · refine absurd hj (NoWord.bind (fun _ => ?_) _ _ _)
    exact noWord_pure (by simp)
  · exact absurd hj (noWord_readRedirectOp none _ _ _)
  · exact absurd hj (noWord_readRedirectOp none _ _ _)
  · rename_i c _ _ _ _ _ _ _ _
    refine ⟨c, k, rfl, Bool.eq_false_iff.mpr fun hc => ?_, hk', hsame, hj⟩
    have hblank := hblank c rfl
    simp [isWordBreak] at hc
    tauto

/-- A word is the text that was taken for its parts. -/
theorem wordHere_parts (hi : Excerpt 0 [] i i)
    (hj : (wordHere n line).on i = (.ok (.word w), j)) :
    ∃ k, (captured (readParts .base line n 0 [])).on i = (.ok (w.text, w.parts), k) ∧
      w.line = line ∧ j.ahead = k.ahead := by
  have hparts := (readersMirror 0 n).readParts .base line line 0 (show [] = Part.downAll 0 [] from rfl)
  unfold wordHere at hj
  rw [Reader.on_bind] at hj
  cases hk : (captured (readParts .base line n 0 [])).on i with
  | mk o k =>
      rw [hk] at hj
      cases o with
      | error e => exact nomatch hj
      | ok p =>
          obtain ⟨t, parts⟩ := p
          dsimp only at hj
          split at hj
          · obtain ⟨l, hl, -, hsame⟩ := (hparts.captured.self hi hk).long.peek_on
            rw [Reader.on_bind, hl] at hj
            dsimp only at hj
            split at hj
            · exact absurd hj (noWord_readRedirectOp _ _ _ _)
            · exact absurd hj (noWord_readRedirectOp _ _ _ _)
            · cases hj
              exact ⟨k, rfl, rfl, hsame.ahead⟩
          · cases hj
            exact ⟨_, rfl, rfl, rfl⟩

/-- The text of a word is what was taken, and it ends where a word ends. -/
theorem wordHere_taken (hi : Excerpt 0 [] i i) (hj : (wordHere n line).on i = (.ok (.word w), j)) :
    i.ahead = w.text ++ j.ahead ∧ AtBreak j.ahead ∧ w.line = line := by
  have hparts := (readersMirror 0 n).readParts .base line line 0 (show [] = Part.downAll 0 [] from rfl)
  obtain ⟨k, hk, hline, hsame⟩ := wordHere_parts hi hj
  obtain ⟨htaken, m, hm, hahead⟩ := captured_taken hparts hi hk
  rw [hsame]
  exact ⟨htaken, hahead ▸ readParts_stops line 0 [] _ _ _ hi.startCapture hm, hline⟩

/-! ## A word by itself -/

/-- Nothing was taken. -/
structure Unmoved (i j : Input) : Prop where
  alone : Alone j
  ahead : j.ahead = i.ahead
  line : j.line = i.line
  pushback : j.pushback = i.pushback
  pending : j.pending = i.pending
  bodies : j.bodies = i.bodies
  nextTicket : j.nextTicket = i.nextTicket

theorem Same.unmoved (h : Same i j) (hj : Alone j) : Unmoved i j :=
  ⟨hj, h.ahead, h.line, h.pushback, h.pending, h.bodies, h.nextTicket⟩

/-- Nothing is skipped where a token starts. -/
theorem skipBlanks_stays (hi : Alone i) (hat : TokenNext i.ahead) (n : Nat) :
    ∃ j, (skipBlanks (n + 1)).on i = (.ok (), j) ∧ Unmoved i j := by
  obtain ⟨k, hk, hk', hsame⟩ := hi.peek_on
  unfold skipBlanks
  rw [Reader.on_bind, hk]
  dsimp only
  have hblank := hat.notBlank
  cases ht : i.ahead with
  | nil => exact ⟨k, rfl, hsame.unmoved hk'⟩
  | cons c r =>
      rw [ht] at hblank
      obtain ⟨hspace, htab, hhash⟩ := hblank c rfl
      dsimp only [List.head?_cons]
      split
      · exact absurd (Option.some.inj ‹_›) hspace
      · exact absurd (Option.some.inj ‹_›) htab
      · exact absurd (Option.some.inj ‹_›) hhash
      · -- a backslash that continues no line is put back
        rename_i hc
        obtain rfl := Option.some.inj hc
        obtain ⟨l, hl, hl', hahead, -, hline, -, hpushback, hpending, hbodies, htickets⟩ :=
          hk'.next_on_cons (hsame.ahead.trans ht)
        obtain ⟨m, hm, hm', hsame'⟩ := hl'.peek_on
        have hnewline : l.ahead.head? ≠ some '\n' := by
          rw [hahead]
          intro h
          obtain ⟨r', rfl⟩ := List.head?_eq_some_iff.mp h
          exact hat.notContinued r' ht
        have hback := readBackslash_on (n := n) hl hm
        rw [if_neg hnewline] at hback
        refine ⟨((putBack '\\').on m).2, hback, ⟨hm'.putBack, ?_, ?_, ?_, ?_, ?_, ?_⟩⟩
        · show '\\' :: m.ahead = _
          rw [hsame'.ahead, hahead, ht]
        · exact hsame'.line.trans (hline.trans hsame.line)
        · exact hsame'.pushback.trans (hpushback.trans hsame.pushback)
        · exact hsame'.pending.trans (hpending.trans hsame.pending)
        · exact hsame'.bodies.trans (hbodies.trans hsame.bodies)
        · exact hsame'.nextTicket.trans (htickets.trans hsame.nextTicket)
      · exact ⟨k, rfl, hsame.unmoved hk'⟩

/-- The same parts, of a text from the line `l` on and of one from the line `l'` on: only the lines in
them differ, and all by as much. -/
def SameParts (l : Nat) (ps : List Part) (l' : Nat) (ps' : List Part) : Prop :=
  (∃ d, l' = l + d ∧ ps' = Part.downAll d ps) ∨ ∃ d, l = l' + d ∧ ps = Part.downAll d ps'

theorem Alone.left_eq_ahead (hi : Alone i) (h : AtBreak i.ahead) : i.left = i.ahead := by
  cases hu : i.unread with
  | nil => rw [Input.ahead, hu, List.nil_append]
  | cons c r =>
      -- only a backslash is ever put back
      have hahead : i.ahead = c :: (r ++ i.left) := by rw [Input.ahead, hu, List.cons_append]
      rw [hahead] at h
      exact absurd (hi.lined.unread c (hu ▸ List.mem_cons_self)) (backslash_not_break h)

theorem TokenNext.of_append {rest : Text} (h : TokenNext (t ++ rest)) (ht : t ≠ []) :
    TokenNext t := by
  obtain ⟨c, r, rfl⟩ := List.exists_cons_of_ne_nil ht
  refine ⟨h.notBlank, fun r' hr => h.notContinued (r' ++ rest) ?_⟩
  rw [hr]
  rfl

/-- A word that was read from where it starts on. -/
structure WordRead (k : Input) (w : Word) (l : Nat) (j : Input) : Prop where
  line : l = k.line ∧ w.line = k.line
  ahead : k.ahead = w.text ++ j.ahead
  ends : AtBreak j.ahead
  starts : ∃ c, k.ahead.head? = some c ∧ isWordBreak c = false

theorem WordRead.ne_nil {l : Nat} (h : WordRead k w l j) : w.text ≠ [] := by
  intro hnil
  obtain ⟨c, hc, hword⟩ := h.starts
  rw [h.ahead, hnil, List.nil_append] at hc
  exact absurd (h.ends c hc) (by simp [hword])

theorem tokenHere_word (hk : BetweenTokens k) (hat : TokenNext k.ahead) {l : Nat}
    (hj : (ReadersObey.tokenHere n).on k = (.ok ⟨.word w, l⟩, j)) : WordRead k w l j := by
  rw [tokenHere_eq] at hj
  change (kindHere n k.line >>= fun kind => pure (⟨kind, k.line⟩ : Token)).on k = _ at hj
  rw [Reader.on_bind] at hj
  cases hkind : (kindHere n k.line).on k with
  | mk o m =>
      rw [hkind] at hj
      cases o with
      | error e => exact nomatch hj
      | ok kind =>
          cases hj
          obtain ⟨c, k', hc, hword, hk', hsame, hread⟩ := kindHere_word hk.alone hat hkind
          obtain ⟨hahead, hends, hline⟩ :=
            wordHere_taken (Alike.of_same hk.excerpt hsame hsame hk' hk') hread
          rw [hsame.ahead] at hahead
          exact ⟨⟨rfl, hline⟩, hahead, hends, c, hc, hword⟩

/-- The steps that a token is given are enough, and more of them make no difference. -/
theorem Sane.readToken_of_steps (hi : Sane .empty i) {m : Nat} {tk : Token}
    (h : (nextToken m).on i = (.ok tk, j)) : readToken.on i = (.ok tk, j) := by
  have hgrows := fun n => (readersGrow n).nextToken
  have hends := (suffices_all empty_plain i.stepBound).nextToken hi (by
    have := weight_le_stepBound i
    omega)
  rw [readToken_on]
  rcases Nat.le_total m i.stepBound with hle | hle
  · exact (refines_of_le hgrows hle).on_eq h nofun
  · rcases (refines_of_le hgrows hle).agrees i with hout | heq
    · cases hon : (nextToken i.stepBound).on i with
      | mk o k =>
          rw [hon] at hout
          cases hout
          exact absurd rfl (hends.failure hon).1
    · exact heq.symm.trans h

theorem BetweenTokens.readToken_of_steps (hi : BetweenTokens i) {m : Nat} {tk : Token}
    (h : (nextToken m).on i = (.ok tk, j)) : readToken.on i = (.ok tk, j) :=
  hi.lexing.toSane.readToken_of_steps h

/-- Nothing is ahead, and no here-document waits. -/
theorem BetweenTokens.ahead_nil (hi : BetweenTokens i) (hend : i.ahead = [])
    (hnone : i.nextTicket = 0) : Ahead .empty [] i := by
  obtain ⟨hunread, hleft⟩ := List.append_eq_nil_iff.mp hend
  exact { hi.lexing with
    bare := ⟨hi.alone.frames, hunread⟩
    text := hleft
    ended := fun h => (hi.alone.lined.ended h).2
    closed := hi.alone.closed
    pending := (hi.unasked hnone).1
    bodies := (hi.unasked hnone).2 }

/-- Nothing but the end follows. -/
theorem takes_readToken_end : Takes .empty readToken [] (fun tk => tk.kind = .endOfInput) [] := by
  apply Takes.readToken
  intro n hn
  obtain ⟨m, rfl⟩ : ∃ m, n = m + 3 := ⟨n - 3, by omega⟩
  exact takes_endOfInput

theorem BetweenTokens.readsEnd (hi : BetweenTokens i) (hend : i.ahead = [])
    (hnone : i.nextTicket = 0) :
    ∃ stop j, readToken.on i = (.ok stop, j) ∧ stop.kind = .endOfInput := by
  obtain ⟨stop, j, hread, hstop, -⟩ := takes_readToken_end.on (hi.ahead_nil hend hnone)
  exact ⟨stop, j, hread, hstop⟩

/-! ## Blanks and the token after them -/

/-- Blanks were skipped. -/
theorem BetweenTokens.skips (hi : BetweenTokens i) (hk : (skipBlanks n).on i = (.ok (), k)) :
    BetweenTokens k ∧ TokenNext k.ahead ∧ k.nextTicket = i.nextTicket := by
  -- more steps make no difference
  have hmore : (skipBlanks (n + (20 * i.weight + 2))).on i = (.ok (), k) :=
    (refines_of_le skipBlanks_grows (Nat.le_add_right ..)).on_eq hk nofun
  have hends := skipBlanks_ends hi.lexing (Nat.le_add_left (20 * i.weight + 2) n)
  have hdocs := (steady_skipBlanks n).docs i
  rw [hk] at hdocs
  refine ⟨.of_inStep ((Mirrors.skipBlanks n).self hi.excerpt hk) (hends.value hmore).toLexing,
    (skipBlanks_stops n hi.alone hk).2.1, ?_⟩
  exact congrArg (fun d => d.2.2.2.1) hdocs

/-- A token is read after blanks. -/
theorem BetweenTokens.fresh_on (hi : BetweenTokens i) {tk : Token}
    (hread : readToken.on i = (.ok tk, j)) :
    ∃ n k, (skipBlanks (n + 1)).on i = (.ok (), k) ∧
      (ReadersObey.tokenHere (n + 1)).on k = (.ok tk, j) := by
  have hbound := weight_le_stepBound i
  obtain ⟨n, hn⟩ := Nat.exists_eq_add_of_le' (show 2 ≤ i.stepBound by omega)
  rw [readToken_on, hn, ReadersObey.nextToken_on_fresh hi.lexing.pushback] at hread
  unfold ReadersObey.freshToken at hread
  rw [Reader.on_bind] at hread
  cases hk : (skipBlanks (n + 1)).on i with
  | mk o k =>
      rw [hk] at hread
      cases o with
      | error e => exact nomatch hread
      | ok u => exact ⟨n, k, hk, hread⟩

theorem BetweenTokens.readToken_of_fresh (hi : BetweenTokens i) {tk : Token}
    (hk : (skipBlanks n).on i = (.ok (), k)) (hj : (ReadersObey.tokenHere n).on k = (.ok tk, j)) :
    readToken.on i = (.ok tk, j) := by
  refine hi.readToken_of_steps (m := n + 1) ?_
  rw [ReadersObey.nextToken_on_fresh hi.lexing.pushback]
  unfold ReadersObey.freshToken
  rw [Reader.on_bind, hk]
  exact hj

/-- Before a token blanks are skipped. -/
theorem BetweenTokens.token_on (hi : BetweenTokens i) {tk : Token}
    (hread : readToken.on i = (.ok tk, j)) :
    ∃ n k gap, BetweenTokens k ∧ TokenNext k.ahead ∧ i.ahead = gap ++ k.ahead ∧
      (Blanks gap ∨ AtLineEnd k.ahead) ∧ k.nextTicket ≤ j.nextTicket ∧
      (ReadersObey.tokenHere (n + 1)).on k = (.ok tk, j) := by
  obtain ⟨n, k, hskip, hj⟩ := hi.fresh_on hread
  obtain ⟨hk, hat, -⟩ := hi.skips hskip
  obtain ⟨-, -, gap, hgap⟩ := skipBlanks_stops (n + 1) hi.alone hskip
  have hself := ((readersMirror 0 (n + 1)).tokenHere_tracks (nofun : AtBreak [])
    hk.excerpt hat).self hj
  obtain ⟨_, hsince, -⟩ := hself.taken
  exact ⟨n, k, gap, hk, hat, hgap.1, hgap.2, hsince.nextTicket, hj⟩

/-! ## Words by their texts -/

/-- A word that was read is read from its text, which may stand further down. -/
theorem word_text_further_down (hk : BetweenTokens k) (hat : TokenNext k.ahead) {l : Nat}
    (hj : (ReadersObey.tokenHere (n + 1)).on k = (.ok ⟨.word w, l⟩, j)) (hnone : k.nextTicket = 0)
    (d : Nat) : ∃ s, readToken.on (.ofText w.text (l + d)) = (.ok ⟨.word (w.down d), l + d⟩, s) ∧
      s.ahead = [] ∧ s.nextTicket = j.nextTicket := by
  have hword := tokenHere_word hk hat hj
  have hs := betweenTokens_ofText w.text (l + d)
  have htext := Input.ahead_ofText w.text (l + d)
  have hstarts : TokenNext (Input.ofText w.text (l + d)).ahead := by
    rw [htext]
    rw [hword.ahead] at hat
    exact hat.of_append hword.ne_nil
  obtain ⟨s, hskip, hunmoved⟩ := skipBlanks_stays hs.alone hstarts n
  have hcut : Excerpt d j.ahead k s := {
    pushback := by rw [hunmoved.pushback, hk.lexing.pushback]; rfl
    pending := by rw [hunmoved.pending, (hk.unasked hnone).1]; rfl
    bodies := by rw [hunmoved.bodies, (hk.unasked hnone).2]; rfl
    nextTicket := by rw [hunmoved.nextTicket, hnone]; rfl
    unasked := hk.unasked
    long := hk.alone
    short := hunmoved.alone
    ahead := by rw [hunmoved.ahead, htext, hword.ahead]
    line := by rw [hunmoved.line, ← hword.line.1]; rfl }
  have htracks := (readersMirror d (n + 1)).tokenHere_tracks hword.ends hcut hat
  unfold Tracks at htracks
  rw [hj] at htracks
  have hself := ((readersMirror 0 (n + 1)).tokenHere_tracks (nofun : AtBreak []) hk.excerpt
    hat).self hj
  have hleft := congrArg List.length (hself.long.left_eq_ahead hword.ends)
  obtain ⟨s', hs', hstep⟩ := htracks.resolve_left (by omega)
  refine ⟨s', hs.readToken_of_fresh hskip hs', ?_, hstep.nextTicket⟩
  exact List.self_eq_append_left.mp hstep.ahead

/-- A word that is read from a text further down is read from it further up. -/
theorem word_text_further_up {d : Nat} {ps : List Part}
    (hj : readToken.on (.ofText t (line + d)) =
      (.ok ⟨.word (.mk t ps (line + d)), line + d⟩, j)) :
    ∃ ps' s, readToken.on (.ofText t line) = (.ok ⟨.word (.mk t ps' line), line⟩, s) ∧
      ps = Part.downAll d ps' ∧ s.ahead = j.ahead ∧ s.nextTicket = j.nextTicket := by
  have hcut : Excerpt d [] (.ofText t line) (.ofText t (line + d)) := {
    pushback := rfl
    pending := rfl
    bodies := rfl
    nextTicket := rfl
    unasked := fun _ => ⟨rfl, rfl⟩
    long := alone_ofText t line
    short := alone_ofText t (line + d)
    ahead := (List.append_nil _).symm
    line := rfl }
  have hnext := (readersMirror d (Input.ofText t line).stepBound).nextToken
  have htracks := hnext.tracks [] _ _ nofun hcut
  have hj : (nextToken (Input.ofText t line).stepBound).on (.ofText t (line + d)) = _ :=
    (readToken_on _).symm.trans hj
  rw [readToken_on]
  unfold Tracks at htracks
  cases hs : (nextToken (Input.ofText t line).stepBound).on (.ofText t line) with
  | mk o s =>
      rw [hs] at htracks
      cases o with
      | error e =>
          obtain ⟨e', he'⟩ := htracks rfl
          rw [hj] at he'
          exact nomatch he'
      | ok tk =>
          obtain ⟨s', hs', hstep⟩ := htracks.resolve_left (Nat.not_lt_zero _)
          rw [hj] at hs'
          obtain ⟨htk, rfl⟩ := Prod.mk.inj hs'
          obtain ⟨kind, l⟩ := tk
          obtain ⟨hkind, hl⟩ := Token.mk.inj (Except.ok.inj htk)
          obtain rfl : line = l := Nat.add_right_cancel hl
          cases kind with
          | word w =>
              obtain ⟨t', ps', lw⟩ := w
              obtain ⟨rfl, rfl, hlw⟩ := Word.mk.inj (TokenKind.word.inj hkind)
              obtain rfl : line = lw := Nat.add_right_cancel hlw
              refine ⟨ps', s, rfl, rfl, ?_, hstep.nextTicket.symm⟩
              rw [hstep.ahead, List.append_nil]
          | _ => exact nomatch hkind

/-- A word that is read in a text, without a here-document that was asked for up to there: after
blanks, what was taken for it is its text. From any line on its text reads as the word, with the same
parts, and as nothing else. -/
theorem word_text_reads (h : Lexed t line i) {tk : Token} (hread : readToken.on i = (.ok tk, j))
    (hword : tk.kind = .word w) (hnone : j.nextTicket = 0) :
    (∃ passed blanks, t = passed ++ i.ahead ∧ i.ahead = blanks ++ w.text ++ j.ahead ∧
      Blanks blanks) ∧
    ∀ line', ∃ ps k stop k',
      readToken.on (.ofText w.text line') = (.ok ⟨.word (.mk w.text ps line'), line'⟩, k) ∧
      SameParts tk.line w.parts line' ps ∧
      readToken.on k = (.ok stop, k') ∧ stop.kind = .endOfInput := by
  obtain ⟨hi, passed, ht⟩ := h.betweenTokens
  obtain ⟨kind, l⟩ := tk
  dsimp only at hword
  subst hword
  obtain ⟨n, k, blanks, hk, hat, hsplit, hblanks, hticket, hj⟩ := hi.token_on hread
  have hknone : k.nextTicket = 0 := Nat.le_zero.mp (hnone ▸ hticket)
  have htaken := tokenHere_word hk hat hj
  refine ⟨⟨passed, blanks, ht, ?_, ?_⟩, fun line' => ?_⟩
  · rw [hsplit, htaken.ahead, List.append_assoc]
  · refine hblanks.resolve_right fun hend => ?_
    obtain ⟨c, hc, hbreak⟩ := htaken.starts
    obtain rfl := hend c hc
    exact absurd hbreak (by decide)
  · obtain ⟨text, parts, lw⟩ := w
    obtain rfl : lw = l := htaken.line.2.trans htaken.line.1.symm
    have hends : ∀ {tk k}, readToken.on (.ofText text line') = (.ok tk, k) → k.ahead = [] →
        k.nextTicket = j.nextTicket → ∃ stop k', readToken.on k = (.ok stop, k') ∧
          stop.kind = .endOfInput := fun hread hend hticket =>
      ((betweenTokens_ofText text line').read hread).1.readsEnd hend (hticket.trans hnone)
    rcases Nat.le_total lw line' with hle | hle
    · obtain ⟨d, rfl⟩ := Nat.exists_eq_add_of_le hle
      obtain ⟨s, hs, hend, hticket⟩ := word_text_further_down hk hat hj hknone d
      obtain ⟨stop, k', hstop⟩ := hends hs hend hticket
      exact ⟨_, s, stop, k', hs, .inl ⟨d, rfl, rfl⟩, hstop⟩
    · obtain ⟨d, rfl⟩ := Nat.exists_eq_add_of_le hle
      obtain ⟨s, hs, hend, hticket⟩ := word_text_further_down hk hat hj hknone 0
      rw [Word.down_zero] at hs
      have hdown : readToken.on (.ofText text (line' + d)) = _ := hs
      obtain ⟨ps, s', hs', hps, hahead, hticket'⟩ := word_text_further_up hdown
      obtain ⟨stop, k', hstop⟩ := hends hs' (hahead.trans hend) (hticket'.trans hticket)
      exact ⟨ps, s', stop, k', hs', .inr ⟨d, rfl, hps⟩, hstop⟩

/-- A token is read, if reading does not fail. -/
theorem Lexed.reads (h : Lexed t line i) (hread : (readToken.on i).1.isOk = true) :
    Lexed t line (readToken.on i).2 := by
  cases hj : readToken.on i with
  | mk o j =>
      rw [hj] at hread
      cases o with
      | error e => exact nomatch hread
      | ok tk => exact h.token hj

/-- The word that is read next, by its text. -/
def nextText? (i : Input) : Option Text :=
  ((readToken.on i).1.toOption.bind Token.word?).map Word.text

theorem exists_of_nextText? (h : nextText? i = some t) :
    ∃ tk w j, readToken.on i = (.ok tk, j) ∧ tk.kind = .word w ∧ w.text = t := by
  obtain ⟨w, hw, rfl⟩ := Option.map_eq_some_iff.mp h
  obtain ⟨tk, htk, hword⟩ := Option.bind_eq_some_iff.mp hw
  cases hj : readToken.on i with
  | mk o j =>
      rw [hj] at htk
      cases o with
      | error e => exact nomatch htk
      | ok tk' =>
          obtain rfl := Option.some.inj htk
          exact ⟨_, w, j, rfl, Token.kind_of_word? hword, rfl⟩

/-- A word with commands and quotes in it is read, blanks and another word before it. -/
theorem word_text_reads_nested : ∃ i j tk w, Lexed "echo  a$(b; c)\"x\" d" 1 i ∧
    readToken.on i = (.ok tk, j) ∧ tk.kind = .word w ∧ j.nextTicket = 0 ∧
    w.text = "a$(b; c)\"x\"" ∧ (∃ passed blanks, "echo  a$(b; c)\"x\" d" = passed ++ i.ahead ∧
      i.ahead = blanks ++ w.text ++ j.ahead ∧ Blanks blanks) ∧
    ∀ line', ∃ ps k stop k',
      readToken.on (.ofText w.text line') = (.ok ⟨.word (.mk w.text ps line'), line'⟩, k) ∧
      SameParts tk.line w.parts line' ps ∧
      readToken.on k = (.ok stop, k') ∧ stop.kind = .endOfInput := by
  have hlexed : Lexed "echo  a$(b; c)\"x\" d" 1 _ := Lexed.start.reads (by decide +kernel)
  obtain ⟨tk, w, j, hread, hword, htext⟩ := exists_of_nextText? (t := "a$(b; c)\"x\"")
    (i := (readToken.on (.ofText "echo  a$(b; c)\"x\" d" 1)).2) (by decide +kernel)
  have hnone : j.nextTicket = 0 := by
    have hstate : j = _ := (congrArg Prod.snd hread).symm
    rw [hstate]
    decide +kernel
  exact ⟨_, j, tk, w, hlexed, hread, hword, hnone, htext, word_text_reads hlexed hread hword hnone⟩

end CommandShell.Script
