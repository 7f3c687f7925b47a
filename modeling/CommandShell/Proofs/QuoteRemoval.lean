import CommandShell.Proofs.Trimming.QuotedOperands

/-!
# Words without their quotes

The delimiter of a here-document is the word after the operator as it was written, less its quoting
characters. `Word.unquoted` takes them out of the text of the word, while the reader left them out
when it made the parts. `spelledFrom` says which characters of a text are left in the parts, and
`unquoted_eq_iff` that the two come to the same exactly if every backslash that quotes stands before
a character other than a newline.

A backslash before a newline goes away together with it in the parts, and one at the end of the
input stays; `Word.unquoted` does neither (`not_unquoted_eq`).
-/

namespace CommandShell.Script

open Reader

variable {α β : Type} {n start depth line : Nat} {i j : Input} {ps : PartsSoFar} {c : Char} {t u : Text}

/-! ## The text of parts -/

mutual

/-- The characters that a part stands for, if nothing of it is expanded. -/
def Part.plain : Part → Text
  | .literal t | .escaped t | .singleQuoted t => t
  | .doubleQuoted ps => Part.plainAll ps
  | .param .. | .command _ | .arithmetic _ => []

/-- The characters of parts in a row. -/
def Part.plainAll : List Part → Text
  | [] => []
  | p :: ps => p.plain ++ Part.plainAll ps

end

theorem Part.plainAll_append (ps qs : List Part) :
    Part.plainAll (ps ++ qs) = Part.plainAll ps ++ Part.plainAll qs := by
  induction ps with
  | nil => rfl
  | cons p ps ih => simp [Part.plainAll, ih]

namespace PartsSoFar

theorem sealed_cons (p : Part) (ps : PartsSoFar) :
    sealed (p :: ps) = ps.sealed ++ sealed [p] := by
  simp [sealed]

theorem plainAll_literal (c : Char) (ps : PartsSoFar) :
    Part.plainAll (ps.literal c).sealed = Part.plainAll ps.sealed ++ [c] := by
  unfold literal
  split
  · rw [sealed_cons, sealed_cons (.literal _)]
    simp [sealed, Part.plainAll_append, Part.plainAll, Part.plain]
  · rw [sealed_cons]
    simp [sealed, Part.plainAll_append, Part.plainAll, Part.plain]

theorem plainAll_escaped (c : Char) (ps : PartsSoFar) :
    Part.plainAll (ps.escaped c).sealed = Part.plainAll ps.sealed ++ [c] := by
  unfold escaped
  split
  · rw [sealed_cons, sealed_cons (.escaped _)]
    simp [sealed, Part.plainAll_append, Part.plainAll, Part.plain]
  · rw [sealed_cons]
    simp [sealed, Part.plainAll_append, Part.plainAll, Part.plain]

theorem plainAll_singleQuoted (t : Text) (ps : PartsSoFar) :
    Part.plainAll (sealed (.singleQuoted t :: ps)) = Part.plainAll ps.sealed ++ t := by
  rw [sealed_cons]
  simp [sealed, Part.plainAll_append, Part.plainAll, Part.plain]

theorem plainAll_doubleQuoted (qs : List Part) (ps : PartsSoFar) :
    Part.plainAll (sealed (.doubleQuoted qs :: ps)) = Part.plainAll ps.sealed ++ Part.plainAll qs := by
  rw [sealed_cons]
  simp [sealed, Part.plainAll_append, Part.plainAll, Part.plain]

end PartsSoFar

/-! ## What a text spells -/

/-- A character that a backslash quotes inside double quotes. -/
def isQuotable (c : Char) : Bool := c = '$' || c = '\x60' || c = '"' || c = '\\'

/-- The characters of a text that are left in its parts: a quotation mark that opens or closes goes
away, a backslash before the character that it quotes, and a backslash with the newline after it. -/
def spelledFrom : Word.QuoteState → Text → Text
  | _, [] => []
  | .bare, '\\' :: c :: r =>
    if c = '\n' then spelledFrom .bare r else c :: spelledFrom .bare r
  | .bare, c :: r =>
    if c = '\'' then spelledFrom .single r
    else if c = '"' then spelledFrom .double r
    else c :: spelledFrom .bare r
  | .single, c :: r => if c = '\'' then spelledFrom .bare r else c :: spelledFrom .single r
  | .double, '\\' :: c :: r =>
    if c = '\n' then spelledFrom .double r
    else if isQuotable c then c :: spelledFrom .double r
    else '\\' :: c :: spelledFrom .double r
  | .double, c :: r => if c = '"' then spelledFrom .bare r else c :: spelledFrom .double r

/-- Every backslash that quotes, or continues a line, stands before a character other than a
newline. -/
def quotesAll : Word.QuoteState → Text → Bool
  | _, [] => true
  | .bare, ['\\'] => false
  | .bare, '\\' :: c :: r => c != '\n' && quotesAll .bare r
  | .bare, c :: r =>
    if c = '\'' then quotesAll .single r
    else if c = '"' then quotesAll .double r
    else quotesAll .bare r
  | .single, c :: r => if c = '\'' then quotesAll .bare r else quotesAll .single r
  | .double, ['\\'] => false
  | .double, '\\' :: c :: r => c != '\n' && quotesAll .double r
  | .double, c :: r => if c = '"' then quotesAll .bare r else quotesAll .double r

/-- `Word.unquoted` leaves at least the newlines that are left in the parts, and just the same
characters if every backslash quotes. -/
theorem unquoteFrom_spelledFrom (q : Word.QuoteState) (t : Text) :
    (spelledFrom q t).count '\n' ≤ (Word.unquoteFrom q t).count '\n' ∧
      (Word.unquoteFrom q t = spelledFrom q t ↔ quotesAll q t = true) := by
  -- a newline more on the one side is one that the other side has not
  have hmore : ∀ {u v : Text}, v.count '\n' < u.count '\n' → u ≠ v := by
    rintro u v hlt rfl
    exact absurd hlt (Nat.lt_irrefl _)
  have hplain : ∀ {c : Char} {r : Text}, (c = '\\' → r = [] → False) →
      (∀ d s, c = '\\' → r = d :: s → False) → c ≠ '\\' := by
    rintro c r hend hquotes rfl
    cases r with
    | nil => exact hend rfl rfl
    | cons d s => exact hquotes d s rfl rfl
  fun_induction Word.unquoteFrom q t with
  | case1 q => simp [spelledFrom, quotesAll]
  | case2 => simp [spelledFrom, quotesAll]
  | case3 c r ih =>
      by_cases hc : c = '\n'
      · subst hc
        have hne : '\n' :: Word.unquoteFrom .bare r ≠ spelledFrom .bare r := hmore (by simp; omega)
        simp [spelledFrom, quotesAll, hne]
        omega
      · simpa [spelledFrom, quotesAll, hc, List.count_cons] using ih
  | case4 r _ _ ih => simpa [spelledFrom, quotesAll] using ih
  | case5 r _ _ _ ih => simpa [spelledFrom, quotesAll] using ih
  | case6 c r hend hquotes hsingle hdouble ih =>
      simpa [spelledFrom, quotesAll, hplain hend hquotes, hsingle, hdouble, List.count_cons] using ih
  | case7 r ih => simpa [spelledFrom, quotesAll] using ih
  | case8 c r hc ih => simpa [spelledFrom, quotesAll, hc, List.count_cons] using ih
  | case9 => simp [spelledFrom, quotesAll]
  | case10 c r hc ih =>
      have hnewline : c ≠ '\n' := by
        rintro rfl
        simp at hc
      have hquotable : isQuotable c = true := hc
      simpa [spelledFrom, quotesAll, hnewline, hquotable, List.count_cons] using ih
  | case11 c r hc ih =>
      have hquotable : isQuotable c = false := Bool.eq_false_iff.mpr hc
      by_cases hnewline : c = '\n'
      · subst hnewline
        have hne : '\\' :: '\n' :: Word.unquoteFrom .double r ≠ spelledFrom .double r :=
          hmore (by simp; omega)
        simp [spelledFrom, quotesAll, hne]
        omega
      · simpa [spelledFrom, quotesAll, hnewline, hquotable, List.count_cons] using ih
  | case12 r _ _ ih => simpa [spelledFrom, quotesAll] using ih
  | case13 c r hend hquotes hc ih =>
      simpa [spelledFrom, quotesAll, hplain hend hquotes, hc, List.count_cons] using ih

/-! ## What readers take -/

/-- Every value that the reader gives is related by `P` to the text that it takes for it. -/
structure Tells (P : Text → α → Prop) (x : Reader α) : Prop where
  forward : Forward x
  tells : ∀ i a j taken, Excerpt 0 [] i i → x.on i = (.ok a, j) → i.ahead = taken ++ j.ahead → P taken a

namespace Tells

variable {P Q : Text → α → Prop} {R : Text → β → Prop} {x e : Reader α}

theorem mono (h : Tells Q x) (hPQ : ∀ t a, Q t a → P t a) : Tells P x :=
  ⟨h.forward, fun i a j taken hi hj ht => hPQ taken a (h.tells i a j taken hi hj ht)⟩

theorem of_forward (h : Forward x) (hP : ∀ t a, P t a) : Tells P x :=
  ⟨h, fun _ a _ taken _ _ _ => hP taken a⟩

protected theorem pure {a : α} (h : P [] a) : Tells P (pure a) := by
  refine ⟨Mirrors.forward (.pure (f := fun a => a) rfl), fun i b j taken hi hj ht => ?_⟩
  cases hj
  obtain rfl := List.self_eq_append_left.mp ht
  exact h

protected theorem throw (h : Halt) : Tells P (throw h) :=
  ⟨Mirrors.forward (.throw (f := fun a => a) h h), fun _ _ _ _ _ hj _ => nomatch hj⟩

/-- One reader after another: what they take is one text after another. -/
theorem bind {Q : β → Text → α → Prop} {y : Reader β} {k : β → Reader α} (hy : Tells R y)
    (hk : ∀ b, Tells (Q b) (k b)) (h : ∀ b a t u, R t b → Q b u a → P (t ++ u) a) : Tells P (y >>= k) := by
  refine ⟨hy.forward.bind fun b => (hk b).forward, fun i a j taken hi hj ht => ?_⟩
  rw [Reader.on_bind] at hj
  cases hon : y.on i with
  | mk o m =>
      rw [hon] at hj
      cases o with
      | error e => cases hj
      | ok b =>
          obtain ⟨hm, t, ht'⟩ := hy.forward i b m hi hon
          obtain ⟨-, u, hu⟩ := (hk b).forward m a j hm hj
          -- what is taken splits where the first reader stopped
          have hsplit : taken = t ++ u := by
            rw [ht', hu, ← List.append_assoc] at ht
            exact (List.append_cancel_right ht).symm
          rw [hsplit]
          exact h b a t u (hy.tells i b m t hi hon ht') ((hk b).tells m a j u hm hj hu)

/-- A reader that goes on after one character was taken. -/
theorem cons (h : Tells (fun t => P (c :: t)) x) {a : α} {taken : Text} {k : Input}
    (hk : Excerpt 0 [] k k) (hahead : i.ahead = c :: k.ahead) (hj : x.on k = (.ok a, j))
    (ht : i.ahead = taken ++ j.ahead) : P taken a := by
  obtain ⟨-, u, hrest⟩ := h.forward k a j hk hj
  have hsplit : taken = c :: u := by
    rw [hahead, hrest, ← List.cons_append] at ht
    exact (List.append_cancel_right ht).symm
  rw [hsplit]
  exact h.tells k a j u hk hj hrest

/-- The next character goes before what is taken after it. -/
theorem next {k : Option Char → Reader α} (hnone : Tells (fun t a => t = [] → P [] a) (k none))
    (hsome : ∀ c, Tells (fun t => P (c :: t)) (k (some c))) : Tells P (Reader.next >>= k) := by
  refine ⟨Mirrors.next.forward.bind fun c => ?_, fun i a j taken hi hj ht => ?_⟩
  · cases c with
    | none => exact hnone.forward
    | some c => exact (hsome c).forward
  · rw [Reader.on_bind] at hj
    cases hahead : i.ahead with
    | nil =>
        obtain ⟨m, hm, -, hsame⟩ := hi.long.next_on_nil hahead
        rw [hm] at hj
        obtain ⟨rfl, -⟩ := List.append_eq_nil_iff.mp (ht.symm.trans hahead)
        exact hnone.tells m a j [] (Mirrors.next.forward i _ m hi hm).1 hj (hsame.ahead.trans ht) rfl
    | cons c r =>
        obtain ⟨m, hm, -, hr, -⟩ := hi.long.next_on_cons hahead
        rw [hm] at hj
        exact (hsome c).cons (Mirrors.next.forward i _ m hi hm).1 (hr.symm ▸ hahead) hj ht

/-- A character that was looked at may be taken. -/
theorem peekNext {stays : Char → Prop} [DecidablePred stays] {e' : Char → Reader α}
    {k : Char → Reader α} (hnone : Tells P e) (hstays : ∀ c, stays c → Tells P (e' c))
    (hsome : ∀ c, ¬ stays c → Tells (fun t => P (c :: t)) (k c)) :
    Tells P (do
      match ← peek with
      | none => e
      | some c =>
        if stays c then e' c
        else
          let _ ← Reader.next
          k c) := by
  refine ⟨forward_peek.bind fun c => ?_, fun i a j taken hi hj ht => ?_⟩
  · cases c with
    | none => exact hnone.forward
    | some c =>
        dsimp only
        split
        · exact (hstays c ‹_›).forward
        · exact Mirrors.next.forward.bind fun _ => (hsome c ‹_›).forward
  · obtain ⟨m, hm, hexcerpt, hsame⟩ := hi.self_peek_on
    rw [Reader.on_bind, hm] at hj
    cases hahead : i.ahead with
    | nil =>
        rw [hahead] at hj
        exact hnone.tells m a j taken hexcerpt hj (hsame.ahead.trans ht)
    | cons c r =>
        rw [hahead] at hj
        change (if stays c then e' c else Reader.next >>= fun _ => k c).on m = _ at hj
        split at hj
        · exact (hstays c ‹_›).tells m a j taken hexcerpt hj (hsame.ahead.trans ht)
        · -- the character is still there for `next`
          obtain ⟨l, hl, -, hr, -⟩ := hexcerpt.long.next_on_cons (hsame.ahead.trans hahead)
          rw [Reader.on_bind, hl] at hj
          have hnext := (Mirrors.next.forward m _ l hexcerpt hl).1
          exact (hsome c ‹_›).cons hnext (hr.symm ▸ hahead) hj ht

end Tells

/-! ## Quotations -/

theorem tells_readSingleQuoted (start n : Nat) (acc : Text) :
    Tells (fun taken t => ∀ rest, acc.reverse ++ spelledFrom .single (taken ++ rest) =
      t ++ spelledFrom .bare rest) (readSingleQuoted start n acc) := by
  induction n generalizing acc with
  | zero => exact .throw _
  | succ n ih =>
      unfold readSingleQuoted
      refine .next (.throw _) fun c => ?_
      split
      · rename_i hc
        cases hc
        exact .pure fun rest => by simp [spelledFrom]
      · rename_i d hne hd
        cases hd
        refine (ih (c :: acc)).mono fun t a h rest => ?_
        rw [← h rest]
        simp [spelledFrom, show c ≠ '\'' from fun h => hne (h ▸ rfl)]
      · exact .throw _

/-- A text in which nothing is expanded. -/
def Unexpanded (t : Text) : Prop := '$' ∉ t ∧ '\x60' ∉ t

theorem Unexpanded.of_append (h : Unexpanded (t ++ u)) : Unexpanded t ∧ Unexpanded u :=
  ⟨⟨fun hmem => h.1 (List.mem_append_left u hmem), fun hmem => h.2 (List.mem_append_left u hmem)⟩,
    fun hmem => h.1 (List.mem_append_right t hmem), fun hmem => h.2 (List.mem_append_right t hmem)⟩

theorem Unexpanded.tail (h : Unexpanded (c :: t)) : Unexpanded t := (of_append (t := [c]) h).2

theorem tells_readDoubleQuoted (start n : Nat) (ps : PartsSoFar) :
    Tells (fun taken parts => Unexpanded taken → ∀ rest,
      Part.plainAll ps.sealed ++ spelledFrom .double (taken ++ rest) =
        Part.plainAll parts ++ spelledFrom .bare rest) (readDoubleQuoted start n ps) := by
  induction n generalizing ps with
  | zero => exact .throw _
  | succ n ih =>
      have hm := readersMirror 0 n
      unfold readDoubleQuoted
      refine .next (.throw _) fun c => ?_
      split
      · exact .throw _
      · rename_i hc
        cases hc
        exact .pure fun _ rest => by simp [spelledFrom]
      · rename_i hc
        cases hc
        refine .next (.throw _) fun d => ?_
        split
        · rename_i hd
          cases hd
          refine (ih ps).mono fun t parts h hplain rest => ?_
          rw [← h hplain.tail.tail rest]
          simp [spelledFrom]
        · rename_i d' hnewline hd
          cases hd
          have hne : d ≠ '\n' := fun h => hnewline (h ▸ rfl)
          split
          · rename_i hquotable
            have hquotable : isQuotable d = true := hquotable
            refine (ih (ps.literal d)).mono fun t parts h hplain rest => ?_
            rw [← h hplain.tail.tail rest, PartsSoFar.plainAll_literal]
            simp [spelledFrom, hne, hquotable]
          · rename_i hquotable
            have hquotable : isQuotable d = false := Bool.eq_false_iff.mpr hquotable
            refine (ih ((ps.literal '\\').literal d)).mono fun t parts h hplain rest => ?_
            rw [← h hplain.tail.tail rest, PartsSoFar.plainAll_literal, PartsSoFar.plainAll_literal]
            simp [spelledFrom, hne, hquotable]
        · exact .throw _
      · rename_i hc
        cases hc
        -- nothing is expanded
        refine .of_forward ((hm.readDollar true).forward.bind fun p => ?_) fun t _ hplain =>
          absurd List.mem_cons_self hplain.1
        cases p with
        | none => exact (ih _).forward
        | some p => exact (ih _).forward
      · rename_i hc
        cases hc
        refine .of_forward ((hm.readBackQuoted true start start).forward.bind fun p => (ih _).forward)
          fun t _ hplain => absurd List.mem_cons_self hplain.2
      · rename_i c' hquote hslash hdollar hback hc
        cases hc
        have hne : c ≠ '"' ∧ c ≠ '\\' := ⟨fun h => hquote (h ▸ rfl), fun h => hslash (h ▸ rfl)⟩
        refine (ih (ps.literal c)).mono fun t parts h hplain rest => ?_
        rw [← h hplain.tail rest, PartsSoFar.plainAll_literal]
        simp [spelledFrom, hne]

/-- The characters of the parts of a word are those that the text taken for it spells. -/
theorem tells_readParts (start n depth : Nat) (ps : PartsSoFar) :
    Tells (fun taken parts => Unexpanded taken →
      Part.plainAll parts = Part.plainAll ps.sealed ++ spelledFrom .bare taken)
      (readParts .base start n depth ps) := by
  induction n generalizing depth ps with
  | zero => exact .throw _
  | succ n ih =>
      have hm := readersMirror 0 n
      have hdone : Tells (fun taken parts => Unexpanded taken →
          Part.plainAll parts = Part.plainAll ps.sealed ++ spelledFrom .bare taken)
          (pure ps.sealed) := .pure fun _ => by simp [spelledFrom]
      rw [readParts_eq]
      refine .peekNext hdone (fun _ _ => hdone) fun c hc => ?_
      unfold readPartFrom
      simp only [WordContext.isParamArg, WordContext.inQuotes, WordContext.isHereDoc, Bool.false_and,
        Bool.false_eq_true, if_false, Bool.not_false, Bool.and_true, Bool.true_or, if_true,
        decide_eq_true_eq]
      split_ifs with hslash hsingle hdouble hdollar hback
      · subst hslash
        refine .next ?_ fun d => ?_
        · refine (ih depth (ps.literal '\\')).mono ?_
          rintro t parts h rfl -
          rw [h ⟨List.not_mem_nil, List.not_mem_nil⟩, PartsSoFar.plainAll_literal]
          simp [spelledFrom]
        · split
          · rename_i hd
            cases hd
            refine (ih depth ps).mono fun t parts h hplain => ?_
            rw [h hplain.tail.tail]
            simp [spelledFrom]
          · rename_i d' hnewline hd
            cases hd
            have hne : d ≠ '\n' := fun h => hnewline (h ▸ rfl)
            refine (ih depth (ps.escaped d)).mono fun t parts h hplain => ?_
            rw [h hplain.tail.tail, PartsSoFar.plainAll_escaped]
            simp [spelledFrom, hne]
          · rename_i hd
            cases hd
      · subst hsingle
        refine (tells_readSingleQuoted start n []).bind (fun t => ih depth (.singleQuoted t :: ps)) ?_
        intro v parts t u hquoted hrest hplain
        have hbare := hrest (hplain.tail.of_append).2
        rw [hbare, PartsSoFar.plainAll_singleQuoted, List.append_assoc, ← hquoted u]
        simp [spelledFrom]
      · subst hdouble
        refine (tells_readDoubleQuoted start n []).bind (fun qs => ih depth (.doubleQuoted qs :: ps)) ?_
        intro qs parts t u hquoted hrest hplain
        have hparts := (hplain.tail.of_append)
        rw [hrest hparts.2, PartsSoFar.plainAll_doubleQuoted, List.append_assoc, ← hquoted hparts.1 u]
        simp [spelledFrom, PartsSoFar.sealed, Part.plainAll]
      · subst hdollar
        -- nothing is expanded
        refine .of_forward ((hm.readDollar false).forward.bind fun p => ?_) fun t _ hplain =>
          absurd List.mem_cons_self hplain.1
        cases p with
        | none => exact (ih _ _).forward
        | some p => exact (ih _ _).forward
      · subst hback
        exact .of_forward ((hm.readBackQuoted false start start).forward.bind fun p => (ih _ _).forward)
          fun t _ hplain => absurd List.mem_cons_self hplain.2
      · refine (ih depth (ps.literal c)).mono fun t parts h hplain => ?_
        rw [h hplain.tail, PartsSoFar.plainAll_literal]
        simp [spelledFrom, hslash, hsingle, hdouble]

/-! ## Words -/

/-- What a word that was read spells is what its parts stand for. -/
theorem spelledFrom_text {w : Word} {tk : Token} (h : Lexed t line i)
    (hread : readToken.on i = (.ok tk, j)) (hword : tk.kind = .word w) (hplain : Unexpanded w.text) :
    Part.plainAll w.parts = spelledFrom .bare w.text := by
  obtain ⟨kind, l⟩ := tk
  dsimp only at hword
  subst hword
  obtain ⟨hi, -⟩ := h.betweenTokens
  obtain ⟨n, k, gap, hk, hat, -, -, -, hj⟩ := hi.token_on hread
  rw [tokenHere_eq] at hj
  change (kindHere (n + 1) k.line >>= fun kind => pure (⟨kind, k.line⟩ : Token)).on k = _ at hj
  rw [Reader.on_bind] at hj
  cases hkind : (kindHere (n + 1) k.line).on k with
  | mk o m =>
      rw [hkind] at hj
      cases o with
      | error e => cases hj
      | ok kind =>
          cases hj
          obtain ⟨c, k', -, -, hk', hsame, hwordHere⟩ := kindHere_word hk.alone hat hkind
          have hexcerpt := Alike.of_same hk.excerpt hsame hsame hk' hk'
          have hparts := (readersMirror 0 (n + 1)).readParts .base k.line k.line 0
            (show [] = Part.downAll 0 [] from rfl)
          obtain ⟨m, hcaptured, -, -⟩ := wordHere_parts hexcerpt hwordHere
          obtain ⟨htaken, m', hm', hahead⟩ := captured_taken hparts hexcerpt hcaptured
          rw [← hahead] at htaken
          exact (tells_readParts k.line (n + 1) 0 []).tells _ _ _ _ hexcerpt.startCapture hm' htaken hplain

/-- The delimiter that a word gives is what its parts stand for, if every backslash in its text that
quotes stands before a character other than a newline, and only then. -/
theorem unquoted_eq_iff {w : Word} {tk : Token} (h : Lexed t line i)
    (hread : readToken.on i = (.ok tk, j)) (hword : tk.kind = .word w) (hplain : Unexpanded w.text) :
    w.unquoted = Part.plainAll w.parts ↔ quotesAll .bare w.text = true := by
  rw [spelledFrom_text h hread hword hplain]
  exact (unquoteFrom_spelledFrom .bare w.text).2

/-- A word with all kinds of quotation. -/
theorem unquoted_eq_iff_quotations : ∃ i j tk w, Lexed "cat <<E'O'\"\\\"\"\\F" 1 i ∧
    readToken.on i = (.ok tk, j) ∧ tk.kind = .word w ∧ Unexpanded w.text ∧
    w.text = "E'O'\"\\\"\"\\F" ∧ w.unquoted = "EO\"F" ∧ w.unquoted = Part.plainAll w.parts := by
  have hfirst : Lexed "cat <<E'O'\"\\\"\"\\F" 1 _ := Lexed.start.reads (by decide +kernel)
  have hlexed := hfirst.reads (by decide +kernel)
  obtain ⟨tk, w, j, hread, hword, htext⟩ := exists_of_nextText? (t := "E'O'\"\\\"\"\\F")
    (i := (readToken.on (readToken.on (.ofText "cat <<E'O'\"\\\"\"\\F" 1)).2).2) (by decide +kernel)
  have hplain : Unexpanded w.text := by
    rw [htext]
    exact ⟨by decide, by decide⟩
  have hunquoted : w.unquoted = "EO\"F" := by
    unfold Word.unquoted
    rw [htext]
    decide +kernel
  refine ⟨_, j, tk, w, hlexed, hread, hword, hplain, htext, hunquoted, ?_⟩
  rw [unquoted_eq_iff hlexed hread hword hplain, htext]
  decide +kernel

/-- A newline after a backslash, or the end of the input, makes a difference. -/
theorem not_unquoted_eq : ¬ ∀ (t : Text) (line : Nat) (i j : Input) (tk : Token) (w : Word), Lexed t line i →
    readToken.on i = (.ok tk, j) → tk.kind = .word w → Unexpanded t →
    w.unquoted = Part.plainAll w.parts := by
  intro h
  obtain ⟨tk, w, j, hread, hword, htext⟩ := exists_of_nextText? (t := "a\\\nb")
    (i := .ofText "a\\\nb" 1) (by decide +kernel)
  have hplain : Unexpanded "a\\\nb" := ⟨by decide, by decide⟩
  have heq := h _ 1 _ j tk w .start hread hword hplain
  rw [spelledFrom_text .start hread hword (htext ▸ hplain)] at heq
  have hquotes := (unquoteFrom_spelledFrom .bare w.text).2.mp heq
  rw [htext] at hquotes
  exact absurd hquotes (by decide +kernel)

end CommandShell.Script
