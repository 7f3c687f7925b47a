import CommandShell.Proofs.Reading.Offered
import CommandShell.Proofs.Reading.Aliases

/-!
# Reading quoted text

A text that was quoted is read back as one word of verbatim parts. `Ahead` says that a text is all that
an input still has, and that nothing else is in its way: no token was put back, no here-document waits.
`Takes` says what a reader makes of such a text and what it leaves. The result is `takes_word`: plain
characters and a quoted text after them, up to the end of the text or to what ends a word, are one word,
and its parts are those that `wordParts` says.
-/

namespace CommandShell.Script

open Reader

variable {α β : Type} {A : Table Text} {t u v rest : Text} {i j : Input}

/-! ## The text ahead -/

/-- A text is all that the input still has, and nothing waits besides it. -/
structure Ahead (A : Table Text) (t : Text) (i : Input) : Prop extends Offers t i, Lexing A i where
  closed : i.closed = true
  pending : i.pending = []
  bodies : i.bodies = []

theorem ahead_ofText (A : Table Text) (t : Text) (line : Nat) : Ahead A t (.ofText t line A) where
  toOffers := offers_ofText t line A
  aliases := rfl
  spent _ h := nomatch h
  plain _ h := nomatch h
  unread _ h := nomatch h
  within := rfl
  proper _ h := nomatch h
  quiet _ := ⟨rfl, rfl⟩
  pushback := rfl
  closed := rfl
  pending := rfl
  bodies := rfl

/-- The next character is made available, if there is one. -/
theorem Ahead.fill (hi : Ahead A t i) :
    Meets (fun _ _ => False) (fun _ j => Ahead A t j ∧ j.current.head? = t.head?) fill i := by
  have hsettled : settled i = i := by
    obtain ⟨hframes, -⟩ := hi.bare
    cases i
    cases hframes
    rfl
  have htext := hi.text
  show Meets _ _ fillLine (settled i)
  rw [hsettled]
  show Meets _ _ (if !i.frames.isEmpty || !i.current.isEmpty || i.atEnd then return else _ :
    Reader Unit) i
  cases hc : i.current with
  | cons c r =>
      rw [if_pos (by simp)]
      refine ⟨hi, ?_⟩
      rw [← htext, hc]
      rfl
  | nil =>
      rw [hc] at htext
      cases hend : i.atEnd with
      | true =>
          rw [if_pos (by simp)]
          refine ⟨hi, ?_⟩
          rw [← htext, hi.ended hend, hc]
          rfl
      | false =>
          rw [if_neg (by simp [hi.bare.1])]
          cases hq : i.queue with
          | nil =>
              rw [hq] at htext
              rw [hi.closed, if_pos rfl]
              refine ⟨{ hi with
                lines := List.not_mem_nil
                text := htext
                ended := fun _ => rfl
                closed := rfl }, ?_⟩
              rw [← htext]
              rfl
          | cons l ls =>
              rw [hq] at htext
              have hne : l ≠ [] := fun hl => hi.lines (by rw [hq, hl]; exact List.mem_cons_self)
              refine ⟨{ hi with
                lines := fun h => hi.lines (hq ▸ List.mem_cons_of_mem _ h)
                text := htext
                ended := fun h => absurd h Bool.false_ne_true }, ?_⟩
              rw [← htext]
              obtain ⟨c, r, rfl⟩ := List.exists_cons_of_ne_nil hne
              rfl

/-! ## What readers take -/

/-- Before a text the reader gives a value, of which `Q` holds, and leaves `rest`. -/
def Takes (A : Table Text) (r : Reader α) (t : Text) (Q : α → Prop) (rest : Text) : Prop :=
  ∀ i, Ahead A t i → Meets (fun _ _ => False) (fun a j => Q a ∧ Ahead A rest j) r i

section

variable {P : α → Prop} {Q : β → Prop} {a : α}

theorem Takes.bind {x : Reader α} {f : α → Reader β} (hx : Takes A x t P u)
    (hf : ∀ a, P a → Takes A (f a) u Q v) : Takes A (x >>= f) t Q v := by
  intro i hi
  apply (hx i hi).bind
  rintro a j ⟨ha, hj⟩
  exact hf a ha j hj

/-- A sequence whose first part gives one value. -/
theorem Takes.next {x : Reader α} {f : α → Reader β} (hx : Takes A x t (· = a) u)
    (hf : Takes A (f a) u Q v) : Takes A (x >>= f) t Q v := by
  apply hx.bind
  rintro _ rfl
  exact hf

/-- What the reader does on an input with the text ahead. -/
theorem Takes.on {r : Reader α} (h : Takes A r t P u) (hi : Ahead A t i) :
    ∃ a j, r.on i = (.ok a, j) ∧ P a ∧ Ahead A u j := by
  have hi := h i hi
  unfold Meets at hi
  split at hi
  · exact ⟨_, _, ‹_›, hi⟩
  · exact hi.elim

theorem takes_pure (ha : P a) : Takes A (pure a) t P t := fun _ hi => ⟨ha, hi⟩

theorem Takes.ite {c : Prop} [Decidable c] {x y : Reader β} (hx : c → Takes A x t Q u)
    (hy : ¬c → Takes A y t Q u) : Takes A (if c then x else y) t Q u := by
  split
  · exact hx ‹c›
  · exact hy ‹¬c›

/-- The next character, or the end of the text, is looked at. -/
theorem takes_peek (t : Text) : Takes A peek t (· = t.head?) t := by
  intro i hi
  unfold Meets
  rw [peek_on_filled hi.bare.2]
  apply hi.fill.bind
  rintro _ j ⟨hj, hhead⟩
  refine ⟨?_, hj⟩
  rw [hj.bare.1]
  exact hhead

/-- The next character is taken. -/
theorem takes_next (c : Char) (t : Text) : Takes A next (c :: t) (· = some c) t := by
  intro i hi
  unfold Meets
  rw [next_on_filled hi.bare.2]
  apply hi.fill.bind
  rintro _ j ⟨hj, hhead⟩
  obtain ⟨r, hr⟩ : ∃ r, j.current = c :: r := by
    cases hc : j.current with
    | nil => simp [hc] at hhead
    | cons d r =>
        obtain rfl : d = c := by simpa [hc] using hhead
        exact ⟨r, rfl⟩
  have htext := hj.text
  rw [hr] at htext
  unfold Meets
  rw [takeFront_on_line hj.bare.1 hr]
  exact ⟨rfl, { hj with text := (List.cons.inj htext).2 }⟩

theorem Takes.line {f : Nat → Reader β} (hf : ∀ l, Takes A (f l) t Q u) :
    Takes A (line >>= f) t Q u := fun i hi => hf i.line i hi

theorem Takes.startCapture {f : Unit → Reader β} (hf : Takes A (f ()) t Q u) :
    Takes A (startCapture >>= f) t Q u := fun _ hi => hf _ { hi with }

theorem Takes.endCapture {f : Text → Reader β} (hf : ∀ w, Takes A (f w) t Q u) :
    Takes A (endCapture >>= f) t Q u := by
  have hend : Takes A Reader.endCapture t (fun _ => True) t := by
    intro i hi
    unfold Reader.endCapture
    refine meets_get.mpr ?_
    split
    · exact ⟨trivial, { hi with }⟩
    · exact ⟨trivial, hi⟩
  exact hend.bind fun w _ => hf w

theorem Takes.get {f : Input → Reader β} (hf : ∀ i, Ahead A t i → Takes A (f i) t Q u) :
    Takes A (get >>= f) t Q u := fun i hi => hf i hi i hi

end

/-! ## Blanks and ends -/

/-- A character that a token starts with: no blank, no comment, and no backslash. -/
def startsToken (c : Char) : Bool := c ≠ ' ' && c ≠ '\t' && c ≠ '#' && c ≠ '\\'

theorem takes_skipBlanks {n : Nat} (gap : Text) (hgap : ∀ c ∈ gap, c = ' ')
    (ht : ∀ c ∈ t.head?, startsToken c = true) :
    Takes A (skipBlanks (n + gap.length + 1)) (gap ++ t) (fun _ => True) t := by
  induction gap with
  | nil =>
      unfold skipBlanks
      apply (takes_peek t).next
      split
      all_goals first
        | exact absurd (ht _ (by assumption)) (by decide)
        | exact takes_pure trivial
  | cons c gap ih =>
      obtain rfl := hgap c List.mem_cons_self
      unfold skipBlanks
      apply (takes_peek _).next
      apply (takes_next ' ' _).next
      exact ih fun c hc => hgap c (List.mem_cons_of_mem _ hc)

/-- No here-document waits. -/
theorem takes_readPending {n : Nat} : Takes A (readPending (n + 2)) t (fun _ => True) t := by
  intro i hi
  unfold readPending
  show Meets _ _ (readHereDocs (n + 1) i.pending) { i with pending := [] }
  rw [hi.pending]
  exact ⟨trivial, { hi with pending := rfl }⟩

/-! ## Parts -/

/-- The parts of a text in single quotes, with `acc` read already. A quote in the text leaves the quotes
and stands escaped. -/
def quotedParts (acc : Text) : Text → List Part
  | [] => [.singleQuoted acc]
  | c :: v =>
    if c = '\'' then .singleQuoted acc :: .escaped [c] :: quotedParts [] v
    else quotedParts (acc ++ [c]) v

/-- Whether a text is quoted as it stands. -/
def isPlain (v : Text) : Bool := !v.isEmpty && v.all Text.isPlainChar

/-- The parts of a word that is plain characters with a quoted text after them. -/
def wordParts (pre v : Text) : List Part :=
  if isPlain v then [.literal (pre ++ v)]
  else if pre.isEmpty then quotedParts [] v
  else .literal pre :: quotedParts [] v

theorem quotedParts_ne_nil (acc v : Text) : quotedParts acc v ≠ [] := by
  induction v generalizing acc with
  | nil => exact List.cons_ne_nil _ _
  | cons c v ih =>
      unfold quotedParts
      split
      · exact List.cons_ne_nil _ _
      · exact ih _

theorem literal_notMem_quotedParts (acc v t : Text) : .literal t ∉ quotedParts acc v := by
  induction v generalizing acc with
  | nil => simp [quotedParts]
  | cons c v ih =>
      unfold quotedParts
      split
      · simp [ih]
      · exact ih _

/-- A word that is one run of unquoted characters is these characters. -/
theorem wordParts_eq_literal {pre v t : Text} (h : wordParts pre v = [.literal t]) : pre ++ v = t := by
  unfold wordParts at h
  split at h
  · exact Part.literal.inj (List.cons.inj h).1
  · have hnone := literal_notMem_quotedParts [] v t
    split at h
    · exact absurd (h ▸ List.mem_singleton_self _) hnone
    · exact absurd (List.cons.inj h).2 (quotedParts_ne_nil [] v)

/-- The word ends: nothing follows, or a character that ends words and starts no redirection. -/
def EndsWord (t : Text) : Prop := ∀ c ∈ t.head?, isWordBreak c = true ∧ c ≠ '<' ∧ c ≠ '>'

theorem plainChar_tests {c : Char} (hc : Text.isPlainChar c = true) :
    isWordBreak c = false ∧ startsToken c = true ∧ c ≠ '\'' ∧ c ≠ '"' ∧ c ≠ '$' ∧ c ≠ '\x60' := by
  -- none of the characters that mean something is plain
  have hnone : ∀ d ∈ " \t\n;&|<>()#\\'\"$\x60".toList, c ≠ d := by
    rintro d hd rfl
    have hall : (" \t\n;&|<>()#\\'\"$\x60".toList.all fun d => !Text.isPlainChar d) = true := by decide
    have hd' := List.all_eq_true.mp hall c hd
    exact absurd hc (by simpa using hd')
  have hne : ∀ d ∈ " \t\n;&|<>()".toList, c ≠ d := fun d hd =>
    hnone d (List.mem_append_left "#\\'\"$\x60".toList hd)
  refine ⟨?_, ?_, hnone _ (by decide), hnone _ (by decide), hnone _ (by decide), hnone _ (by decide)⟩
  · exact Bool.eq_false_iff.mpr fun hbreak => hne c (List.contains_iff_mem.mp hbreak) rfl
  · simp [startsToken, hnone ' ' (by decide), hnone '\t' (by decide), hnone '#' (by decide),
      hnone '\\' (by decide)]

section

variable {start n : Nat} {ps : PartsSoFar} {Q : List Part → Prop}

/-- A character that ends no word is taken; what is done with it depends on the character. -/
theorem takes_partsStep {c : Char} (hbreak : isWordBreak c = false)
    (h : Takes A (if c = '\\' then (do
        match ← next with
        | some '\n' => readParts .base start n 0 ps
        | some d => readParts .base start n 0 (ps.escaped d)
        | none => readParts .base start n 0 (ps.literal '\\'))
      else if c = '\'' then (do
        let t ← readSingleQuoted start n []
        readParts .base start n 0 (.singleQuoted t :: ps))
      else if c = '"' then (do
        let inner ← readDoubleQuoted start n []
        readParts .base start n 0 (.doubleQuoted inner :: ps))
      else if c = '$' then (do
        match ← readDollar n false with
        | some p => readParts .base start n 0 (p :: ps)
        | none => readParts .base start n 0 (ps.literal '$'))
      else if c = '\x60' then (do
        let p ← readBackQuoted n false start
        readParts .base start n 0 (p :: ps))
      else readParts .base start n 0 (ps.literal c)) t Q rest) :
    Takes A (readParts .base start (n + 1) 0 ps) (c :: t) Q rest := by
  unfold readParts
  apply (takes_peek _).next
  show Takes A (if (_ && isWordBreak c) = true then _ else _) _ _ _
  rw [if_neg (by simp [hbreak])]
  apply (takes_next c t).next
  simp only [WordContext.isParamArg, WordContext.inQuotes, WordContext.isHereDoc, Bool.false_and,
    Bool.false_eq_true, if_false, Bool.not_false, Bool.and_true, Bool.true_or, if_true, decide_eq_true_eq]
  exact h

end

/-- Plain characters are taken as they are. -/
theorem takes_plainChars {start n : Nat} {ps : PartsSoFar} {pre : Text} {Q : List Part → Prop}
    (hpre : ∀ c ∈ pre, Text.isPlainChar c = true)
    (h : Takes A (readParts .base start n 0 (ps.plain pre)) t Q rest) :
    Takes A (readParts .base start (n + pre.length) 0 ps) (pre ++ t) Q rest := by
  induction pre generalizing ps with
  | nil => exact h
  | cons c pre ih =>
      obtain ⟨hbreak, hstart, hquote, hdouble, hdollar, hback⟩ :=
        plainChar_tests (hpre c List.mem_cons_self)
      have hslash : c ≠ '\\' := by
        rintro rfl
        exact absurd hstart (by decide)
      have hrest := ih (fun d hd => hpre d (List.mem_cons_of_mem c hd)) h
      apply takes_partsStep hbreak
      rw [if_neg hslash, if_neg hquote, if_neg hdouble, if_neg hdollar, if_neg hback]
      exact hrest

/-- The parts end with the word. -/
theorem takes_partsEnd (start n : Nat) (ps : PartsSoFar) (hrest : EndsWord rest) :
    Takes A (readParts .base start (n + 1) 0 ps) rest (· = ps.sealed) rest := by
  unfold readParts
  apply (takes_peek rest).next
  cases rest with
  | nil => exact takes_pure rfl
  | cons c rest =>
      show Takes A (if (_ && isWordBreak c) = true then _ else _) _ _ _
      rw [if_pos (by simp [(hrest c rfl).1])]
      exact takes_pure rfl

/-- A part in single quotes is the last one read. -/
theorem sealed_singleQuoted (t : Text) (ps : PartsSoFar) :
    PartsSoFar.sealed (.singleQuoted t :: ps) = ps.sealed ++ [.singleQuoted t] := by
  simp [PartsSoFar.sealed]

theorem sealed_escaped (c : Char) (t : Text) (ps : PartsSoFar) :
    PartsSoFar.sealed (PartsSoFar.escaped c (.singleQuoted t :: ps)) =
      ps.sealed ++ [.singleQuoted t, .escaped [c]] := by
  simp [PartsSoFar.sealed, PartsSoFar.escaped]

/-- The rest of a text in single quotes, up to the end of its word. Where the text has a quote, the
quotes are left, the quote is taken as an escaped one, and the quotes are entered again. -/
theorem takes_quoteBody (start : Nat) {m n : Nat} (acc : Text) (ps : PartsSoFar) (v : Text)
    (hrest : EndsWord rest) (hm : (Text.quoteBody v).length < m)
    (hn : (Text.quoteBody v).length < n) :
    Takes A (readSingleQuoted start m acc >>= fun t =>
        readParts .base start n 0 (.singleQuoted t :: ps))
      (Text.quoteBody v ++ '\'' :: rest) (· = ps.sealed ++ quotedParts acc.reverse v) rest := by
  induction v generalizing m n acc ps with
  | nil =>
      obtain ⟨m, rfl⟩ := Nat.exists_eq_succ_of_ne_zero (Nat.ne_of_gt (Nat.zero_lt_of_lt hm))
      obtain ⟨n, rfl⟩ := Nat.exists_eq_succ_of_ne_zero (Nat.ne_of_gt (Nat.zero_lt_of_lt hn))
      have hclose : Takes A (readSingleQuoted start (m + 1) acc) ('\'' :: rest)
          (· = acc.reverse) rest := by
        unfold readSingleQuoted
        apply (takes_next '\'' rest).next
        exact takes_pure rfl
      apply hclose.next
      have hend := takes_partsEnd (A := A) start n (.singleQuoted acc.reverse :: ps) hrest
      rw [sealed_singleQuoted] at hend
      exact hend
  | cons c v ih =>
      by_cases hc : c = '\''
      · subst hc
        have hlen : (Text.quoteBody ('\'' :: v)).length = (Text.quoteBody v).length + 4 := by
          simp [Text.quoteBody]
        obtain ⟨m, rfl⟩ : ∃ k, m = k + 1 := ⟨m - 1, by omega⟩
        obtain ⟨n, rfl⟩ : ∃ k, n = k + 2 := ⟨n - 2, by omega⟩
        have hclose : Takes A (readSingleQuoted start (m + 1) acc)
            (Text.quoteBody ('\'' :: v) ++ '\'' :: rest) (· = acc.reverse)
            ('\\' :: '\'' :: '\'' :: (Text.quoteBody v ++ '\'' :: rest)) := by
          unfold readSingleQuoted
          apply (takes_next '\'' _).next
          exact takes_pure rfl
        apply hclose.next
        apply takes_partsStep (by decide)
        rw [if_pos rfl]
        apply (takes_next '\'' _).next
        apply takes_partsStep (by decide)
        rw [if_neg (by decide), if_pos rfl]
        have hrest := ih (m := n) (n := n) [] (.escaped '\'' (.singleQuoted acc.reverse :: ps))
          (by omega) (by omega)
        rw [sealed_escaped] at hrest
        simpa [quotedParts] using hrest
      · rw [Text.quoteBody_cons hc] at hm hn ⊢
        rw [List.length_cons] at hm hn
        obtain ⟨m, rfl⟩ : ∃ k, m = k + 1 := ⟨m - 1, by omega⟩
        have hrest := ih (m := m) (n := n) (c :: acc) ps (by omega) (by omega)
        rw [List.reverse_cons] at hrest
        rw [readSingleQuoted, bind_assoc, quotedParts, if_neg hc]
        apply (takes_next c _).next
        split
        · rename_i heq
          exact absurd (Option.some.inj heq) hc
        · rename_i heq
          cases heq
          exact hrest
        · contradiction

theorem quote_of_isPlain (h : isPlain v = true) : Text.quote v = v := if_pos h

theorem quote_of_not_isPlain (h : isPlain v = false) :
    Text.quote v = '\'' :: (Text.quoteBody v ++ ['\'']) := by
  have hif : Text.quote v = if isPlain v then v else '\'' :: Text.quoteBody v ++ ['\''] := rfl
  rw [hif, h]
  rfl

theorem plain_nil (pre : Text) :
    PartsSoFar.plain [] pre = if pre.isEmpty then [] else [.literal pre.reverse] :=
  plain_eq (by intro r qs h; cases h) pre

/-- A word of plain characters and a quoted text is read as its parts. -/
theorem takes_parts (start : Nat) {n : Nat} {pre : Text} (hpre : ∀ c ∈ pre, Text.isPlainChar c = true)
    (v : Text) (hrest : EndsWord rest) (hn : (pre ++ Text.quote v).length < n) :
    Takes A (readParts .base start n 0 []) (pre ++ (Text.quote v ++ rest)) (· = wordParts pre v)
      rest := by
  cases hv : isPlain v with
  | true =>
      rw [quote_of_isPlain hv] at hn ⊢
      obtain ⟨hne, hall⟩ := Bool.and_eq_true_iff.mp hv
      have hchars : ∀ c ∈ pre ++ v, Text.isPlainChar c = true := by
        intro c hc
        rcases List.mem_append.mp hc with hc | hc
        · exact hpre c hc
        · exact List.all_eq_true.mp hall c hc
      obtain ⟨n, rfl⟩ : ∃ k, n = k + 1 + (pre ++ v).length := ⟨n - 1 - (pre ++ v).length, by omega⟩
      rw [← List.append_assoc]
      apply takes_plainChars hchars
      have hend := takes_partsEnd (A := A) start n (PartsSoFar.plain [] (pre ++ v)) hrest
      have hparts : PartsSoFar.sealed (PartsSoFar.plain [] (pre ++ v)) = wordParts pre v := by
        have hempty : (pre ++ v).isEmpty = false := by
          cases v with
          | nil => exact absurd hne (by decide)
          | cons c v => simp
        rw [plain_nil, hempty, wordParts, hv]
        simp [PartsSoFar.sealed]
      rw [hparts] at hend
      exact hend
  | false =>
      rw [quote_of_not_isPlain hv] at hn ⊢
      simp only [List.length_append, List.length_cons, List.length_nil] at hn
      obtain ⟨n, rfl⟩ : ∃ k, n = k + 1 + pre.length := ⟨n - 1 - pre.length, by omega⟩
      apply takes_plainChars hpre
      apply takes_partsStep (by decide)
      rw [if_neg (by decide), if_pos rfl]
      show Takes A _ ((Text.quoteBody v ++ ['\'']) ++ rest) _ _
      rw [List.append_assoc]
      have hbody := takes_quoteBody (A := A) start (m := n) (n := n) []
        (PartsSoFar.plain [] pre) v hrest (by omega) (by omega)
      have hparts : PartsSoFar.sealed (PartsSoFar.plain [] pre) ++ quotedParts (List.reverse []) v =
          wordParts pre v := by
        rw [plain_nil, wordParts, hv]
        cases pre <;> simp [PartsSoFar.sealed]
      rw [hparts] at hbody
      exact hbody

/-! ## Tokens -/

/-- The token is a word with the given parts. -/
def Token.HasParts (tk : Token) (ps : List Part) : Prop := ∃ t l, tk.kind = .word (.mk t ps l)

section

variable {n : Nat}

/-- The end of the text is the end of the input. -/
theorem takes_endOfInput : Takes A (nextToken (n + 3)) [] (fun tk => tk.kind = .endOfInput) [] := by
  unfold nextToken
  apply Takes.get
  intro i hi
  rw [hi.pushback]
  apply (takes_skipBlanks [] (by simp) (by simp)).bind
  rintro - -
  apply Takes.line
  intro l
  apply (takes_peek []).next
  apply takes_readPending.bind
  rintro - -
  exact takes_pure rfl

/-- A newline ends a line. -/
theorem takes_newline (t : Text) :
    Takes A (nextToken (n + 3)) ('\n' :: t) (fun tk => tk.kind = .newline) t := by
  have hstart : ∀ c ∈ List.head? ('\n' :: t), startsToken c = true := by
    rintro c ⟨rfl⟩
    decide
  unfold nextToken
  apply Takes.get
  intro i hi
  rw [hi.pushback]
  apply (takes_skipBlanks [] (by simp) hstart).bind
  rintro - -
  apply Takes.line
  intro l
  apply (takes_peek _).next
  apply (takes_next '\n' t).next
  apply takes_readPending.bind
  rintro - -
  exact takes_pure rfl

/-- A word starts with a character that starts a token and is no operator. -/
theorem exists_word_eq_cons {pre : Text} (hpre : ∀ c ∈ pre, Text.isPlainChar c = true) (v : Text) :
    ∃ c r, pre ++ Text.quote v = c :: r ∧ isWordBreak c = false ∧ startsToken c = true := by
  have hplain : ∀ {c}, Text.isPlainChar c = true → isWordBreak c = false ∧ startsToken c = true :=
    fun hc => ⟨(plainChar_tests hc).1, (plainChar_tests hc).2.1⟩
  cases pre with
  | cons c pre => exact ⟨c, pre ++ Text.quote v, rfl, hplain (hpre c List.mem_cons_self)⟩
  | nil =>
      cases hv : isPlain v with
      | true =>
          obtain ⟨hne, hall⟩ := Bool.and_eq_true_iff.mp hv
          rw [quote_of_isPlain hv]
          cases v with
          | nil => exact absurd hne (by decide)
          | cons c v => exact ⟨c, v, rfl, hplain (List.all_eq_true.mp hall c List.mem_cons_self)⟩
      | false =>
          rw [quote_of_not_isPlain hv]
          exact ⟨'\'', _, rfl, by decide, by decide⟩

/-- A word of plain characters and a quoted text is one token, whatever blanks stand before it. -/
theorem takes_word (gap pre : Text) (hgap : ∀ c ∈ gap, c = ' ')
    (hpre : ∀ c ∈ pre, Text.isPlainChar c = true) (v : Text) (hrest : EndsWord rest)
    (hn : (gap ++ (pre ++ Text.quote v)).length + 2 < n) :
    Takes A (nextToken n) (gap ++ (pre ++ (Text.quote v ++ rest)))
      (·.HasParts (wordParts pre v)) rest := by
  obtain ⟨c, r, hcr, hbreak, hstart⟩ := exists_word_eq_cons hpre v
  rw [List.length_append] at hn
  obtain ⟨n, rfl⟩ : ∃ k, n = k + gap.length + 2 := ⟨n - gap.length - 2, by omega⟩
  have hhead : pre ++ (Text.quote v ++ rest) = c :: (r ++ rest) := by
    rw [← List.append_assoc, hcr]
    rfl
  have hparts := fun line => takes_parts (A := A) line (n := n + gap.length + 1) hpre v hrest
    (by omega)
  unfold nextToken
  apply Takes.get
  intro i hi
  rw [hi.pushback]
  apply (takes_skipBlanks gap hgap (by rw [hhead]; rintro d ⟨rfl⟩; exact hstart)).bind
  rintro - -
  apply Takes.line
  intro line
  apply (takes_peek _).next
  rw [hhead]
  split
  all_goals first
    | -- the first character is no operator
      rename_i heq
      cases heq
      exact absurd hbreak (by decide)
    | skip
  · contradiction
  rw [← hhead]
  apply Takes.startCapture
  apply (hparts line).next
  apply Takes.endCapture
  intro text
  dsimp only
  split
  · -- a number of a descriptor stands before a redirection only
    apply (takes_peek rest).next
    split
    · exact absurd rfl (hrest '<' ‹_›).2.1
    · exact absurd rfl (hrest '>' ‹_›).2.2
    · exact takes_pure ⟨text, line, rfl⟩
  · exact takes_pure ⟨text, line, rfl⟩

theorem Ahead.length_le_weight (hi : Ahead A t i) : t.length ≤ i.weight := by
  have hlevel := level_pos A []
  have htext := congrArg List.length hi.text
  rw [List.length_append] at htext
  rw [hi.weight_eq hi.bare.2, htext]
  have hmul := Nat.le_mul_of_pos_right t.length hlevel
  omega

/-- The steps that a token is given are enough for each of these. -/
theorem Takes.readToken {Q : Token → Prop}
    (h : ∀ n, 20 * t.length + 9 ≤ n → Takes A (nextToken n) t Q rest) : Takes A readToken t Q rest := by
  unfold Script.readToken
  apply Takes.get
  intro i hi
  have hweight := hi.length_le_weight
  have hbound := weight_le_stepBound i
  exact h _ (by omega)

end

end CommandShell.Script
