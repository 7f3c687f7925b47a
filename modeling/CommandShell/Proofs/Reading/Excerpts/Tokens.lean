import CommandShell.Proofs.Reading.Excerpts.Readers

/-!
# Excerpts, token by token

A token of an excerpt is the same one further down. Here-documents are read only where one was asked
for. What is looked at for a token is its first character, which the blanks before it leave: where the
excerpt ends, a character that ends words is a token of its own, or part of one.
-/

namespace CommandShell.Script

open Reader

variable {α β : Type} {d n : Nat} {rest : Text} {i j s s' : Input}

/-! ## Before a token -/

/-- Blanks and continued lines. -/
inductive Blanks : Text → Prop
  | nil : Blanks []
  | blank {c : Char} {t : Text} (hc : c = ' ' ∨ c = '\t') (ht : Blanks t) : Blanks (c :: t)
  | continued {t : Text} (ht : Blanks t) : Blanks ('\\' :: '\n' :: t)

/-- A token starts here, if the text does not end: nothing of it is skipped. -/
structure TokenNext (t : Text) : Prop where
  notBlank : ∀ c ∈ t.head?, c ≠ ' ' ∧ c ≠ '\t' ∧ c ≠ '#'
  notContinued : ∀ r, t ≠ '\\' :: '\n' :: r

/-- A line ends here, or the text. -/
def AtLineEnd (t : Text) : Prop := ∀ c ∈ t.head?, c = '\n'

theorem atLineEnd_nil : AtLineEnd [] := by simp [AtLineEnd]

theorem tokenNext_nil : TokenNext [] := ⟨by simp, by simp⟩

theorem Blanks.eq_nil {gap t : Text} (h : Blanks gap) (ht : AtLineEnd (gap ++ t)) : gap = [] := by
  cases h with
  | nil => rfl
  | blank hc =>
      cases ht _ rfl
      exact absurd hc (by decide)
  | continued => exact absurd (ht _ rfl) (by decide)

/-- A comment is skipped up to the end of its line. -/
theorem skipComment_stops (n : Nat) (hi : Alone i) (hj : (skipComment n).on i = (.ok (), j)) :
    Alone j ∧ ∃ comment, i.ahead = comment ++ j.ahead ∧ AtLineEnd j.ahead := by
  induction n generalizing i with
  | zero => exact nomatch hj
  | succ n ih =>
      obtain ⟨i₁, hpeek, hi₁, hsame⟩ := hi.peek_on
      unfold skipComment at hj
      rw [Reader.on_bind, hpeek] at hj
      have hhere : AtLineEnd i.ahead → j = i₁ → Alone j ∧
          ∃ comment, i.ahead = comment ++ j.ahead ∧ AtLineEnd j.ahead := by
        rintro ht rfl
        rw [hsame.ahead]
        exact ⟨hi₁, [], rfl, ht⟩
      cases ht : i.ahead with
      | nil =>
          rw [ht] at hj
          cases hj
          rw [← ht]
          exact hhere (ht.symm ▸ atLineEnd_nil) rfl
      | cons c r =>
          rw [ht] at hj
          change (if c = '\n' then pure () else next >>= fun _ => skipComment n :
            Reader Unit).on i₁ = _ at hj
          by_cases hc : c = '\n'
          · rw [if_pos hc] at hj
            cases hj
            rw [← ht]
            exact hhere (by rw [ht]; exact fun _ h => Option.some.inj h ▸ hc) rfl
          · obtain ⟨i₂, hnext, hi₂, hahead, -⟩ := hi₁.next_on_cons (hsame.ahead.trans ht)
            rw [if_neg hc, Reader.on_bind, hnext] at hj
            obtain ⟨hj', comment, hcomment, hend⟩ := ih hi₂ hj
            exact ⟨hj', c :: comment, congrArg (c :: ·) (hahead.symm.trans hcomment), hend⟩

/-- Blanks are skipped up to the next token. What is skipped before it on its line is blank. -/
theorem skipBlanks_stops (n : Nat) (hi : Alone i) (hj : (skipBlanks n).on i = (.ok (), j)) :
    Alone j ∧ TokenNext j.ahead ∧
      ∃ gap, i.ahead = gap ++ j.ahead ∧ (Blanks gap ∨ AtLineEnd j.ahead) := by
  induction n generalizing i with
  | zero => exact nomatch hj
  | succ n ih =>
      obtain ⟨i₁, hpeek, hi₁, hsame⟩ := hi.peek_on
      -- what is skipped first stands before what is skipped after it
      have hmore : ∀ {i₂ : Input} (skipped : Text), Alone i₂ → i.ahead = skipped ++ i₂.ahead →
          (∀ gap, i₂.ahead = gap ++ j.ahead → Blanks gap →
            Blanks (skipped ++ gap) ∨ AtLineEnd j.ahead) →
          (skipBlanks n).on i₂ = (.ok (), j) → Alone j ∧ TokenNext j.ahead ∧
            ∃ gap, i.ahead = gap ++ j.ahead ∧ (Blanks gap ∨ AtLineEnd j.ahead) := by
        intro i₂ skipped hi₂ hahead hgap hrec
        obtain ⟨hj', hat, gap, hsplit, hor⟩ := ih hi₂ hrec
        refine ⟨hj', hat, skipped ++ gap, ?_, hor.elim (hgap gap hsplit) .inr⟩
        rw [hahead, hsplit, List.append_assoc]
      have hhere : TokenNext i.ahead → j.ahead = i.ahead → Alone j → Alone j ∧ TokenNext j.ahead ∧
          ∃ gap, i.ahead = gap ++ j.ahead ∧ (Blanks gap ∨ AtLineEnd j.ahead) :=
        fun ht hsame hj' => ⟨hj', hsame ▸ ht, [], hsame ▸ rfl, .inl .nil⟩
      have hahead := hsame.ahead
      unfold skipBlanks at hj
      rw [Reader.on_bind, hpeek] at hj
      cases ht : i.ahead with
      | nil =>
          rw [ht] at hj
          cases hj
          rw [← ht]
          exact hhere (ht.symm ▸ tokenNext_nil) hsame.ahead hi₁
      | cons c r =>
          rw [ht] at hj hahead
          rw [← ht]
          obtain ⟨i₂, hnext, hi₂, hr, -⟩ := hi₁.next_on_cons hahead
          have hblank : c = ' ' ∨ c = '\t' → (next >>= fun _ => skipBlanks n).on i₁ = (.ok (), j) →
              Alone j ∧ TokenNext j.ahead ∧
                ∃ gap, i.ahead = gap ++ j.ahead ∧ (Blanks gap ∨ AtLineEnd j.ahead) := by
            intro hc hrec
            rw [Reader.on_bind, hnext] at hrec
            exact hmore [c] hi₂ (by rw [ht, hr]; rfl) (fun gap _ hgap => .inl (.blank hc hgap)) hrec
          dsimp only [List.head?_cons] at hj
          split at hj
          · rename_i hc
            exact hblank (.inl (Option.some.inj hc)) hj
          · rename_i hc
            exact hblank (.inr (Option.some.inj hc)) hj
          · rw [Reader.on_bind] at hj
            cases hcomment : (skipComment n).on i₁ with
            | mk o i₃ =>
                rw [hcomment] at hj
                cases o with
                | error e => exact nomatch hj
                | ok u =>
                    obtain ⟨hi₃, comment, hsplit, hend⟩ := skipComment_stops n hi₁ hcomment
                    refine hmore comment hi₃ (hsame.ahead ▸ hsplit) (fun gap hgap hblanks => ?_) hj
                    rw [hgap] at hend
                    obtain rfl := hblanks.eq_nil hend
                    exact .inr hend
          · rename_i hc
            obtain rfl := Option.some.inj hc
            obtain ⟨i₃, hpeek₂, hi₃, hsame₂⟩ := hi₂.peek_on
            rw [Reader.on_bind, hnext] at hj
            dsimp only at hj
            rw [Reader.on_bind, hpeek₂] at hj
            dsimp only at hj
            split at hj
            · rename_i hnewline
              obtain ⟨r', hr'⟩ := List.head?_eq_some_iff.mp hnewline
              obtain ⟨i₄, hnext₂, hi₄, hr₂, -⟩ := hi₃.next_on_cons (hsame₂.ahead.trans hr')
              rw [Reader.on_bind, hnext₂] at hj
              refine hmore ['\\', '\n'] hi₄ ?_ (fun gap _ hgap => .inl (.continued hgap)) hj
              rw [ht, ← hr, hr', hr₂]
              rfl
            · rename_i hnewline
              cases hj
              have hback : ((putBack '\\').on i₃).2.ahead = i.ahead := by
                show '\\' :: i₃.ahead = _
                rw [hsame₂.ahead, hr, ht]
              refine hhere ?_ hback hi₃.putBack
              rw [ht]
              refine ⟨?_, ?_⟩
              · rintro _ ⟨rfl⟩
                decide
              · rintro r' ⟨rfl⟩
                exact hnewline (by rw [hr]; rfl)
          · rename_i h1 h2 h3 h4
            cases hj
            refine hhere ?_ hsame.ahead hi₁
            rw [ht]
            refine ⟨?_, ?_⟩
            · rintro _ ⟨rfl⟩
              exact ⟨fun h => h1 (h ▸ rfl), fun h => h2 (h ▸ rfl), fun h => h3 (h ▸ rfl)⟩
            · rintro r' ⟨rfl⟩
              exact h4 rfl

/-! ## Kinds of tokens -/

/-- Reads a token that starts with a word, on a line. -/
def wordHere (n line : Nat) : Reader TokenKind := do
  let (t, parts) ← captured (readParts .base line n 0 [])
  match descriptorNumber? (.mk t parts line) with
  | some fd =>
    match ← peek with
    | some '<' | some '>' => readRedirectOp (some fd)
    | _ => return .word (.mk t parts line)
  | none => return .word (.mk t parts line)

/-- Reads the kind of the token that starts on a line here. -/
def kindHere (n line : Nat) : Reader TokenKind := do
  match ← peek with
  | none =>
    readPending n
    return .endOfInput
  | some '\n' =>
    let _ ← next
    readPending n
    return .newline
  | some ';' => readOperator ';' .semi .doubleSemi
  | some '&' => readOperator '&' .amp .andIf
  | some '|' => readOperator '|' .pipe .orIf
  | some '(' => let _ ← next; return .leftParen
  | some ')' => let _ ← next; return .rightParen
  | some '<' | some '>' => readRedirectOp none
  | some _ => wordHere n line

instance obeys_kindHere {L : Law} (n line : Nat) : Obeys L (kindHere n line) := by
  have hparts := (readersObey L n).readParts
  unfold kindHere wordHere captured
  repeat' first
    | infer_instance
    | refine Obeys.bind inferInstance fun _ => ?_
    | split

theorem tokenHere_eq (n : Nat) : ReadersObey.tokenHere n = (do
    let line ← line
    let kind ← kindHere n line
    return ⟨kind, line⟩) := by
  unfold ReadersObey.tokenHere
  refine bind_congr fun line => ?_
  unfold kindHere wordHere captured
  rw [bind_assoc]
  refine bind_congr fun c => ?_
  split
  case h_10 =>
    simp only [bind_assoc, pure_bind]
    refine bind_congr fun _ => bind_congr fun parts => bind_congr fun t => ?_
    cases descriptorNumber? (Word.mk t parts line) with
    | none => rfl
    | some fd =>
        simp only [bind_assoc]
        refine bind_congr fun c => ?_
        split <;> simp [*]
  all_goals simp only [bind_assoc, pure_bind]

namespace ReadersMirror

/-! ## Here-documents -/

theorem readBody (h : ReadersMirror d n) (req : HereDocRequest) (start : Nat) (raw : Text) :
    Mirrors d (Part.downAll d) (ReadersObey.readBody n req start [] raw)
      (ReadersObey.readBody n req (start + d) [] raw) := by
  unfold ReadersObey.readBody
  refine .ite (.pure rfl) ?_
  refine .nested (f := Part.downAll d) (h := fun parts sub => Part.fillAll sub.bodies parts)
    (k := fun parts sub => Part.fillAll sub.bodies parts)
    (h.readParts .hereDoc start (start + d) 0 rfl) (fun parts j s hcut => ?_) raw start
  rw [hcut.bodies]
  exact Part.fillAll_down _ parts

/-- A body is noted for a here-document that was asked for. -/
theorem keepBody_tracks (ticket : Nat) (w : Word) (hcut : Excerpt d rest i s)
    (hasked : i.nextTicket ≠ 0) :
    Tracks d (fun u => u) rest (keepBody ticket w) (keepBody ticket (w.down d)) i s := by
  refine .of_ok rfl rfl ⟨⟨{ hcut.toAlike with bodies := ?_, unasked := ?_ }, ?_, ?_, hcut.ahead,
    hcut.line⟩, [], ?_, ?_⟩
  · exact congrArg ((ticket, w.down d) :: ·) hcut.bodies
  · exact fun hnone => absurd hnone hasked
  · exact .of_lined { hcut.long.lined with } hcut.long.closed
  · exact .of_lined { hcut.short.lined with } hcut.short.closed
  · exact .refl rfl rfl (Nat.le_refl _)
  · exact .refl rfl rfl (Nat.le_refl _)

theorem readHereDocs_succ (h : ReadersMirror d n) (reqs : List HereDocRequest) (rest : Text)
    (i s : Input) (hrest : AtBreak rest) (hcut : Excerpt d rest i s)
    (hasked : i.nextTicket = 0 → reqs = []) :
    Tracks d (fun u => u) rest (Script.readHereDocs (n + 1) reqs)
      (Script.readHereDocs (n + 1) reqs) i s := by
  have hkeeps : ∀ {α} {r : Reader α}, (∀ L : Law, Obeys L r) →
      ∀ S start, KeepsLines .empty S start r := keepsLines_of_obeys
  cases reqs with
  | nil => exact .of_ok rfl rfl hcut.inStep
  | cons req reqs =>
      have hasked : i.nextTicket ≠ 0 := fun hnone => nomatch hasked hnone
      have hdocs := fun L => (readersObey L n).readHereDocs
      have hbody := fun L => (readersObey L n).readBody_obeys
      rw [ReadersObey.readHereDocs_cons]
      refine Mirrors.line.thenTracks hrest hcut (fun _ => hkeeps fun _ => inferInstance)
        fun start j s' _ hj => .aliasesInUse hj.toExcerpt ?_
      refine (Mirrors.readHereDocLines req n []).thenTracks hrest hj.toExcerpt
        (fun _ => hkeeps fun _ => inferInstance) fun raw k s' _ hk => ?_
      refine (h.readBody req start raw).thenTracks hrest hk.toExcerpt
        (fun _ => hkeeps fun _ => inferInstance) fun parts l s' _ hl => ?_
      obtain ⟨_, hsince, -⟩ := ((hj.trans hk).trans hl).taken
      have hasked : l.nextTicket ≠ 0 := fun hnone =>
        hasked (Nat.le_zero.mp (hnone ▸ hsince.nextTicket))
      refine (keepBody_tracks req.ticket (.mk raw parts start) hl.toExcerpt hasked).bind hl.long
        (hkeeps fun _ => inferInstance) (fun _ => hkeeps fun _ => inferInstance)
        fun _ m s' _ hm => ?_
      obtain ⟨_, hsince, -⟩ := hm.taken
      exact h.readHereDocs reqs rest m s' hrest hm.toExcerpt fun hnone =>
        absurd (Nat.le_zero.mp (hnone ▸ hsince.nextTicket)) hasked

theorem readPending_succ (h : ReadersMirror d n) :
    Mirrors d (fun u => u) (Script.readPending (n + 1)) (Script.readPending (n + 1)) where
  keeps := keepsLines_of_obeys fun _ => inferInstance
  tracks rest i s hrest hcut := by
    have hcut' : Excerpt d rest { i with pending := [] } { s with pending := [] } :=
      { hcut with
        pending := rfl
        unasked := fun hnone => ⟨rfl, (hcut.unasked hnone).2⟩
        long := .of_lined { hcut.long.lined with } hcut.long.closed
        short := .of_lined { hcut.short.lined with } hcut.short.closed }
    have hstep : InStep d rest i s { i with pending := [] } { s with pending := [] } :=
      ⟨hcut', [], .refl rfl rfl (Nat.le_refl _), .refl rfl rfl (Nat.le_refl _)⟩
    have hdocs := h.readHereDocs i.pending rest _ _ hrest hcut' fun hnone => (hcut.unasked hnone).1
    refine hdocs.after hstep rfl ?_
    rw [← hcut.pending]
    rfl

/-! ## Tokens -/

theorem wordHere (h : ReadersMirror d n) (line : Nat) :
    Mirrors d (TokenKind.down d) (wordHere n line) (wordHere n (line + d)) := by
  refine .bind (.captured (h.readParts .base line (line + d) 0 rfl)) ?_
  rintro ⟨t, parts⟩
  have hword : Mirrors d (TokenKind.down d) (pure (.word (.mk t parts line)))
      (pure (.word (.mk t (Part.downAll d parts) (line + d)))) := .pure rfl
  dsimp only
  rw [show descriptorNumber? (.mk t (Part.downAll d parts) (line + d)) =
    descriptorNumber? (.mk t parts line) from descriptorNumber?_down (.mk t parts line)]
  cases descriptorNumber? (.mk t parts line) with
  | none => exact hword
  | some fd =>
      refine .peek (fun c => ?_) (fun b _ => ?_)
      · split
        · exact .readRedirectOp (some fd)
        · exact .readRedirectOp (some fd)
        · exact hword
      · split
        · exact .readRedirectOp '<' (some fd)
        · exact .readRedirectOp '>' (some fd)
        · exact hword.on _

theorem kindHere_tracks (h : ReadersMirror d n) (line : Nat) (hrest : AtBreak rest)
    (hcut : Excerpt d rest i s) (hblank : TokenNext i.ahead) :
    Tracks d (TokenKind.down d) rest (kindHere n line) (kindHere n (line + d)) i s := by
  have hpending := fun L => (readersObey L n).readPending
  have hkeeps : ∀ {α} {r : Reader α}, (∀ L : Law, Obeys L r) →
      ∀ S start, KeepsLines .empty S start r := keepsLines_of_obeys
  refine .peek hrest hcut (fun c _ => ?_) (fun hs => ?_)
  · split
    · contradiction
    · refine Mirrors.on ?_ _
      exact .bind .next fun _ => .bind h.readPending fun _ => .pure rfl
    · exact (Mirrors.readOperator ';' rfl rfl).on _
    · exact (Mirrors.readOperator '&' rfl rfl).on _
    · exact (Mirrors.readOperator '|' rfl rfl).on _
    · refine Mirrors.on ?_ _
      exact .bind .next fun _ => .pure rfl
    · refine Mirrors.on ?_ _
      exact .bind .next fun _ => .pure rfl
    · exact (Mirrors.readRedirectOp none).on _
    · exact (Mirrors.readRedirectOp none).on _
    · exact (h.wordHere line).on _
  · -- a character that ends words is taken, unless it is a blank
    have hblank := hblank.notBlank
    rw [hcut.ahead, hs, List.nil_append] at hblank
    unfold AtBreak at hrest
    generalize rest.head? = b at hblank hrest ⊢
    split
    · refine Mirrors.on ?_ _
      exact .bind h.readPending fun _ => .pure rfl
    · exact .next fun _ => hkeeps fun _ => inferInstance
    · exact .next fun _ => hkeeps fun _ => inferInstance
    · exact .next fun _ => hkeeps fun _ => inferInstance
    · exact .next fun _ => hkeeps fun _ => inferInstance
    · exact .next fun _ => hkeeps fun _ => inferInstance
    · exact .next fun _ => hkeeps fun _ => inferInstance
    · exact .readRedirectOp '<' none
    · exact .readRedirectOp '>' none
    · rename_i c _ _ _ _ _ _ _ _
      have hc := hrest c rfl
      have hblank := hblank c rfl
      simp [isWordBreak] at hc
      tauto

theorem tokenHere_tracks (h : ReadersMirror d n) (hrest : AtBreak rest) (hcut : Excerpt d rest i s)
    (hblank : TokenNext i.ahead) :
    Tracks d (Token.down d) rest (ReadersObey.tokenHere n) (ReadersObey.tokenHere n) i s := by
  have hkind := fun line => keepsLines_of_obeys fun L => obeys_kindHere (L := L) n line
  rw [tokenHere_eq]
  refine Mirrors.line.thenTracks hrest hcut (fun line S start => ?_) fun line j s' hj hstep => ?_
  · exact (hkind line S start).bind fun _ => keepsLines_aside _
  · cases hj
    have hkeeps : ∀ kind S start, KeepsLines .empty S start (pure (⟨kind, i.line⟩ : Token)) :=
      fun _ _ _ => keepsLines_aside _
    refine (h.kindHere_tracks i.line hrest hstep.toExcerpt hblank).bind hstep.long (hkind i.line) hkeeps
      fun kind k s' _ hk => ?_
    exact .of_ok rfl rfl hk.toExcerpt.inStep

theorem freshToken (h : ReadersMirror d n) :
    Mirrors d (Token.down d) (ReadersObey.freshToken n) (ReadersObey.freshToken n) where
  keeps := keepsLines_of_obeys fun L => by unfold ReadersObey.freshToken; infer_instance
  tracks _ _ _ hrest hcut := by
    refine (Mirrors.skipBlanks n).thenTracks hrest hcut
      (fun _ => keepsLines_of_obeys fun _ => inferInstance) fun _ j s' hj hstep => ?_
    exact h.tokenHere_tracks hrest hstep.toExcerpt (skipBlanks_stops n hcut.long hj).2.1

theorem nextToken_succ (h : ReadersMirror d n) :
    Mirrors d (Token.down d) (Script.nextToken (n + 1)) (Script.nextToken (n + 1)) := by
  rw [ReadersObey.nextToken_eq]
  refine .bind .takePushback fun tk => ?_
  cases tk with
  | some tk => exact .pure rfl
  | none => exact h.freshToken

theorem peekToken_succ (h : ReadersMirror d n) :
    Mirrors d (Token.down d) (Script.peekToken (n + 1)) (Script.peekToken (n + 1)) :=
  .bind h.nextToken fun tk => .bind (.pushToken tk) fun _ => .pure rfl

theorem expectKeyword_succ (h : ReadersMirror d n) (kw : Text) :
    Mirrors d (fun u => u) (Script.expectKeyword kw (n + 1)) (Script.expectKeyword kw (n + 1)) := by
  refine .bind h.nextToken fun tk => ?_
  rw [Token.isKeyword_down]
  exact .ite (.pure rfl) (.throw _ _)

theorem skipNewlines_succ (h : ReadersMirror d n) :
    Mirrors d (fun u => u) (Script.skipNewlines (n + 1)) (Script.skipNewlines (n + 1)) := by
  refine .bind h.peekToken fun tk => ?_
  rw [Token.isNewline_down]
  exact .ite (.bind h.nextToken fun _ => h.skipNewlines) (.pure rfl)

/-- Without aliases a token stands for itself. -/
theorem expandAlias_on_alone (hi : Alone i) (tk : Token) :
    (Script.expandAlias (n + 1) tk).on i = (.ok tk, i) := by
  unfold Script.expandAlias
  split
  · rfl
  · rw [Reader.on_bind, aliasText?_on, hi.frames, hi.lined.aliases]
    rfl

theorem expandAlias_succ (tk : Token) :
    Mirrors d (Token.down d) (Script.expandAlias (n + 1) tk)
      (Script.expandAlias (n + 1) (tk.down d)) where
  keeps := keepsLines_of_obeys fun L => (readersObey L (n + 1)).expandAlias tk
  tracks _ _ _ _ hcut :=
    .of_ok (expandAlias_on_alone hcut.long tk) (expandAlias_on_alone hcut.short _) hcut.inStep

theorem commandToken_succ (h : ReadersMirror d n) :
    Mirrors d (Token.down d) (Script.commandToken (n + 1)) (Script.commandToken (n + 1)) :=
  .bind .takeAliasBlank fun _ => .bind h.nextToken fun tk => h.expandAlias tk

end ReadersMirror

end CommandShell.Script
