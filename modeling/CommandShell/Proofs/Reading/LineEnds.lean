import CommandShell.Proofs.Reading.Lines

/-!
# Where a command line ends

A newline token is the last character of its line, and the end of the input comes after the last
line; the here-documents that are read with them end with a line too. So nothing of a line is left
behind these tokens (`Token.Breaks`), be they taken or put back. A command line ends with one of
them, and so it is read to the end of its last line (`parseTop_rests`).
-/

namespace CommandShell.Script

open Reader

variable {α β : Type} {A : Table Text} {S : Text} {start : Nat} {i j : Input} {n : Nat}

/-- Nothing of a line is left, nor of an alias. -/
structure Input.AtBreak (i : Input) : Prop where
  frames : i.frames = []
  current : i.current = []
  unread : i.unread = []

/-- All lines were taken, and there are no more. -/
structure Input.Ended (i : Input) : Prop extends i.AtBreak where
  atEnd : i.atEnd = true

/-- Nothing of its line is left after the token if it is a newline, and no line if it is the end. -/
structure Token.Breaks (i : Input) (tk : Token) : Prop where
  newline : tk.kind = .newline → i.AtBreak
  ended : tk.kind = .endOfInput → i.Ended

theorem Input.AtBreak.of_position (h : i.AtBreak) (hsame : j.position = i.position) :
    j.AtBreak := by
  obtain ⟨hframes, hcurrent, -, -, -, hunread, -⟩ := by simpa [Input.position] using hsame
  exact ⟨hframes.trans h.frames, hcurrent.trans h.current, hunread.trans h.unread⟩

/-- Values satisfy `Q` with the input that is left. Nothing is asked of failures. -/
abbrev Shows (Q : α → Input → Prop) (r : Reader α) (i : Input) : Prop :=
  Meets (fun _ _ => True) Q r i

/-- The first reader of a sequence came to a value. -/
theorem meets_bind_of_ok {E : Halt → Input → Prop} {Q : β → Input → Prop} {x : Reader α}
    {f : α → Reader β} {a : α} (hx : x.on i = (.ok a, j)) (hf : Meets E Q (f a) j) :
    Meets E Q (x >>= f) i := by
  refine meets_bind.mpr ?_
  unfold Meets at hf ⊢
  rw [hx]
  exact hf

/-- A reader that obeys the laws keeps to the lines. -/
theorem Lined.shows (hA : ∀ b ∈ A.toList, '\n' ∉ b.2) (hi : Lined A S start i) (r : Reader α)
    [h : Obeys (linedLaw hA S start) r] : Shows (fun _ j => Lined A S start j) r i := by
  have hj : Lined A S start (r.on i).2 := h.holds i hi
  unfold Shows Meets
  generalize r.on i = outcome at hj
  obtain ⟨r, j⟩ := outcome
  cases r with
  | ok a => exact hj
  | error e => trivial

/-- The end of the input stays the end. -/
theorem Meets.and_atEnd {Q : α → Input → Prop} {r : Reader α} [hr : Obeys localLaw r]
    (h : Shows Q r i) (hi : i.atEnd = true) : Shows (fun a j => Q a j ∧ j.atEnd = true) r i := by
  have hj : (r.on i).2.atEnd = true := hr.holds.atEnd i hi
  unfold Shows Meets at h ⊢
  generalize r.on i = outcome at h hj
  obtain ⟨r, j⟩ := outcome
  cases r with
  | ok a => exact ⟨h, hj⟩
  | error e => trivial

/-! ## Characters -/

theorem fill_shows (hi : Lined A S start i) :
    Shows (fun _ j => Lined A S start j ∧ j.unread = i.unread ∧
      (j.frames = [] → j.current = [] → j.atEnd = true)) fill i := by
  have hj : Lined A S start (fill.on i).2 := keepsLines_fill i hi
  have hfill : fill.on i = fillLine.on (settled i) := rfl
  unfold Shows Meets
  rw [hfill] at hj ⊢
  cases h : (settled i).holdsText with
  | true =>
      rw [fillLine_on_held h] at hj ⊢
      refine ⟨hj, rfl, fun hf hc => ?_⟩
      have hf : (settled i).frames = [] := hf
      have hc : (settled i).current = [] := hc
      simpa [Input.holdsText, hf, hc] using h
  | false =>
      cases hq : (settled i).queue with
      | cons l ls =>
          rw [fillLine_on_line h hq] at hj ⊢
          refine ⟨hj, rfl, fun _ hc => ?_⟩
          have hl := hi.queue l (hq ▸ List.mem_cons_self)
          exact absurd hc hl.ne_nil
      | nil =>
          cases hc : (settled i).closed with
          | true =>
              rw [fillLine_on_end h hq hc] at hj ⊢
              exact ⟨hj, rfl, fun _ _ => rfl⟩
          | false =>
              rw [fillLine_on_open h hq hc]
              trivial

/-- The next character is a newline of the current line, or there is none. -/
theorem peek_shows (hi : Lined A S start i) :
    Shows (fun c j => Lined A S start j ∧ (c = none → j.Ended) ∧
      (c = some '\n' → j.frames = [] ∧ j.current = ['\n'] ∧ j.unread = [])) peek i := by
  cases hu : i.unread with
  | cons c r =>
      have hc : c = '\\' := hi.unread c (hu ▸ List.mem_cons_self)
      unfold Shows Meets
      rw [peek_on_unread hu]
      refine ⟨hi, fun h => (nomatch h), fun h => ?_⟩
      exact absurd (hc ▸ Option.some.inj h) (by decide)
  | nil =>
      unfold Shows Meets
      rw [peek_on_filled hu]
      refine (fill_shows hi).bind ?_
      rintro _ j ⟨hj, hunread, hend⟩
      have hunread := hunread.trans hu
      show Lined A S start j ∧ _
      cases hf : j.frames with
      | cons f fs =>
          have hrest : '\n' ∉ f.rest := hj.frames f (hf ▸ List.mem_cons_self)
          refine ⟨hj, fun h => (nomatch h), fun h => ?_⟩
          have hhead : f.rest.headD ' ' = '\n' := Option.some.inj h
          cases hr : f.rest with
          | nil => rw [hr] at hhead; exact absurd hhead (by decide)
          | cons c r =>
              rw [hr] at hhead hrest
              exact absurd (hhead ▸ List.mem_cons_self) hrest
      | nil =>
          refine ⟨hj, fun h => ?_, fun h => ?_⟩
          · have hc : j.current = [] := List.head?_eq_none_iff.mp h
            exact ⟨⟨hf, hc, hunread⟩, hend hf hc⟩
          · obtain ⟨r, hc⟩ := List.head?_eq_some_iff.mp h
            have hline : IsLine ('\n' :: r) := hc ▸ hj.current (by simp [hc])
            obtain rfl := hline.after_newline
            exact ⟨rfl, hc, hunread⟩

/-- A newline is the last character of its line. -/
theorem next_shows (hi : Lined A S start i) :
    Shows (fun c j => Lined A S start j ∧ (c = none → j.Ended) ∧
      (c = some '\n' → j.AtBreak)) next i := by
  have hk : Lined A S start (next.on i).2 := keepsLines_next i hi
  cases hu : i.unread with
  | cons c r =>
      have hc : c = '\\' := hi.unread c (hu ▸ List.mem_cons_self)
      unfold Shows Meets
      rw [next_on_unread hu] at hk ⊢
      refine ⟨hk, fun h => (nomatch h), fun h => ?_⟩
      exact absurd (hc ▸ Option.some.inj h) (by decide)
  | nil =>
      unfold Shows Meets
      rw [next_on_filled hu]
      refine (fill_shows hi).bind ?_
      rintro _ j ⟨hj, hunread, hend⟩
      have hunread := hunread.trans hu
      have hk : Lined A S start (takeFront.on j).2 := keepsLines_takeFront j hj
      unfold Meets
      cases hf : j.frames with
      | cons f fs =>
          have hrest : '\n' ∉ f.rest := hj.frames f (hf ▸ List.mem_cons_self)
          cases hr : f.rest with
          | cons c r =>
              rw [takeFront_on_alias hf hr] at hk ⊢
              refine ⟨hk, fun h => (nomatch h), fun h => ?_⟩
              exact absurd (hr ▸ Option.some.inj h ▸ List.mem_cons_self) hrest
          | nil =>
              rw [takeFront_on_blank hf hr] at hk ⊢
              exact ⟨hk, fun h => (nomatch h), fun h => absurd (Option.some.inj h) (by decide)⟩
      | nil =>
          cases hc : j.current with
          | nil =>
              rw [takeFront_on_end hf hc]
              exact ⟨hj, fun _ => ⟨⟨hf, hc, hunread⟩, hend hf hc⟩, fun h => nomatch h⟩
          | cons c r =>
              rw [takeFront_on_line hf hc] at hk ⊢
              refine ⟨hk, fun h => (nomatch h), fun h => ?_⟩
              obtain rfl := Option.some.inj h
              have hline : IsLine ('\n' :: r) := hc ▸ hj.current (by simp [hc])
              exact ⟨hf, hline.after_newline, hunread⟩

/-! ## Here-documents -/

theorem readRawLine_shows (hi : Lined A S start i) (acc : Text) :
    Shows (fun _ j => Lined A S start j ∧ j.AtBreak) (readRawLine n acc) i := by
  induction n generalizing acc i with
  | zero => trivial
  | succ n ih =>
      unfold readRawLine
      refine (next_shows hi).bind ?_
      rintro c j ⟨hj, hend, hnl⟩
      split
      · exact ⟨hj, hnl rfl⟩
      · exact ih hj _
      · exact ⟨hj, (hend rfl).toAtBreak⟩

theorem readHereDocLines_shows (hi : Lined A S start i) (req : HereDocRequest) (acc : List Text) :
    Shows (fun _ j => Lined A S start j ∧ j.AtBreak) (readHereDocLines req n acc) i := by
  induction n generalizing acc i with
  | zero => trivial
  | succ n ih =>
      unfold readHereDocLines
      refine (readRawLine_shows hi []).bind ?_
      rintro l j ⟨hj, hbreak⟩
      cases l with
      | none => exact ⟨hj, hbreak⟩
      | some l => exact .ite (fun _ => ⟨hj, hbreak⟩) fun _ => ih hj _

/-- What leaves the text alone leaves nothing of a line where there was nothing. -/
theorem Input.AtBreak.shows (h : i.AtBreak) (hi : Lined A S start i) (r : Reader α) [hr : Aside r] :
    Shows (fun _ j => Lined A S start j ∧ j.AtBreak) r i := by
  have hposition := hr.position i
  have hblank := hr.aliasBlank i
  unfold Shows Meets
  generalize r.on i = outcome at hposition hblank
  obtain ⟨o, j⟩ := outcome
  cases o with
  | ok a => exact ⟨hi.of_position hposition hblank, h.of_position hposition⟩
  | error e => trivial

theorem readHereDocs_shows (hi : Lined A S start i) (hbreak : i.AtBreak)
    (reqs : List HereDocRequest) :
    Shows (fun _ j => j.AtBreak) (readHereDocs n reqs) i := by
  induction n generalizing reqs i with
  | zero => trivial
  | succ n ih =>
      cases reqs with
      | nil => exact hbreak
      | cons req reqs =>
          rw [ReadersObey.readHereDocs_cons]
          refine (hbreak.shows hi line).bind fun start' j ⟨hj, hbj⟩ => ?_
          refine (hbj.shows hj aliasesInUse).bind fun within k ⟨hk, hbk⟩ => ?_
          refine (readHereDocLines_shows hk req []).bind fun raw l ⟨hl, hbl⟩ => ?_
          refine (hbl.shows hl (ReadersObey.readBody n req start' within raw)).bind ?_
          rintro parts m ⟨hm, hbm⟩
          refine (hbm.shows hm (keepBody _ _)).bind fun _ o ⟨ho, hbo⟩ => ?_
          exact ih ho hbo reqs

theorem readPending_shows (hi : Lined A S start i) (hbreak : i.AtBreak) :
    Shows (fun _ j => j.AtBreak) (readPending n) i := by
  cases n with
  | zero => trivial
  | succ n =>
      rw [ReadersObey.readPending_eq]
      refine (hbreak.shows hi takePending).bind fun reqs j ⟨hj, hbj⟩ => ?_
      exact readHereDocs_shows hj hbj reqs

/-! ## Tokens -/

/-- The token is neither a newline nor the end. -/
def Token.IsInner (tk : Token) : Prop := tk.kind ≠ .newline ∧ tk.kind ≠ .endOfInput

theorem Token.IsInner.breaks {tk : Token} (h : tk.IsInner) : tk.Breaks i :=
  ⟨fun hk => absurd hk h.1, fun hk => absurd hk h.2⟩

theorem shows_of_gives {r : Reader Token} (hr : Gives Token.IsInner r) :
    Shows (fun tk j => tk.Breaks j) r i :=
  (hr i).mono fun _ _ htk => htk.breaks

/-- The token of an operator. -/
theorem gives_operator {r : Reader TokenKind} {line : Nat}
    (hr : Gives (fun k => k ≠ .newline ∧ k ≠ .endOfInput) r) :
    Gives Token.IsInner (do return ⟨← r, line⟩) := by
  intro i
  exact Meets.bind (hr i) fun _ _ hk => hk

theorem gives_redirect (fd : Option Nat) (line : Nat) :
    Gives Token.IsInner (do return ⟨← readRedirectOp fd, line⟩) :=
  gives_operator (gives_readRedirectOp fun _ => ⟨nofun, nofun⟩)

/-- A newline that was looked at is taken, and nothing of its line is left. -/
theorem next_on_newline (hframes : i.frames = []) (hcurrent : i.current = ['\n'])
    (hunread : i.unread = []) :
    next.on i = (.ok (some '\n'), noted '\n' { i with current := [] }) := by
  cases i
  cases hframes
  cases hcurrent
  cases hunread
  rfl

theorem freshToken_shows (hA : ∀ b ∈ A.toList, '\n' ∉ b.2) (hi : Lined A S start i) :
    Shows (fun tk j => tk.Breaks j) (ReadersObey.freshToken n) i := by
  unfold ReadersObey.freshToken
  refine (hi.shows hA (skipBlanks n)).bind fun _ j hj => ?_
  unfold ReadersObey.tokenHere
  refine meets_line.mpr ?_
  refine (peek_shows hj).bind ?_
  rintro c k ⟨hk, hend, hnl⟩
  split
  · have hend := hend rfl
    have hpending := (readPending_shows (n := n) hk hend.toAtBreak).and_atEnd hend.atEnd
    refine hpending.bind fun _ l hl => ⟨by simp, fun _ => ⟨hl.1, hl.2⟩⟩
  · obtain ⟨hframes, hcurrent, hunread⟩ := hnl rfl
    have hl := keepsLines_next k hk
    rw [next_on_newline hframes hcurrent hunread] at hl
    refine meets_bind.mpr ?_
    unfold Meets
    rw [next_on_newline hframes hcurrent hunread]
    refine (readPending_shows hl ⟨hframes, rfl, hunread⟩).bind fun _ m hm => ?_
    exact ⟨fun _ => hm, by simp⟩
  · exact shows_of_gives (gives_operator (gives_readOperator _ ⟨by simp, by simp⟩ ⟨by simp, by simp⟩))
  · exact shows_of_gives (gives_operator (gives_readOperator _ ⟨by simp, by simp⟩ ⟨by simp, by simp⟩))
  · exact shows_of_gives (gives_operator (gives_readOperator _ ⟨by simp, by simp⟩ ⟨by simp, by simp⟩))
  · exact shows_of_gives (.after fun _ => gives_pure ⟨by simp, by simp⟩)
  · exact shows_of_gives (.after fun _ => gives_pure ⟨by simp, by simp⟩)
  · exact shows_of_gives (gives_redirect none _)
  · exact shows_of_gives (gives_redirect none _)
  · have hword : ∀ w l, Gives Token.IsInner (pure ⟨.word w, l⟩) := fun _ _ =>
      gives_pure ⟨by simp, by simp⟩
    refine shows_of_gives (.after fun _ => .after fun parts => .after fun t => ?_)
    dsimp only
    split
    · refine .after fun d => ?_
      split
      · exact gives_redirect _ _
      · exact gives_redirect _ _
      · exact hword _ _
    · exact hword _ _

/-! ## Tokens that are put back -/

/-- Between tokens: nothing of a line is left behind the token that was put back. -/
structure Poised (A : Table Text) (S : Text) (start : Nat) (i : Input) : Prop where
  held : Held A False i
  lined : Lined A S start i
  pushed : ∀ tk, i.pushback = some tk → tk.Breaks i

/-- A token was taken, and nothing of its line is left behind it. -/
structure Cut (A : Table Text) (S : Text) (start : Nat) (tk : Token) (i : Input) : Prop where
  drawn : Drawn A False tk i
  lined : Lined A S start i
  breaks : tk.Breaks i

theorem Clear.poised (h : Clear A False i) (hi : Lined A S start i) : Poised A S start i :=
  ⟨h.held, hi, fun _ hp => nomatch h.pushback.symm.trans hp⟩

theorem Cut.clear {tk : Token} (h : Cut A S start tk i) : Clear A False i := h.drawn.1

theorem Cut.poised {tk : Token} (h : Cut A S start tk i) : Poised A S start i :=
  h.clear.poised h.lined

theorem Token.Breaks.of_position {tk : Token} (h : tk.Breaks i) (hsame : j.position = i.position) :
    tk.Breaks j where
  newline hk := (h.newline hk).of_position hsame
  ended hk := by
    obtain ⟨-, -, -, -, hend, -⟩ := by simpa [Input.position] using hsame
    exact ⟨(h.ended hk).of_position hsame, hend.trans (h.ended hk).atEnd⟩

theorem Cut.pushToken {tk : Token} (h : Cut A S start tk i) :
    Leads (fun _ j => Poised A S start j ∧ j.pushback = some tk) (pushToken tk) i := by
  obtain ⟨hticket, hheld, hpushed⟩ := h.clear.leads_pushToken h.drawn.2
  refine ⟨hticket, ⟨hheld, h.lined.of_position rfl id, ?_⟩, hpushed⟩
  rintro _ ⟨⟩
  exact h.breaks.of_position rfl

section

variable (hA : ∀ b ∈ A.toList, '\n' ∉ b.2)
include hA

/-- A reader that obeys the laws keeps to the lines. -/
theorem Leads.and_lined {P : α → Input → Prop} {r : Reader α} [h : Obeys (linedLaw hA S start) r]
    (hr : Leads P r i) (hi : Lined A S start i) :
    Leads (fun a j => P a j ∧ Lined A S start j) r i := by
  have hj : Lined A S start (r.on i).2 := h.holds i hi
  unfold Leads Meets at hr ⊢
  generalize r.on i = outcome at hj hr
  obtain ⟨r, j⟩ := outcome
  cases r with
  | ok a => exact ⟨hr.1, hr.2, hj⟩
  | error e => exact hr

theorem nextToken_cut (n : Nat) (hi : Poised A S start i) :
    Leads (Cut A S start) (nextToken n) i := by
  have hdrawn := ((treesSound A n).nextToken hi.held).and_lined hA hi.lined
  have hbreaks : Shows (fun tk j => tk.Breaks j) (nextToken n) i := by
    cases n with
    | zero => trivial
    | succ n =>
        cases hp : i.pushback with
        | some tk =>
            unfold Shows Meets
            rw [Suffices.nextToken_pushback hp]
            exact (hi.pushed tk hp).of_position rfl
        | none =>
            unfold Shows Meets
            rw [ReadersObey.nextToken_on_fresh hp]
            exact freshToken_shows hA hi.lined
  unfold Leads Meets at hdrawn ⊢
  unfold Shows Meets at hbreaks
  generalize (nextToken n).on i = outcome at hdrawn hbreaks
  obtain ⟨r, j⟩ := outcome
  cases r with
  | ok tk => exact ⟨hdrawn.1, hdrawn.2.1, hdrawn.2.2, hbreaks⟩
  | error e => exact hdrawn

theorem peekToken_poised (n : Nat) (hi : Poised A S start i) :
    Leads (fun tk j => Poised A S start j ∧ j.pushback = some tk) (peekToken n) i := by
  cases n with
  | zero => exact hi.held.wellFormed
  | succ n =>
      unfold peekToken
      refine (nextToken_cut hA n hi).bind fun tk j _ hj => ?_
      exact hj.pushToken.bind fun _ k _ hk => leads_pure hk

theorem skipNewlines_poised (n : Nat) (hi : Poised A S start i) :
    Leads (fun _ j => Poised A S start j) (skipNewlines n) i := by
  induction n generalizing i with
  | zero => exact hi.held.wellFormed
  | succ n ih =>
      unfold skipNewlines
      refine (peekToken_poised hA n hi).bind fun tk j _ hj => ?_
      refine .ite (fun _ => ?_) fun _ => leads_pure hj.1
      exact (nextToken_cut hA n hj.1).bind fun _ k _ hk => ih hk.poised

omit hA in
theorem Cut.leads_aliasText? {tk : Token} (hi : Cut A S start tk i) (name : Text) :
    Leads (fun t j => j = i ∧ ∀ text, t = some text → (name, text) ∈ A.toList)
      (aliasText? name) i := by
  unfold Leads Meets
  rw [aliasText?_on]
  exact ⟨Nat.le_refl _, rfl, fun text htext => hi.lined.mem_of_expanded htext⟩

theorem expandAlias_cut (n : Nat) {tk : Token} (hi : Cut A S start tk i) :
    Leads (Cut A S start) (expandAlias n tk) i := by
  induction n generalizing i tk with
  | zero => exact hi.clear.wellFormed
  | succ n ih =>
      unfold expandAlias
      split
      · exact leads_pure hi
      · rename_i name _
        refine (hi.leads_aliasText? name).bind ?_
        rintro text _ _ ⟨rfl, htext⟩
        cases text with
        | none => exact leads_pure hi
        | some text =>
            have hmem := htext text rfl
            have hk : Lined A S start ((pushAlias name text).on _).2 :=
              hi.lined.pushAlias (List.ne_nil_of_mem hmem) (hA _ hmem)
            have hclear : Clear A False ((pushAlias name text).on _).2 := hi.clear.of_docs rfl
            exact (nextToken_cut hA n (hclear.poised hk)).bind fun tk' l _ hl => ih hl

theorem commandToken_cut (n : Nat) (hi : Poised A S start i) :
    Leads (Cut A S start) (commandToken n) i := by
  cases n with
  | zero => exact hi.held.wellFormed
  | succ n =>
      have hblank : Leads (fun _ j => Poised A S start j) takeAliasBlank i := by
        refine ⟨Nat.le_refl _, hi.held.of_docs rfl, hi.lined.of_position rfl fun _ => rfl, ?_⟩
        exact fun tk hp => (hi.pushed tk hp).of_position rfl
      unfold commandToken
      refine hblank.bind fun _ j _ hj => ?_
      exact (nextToken_cut hA n hj).bind fun tk k _ hk => expandAlias_cut hA n hk

/-! ## Compound commands end with a token that is taken -/

omit hA in
theorem parseIf_clear (n line : Nat) (hi : Held A False i) :
    Leads (fun _ j => Clear A False j) (parseIf n line) i := by
  induction n generalizing i line with
  | zero => exact hi.wellFormed
  | succ n ih =>
      have h := treesSound A n
      unfold parseIf
      refine (h.parseInner hi).bind fun cond j _ hj => ?_
      refine (h.expectKeyword hj.1).bind fun _ k _ hk => ?_
      refine (h.parseInner hk.held).bind fun body l _ hl => ?_
      refine (h.nextToken hl.1).bind fun tk m _ hm => ?_
      refine .ite (fun _ => ?_) fun _ => .ite (fun _ => ?_) fun _ => .ite (fun _ => ?_) fun _ => ?_
      · exact (ih _ hm.1.held).bind fun _ o _ ho => leads_pure ho
      · refine (h.parseInner hm.1.held).bind fun _ o _ ho => ?_
        exact (h.expectKeyword ho.1).bind fun _ p _ hp => leads_pure hp
      · exact leads_pure hm.1
      · exact leads_unexpected hm.1.wellFormed

omit hA in
theorem parseLoop_clear (n : Nat) (isWhile : Bool) (line : Nat) (hi : Held A False i) :
    Leads (fun _ j => Clear A False j) (parseLoop n isWhile line) i := by
  cases n with
  | zero => exact hi.wellFormed
  | succ n =>
      have h := treesSound A n
      unfold parseLoop
      refine (h.parseInner hi).bind fun cond j _ hj => ?_
      refine (h.expectKeyword hj.1).bind fun _ k _ hk => ?_
      refine (h.parseInner hk.held).bind fun body l _ hl => ?_
      exact (h.expectKeyword hl.1).bind fun _ m _ hm => leads_pure hm

omit hA in
theorem parseFor_clear (n line : Nat) (hi : Held A False i) :
    Leads (fun _ j => Clear A False j) (parseFor n line) i := by
  cases n with
  | zero => exact hi.wellFormed
  | succ n =>
      have h := treesSound A n
      have hrest : ∀ {var : Text} {items : Option (List Word)} {l}, Held A False l →
          Leads (fun _ j => Clear A False j) (do
            skipNewlines n
            expectKeyword "do" n
            let body ← parseInner n
            expectKeyword "done" n
            return Node.mk (.forIn var items body) line) l := by
        intro var items l hl
        refine (h.skipNewlines hl).bind fun _ m _ hm => ?_
        refine (h.expectKeyword hm).bind fun _ o _ ho => ?_
        refine (h.parseInner ho.held).bind fun body p _ hp => ?_
        exact (h.expectKeyword hp.1).bind fun _ q _ hq => leads_pure hq
      unfold parseFor
      refine (h.nextToken hi).bind fun tk j _ hj => ?_
      split
      · exact leads_failAt hj.1.wellFormed
      · refine (h.skipNewlines hj.1.held).bind fun _ k _ hk => ?_
        refine (h.nextToken hk).bind fun tk' l _ hl => ?_
        refine .ite (fun _ => ?_) fun _ => ?_
        · refine (h.parseItems hl.1.held (List.forall_mem_nil _)).bind fun items m _ hm => ?_
          exact hrest hm.1
        · split
          · exact hrest hl.1.held
          · refine (hl.1.leads_pushToken hl.2).bind fun _ m _ hm => ?_
            exact hrest hm.1

omit hA in
theorem parseArms_clear (n : Nat) (acc : List CaseArm) (hi : Held A False i) :
    Leads (fun _ j => Clear A False j) (parseArms n acc) i := by
  induction n generalizing i acc with
  | zero => exact hi.wellFormed
  | succ n ih =>
      have h := treesSound A n
      have hcontinue : ∀ {acc j}, Held A False j →
          Leads (fun _ j => Clear A False j) (continueArms n acc) j := by
        intro acc j hj
        unfold continueArms
        refine (h.nextToken hj).bind fun tk k _ hk => ?_
        refine .ite (fun _ => leads_pure hk.1) fun _ => ?_
        split
        · exact ih _ hk.1.held
        · exact leads_unexpected hk.1.wellFormed
      have hfrom : ∀ {tk j}, Drawn A False tk j →
          Leads (fun _ j => Clear A False j) (parseArmFrom n acc tk) j := by
        intro tk j hj
        unfold parseArmFrom
        refine (h.parsePatterns hj.1 hj.2 (List.forall_mem_nil _)).bind fun ps k _ hk => ?_
        refine (h.skipNewlines hk.1).bind fun _ l _ hl => ?_
        refine (h.peekToken hl).bind fun tk' m _ hm => ?_
        split
        · exact hcontinue hm.1
        · refine .ite (fun _ => hcontinue hm.1) fun _ => ?_
          exact (h.parseInner hm.1).bind fun body o _ ho => hcontinue ho.1
      rw [parseArms_eq]
      refine (h.skipNewlines hi).bind fun _ j _ hj => ?_
      refine (h.nextToken hj).bind fun tk k _ hk => ?_
      refine .ite (fun _ => leads_pure hk.1) fun _ => .ite (fun _ => ?_) fun _ => hfrom hk
      exact (h.nextToken hk.1.held).bind fun tk' l _ hl => hfrom hl

omit hA in
theorem parseCase_clear (n line : Nat) (hi : Held A False i) :
    Leads (fun _ j => Clear A False j) (parseCase n line) i := by
  cases n with
  | zero => exact hi.wellFormed
  | succ n =>
      have h := treesSound A n
      unfold parseCase
      refine (h.nextToken hi).bind fun tk j _ hj => ?_
      split
      · refine (h.skipNewlines hj.1.held).bind fun _ k _ hk => ?_
        refine (h.expectKeyword hk).bind fun _ l _ hl => ?_
        exact (parseArms_clear n [] hl.held).bind fun arms m _ hm => leads_pure hm
      · exact leads_unexpected hj.1.wellFormed

/-! ## Other commands end with a token that is put back -/

theorem parseRedirects_poised (n : Nat) (acc : List Redirect) (hi : Poised A S start i) :
    Leads (fun _ j => Poised A S start j) (parseRedirects n acc) i := by
  induction n generalizing i acc with
  | zero => exact hi.held.wellFormed
  | succ n ih =>
      unfold parseRedirects
      refine (nextToken_cut hA n hi).bind fun tk j _ hj => ?_
      split
      · refine (((treesSound A n).parseRedirect hj.clear).and_lined hA hj.lined).bind ?_
        rintro r k _ ⟨hk, hlined⟩
        exact ih _ (hk.1.poised hlined)
      · exact hj.pushToken.bind fun _ k _ hk => leads_pure hk.1

theorem closeCompound_poised (n line : Nat) (body : Node) (hi : Poised A S start i) :
    Leads (fun _ j => Poised A S start j) (closeCompound n line body) i := by
  cases n with
  | zero => exact hi.held.wellFormed
  | succ n =>
      unfold closeCompound
      refine (parseRedirects_poised hA n [] hi).bind fun rs j _ hj => ?_
      split
      · exact leads_pure hj
      · exact leads_pure hj

/-- Commands that are no compound commands, and what they may hold. -/
structure CommandsPoised (A : Table Text) (S : Text) (start n : Nat) : Prop where
  parseCommandAt : ∀ {tk i}, Cut A S start tk i →
    Leads (fun _ j => Poised A S start j) (parseCommandAt n tk) i
  parseSimple : ∀ {line as ws rs tk i}, Cut A S start tk i →
    Leads (fun _ j => Poised A S start j) (parseSimple n line as ws rs tk) i
  parseFunction : ∀ {name line i}, Poised A S start i →
    Leads (fun _ j => Poised A S start j) (parseFunction n name line) i

namespace CommandsPoised

theorem parseCommandAt_succ (h : CommandsPoised A S start n) {tk : Token}
    (hi : Cut A S start tk i) :
    Leads (fun _ j => Poised A S start j) (Script.parseCommandAt (n + 1) tk) i := by
  have hheld := hi.poised.held
  have hcompound : ∀ {r : Reader Node} [Obeys (linedLaw hA S start) r],
      Leads (fun _ j => Clear A False j) r i →
      Leads (fun _ j => Poised A S start j) (do
        let body ← r
        closeCompound n tk.line body) i := by
    intro r _ hr
    refine (hr.and_lined hA hi.lined).bind ?_
    rintro body j _ ⟨hj, hlined⟩
    exact closeCompound_poised hA n tk.line body (hj.poised hlined)
  unfold Script.parseCommandAt
  dsimp only
  split
  · refine (((treesSound A n).parseInner hheld).and_lined hA hi.lined).bind ?_
    rintro body j _ ⟨hj, hlined⟩
    refine (((treesSound A n).nextToken hj.1).and_lined hA hlined).bind ?_
    rintro tk' k _ ⟨hk, hlined⟩
    refine .ite (fun _ => hk.1.wellFormed) fun _ => ?_
    refine (parseRedirects_poised hA n [] (hk.1.poised hlined)).bind fun rs l _ hl => ?_
    exact leads_pure hl
  · exact h.parseSimple hi
  · split
    · exact h.parseSimple hi
    · refine .ite (fun _ => hcompound (parseIf_clear n _ hheld)) fun _ => ?_
      refine .ite (fun _ => hcompound (parseLoop_clear n _ _ hheld)) fun _ => ?_
      refine .ite (fun _ => hcompound (parseLoop_clear n _ _ hheld)) fun _ => ?_
      refine .ite (fun _ => hcompound (parseFor_clear n _ hheld)) fun _ => ?_
      refine .ite (fun _ => hcompound (parseCase_clear n _ hheld)) fun _ => ?_
      refine .ite (fun _ => ?_) fun _ => ?_
      · refine (((treesSound A n).parseInner hheld).and_lined hA hi.lined).bind ?_
        rintro body j _ ⟨hj, hlined⟩
        refine (((treesSound A n).expectKeyword hj.1).and_lined hA hlined).bind ?_
        rintro _ k _ ⟨hk, hlined⟩
        exact closeCompound_poised hA n tk.line _ (hk.poised hlined)
      · exact .ite (fun _ => leads_unexpected hheld.wellFormed) fun _ => h.parseSimple hi
  · exact leads_unexpected hheld.wellFormed

theorem parseSimple_succ (h : CommandsPoised A S start n) {line : Nat} {as ws : List Word}
    {rs : List Redirect} {tk : Token} (hi : Cut A S start tk i) :
    Leads (fun _ j => Poised A S start j) (Script.parseSimple (n + 1) line as ws rs tk) i := by
  -- the next token, which an alias that ends in a blank may replace
  have hgoOn : ∀ {as ws rs j}, Poised A S start j →
      Leads (fun _ j => Poised A S start j) (do
        let tk ← Script.nextToken n
        if ← takeAliasBlank then
          let tk ← Script.expandAlias n tk
          Script.parseSimple n line as ws rs tk
        else Script.parseSimple n line as ws rs tk) j := by
    intro as ws rs j hj
    refine (nextToken_cut hA n hj).bind fun tk k _ hk => ?_
    have hblank : Leads (fun _ l => Cut A S start tk l) takeAliasBlank k :=
      ⟨Nat.le_refl _, ⟨hk.clear.of_docs rfl, hk.drawn.2.of_docs rfl⟩,
        hk.lined.of_position rfl fun _ => rfl, hk.breaks.of_position rfl⟩
    refine hblank.bind fun blank l _ hl => ?_
    refine .ite (fun _ => ?_) fun _ => h.parseSimple hl
    exact (expandAlias_cut hA n hl).bind fun tk m _ hm => h.parseSimple hm
  unfold Script.parseSimple
  dsimp only
  split
  · refine (((treesSound A n).parseRedirect hi.clear).and_lined hA hi.lined).bind ?_
    rintro r j _ ⟨hj, hlined⟩
    exact hgoOn (hj.1.poised hlined)
  · refine .ite (fun _ => hgoOn hi.poised) fun _ => .ite (fun _ => ?_) fun _ => hgoOn hi.poised
    refine (peekToken_poised hA n hi.poised).bind fun tk' j _ hj => ?_
    exact .ite (fun _ => h.parseFunction hj.1) fun _ => hgoOn hj.1
  · exact hi.pushToken.bind fun _ j _ hj => leads_pure hj.1

theorem parseFunction_succ (h : CommandsPoised A S start n) {name : Word} {line : Nat}
    (hi : Poised A S start i) :
    Leads (fun _ j => Poised A S start j) (Script.parseFunction (n + 1) name line) i := by
  unfold Script.parseFunction
  refine (nextToken_cut hA n hi).bind fun _ j _ hj => ?_
  refine (nextToken_cut hA n hj.poised).bind fun tk k _ hk => ?_
  refine .ite (fun _ => hk.clear.wellFormed) fun _ => ?_
  split
  · exact leads_failAt hk.clear.wellFormed
  · refine (skipNewlines_poised hA n hk.poised).bind fun _ l _ hl => ?_
    refine (commandToken_cut hA n hl).bind fun tk m _ hm => ?_
    refine .ite (fun _ => ?_) fun _ => leads_unexpected hm.clear.wellFormed
    exact (h.parseCommandAt hm).bind fun body o _ ho => leads_pure ho

end CommandsPoised

theorem commandsPoised (S : Text) (start n : Nat) : CommandsPoised A S start n := by
  induction n with
  | zero => exact ⟨fun h => h.clear.wellFormed, fun h => h.clear.wellFormed,
      fun h => h.held.wellFormed⟩
  | succ n ih => exact ⟨ih.parseCommandAt_succ hA, ih.parseSimple_succ hA, ih.parseFunction_succ hA⟩

/-! ## Command lines -/

theorem parseStages_poised (n : Nat) (acc : List Node) (hi : Poised A S start i) :
    Leads (fun _ j => Poised A S start j) (parseStages n acc) i := by
  induction n generalizing i acc with
  | zero => exact hi.held.wellFormed
  | succ n ih =>
      unfold parseStages
      refine (nextToken_cut hA n hi).bind fun tk j _ hj => ?_
      split
      · refine (skipNewlines_poised hA n hj.poised).bind fun _ k _ hk => ?_
        refine (commandToken_cut hA n hk).bind fun tk l _ hl => ?_
        exact ((commandsPoised hA S start n).parseCommandAt hl).bind fun stage m _ hm => ih _ hm
      · exact hj.pushToken.bind fun _ k _ hk => leads_pure hk.1

theorem parsePipeline_poised (n : Nat) (hi : Poised A S start i) :
    Leads (fun _ j => Poised A S start j) (parsePipeline n) i := by
  cases n with
  | zero => exact hi.held.wellFormed
  | succ n =>
      have hrest : ∀ {negated line tk k}, Cut A S start tk k →
          Leads (fun _ j => Poised A S start j) (parsePipelineFrom n negated line tk) k := by
        intro negated line tk k hk
        refine ((commandsPoised hA S start n).parseCommandAt hk).bind fun stage l _ hl => ?_
        exact (parseStages_poised hA n [stage] hl).bind fun stages m _ hm => leads_pure hm
      rw [parsePipeline_eq]
      refine (commandToken_cut hA n hi).bind fun first j _ hj => ?_
      refine .ite (fun _ => ?_) fun _ => hrest hj
      exact (commandToken_cut hA n hj.poised).bind fun tk k _ hk => hrest hk

theorem parseAndOrRest_poised (n : Nat) (left : Node) (hi : Poised A S start i) :
    Leads (fun _ j => Poised A S start j) (parseAndOrRest n left) i := by
  induction n generalizing i left with
  | zero => exact hi.held.wellFormed
  | succ n ih =>
      have hright : ∀ {f : Node → Node} {j}, Poised A S start j →
          Leads (fun _ j => Poised A S start j) (do
            skipNewlines n
            let right ← parsePipeline n
            parseAndOrRest n (f right)) j := by
        intro f j hj
        refine (skipNewlines_poised hA n hj).bind fun _ k _ hk => ?_
        exact (parsePipeline_poised hA n hk).bind fun right l _ hl => ih _ hl
      unfold parseAndOrRest
      refine (nextToken_cut hA n hi).bind fun tk j _ hj => ?_
      split
      · exact hright hj.poised
      · exact hright hj.poised
      · exact hj.pushToken.bind fun _ k _ hk => leads_pure hk.1

theorem parseAndOr_poised (n : Nat) (hi : Poised A S start i) :
    Leads (fun _ j => Poised A S start j) (parseAndOr n) i := by
  cases n with
  | zero => exact hi.held.wellFormed
  | succ n =>
      unfold parseAndOr
      refine (parsePipeline_poised hA n hi).bind fun first j _ hj => ?_
      exact parseAndOrRest_poised hA n first hj

/-- Between command lines: no token was put back but the end, and nothing of a line is left. -/
structure Turned (A : Table Text) (S : Text) (start : Nat) (i : Input) : Prop
    extends Poised A S start i where
  atBreak : i.AtBreak
  atEnd : ∀ tk, i.pushback = some tk → i.atEnd = true

omit hA in
theorem Cut.turned {tk : Token} (h : Cut A S start tk i) (hk : tk.kind = .newline) :
    Turned A S start i :=
  ⟨h.poised, h.breaks.newline hk, fun _ hp => nomatch h.clear.pushback.symm.trans hp⟩

omit hA in
theorem Poised.turned {tk : Token} (h : Poised A S start i) (hp : i.pushback = some tk)
    (hk : tk.kind = .endOfInput) : Turned A S start i :=
  ⟨h, ((h.pushed tk hp).ended hk).toAtBreak, fun _ _ => ((h.pushed tk hp).ended hk).atEnd⟩

/-- The token that was put back is taken. -/
theorem nextToken_again (n : Nat) {tk : Token} (hi : Poised A S start i)
    (hp : i.pushback = some tk) :
    Leads (fun tk' j => tk' = tk ∧ Cut A S start tk j) (nextToken n) i := by
  have hcut := nextToken_cut hA n hi
  cases n with
  | zero => exact hi.held.wellFormed
  | succ n =>
      unfold Leads Meets at hcut ⊢
      rw [Suffices.nextToken_pushback hp] at hcut ⊢
      exact ⟨hcut.1, rfl, hcut.2⟩

omit hA in
theorem Turned.leads_closeList (h : Turned A S start i) (acc : List Node) :
    Leads (fun _ j => Turned A S start j) (closeList acc) i := by
  unfold closeList
  split
  · exact leads_pure h
  · exact leads_fail h.held.wellFormed

theorem parseList_turned (n : Nat) (acc : List Node) (hi : Poised A S start i) :
    Leads (fun _ j => Turned A S start j) (parseList true n acc) i := by
  induction n generalizing i acc with
  | zero => exact hi.held.wellFormed
  | succ n ih =>
      -- what comes after a separator
      have hgoOn : ∀ {acc j}, Poised A S start j →
          Leads (fun _ j => Turned A S start j) (continueList n true acc) j := by
        intro acc j hj
        refine .ite (fun _ => ?_) fun h => absurd rfl h
        refine (peekToken_poised hA n hj).bind ?_
        rintro tk k _ ⟨hk, hp⟩
        split
        · rename_i hnl
          refine (nextToken_again hA n hk hp).bind ?_
          rintro _ l _ ⟨_, hl⟩
          exact (hl.turned hnl).leads_closeList acc
        · rename_i hend
          exact (hk.turned hp hend).leads_closeList acc
        · exact ih acc hk
      rw [parseList_eq]
      refine (parseAndOr_poised hA n hi).bind fun node j _ hj => ?_
      refine (nextToken_cut hA n hj).bind fun tk k _ hk => ?_
      split
      · exact hgoOn hk.poised
      · exact hgoOn hk.poised
      · rename_i hnl
        exact .ite (fun _ => (hk.turned hnl).leads_closeList _) fun h => absurd rfl h
      · rename_i hend
        refine hk.pushToken.bind ?_
        rintro _ l _ ⟨hl, hp⟩
        exact (hl.turned hp hend).leads_closeList _
      · exact .ite (fun _ => leads_unexpected hk.clear.wellFormed) fun h => absurd rfl h

theorem parseTop_turned (n : Nat) (hi : Poised A S start i) :
    Leads (fun p j => Turned A S start j ∧ (p = .done → j.atEnd = true)) (parseTop n) i := by
  cases n with
  | zero => exact hi.held.wellFormed
  | succ n =>
      have hstart : Leads (fun _ j => Poised A S start j) startLine i :=
        ⟨Nat.le_refl _, hi.held.of_docs rfl, hi.lined.of_position rfl id,
          fun tk hp => (hi.pushed tk hp).of_position rfl⟩
      rw [ReadersObey.parseTop_eq]
      refine hstart.bind fun _ j _ hj => ?_
      refine (nextToken_cut hA n hj).bind fun tk k _ hk => ?_
      split
      · rename_i hend
        have hnone := hk.clear.pushback
        have hended := hk.breaks.ended hend
        have hturned : Turned A S start k :=
          ⟨hk.poised, hended.toAtBreak, fun _ hp => nomatch hnone.symm.trans hp⟩
        exact leads_pure (And.intro hturned fun _ => hended.atEnd)
      · rename_i hnl
        exact leads_pure (And.intro (hk.turned hnl) fun h => nomatch h)
      · refine hk.pushToken.bind fun _ l _ hl => ?_
        refine (parseList_turned hA n [] hl.1).bind fun node m _ hm => ?_
        have hbodies : Leads (fun _ j => Turned A S start j) bodiesRead m := ⟨Nat.le_refl _, hm⟩
        exact hbodies.bind fun _ _ _ ho => leads_pure (And.intro ho fun h => nomatch h)

/-! ## Between commands -/

/-- A command line was read to its end, and nothing was read beyond it. -/
structure Input.AtRest (i : Input) : Prop extends i.AtLineEnd, i.AtBreak where
  atEnd : ∀ tk, i.pushback = some tk → i.atEnd = true

theorem parseTop_rests (n : Nat) (hi : Held A False i) (hlined : Lined A S start i)
    (hrest : i.AtRest) :
    Shows (fun p j => j.AtRest ∧ (p = .done → j.atEnd = true)) (parseTop n) i := by
  have hpoised : Poised A S start i := by
    refine ⟨hi, hlined, fun tk hp => ⟨fun hk => ?_, fun _ => ⟨hrest.toAtBreak, hrest.atEnd tk hp⟩⟩⟩
    exact nomatch (hrest.pushback tk hp).symm.trans hk
  have hturned := parseTop_turned hA n hpoised
  have hend := (treesSound A n).parseTop hi
  unfold Leads Meets at hturned hend
  unfold Shows Meets
  generalize (parseTop n).on i = outcome at hturned hend
  obtain ⟨r, j⟩ := outcome
  cases r with
  | ok p => exact ⟨⟨hend.2.1.2, hturned.2.1.atBreak, hturned.2.1.atEnd⟩, hturned.2.2⟩
  | error e => trivial

end

end CommandShell.Script
