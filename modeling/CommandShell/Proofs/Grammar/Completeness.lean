import CommandShell.Proofs.Grammar.Soundness

/-!
# What is spelled is read

Every phrase is read from the tokens that spell it (`Accepted`), provided that the token after it
would not be one more part of it. What may come after a phrase is said for that token alone
(`Token.EndsCommand` and the like); a phrase around it knows which token that is.
-/

namespace CommandShell.Script

open Reader

variable {ts us vs : List Token} {tk : Token} {i j : Input}

/-! ## The token after a phrase -/

/-- A command ends before the token. -/
structure Token.EndsCommand (isOpen : Bool) (tk : Token) : Prop where
  redirect : ∀ fd op, tk.kind ≠ .redirect fd op
  paren : tk.kind ≠ .leftParen
  word : isOpen = true → ∀ w, tk.kind ≠ .word w

/-- The commands of a pipeline end before the token. -/
structure Token.EndsStages (isOpen : Bool) (tk : Token) : Prop extends tk.EndsCommand isOpen where
  pipe : tk.kind ≠ .pipe

/-- Pipelines joined by `&&` and `||` end before the token. -/
structure Token.EndsChain (isOpen : Bool) (tk : Token) : Prop extends tk.EndsStages isOpen where
  andIf : tk.kind ≠ .andIf
  orIf : tk.kind ≠ .orIf

/-- A list inside a compound command ends before the token. -/
structure Token.ClosesList (isOpen : Bool) (tk : Token) : Prop where
  ends : tk.endsList = true
  word : isOpen = true → ∀ w, tk.kind ≠ .word w

theorem Token.ClosesList.chain {o : Bool} (h : tk.ClosesList o) : tk.EndsChain o := by
  have hends := h.ends
  unfold Token.endsList at hends
  refine ⟨⟨⟨?_, ?_, h.word⟩, ?_⟩, ?_, ?_⟩ <;> intros <;> intro hkind <;> rw [hkind] at hends <;>
    exact nomatch hends

theorem Token.ClosesList.of_keyword {kw : Text} (h : tk.isKeyword kw = true)
    (hkw : kw ∈ listEnders) : tk.ClosesList false := by
  obtain ⟨w, hw, ht⟩ := Token.kind_of_literal? (beq_iff_eq.mp h)
  refine ⟨?_, fun h => nomatch h⟩
  simpa [Token.endsList, hw, ht] using hkw

/-- A token that a separator may start with ends what is before it. -/
theorem Token.endsChain_of_kind {o : Bool}
    (h : tk.kind = .semi ∨ tk.kind = .amp ∨ tk.kind = .newline ∨ tk.kind = .endOfInput) :
    tk.EndsChain o := by
  rcases h with h | h | h | h <;>
    exact ⟨⟨⟨by simp [h], by simp [h], by simp [h]⟩, by simp [h]⟩, by simp [h], by simp [h]⟩

/-- A command may start with the token. -/
def Token.StartsCommand (tk : Token) : Prop := tk.endsList = false ∧ tk.kind ≠ .newline

/-! ## Small phrases -/

theorem Token.isNewline_of_kind (h : tk.kind = .newline) : tk.isNewline = true := by
  simp [Token.isNewline, h]

theorem Token.isRightParen_of_kind (h : tk.kind = .rightParen) : tk.isRightParen = true := by
  simp [Token.isRightParen, h]

theorem Token.isLeftParen_of_kind (h : tk.kind = .leftParen) : tk.isLeftParen = true := by
  simp [Token.isLeftParen, h]

/-- A word is only one keyword. -/
theorem Token.not_isKeyword {kw : Text} (h : tk.isKeyword kw = true) (kw' : Text) (hne : kw ≠ kw') :
    ¬ tk.isKeyword kw' = true := fun h' =>
  hne (Option.some.inj ((beq_iff_eq.mp h).symm.trans (beq_iff_eq.mp h')))

theorem yields_skipNewlines {nl : List Token} (hnl : Newlines nl)
    (h : Upcoming (nl ++ tk :: ts) i) (htk : tk.kind ≠ .newline) :
    Yields skipNewlines i () (tk :: ts) := by
  induction nl generalizing i with
  | nil =>
      refine Yields.step ((yields_peekToken h).bind fun j hj => ?_)
      simp only [if_neg fun h => htk (Token.kind_of_isNewline h)]
      exact yields_pure hj
  | cons tk' nl ih =>
      have hkind := hnl tk' List.mem_cons_self
      refine Yields.step ((yields_peekToken h).bind fun j hj => ?_)
      simp only [if_pos (Token.isNewline_of_kind hkind)]
      refine yields_draw hj fun k hk => ih (fun tk hmem => hnl tk (.tail _ hmem)) ?_
      exact hk.upcoming (by simp [hkind])

theorem yields_expectKeyword {kw : Text} (h : Upcoming (tk :: ts) i)
    (htk : tk.isKeyword kw = true) : Yields (expectKeyword kw) i () ts := by
  refine Yields.step (yields_draw h fun j hj => ?_)
  simp only [if_pos htk]
  exact yields_pure (hj.upcoming (Token.kind_ne_of_isKeyword htk))

theorem yields_parseRedirect {fd : Option Nat} {op : RedirectOp} {w : Word}
    (hop : op.isHereDoc = false) (h : Upcoming (tk :: ts) i) (htk : tk.kind = .word w) :
    Yields (fun n => parseRedirect n fd op) i (.word (fd.getD op.defaultFd) op w) ts := by
  refine Yields.step (yields_draw h fun j hj => ?_)
  have hk := hj.upcoming (by simp [htk])
  simp only [htk]
  cases op with
  | hereDoc => exact nomatch hop
  | hereDocStrip => exact nomatch hop
  | _ => exact yields_pure hk

theorem yields_parseRedirects {rs : List Redirect} (acc : List Redirect)
    (hrs : Redirections rs us) (h : Upcoming (us ++ tk :: ts) i)
    (htk : ∀ fd op, tk.kind ≠ .redirect fd op) :
    Yields (fun n => parseRedirects n acc) i (acc.reverse ++ rs) (tk :: ts) := by
  induction hrs generalizing acc i with
  | nil =>
      refine Yields.step (yields_draw h fun j hj => ?_)
      have hpush : Yields (fun _ => do pushToken tk; return acc.reverse) j (acc.reverse ++ [])
          (tk :: ts) := by
        rw [List.append_nil]
        exact hj.yields_push fun k hk => yields_pure hk
      split
      · exact absurd ‹_› (htk _ _)
      · exact hpush
  | cons hr hrs ih =>
      obtain ⟨hop, hplain, htarget⟩ := hr
      refine Yields.step (yields_draw h fun j hj => ?_)
      simp only [hop]
      refine (yields_parseRedirect hplain (hj.upcoming ?_) htarget).bind fun k hk => ?_
      · simp [hop]
      · simpa using ih (.word _ _ _ :: acc) hk

theorem yields_closeCompound {rs : List Redirect} (line : Nat) (body : Node)
    (hrs : Redirections rs us) (h : Upcoming (us ++ tk :: ts) i)
    (htk : ∀ fd op, tk.kind ≠ .redirect fd op) :
    Yields (fun n => closeCompound n line body) i
      (if rs = [] then body else .mk (.redirected body rs) line) (tk :: ts) := by
  refine Yields.step ((yields_parseRedirects [] hrs h htk).bind fun j hj => ?_)
  cases rs with
  | nil => exact yields_pure hj
  | cons r rs => exact yields_pure hj

theorem yields_parseItems {ws : List Word} {stop : Token} (acc : List Word)
    (hws : us.map Token.kind = ws.map .word) (hstop : stop.kind = .semi ∨ stop.kind = .newline)
    (h : Upcoming (us ++ stop :: ts) i) :
    Yields (fun n => parseItems n acc) i (acc.reverse ++ ws) ts := by
  induction us generalizing ws acc i with
  | nil =>
      obtain rfl : ws = [] := List.map_eq_nil_iff.mp hws.symm
      rw [List.append_nil]
      refine Yields.step (yields_draw h fun j hj => ?_)
      rcases hstop with hstop | hstop <;> simp only [hstop] <;>
        exact yields_pure (hj.upcoming (by simp [hstop]))
  | cons tk us ih =>
      obtain ⟨w, ws, rfl⟩ := List.exists_cons_of_ne_nil (l := ws) (by rintro rfl; exact nomatch hws)
      obtain ⟨hw, hws⟩ := List.cons.inj hws
      refine Yields.step (yields_draw h fun j hj => ?_)
      simp only [hw]
      simpa using ih (w :: acc) hws (hj.upcoming (by simp [hw]))

theorem Patterns.exists_cons {ws : List Word} (h : Patterns ws ts) : ∃ tk us, ts = tk :: us := by
  cases h <;> exact ⟨_, _, rfl⟩

theorem Patterns.word {ws : List Word} (h : Patterns ws (tk :: ts)) : ∃ w, tk.kind = .word w := by
  cases h <;> exact ⟨_, ‹_›⟩

theorem yields_parsePatterns {ws : List Word} (acc : List Word) (hws : Patterns ws (tk :: us))
    (h : Taken tk (us ++ ts) i) :
    Yields (fun n => parsePatterns n acc tk) i (acc.reverse ++ ws) ts := by
  generalize hts : tk :: us = vs at hws
  induction hws generalizing acc i tk us with
  | last htk hclose =>
      obtain ⟨rfl, rfl⟩ := List.cons.inj hts
      refine Yields.step ?_
      unfold parsePatterns
      simp only [htk]
      refine yields_draw (h.upcoming (by simp [htk])) fun j hj => ?_
      simp only [hclose]
      simpa using yields_pure (hj.upcoming (by simp [hclose]))
  | cons htk hbar hrest ih =>
      obtain ⟨rfl, rfl⟩ := List.cons.inj hts
      refine Yields.step ?_
      unfold parsePatterns
      simp only [htk]
      refine yields_draw (h.upcoming (by simp [htk])) fun j hj => ?_
      simp only [hbar]
      obtain ⟨tk', vs', rfl⟩ := hrest.exists_cons
      refine yields_draw (hj.upcoming (by simp [hbar])) fun k hk => ?_
      simpa using ih (_ :: acc) hk rfl

/-- What a `for` goes through, with the newlines before and after it. -/
theorem yields_forItems {β : Type} {b : β} {f : Nat → Option (List Word) → Reader β}
    {items : Option (List Word)} {nl nl' rest : List Token} (hnl : Newlines nl)
    (hitems : ForItems items us) (hnl' : Newlines nl')
    (h : Upcoming (nl ++ us ++ nl' ++ tk :: ts) i) (htk : tk.isKeyword "do" = true)
    (hf : ∀ j, Upcoming (tk :: ts) j → Yields (fun n => f n items) j b rest) :
    Yields (fun n => do
      skipNewlines n
      let tk ← nextToken n
      let items ←
        if tk.isKeyword "in" then pure (some (← parseItems n []))
        else do
          match tk.kind with
          | .semi => pure none
          | _ =>
            pushToken tk
            pure none
      skipNewlines n
      f n items) i b rest := by
  have hdo : ∀ {kind}, tk.kind = kind → (∀ w, kind ≠ .word w) → False := by
    obtain ⟨w, hw, -⟩ := Token.kind_of_literal? (beq_iff_eq.mp htk)
    exact fun h hne => hne w (h.symm.trans hw)
  have hnewline : tk.kind ≠ .newline := fun h => hdo h nofun
  cases hitems with
  | words hin hws hstop =>
      rename_i kwIn stop ws vs
      obtain ⟨w, hw, -⟩ := Token.kind_of_literal? (beq_iff_eq.mp hin)
      simp only [List.append_assoc, List.cons_append, List.nil_append] at h
      refine (yields_skipNewlines hnl h (by simp [hw])).bind fun j hj => ?_
      refine yields_draw hj fun k hk => ?_
      simp only [if_pos hin]
      refine (yields_parseItems [] hws hstop (hk.upcoming ?_)).bind fun l hl => ?_
      · simp [hw]
      · exact (yields_skipNewlines hnl' hl hnewline).bind hf
  | semi hsemi =>
      rename_i semi
      simp only [List.append_assoc, List.cons_append, List.nil_append] at h
      refine (yields_skipNewlines hnl h (by simp [hsemi])).bind fun j hj => ?_
      have hnot : ¬ semi.isKeyword "in" = true := by
        intro hin
        obtain ⟨w, hw, -⟩ := Token.kind_of_literal? (beq_iff_eq.mp hin)
        exact nomatch hsemi.symm.trans hw
      refine yields_draw hj fun k hk => ?_
      simp only [if_neg hnot, hsemi]
      refine (yields_skipNewlines hnl' (hk.upcoming ?_) hnewline).bind hf
      simp [hsemi]
  | none =>
      rw [List.append_nil] at h
      refine (yields_skipNewlines (hnl.append hnl') h hnewline).bind fun j hj => ?_
      have hnot : ¬ tk.isKeyword "in" = true := Token.not_isKeyword htk _ (by decide)
      refine yields_draw hj fun k hk => ?_
      simp only [if_neg hnot]
      split
      · rename_i hsemi
        exact (hdo hsemi nofun).elim
      · refine hk.yields_push fun l hl => ?_
        exact (yields_skipNewlines Newlines.nil hl hnewline).bind hf

/-- The patterns of an arm, with a parenthesis before them or without one. -/
theorem yields_armPatterns {β : Type} {b : β} {f : Nat → List Word → Reader β} {ps : List Word}
    {rest : List Token} (hps : ArmPatterns ps (tk :: us)) (h : Taken tk (us ++ ts) i)
    (hf : ∀ j, Upcoming ts j → Yields (fun n => f n ps) j b rest) :
    Yields (fun n => do
      let tk ← if tk.isLeftParen then nextToken n else pure tk
      let patterns ← parsePatterns n [] tk
      f n patterns) i b rest := by
  generalize hvs : tk :: us = vs at hps
  cases hps with
  | parenthesized hopen hws =>
      obtain ⟨rfl, rfl⟩ := List.cons.inj hvs
      simp only [if_pos (Token.isLeftParen_of_kind hopen)]
      obtain ⟨first, xs, rfl⟩ := hws.exists_cons
      refine yields_draw (h.upcoming (by simp [hopen])) fun j hj => ?_
      exact (yields_parsePatterns [] hws hj).bind hf
  | bare hne hws =>
      obtain ⟨rfl, rfl⟩ := List.cons.inj hvs
      have hopen : ¬ tk.isLeftParen = true := by
        intro hopen
        obtain ⟨w, hw⟩ := hws.word
        exact nomatch (Token.kind_of_isLeftParen hopen).symm.trans hw
      simp only [if_neg hopen, pure_bind]
      exact (yields_parsePatterns [] hws h).bind hf

/-- An arm starts with its patterns, not with the keyword after the last one. -/
theorem ArmPatterns.exists_cons {ps : List Word} (h : ArmPatterns ps ts) :
    ∃ tk us, ts = tk :: us ∧ ¬ tk.isKeyword "esac" = true ∧ tk.kind ≠ .newline := by
  cases h with
  | parenthesized hopen hws =>
      refine ⟨_, _, rfl, fun hesac => ?_, (by simp [hopen])⟩
      obtain ⟨w, hw, -⟩ := Token.kind_of_literal? (beq_iff_eq.mp hesac)
      exact nomatch hopen.symm.trans hw
  | bare hne hws =>
      obtain ⟨w, hw⟩ := hws.word
      exact ⟨_, _, rfl, Bool.eq_false_iff.mp hne, (by simp [hw])⟩

/-! ## Simple commands -/

/-- No parenthesis comes right after a part of a simple command. -/
theorem Elements.head_ne_leftParen {started : Bool} {as ws : List Word} {rs : List Redirect}
    {next : Token} (hel : Elements started as ws rs us) (hnext : next.EndsCommand true)
    (hus : us ++ next :: ts = tk :: vs) : ¬ tk.isLeftParen = true := by
  intro hopen
  have hopen := Token.kind_of_isLeftParen hopen
  cases hel with
  | nil =>
      obtain ⟨rfl, -⟩ := List.cons.inj hus
      exact hnext.paren hopen
  | assignment hw _ _ | word hw _ _ =>
      obtain ⟨rfl, -⟩ := List.cons.inj hus
      exact nomatch hw.symm.trans hopen
  | redirection hr _ =>
      obtain ⟨hop, -, -⟩ := hr
      obtain ⟨rfl, -⟩ := List.cons.inj hus
      exact nomatch hop.symm.trans hopen

/-- A simple command with a part goes on; no alias is expanded at its next word. -/
theorem yields_goOn {line : Nat} {assigns argv : List Word} {redirects : List Redirect}
    {node : Node} {next : Token} {rest : List Token} (h : Upcoming (us ++ next :: ts) i)
    (hf : ∀ tk vs j, us ++ next :: ts = tk :: vs → Taken tk vs j →
      Yields (fun n => parseSimple n line assigns argv redirects tk) j node rest) :
    Yields (fun n => do
      let tk ← nextToken n
      if ← takeAliasBlank then
        let tk ← expandAlias n tk
        parseSimple n line assigns argv redirects tk
      else parseSimple n line assigns argv redirects tk) i node rest := by
  obtain ⟨tk, vs, hvs⟩ := List.exists_cons_of_ne_nil (List.append_ne_nil_of_right_ne_nil us
    (List.cons_ne_nil next ts))
  rw [hvs] at h
  refine yields_draw h fun j hj => hj.yields_takeAliasBlank ?_
  exact hf tk vs j hvs hj

theorem yields_parseSimple {started : Bool} {as ws : List Word} {rs : List Redirect}
    (hel : Elements started as ws rs us) (line : Nat) (assigns argv : List Word)
    (redirects : List Redirect) {next : Token} (hstarted : started = !argv.isEmpty)
    (hus : us ++ next :: ts = tk :: vs) (h : Taken tk vs i) (hnext : next.EndsCommand true) :
    Yields (fun n => parseSimple n line assigns argv redirects tk) i
      (.mk (.simple (assigns.reverse ++ as) (argv.reverse ++ ws) (redirects.reverse ++ rs)) line)
      (next :: ts) := by
  induction hel generalizing assigns argv redirects tk vs i with
  | nil =>
      obtain ⟨rfl, rfl⟩ := List.cons.inj hus
      refine Yields.step ?_
      unfold parseSimple
      dsimp only
      split
      · exact absurd ‹_› (hnext.redirect _ _)
      · exact absurd ‹_› (hnext.word rfl _)
      · simp only [List.append_nil]
        exact h.yields_push fun j hj => yields_pure hj
  | assignment hw hassign hrest ih =>
      obtain ⟨rfl, rfl⟩ := List.cons.inj hus
      obtain rfl : argv = [] := by simpa using hstarted
      refine Yields.step ?_
      unfold parseSimple
      simp only [hw, hassign, List.isEmpty_nil, Bool.and_self, if_true]
      refine yields_goOn (h.upcoming (by simp [hw])) fun tk vs j hvs hj => ?_
      simpa using ih (_ :: assigns) [] redirects rfl hvs hj
  | @word started' part w as' ws' rs' us' hw hassign hrest ih =>
      obtain ⟨rfl, rfl⟩ := List.cons.inj hus
      have hj : Upcoming (us' ++ next :: ts) i := h.upcoming (by simp [hw])
      have hnot : ¬ (argv.isEmpty && w.isAssignment) = true := by
        intro h
        obtain ⟨hempty, hw⟩ := Bool.and_eq_true_iff.mp h
        rw [hassign (by rw [hstarted, hempty]; rfl)] at hw
        exact nomatch hw
      have hgoOn := fun j (hj : Upcoming (us' ++ next :: ts) j) =>
        yields_goOn hj fun tk vs j hvs hj => ih assigns (w :: argv) redirects rfl hvs hj
      refine Yields.step ?_
      unfold parseSimple
      simp only [hw, if_neg hnot]
      by_cases hfirst : (argv.isEmpty && assigns.isEmpty && redirects.isEmpty) = true
      · -- the first word would be a name if a parenthesis came after it
        simp only [if_pos hfirst]
        simp only [Bool.and_eq_true, List.isEmpty_iff] at hfirst
        obtain ⟨⟨rfl, rfl⟩, rfl⟩ := hfirst
        obtain ⟨tk', vs, hvs⟩ := List.exists_cons_of_ne_nil
          (List.append_ne_nil_of_right_ne_nil us' (List.cons_ne_nil next ts))
        rw [hvs] at hj
        refine (yields_peekToken hj).bind fun k hk => ?_
        simp only [if_neg (hrest.head_ne_leftParen hnext hvs)]
        rw [← hvs] at hk
        simpa using hgoOn k hk
      · simp only [if_neg hfirst]
        simpa using hgoOn i hj
  | redirection hr hrest ih =>
      obtain ⟨hop, hplain, htarget⟩ := hr
      obtain ⟨rfl, rfl⟩ := List.cons.inj hus
      refine Yields.step ?_
      unfold parseSimple
      simp only [hop]
      have hj := h.upcoming (by simp [hop])
      refine (yields_parseRedirect hplain hj htarget).bind fun k hk => ?_
      refine yields_goOn hk fun tk vs j hvs hj => ?_
      simpa using ih assigns argv (.word _ _ _ :: redirects) hstarted hvs hj

/-! ## The first token of a command -/

theorem parseCommandAt_simple (h : tk.StartsSimple) (n : Nat) :
    parseCommandAt (n + 1) tk = parseSimple n tk.line [] [] [] tk := by
  unfold parseCommandAt
  rcases h with ⟨fd, op, hop⟩ | ⟨w, hw, hfree⟩
  · simp only [hop]
  · simp only [hw]
    split
    · rfl
    · rename_i kw hkw
      obtain ⟨hstart, hend⟩ := hfree kw hkw
      have hne : ∀ {text}, text ∈ compoundStarters → kw ≠ text := by
        rintro _ hmem rfl
        exact hstart hmem
      rw [if_neg (hne (by decide)), if_neg (hne (by decide)), if_neg (hne (by decide)),
        if_neg (hne (by decide)), if_neg (hne (by decide)), if_neg (hne (by decide)),
        if_neg (mt List.contains_iff_mem.mp hend)]

/-- A compound command is read as its keyword says, and then its redirections. -/
theorem parseCommandAt_keyword {kw : Text} (h : tk.isKeyword kw = true) (n : Nat) :
    parseCommandAt (n + 1) tk =
      if kw = "if" then parseIf n tk.line >>= closeCompound n tk.line
      else if kw = "while" then parseLoop n true tk.line >>= closeCompound n tk.line
      else if kw = "until" then parseLoop n false tk.line >>= closeCompound n tk.line
      else if kw = "for" then parseFor n tk.line >>= closeCompound n tk.line
      else if kw = "case" then parseCase n tk.line >>= closeCompound n tk.line
      else if kw = "\x7b" then do
        let body ← parseInner n
        expectKeyword "\x7d" n
        closeCompound n tk.line (.mk (.brace body) tk.line)
      else if listEnders.contains kw then unexpected tk
      else parseSimple n tk.line [] [] [] tk := by
  obtain ⟨w, hw, hkw⟩ := Token.kind_of_literal? (beq_iff_eq.mp h)
  unfold parseCommandAt
  simp only [hw, hkw]

theorem Token.startsCommand_of_keyword {kw : Text} (h : tk.isKeyword kw = true)
    (hkw : kw ∈ compoundStarters) : tk.StartsCommand := by
  obtain ⟨w, hw, ht⟩ := Token.kind_of_literal? (beq_iff_eq.mp h)
  refine ⟨?_, by simp [hw]⟩
  have hdisjoint : ∀ kw ∈ compoundStarters, kw ∉ listEnders := by decide
  simpa [Token.endsList, hw, ht] using hdisjoint kw hkw

theorem Token.StartsSimple.startsCommand (h : tk.StartsSimple) : tk.StartsCommand := by
  rcases h with ⟨fd, op, hop⟩ | ⟨w, hw, hfree⟩
  · simp [StartsCommand, Token.endsList, hop]
  · refine ⟨?_, by simp [hw]⟩
    simp only [Token.endsList, hw, Option.any_eq_false]
    intro kw hkw
    simpa using (hfree kw hkw).2

theorem Token.tests_of_startsCompound (h : tk.StartsCompound) :
    (tk.isLeftParen || tk.literal?.any compoundStarters.contains) = true := by
  rw [Bool.or_eq_true]
  rcases h with hopen | ⟨kw, hkw, hkey⟩
  · exact .inl (Token.isLeftParen_of_kind hopen)
  · refine .inr ((Option.any_eq_true ..).mpr ⟨kw, beq_iff_eq.mp hkey, ?_⟩)
    exact List.contains_iff_mem.mpr hkw

theorem cut?_eq_none {sep : Char} {t : Text} (h : sep ∉ t) : Text.cut? sep t = none := by
  induction t with
  | nil => rfl
  | cons c t ih =>
      obtain ⟨hc, ht⟩ := not_or.mp (mt List.mem_cons.mpr h)
      simp [Text.cut?, Ne.symm hc, ih ht]

theorem equals_notMem_of_isName {t : Text} (h : Text.isName t = true) : '=' ∉ t := by
  cases t with
  | nil => exact nomatch h
  | cons c t =>
      obtain ⟨hc, ht⟩ := Bool.and_eq_true_iff.mp h
      rintro (_ | ⟨_, hmem⟩)
      · exact absurd hc (by decide)
      · exact absurd (List.all_eq_true.mp ht _ hmem) (by decide)

theorem Word.isAssignment_of_isName {w : Word} {name : Text} (hw : w.literal? = some name)
    (hname : Text.isName name = true) : w.isAssignment = false := by
  unfold Word.literal? at hw
  split at hw
  · rename_i t ht
    obtain rfl := Option.some.inj hw
    simp [Word.isAssignment, ht, Text.splitAssignment?,
      cut?_eq_none (equals_notMem_of_isName hname)]
  · exact nomatch hw

/-! ## All phrases -/

/-- A command may start with the first of the tokens. -/
def Starts (ts : List Token) : Prop := ∃ tk us, ts = tk :: us ∧ tk.StartsCommand

/-- What is left after a list: on a command line what is after the newline or the end of the input,
elsewhere the token that closes it. -/
inductive ListLeaves (isOpen : Bool) (tk : Token) (ts : List Token) : Bool → List Token → Prop
  | newline (h : tk.kind = .newline) : ListLeaves isOpen tk ts true ts
  | endOfInput (h : tk.kind = .endOfInput) : ListLeaves isOpen tk ts true (tk :: ts)
  | closer (h : tk.ClosesList isOpen) : ListLeaves isOpen tk ts false (tk :: ts)

/-- The commands of a list are read as `n`. -/
def ReadsList (n : Node) (isOpen : Bool) (ts : List Token) : Prop :=
  Starts ts ∧ ∀ tk rest i, tk.ClosesList isOpen → Upcoming (ts ++ tk :: rest) i →
    Yields (fun k => parseList false k []) i n (tk :: rest)

/-- The phrase is read from the tokens, whatever is after them, if it ends there. -/
abbrev Accepted : Phrase → List Token → Prop
  | .command n o, ts => ∃ first us, ts = first :: us ∧ first.StartsCommand ∧
    ∀ tk rest i, tk.EndsCommand o → Taken first (us ++ tk :: rest) i →
      Yields (fun k => parseCommandAt k first) i n (tk :: rest)
  | .compound n, ts => ∃ first us, ts = first :: us ∧ first.StartsCommand ∧ n.line = first.line ∧
    first.kind ≠ .endOfInput ∧ ∃ r : Nat → Reader Node,
      (∀ k, parseCommandAt (k + 1) first = r k >>= closeCompound k first.line) ∧
      ∀ rest i, Upcoming (us ++ rest) i → Yields r i n rest
  | .stages ns o, ts => ∃ first us, ts = first :: us ∧ first.StartsCommand ∧
    ∀ acc tk rest i, tk.EndsStages o → Taken first (us ++ tk :: rest) i →
      Yields (fun k => parseCommandAt k first >>= fun stage => parseStages k (stage :: acc)) i
        (acc.reverse ++ ns) (tk :: rest)
  | .pipeline n o, ts => Starts ts ∧ ∀ tk rest i, tk.EndsStages o →
    Upcoming (ts ++ tk :: rest) i → Yields parsePipeline i n (tk :: rest)
  | .chain left leftOpen n o, ts => ∀ tk rest, tk.EndsChain o →
    (∃ tk' rest', ts ++ tk :: rest = tk' :: rest' ∧ tk'.EndsStages leftOpen) ∧
    ∀ i, Upcoming (ts ++ tk :: rest) i →
      Yields (fun k => parseAndOrRest k left) i n (tk :: rest)
  | .andOr n o, ts => Starts ts ∧ ∀ tk rest i, tk.EndsChain o → Upcoming (ts ++ tk :: rest) i →
    Yields parseAndOr i n (tk :: rest)
  | .items top ns o, ts => Starts ts ∧ ∀ acc node tk rest left i,
    Node.ofList (acc.reverse ++ ns) = some node → ListLeaves o tk rest top left →
      Upcoming (ts ++ tk :: rest) i → Yields (fun k => parseList top k acc) i node left
  | .block n o, ts => ∃ nl us, ts = nl ++ us ∧ Newlines nl ∧ ReadsList n o us
  | .branches n, ts => ∀ rest i, Upcoming (ts ++ rest) i →
    Yields (fun k => parseIf k n.line) i n rest
  | .armBody none _, ts => Newlines ts
  | .armBody (some n) o, ts => ∃ nl us, ts = nl ++ us ∧ Newlines nl ∧ ReadsList n o us
  | .arms as, ts => ∀ acc rest i, Upcoming (ts ++ rest) i →
    Yields (fun k => parseArms k acc) i (acc.reverse ++ as) rest

/-- The list of a block, with the newlines before it or without them. -/
theorem ReadsList.parseInner {n : Node} {o : Bool} {nl rest : List Token} (h : ReadsList n o us)
    (hnl : Newlines nl) (htk : tk.ClosesList o) (hi : Upcoming (nl ++ us ++ tk :: rest) i) :
    Yields parseInner i n (tk :: rest) := by
  obtain ⟨⟨first, vs, rfl, hfirst⟩, hreads⟩ := h
  simp only [List.append_assoc, List.cons_append] at hi
  refine Yields.step ((yields_skipNewlines hnl hi hfirst.2).bind fun j hj => ?_)
  exact hreads tk rest j htk hj

namespace Accepted

variable {n : Node} {o : Bool}

theorem parseInner (h : Accepted (.block n o) ts) (htk : tk.ClosesList o) {rest : List Token}
    (hi : Upcoming (ts ++ tk :: rest) i) : Yields parseInner i n (tk :: rest) := by
  obtain ⟨nl, us, rfl, hnl, hreads⟩ := h
  exact hreads.parseInner hnl htk hi

/-- A list and the keyword after it. -/
theorem closed {β : Type} {b : β} {kw : Text} {f : Nat → Node → Reader β} {rest : List Token}
    (h : Accepted (.block n false) ts) (hkw : kw ∈ listEnders) (htk : tk.isKeyword kw = true)
    (hi : Upcoming (ts ++ tk :: us) i)
    (hf : ∀ j, Upcoming us j → Yields (fun k => f k n) j b rest) :
    Yields (fun k => do
      let node ← Script.parseInner k
      expectKeyword kw k
      f k node) i b rest := by
  refine (parseInner h (.of_keyword htk hkw) hi).bind fun j hj => ?_
  exact (yields_expectKeyword hj htk).bind hf

/-! ## Commands -/

theorem simple {first : Token} {as ws : List Word} {rs : List Redirect}
    (hfirst : first.StartsSimple) (hel : Elements false as ws rs (first :: ts)) :
    Accepted (.command (.mk (.simple as ws rs) first.line) true) (first :: ts) := by
  refine ⟨first, ts, rfl, hfirst.startsCommand, fun tk rest i htk hi => Yields.step ?_⟩
  simp only [parseCommandAt_simple hfirst]
  exact yields_parseSimple hel first.line [] [] [] rfl rfl hi htk

theorem subshell {opener closer : Token} {rs : List Redirect}
    (hopen : opener.kind = .leftParen) (hbody : Accepted (.block n o) ts)
    (hclose : closer.kind = .rightParen) (hrs : Redirections rs us) :
    Accepted (.command (.mk (.subshell n rs) opener.line) false) (opener :: ts ++ closer :: us) := by
  refine ⟨opener, ts ++ closer :: us, rfl, by simp [Token.StartsCommand, Token.endsList, hopen],
    fun tk rest i htk hi => Yields.step ?_⟩
  unfold parseCommandAt
  simp only [hopen]
  have hcloses : closer.ClosesList o := ⟨by simp [Token.endsList, hclose], by simp [hclose]⟩
  have hi := hi.upcoming (by simp [hopen])
  rw [List.append_assoc] at hi
  refine (parseInner hbody hcloses hi).bind fun j hj => yields_draw hj fun k hk => ?_
  simp only [Token.isRightParen_of_kind hclose]
  have hk := hk.upcoming (by simp [hclose])
  exact (yields_parseRedirects [] hrs hk htk.redirect).bind fun l hl => yields_pure hl

theorem unredirected (h : Accepted (.compound n) ts) : Accepted (.command n false) ts := by
  obtain ⟨first, us, rfl, hstarts, -, hne, r, hr, hyields⟩ := h
  refine ⟨first, us, rfl, hstarts, fun tk rest i htk hi => Yields.step ?_⟩
  simp only [hr]
  refine (hyields _ i (hi.upcoming hne)).bind fun j hj => ?_
  exact yields_closeCompound first.line n .nil hj htk.redirect

theorem redirected {r : Redirect} {rs : List Redirect} (h : Accepted (.compound n) ts)
    (hrs : Redirections (r :: rs) us) :
    Accepted (.command (.mk (.redirected n (r :: rs)) n.line) false) (ts ++ us) := by
  obtain ⟨first, vs, rfl, hstarts, hline, hne, r, hr, hyields⟩ := h
  refine ⟨first, vs ++ us, rfl, hstarts, fun tk rest i htk hi => Yields.step ?_⟩
  simp only [hr]
  rw [List.append_assoc] at hi
  refine (hyields _ i (hi.upcoming hne)).bind fun j hj => ?_
  rw [hline]
  exact yields_closeCompound first.line n hrs hj htk.redirect

theorem function {name opener closer first : Token} {w : Word} {fname : Text} {nl : List Token}
    (hname : name.kind = .word w) (hfree : name.StartsSimple) (hfname : w.literal? = some fname)
    (hid : Text.isName fname = true) (hopen : opener.kind = .leftParen)
    (hclose : closer.kind = .rightParen) (hnl : Newlines nl) (hfirst : first.StartsCompound)
    (hbody : Accepted (.command n false) (first :: ts)) :
    Accepted (.command (.mk (.function fname n) name.line) false)
      (name :: opener :: closer :: nl ++ first :: ts) := by
  obtain ⟨first', us, hts, hstarts, hbody⟩ := hbody
  obtain ⟨rfl, rfl⟩ := List.cons.inj hts
  refine ⟨name, opener :: closer :: (nl ++ first :: ts), rfl, hfree.startsCommand,
    fun tk rest i htk hi => ?_⟩
  -- the name is the first word of a simple command until the parenthesis is seen
  refine Yields.step ?_
  simp only [parseCommandAt_simple hfree]
  refine Yields.step ?_
  unfold parseSimple
  simp only [hname, Word.isAssignment_of_isName hfname hid]
  have hi := hi.upcoming (by simp [hname])
  refine (yields_peekToken hi).bind fun j hj => ?_
  simp only [if_pos (Token.isLeftParen_of_kind hopen)]
  refine Yields.step ?_
  unfold parseFunction
  refine yields_draw hj fun k hk => ?_
  refine yields_draw (hk.upcoming (by simp [hopen])) fun l hl => ?_
  have hl : Upcoming (nl ++ first :: ts ++ tk :: rest) l :=
    hl.upcoming (by simp [hclose])
  rw [List.append_assoc] at hl
  simp only [Token.isRightParen_of_kind hclose, hfname, Option.filter_some, hid]
  refine (yields_skipNewlines hnl hl hstarts.2).bind fun m hm => yields_draw hm fun p hp => ?_
  have htests := Token.tests_of_startsCompound hfirst
  unfold compoundStarters at htests
  simp only [if_pos htests]
  exact (hbody tk rest p htk hp).bind fun q hq => yields_pure hq

/-! ## Compound commands -/

theorem brace {opener closer : Token} (hopen : opener.isKeyword "\x7b" = true)
    (hbody : Accepted (.block n false) ts) (hclose : closer.isKeyword "\x7d" = true) :
    Accepted (.compound (.mk (.brace n) opener.line)) (opener :: ts ++ [closer]) := by
  refine ⟨opener, ts ++ [closer], rfl, Token.startsCommand_of_keyword hopen (by decide), rfl,
    Token.kind_ne_of_isKeyword hopen, fun k => do
      let body ← Script.parseInner k
      expectKeyword "\x7d" k
      return .mk (.brace body) opener.line, fun k => ?_, fun rest i hi => ?_⟩
  · rw [parseCommandAt_keyword hopen]
    simp only [bind_assoc, pure_bind]
    rfl
  · rw [List.append_assoc] at hi
    exact closed hbody (by decide) hclose hi fun j hj => yields_pure hj

theorem ifThen {kw : Token} (hkw : kw.isKeyword "if" = true) (hrest : Accepted (.branches n) ts)
    (hline : n.line = kw.line) : Accepted (.compound n) (kw :: ts) :=
  ⟨kw, ts, rfl, Token.startsCommand_of_keyword hkw (by decide), hline,
    Token.kind_ne_of_isKeyword hkw, fun k => parseIf k kw.line,
    fun k => parseCommandAt_keyword hkw k, fun rest i hi => hline ▸ hrest rest i hi⟩

/-- The condition and the body of a loop. -/
theorem loop {kwDo kwDone : Token} {cond body : Node} (isWhile : Bool) (line : Nat)
    (hcond : Accepted (.block cond false) ts) (hdo : kwDo.isKeyword "do" = true)
    (hbody : Accepted (.block body false) us) (hdone : kwDone.isKeyword "done" = true)
    (rest : List Token) (i : Input) (hi : Upcoming (ts ++ kwDo :: us ++ [kwDone] ++ rest) i) :
    Yields (fun k => parseLoop k isWhile line) i
      (.mk (if isWhile then .whileDo cond body else .untilDo cond body) line) rest := by
  simp only [List.append_assoc, List.cons_append, List.nil_append] at hi
  refine Yields.step (closed hcond (by decide) hdo hi fun j hj => ?_)
  exact closed hbody (by decide) hdone hj fun k hk => yields_pure hk

theorem whileDo {kw kwDo kwDone : Token} {cond body : Node} (hkw : kw.isKeyword "while" = true)
    (hcond : Accepted (.block cond false) ts) (hdo : kwDo.isKeyword "do" = true)
    (hbody : Accepted (.block body false) us) (hdone : kwDone.isKeyword "done" = true) :
    Accepted (.compound (.mk (.whileDo cond body) kw.line))
      (kw :: ts ++ kwDo :: us ++ [kwDone]) :=
  ⟨kw, ts ++ kwDo :: us ++ [kwDone], rfl, Token.startsCommand_of_keyword hkw (by decide), rfl,
    Token.kind_ne_of_isKeyword hkw, fun k => parseLoop k true kw.line,
    fun k => parseCommandAt_keyword hkw k, loop true kw.line hcond hdo hbody hdone⟩

theorem untilDo {kw kwDo kwDone : Token} {cond body : Node} (hkw : kw.isKeyword "until" = true)
    (hcond : Accepted (.block cond false) ts) (hdo : kwDo.isKeyword "do" = true)
    (hbody : Accepted (.block body false) us) (hdone : kwDone.isKeyword "done" = true) :
    Accepted (.compound (.mk (.untilDo cond body) kw.line))
      (kw :: ts ++ kwDo :: us ++ [kwDone]) :=
  ⟨kw, ts ++ kwDo :: us ++ [kwDone], rfl, Token.startsCommand_of_keyword hkw (by decide), rfl,
    Token.kind_ne_of_isKeyword hkw, fun k => parseLoop k false kw.line,
    fun k => parseCommandAt_keyword hkw k, loop false kw.line hcond hdo hbody hdone⟩

theorem forIn {kw name kwDo kwDone : Token} {var : Text} {items : Option (List Word)}
    {nl nl' : List Token} (hkw : kw.isKeyword "for" = true) (hvar : name.literal? = some var)
    (hid : Text.isName var = true) (hnl : Newlines nl) (hitems : ForItems items ts)
    (hnl' : Newlines nl') (hdo : kwDo.isKeyword "do" = true)
    (hbody : Accepted (.block n false) us) (hdone : kwDone.isKeyword "done" = true) :
    Accepted (.compound (.mk (.forIn var items n) kw.line))
      (kw :: name :: nl ++ ts ++ nl' ++ kwDo :: us ++ [kwDone]) := by
  refine ⟨kw, name :: (nl ++ ts ++ nl' ++ kwDo :: us ++ [kwDone]), rfl,
    Token.startsCommand_of_keyword hkw (by decide), rfl, Token.kind_ne_of_isKeyword hkw,
    fun k => parseFor k kw.line, fun k => parseCommandAt_keyword hkw k, fun rest i hi => ?_⟩
  obtain ⟨w, hw, -⟩ := Token.kind_of_literal? hvar
  refine Yields.step ?_
  unfold parseFor
  refine yields_draw hi fun j hj => ?_
  have hj : Upcoming (nl ++ ts ++ nl' ++ kwDo :: us ++ [kwDone] ++ rest) j :=
    hj.upcoming (by simp [hw])
  rw [List.append_assoc, List.append_assoc] at hj
  simp only [hvar, Option.filter_some, hid]
  refine yields_forItems hnl hitems hnl' hj hdo fun k hk => ?_
  refine (yields_expectKeyword hk hdo).bind fun l hl => ?_
  exact closed hbody (by decide) hdone hl fun m hm => yields_pure hm

theorem caseOf {kw word kwIn : Token} {subject : Word} {arms : List CaseArm} {nl : List Token}
    (hkw : kw.isKeyword "case" = true) (hword : word.kind = .word subject) (hnl : Newlines nl)
    (hin : kwIn.isKeyword "in" = true) (harms : Accepted (.arms arms) ts) :
    Accepted (.compound (.mk (.caseOf subject arms) kw.line)) (kw :: word :: nl ++ kwIn :: ts) := by
  refine ⟨kw, word :: (nl ++ kwIn :: ts), rfl, Token.startsCommand_of_keyword hkw (by decide), rfl,
    Token.kind_ne_of_isKeyword hkw, fun k => parseCase k kw.line,
    fun k => parseCommandAt_keyword hkw k, fun rest i hi => Yields.step ?_⟩
  unfold parseCase
  refine yields_draw hi fun j hj => ?_
  simp only [hword]
  have hj : Upcoming (nl ++ kwIn :: ts ++ rest) j :=
    hj.upcoming (by simp [hword])
  rw [List.append_assoc] at hj
  obtain ⟨w, hw, -⟩ := Token.kind_of_literal? (beq_iff_eq.mp hin)
  refine (yields_skipNewlines hnl hj (by simp [hw])).bind fun k hk => ?_
  refine (yields_expectKeyword hk hin).bind fun l hl => ?_
  exact (harms [] rest l hl).bind fun m hm => yields_pure hm

/-! ## Branches -/

theorem thenFi {kwThen kwFi : Token} {cond body : Node} {line : Nat}
    (hcond : Accepted (.block cond false) ts) (hthen : kwThen.isKeyword "then" = true)
    (hbody : Accepted (.block body false) us) (hfi : kwFi.isKeyword "fi" = true) :
    Accepted (.branches (.mk (.ifThen cond body none) line)) (ts ++ kwThen :: us ++ [kwFi]) := by
  intro rest i hi
  simp only [List.append_assoc, List.cons_append, List.nil_append] at hi
  refine Yields.step (closed hcond (by decide) hthen hi fun j hj => ?_)
  refine (parseInner hbody (.of_keyword hfi (by decide)) hj).bind fun k hk => ?_
  refine yields_draw hk fun l hl => ?_
  simp only [if_neg (Token.not_isKeyword hfi "elif" (by decide)),
    if_neg (Token.not_isKeyword hfi "else" (by decide)), if_pos hfi]
  exact yields_pure (hl.upcoming (Token.kind_ne_of_isKeyword hfi))

theorem thenElse {kwThen kwElse kwFi : Token} {cond body other : Node} {line : Nat}
    (hcond : Accepted (.block cond false) ts) (hthen : kwThen.isKeyword "then" = true)
    (hbody : Accepted (.block body false) us) (helse : kwElse.isKeyword "else" = true)
    (hother : Accepted (.block other false) vs) (hfi : kwFi.isKeyword "fi" = true) :
    Accepted (.branches (.mk (.ifThen cond body (some other)) line))
      (ts ++ kwThen :: us ++ kwElse :: vs ++ [kwFi]) := by
  intro rest i hi
  simp only [List.append_assoc, List.cons_append, List.nil_append] at hi
  refine Yields.step (closed hcond (by decide) hthen hi fun j hj => ?_)
  refine (parseInner hbody (.of_keyword helse (by decide)) hj).bind fun k hk => ?_
  refine yields_draw hk fun l hl => ?_
  simp only [if_neg (Token.not_isKeyword helse "elif" (by decide)), if_pos helse]
  have hl := hl.upcoming (Token.kind_ne_of_isKeyword helse)
  exact closed hother (by decide) hfi hl fun m hm => yields_pure hm

theorem thenElif {kwThen kwElif : Token} {cond body other : Node} {line : Nat}
    (hcond : Accepted (.block cond false) ts) (hthen : kwThen.isKeyword "then" = true)
    (hbody : Accepted (.block body false) us) (helif : kwElif.isKeyword "elif" = true)
    (hother : Accepted (.branches other) vs) (hline : other.line = kwElif.line) :
    Accepted (.branches (.mk (.ifThen cond body (some other)) line))
      (ts ++ kwThen :: us ++ kwElif :: vs) := by
  intro rest i hi
  simp only [List.append_assoc, List.cons_append] at hi
  refine Yields.step (closed hcond (by decide) hthen hi fun j hj => ?_)
  refine (parseInner hbody (.of_keyword helif (by decide)) hj).bind fun k hk => ?_
  refine yields_draw hk fun l hl => ?_
  simp only [if_pos helif, ← hline]
  refine (hother rest l (hl.upcoming (Token.kind_ne_of_isKeyword helif))).bind fun m hm => ?_
  exact yields_pure hm

/-! ## Arms -/

theorem noArms {kwEsac : Token} {nl : List Token} (hnl : Newlines nl)
    (hesac : kwEsac.isKeyword "esac" = true) : Accepted (.arms []) (nl ++ [kwEsac]) := by
  intro acc rest i hi
  rw [List.append_assoc] at hi
  obtain ⟨w, hw, -⟩ := Token.kind_of_literal? (beq_iff_eq.mp hesac)
  refine Yields.step ((yields_skipNewlines hnl hi (by simp [hw])).bind ?_)
  intro j hj
  refine yields_draw hj fun k hk => ?_
  simp only [if_pos hesac, List.append_nil]
  exact yields_pure (hk.upcoming (Token.kind_ne_of_isKeyword hesac))

/-- An arm, up to the token after its commands. -/
theorem armUpTo {ps : List Word} {body : Option Node} {stop : Token} {nl rest : List Token}
    {arms acc : List CaseArm} (hnl : Newlines nl) (hps : ArmPatterns ps ts)
    (hbody : Accepted (.armBody body o) us) (hstop : stop.ClosesList o)
    (hi : Upcoming (nl ++ ts ++ us ++ stop :: vs) i)
    (hkind : stop.kind = .doubleSemi ∨ stop.isKeyword "esac" = true)
    (hf : ∀ j, Upcoming (stop :: vs) j →
      Yields (fun k => continueArms k (CaseArm.mk ps body :: acc)) j arms rest) :
    Yields (fun k => parseArms k acc) i arms rest := by
  obtain ⟨tk, ts, rfl, hesac, hnewline⟩ := hps.exists_cons
  simp only [List.append_assoc, List.cons_append] at hi
  refine Yields.step ((yields_skipNewlines hnl hi hnewline).bind fun j hj => ?_)
  refine yields_draw hj fun k hk => ?_
  simp only [if_neg hesac]
  refine yields_armPatterns hps hk fun l hl => ?_
  cases body with
  | none =>
      have hnewline : stop.kind ≠ .newline := by
        intro h
        have hends := hstop.ends
        simp [Token.endsList, h] at hends
      refine (yields_skipNewlines hbody hl hnewline).bind fun m hm => ?_
      refine (yields_peekToken hm).bind fun p hp => ?_
      rcases hkind with hkind | hkind
      · simp only [hkind]
        exact hf p hp
      · obtain ⟨w, hw, -⟩ := Token.kind_of_literal? (beq_iff_eq.mp hkind)
        simp only [hw, if_pos hkind]
        exact hf p hp
  | some n =>
      obtain ⟨nl', xs, rfl, hnl', hreads⟩ := hbody
      obtain ⟨first, ys, rfl, hfirst, hnewline⟩ := hreads.1
      simp only [List.append_assoc, List.cons_append] at hl
      refine (yields_skipNewlines hnl' hl hnewline).bind fun m hm => ?_
      refine (yields_peekToken hm).bind fun p hp => ?_
      have hdouble : first.kind ≠ .doubleSemi := fun h => by
        simp [Token.endsList, h] at hfirst
      have hesac : ¬ first.isKeyword "esac" = true := fun h => by
        have hends := (Token.ClosesList.of_keyword h (by decide)).ends
        exact nomatch hfirst.symm.trans hends
      split
      · exact absurd ‹_› hdouble
      · simp only [if_neg hesac]
        refine (hreads.parseInner Newlines.nil hstop hp).bind fun q hq => hf q hq

theorem lastArm {kwEsac : Token} {ps : List Word} {body : Option Node} {nl : List Token}
    (hnl : Newlines nl) (hps : ArmPatterns ps ts) (hbody : Accepted (.armBody body false) us)
    (hesac : kwEsac.isKeyword "esac" = true) :
    Accepted (.arms [.mk ps body]) (nl ++ ts ++ us ++ [kwEsac]) := by
  intro acc rest i hi
  rw [List.append_assoc] at hi
  refine armUpTo hnl hps hbody (.of_keyword hesac (by decide)) hi (.inr hesac) fun j hj => ?_
  refine yields_draw hj fun k hk => ?_
  simp only [if_pos hesac, List.reverse_cons]
  exact yields_pure (hk.upcoming (Token.kind_ne_of_isKeyword hesac))

theorem arm {stop : Token} {ps : List Word} {body : Option Node} {as : List CaseArm}
    {nl : List Token} (hnl : Newlines nl) (hps : ArmPatterns ps ts)
    (hbody : Accepted (.armBody body o) us) (hstop : stop.kind = .doubleSemi)
    (has : Accepted (.arms as) vs) :
    Accepted (.arms (.mk ps body :: as)) (nl ++ ts ++ us ++ stop :: vs) := by
  intro acc rest i hi
  rw [List.append_assoc] at hi
  have hcloses : stop.ClosesList o := ⟨by simp [Token.endsList, hstop], by simp [hstop]⟩
  refine armUpTo hnl hps hbody hcloses hi (.inl hstop) fun j hj => ?_
  refine yields_draw hj fun k hk => ?_
  have hesac : ¬ stop.isKeyword "esac" = true := fun h => by
    obtain ⟨w, hw, -⟩ := Token.kind_of_literal? (beq_iff_eq.mp h)
    exact nomatch hstop.symm.trans hw
  simp only [if_neg hesac, hstop]
  simpa using has (.mk ps body :: acc) rest k (hk.upcoming (by simp [hstop]))

/-! ## Pipelines -/

theorem lastStage (h : Accepted (.command n o) ts) : Accepted (.stages [n] o) ts := by
  obtain ⟨first, us, rfl, hfirst, hyields⟩ := h
  refine ⟨first, us, rfl, hfirst, fun acc tk rest i htk hi => ?_⟩
  refine (hyields tk rest i htk.toEndsCommand hi).bind fun j hj => ?_
  refine Yields.step (yields_draw hj fun k hk => ?_)
  split
  · exact absurd ‹_› htk.pipe
  · rw [List.reverse_cons]
    exact hk.yields_push fun l hl => yields_pure hl

theorem stage {bar : Token} {ns : List Node} {o' : Bool} {nl : List Token}
    (h : Accepted (.command n o) ts) (hbar : bar.kind = .pipe) (hnl : Newlines nl)
    (hns : Accepted (.stages ns o') us) : Accepted (.stages (n :: ns) o') (ts ++ bar :: nl ++ us) := by
  obtain ⟨first, ts, rfl, hfirst, hyields⟩ := h
  obtain ⟨first', us, rfl, hfirst', hyields'⟩ := hns
  refine ⟨first, ts ++ bar :: nl ++ first' :: us, rfl, hfirst, fun acc tk rest i htk hi => ?_⟩
  simp only [List.append_assoc, List.cons_append] at hi
  have hends : bar.EndsCommand o := ⟨by simp [hbar], by simp [hbar], by simp [hbar]⟩
  refine (hyields bar _ i hends hi).bind fun j hj => ?_
  refine Yields.step (yields_draw hj fun k hk => ?_)
  simp only [hbar]
  have hk := hk.upcoming (by simp [hbar])
  refine (yields_skipNewlines hnl hk hfirst'.2).bind fun l hl => yields_draw hl fun m hm => ?_
  simpa using hyields' (n :: acc) tk rest m htk hm

/-- The stages of a pipeline as one command. -/
theorem wholePipeline {first : Token} {ns : List Node} {rest : List Token} (negated : Bool)
    (line : Nat) (h : Accepted (.stages ns o) (first :: ts)) (htk : tk.EndsStages o)
    (hi : Taken first (ts ++ tk :: rest) i) :
    Yields (fun k => parsePipelineFrom k negated line first) i
      (if negated then .mk (.not (pipelineOf line ns)) line else pipelineOf line ns)
      (tk :: rest) := by
  obtain ⟨first', us, hts, -, hyields⟩ := h
  obtain ⟨rfl, rfl⟩ := List.cons.inj hts
  simp only [parsePipelineFrom_eq, ← bind_assoc]
  exact (hyields [] tk rest i htk hi).bind fun j hj => yields_pure hj

theorem plain {first : Token} {ns : List Node} (hfirst : first.isKeyword "!" = false)
    (h : Accepted (.stages ns o) (first :: ts)) :
    Accepted (.pipeline (pipelineOf first.line ns) o) (first :: ts) := by
  have hstarts : Starts (first :: ts) := by
    obtain ⟨first', us, hts, hstarts, -⟩ := h
    exact ⟨first', us, hts, hstarts⟩
  refine ⟨hstarts, fun tk rest i htk hi => Yields.step (yields_draw hi fun j hj => ?_)⟩
  simp only [hfirst]
  exact wholePipeline false first.line h htk hj

theorem negated {bang : Token} {ns : List Node} (hbang : bang.isKeyword "!" = true)
    (h : Accepted (.stages ns o) ts) :
    Accepted (.pipeline (.mk (.not (pipelineOf bang.line ns)) bang.line) o) (bang :: ts) := by
  have hstarts : bang.StartsCommand := by
    obtain ⟨w, hw, ht⟩ := Token.kind_of_literal? (beq_iff_eq.mp hbang)
    refine ⟨?_, by simp [hw]⟩
    simp only [Token.endsList, hw, ht]
    decide
  refine ⟨⟨bang, ts, rfl, hstarts⟩, fun tk rest i htk hi => ?_⟩
  refine Yields.step (yields_draw hi fun j hj => ?_)
  simp only [hbang]
  have hj := hj.upcoming (Token.kind_ne_of_isKeyword hbang)
  have h' := h
  obtain ⟨first, us, rfl, -⟩ := h'
  exact yields_draw hj fun k hk => wholePipeline true bang.line h htk hk

/-! ## Lists -/

theorem chainEnd : Accepted (.chain n o n o) [] := by
  refine fun tk rest htk => ⟨⟨tk, rest, rfl, htk.toEndsStages⟩, fun i hi => ?_⟩
  refine Yields.step (yields_draw hi fun j hj => ?_)
  split
  · exact absurd ‹_› htk.andIf
  · exact absurd ‹_› htk.orIf
  · exact hj.yields_push fun k hk => yields_pure hk

/-- A pipeline after `&&` or `||`, and what follows. -/
theorem chainNext {left right : Node} {o' rightOpen : Bool} {nl rest : List Token}
    (hnl : Newlines nl) (hright : Accepted (.pipeline right rightOpen) ts)
    (hrest : Accepted (.chain left rightOpen n o') us) (htk : tk.EndsChain o')
    (hi : Upcoming (nl ++ ts ++ us ++ tk :: rest) i) {f : Node → Node} (hf : f right = left) :
    Yields (fun k => do
      skipNewlines k
      let right ← parsePipeline k
      parseAndOrRest k (f right)) i n (tk :: rest) := by
  obtain ⟨⟨first, ts, rfl, hfirst⟩, hyields⟩ := hright
  obtain ⟨⟨tk', rest', hts, htk'⟩, hchain⟩ := hrest tk rest htk
  simp only [List.append_assoc, List.cons_append] at hi
  refine (yields_skipNewlines hnl hi hfirst.2).bind fun j hj => ?_
  rw [hts, ← List.cons_append] at hj
  refine (hyields tk' rest' j htk' hj).bind fun k hk => ?_
  rw [← hts] at hk
  rw [hf]
  exact hchain k hk

theorem chainAnd {op : Token} {left right : Node} {leftOpen rightOpen : Bool} {nl : List Token}
    (hop : op.kind = .andIf) (hnl : Newlines nl) (hright : Accepted (.pipeline right rightOpen) ts)
    (hrest : Accepted (.chain (.mk (.and left right) left.line) rightOpen n o) us) :
    Accepted (.chain left leftOpen n o) (op :: nl ++ ts ++ us) := by
  refine fun tk rest htk => ⟨⟨op, _, rfl, ?_⟩, fun i hi => ?_⟩
  · exact ⟨⟨by simp [hop], by simp [hop], by simp [hop]⟩, by simp [hop]⟩
  · refine Yields.step (yields_draw hi fun j hj => ?_)
    simp only [hop]
    have hj := hj.upcoming (by simp [hop])
    exact chainNext hnl hright hrest htk hj rfl

theorem chainOr {op : Token} {left right : Node} {leftOpen rightOpen : Bool} {nl : List Token}
    (hop : op.kind = .orIf) (hnl : Newlines nl) (hright : Accepted (.pipeline right rightOpen) ts)
    (hrest : Accepted (.chain (.mk (.or left right) left.line) rightOpen n o) us) :
    Accepted (.chain left leftOpen n o) (op :: nl ++ ts ++ us) := by
  refine fun tk rest htk => ⟨⟨op, _, rfl, ?_⟩, fun i hi => ?_⟩
  · exact ⟨⟨by simp [hop], by simp [hop], by simp [hop]⟩, by simp [hop]⟩
  · refine Yields.step (yields_draw hi fun j hj => ?_)
    simp only [hop]
    have hj := hj.upcoming (by simp [hop])
    exact chainNext hnl hright hrest htk hj rfl

theorem andOr {first : Node} {firstOpen : Bool} (hfirst : Accepted (.pipeline first firstOpen) ts)
    (hrest : Accepted (.chain first firstOpen n o) us) : Accepted (.andOr n o) (ts ++ us) := by
  obtain ⟨⟨tk, ts, rfl, hstarts⟩, hyields⟩ := hfirst
  refine ⟨⟨tk, ts ++ us, rfl, hstarts⟩, fun next rest i hnext hi => ?_⟩
  obtain ⟨⟨tk', rest', hts, htk'⟩, hchain⟩ := hrest next rest hnext
  rw [List.append_assoc, hts] at hi
  refine Yields.step ((hyields tk' rest' i htk' hi).bind fun j hj => ?_)
  rw [← hts] at hj
  exact hchain j hj

/-- The commands read so far and the last one make a list. -/
theorem finishes {acc : List Node} {node : Node}
    (hnode : Node.ofList (acc.reverse ++ [n]) = some node) (hi : Upcoming ts i) :
    Yields (fun _ => closeList (n :: acc)) i node ts := by
  simp only [closeList, List.reverse_cons, hnode]
  exact yields_pure hi

theorem lastItem {top : Bool} (h : Accepted (.andOr n o) ts) : Accepted (.items top [n] o) ts := by
  obtain ⟨hstarts, hyields⟩ := h
  refine ⟨hstarts, fun acc node tk rest left i hnode hleaves hi => ?_⟩
  cases hleaves with
  | newline hnl =>
      refine Yields.step ((hyields tk rest i (Token.endsChain_of_kind (by simp [hnl])) hi).bind ?_)
      refine fun j hj => yields_draw hj fun k hk => ?_
      simp only [hnl]
      exact finishes hnode (hk.upcoming (by simp [hnl]))
  | endOfInput hend =>
      refine Yields.step ((hyields tk rest i (Token.endsChain_of_kind (by simp [hend])) hi).bind ?_)
      refine fun j hj => yields_draw hj fun k hk => ?_
      simp only [hend]
      exact hk.yields_push fun l hl => finishes hnode hl
  | closer hcloses =>
      refine Yields.step ((hyields tk rest i hcloses.chain hi).bind fun j hj => ?_)
      refine yields_draw hj fun k hk => ?_
      have hends := hcloses.ends
      unfold Token.endsList at hends
      split at hends
      case h_5 => exact nomatch hends
      all_goals
        rename_i hkind
        simp only [hkind]
        exact hk.yields_push fun l hl => finishes hnode hl

/-- What comes after a separator: nothing more, or a command, with which the list comes to
`node`. -/
inductive AfterSeparator (top : Bool) (acc : List Node) (n : Node) (tk : Token)
    (rest : List Token) (node : Node) (left : List Token) : Prop
  | ends (hleaves : ListLeaves false tk rest top left)
    (hnode : Node.ofList (acc.reverse ++ [n]) = some node)
  | goesOn (hstarts : tk.StartsCommand) (hyields : ∀ i, Upcoming (tk :: rest) i →
      Yields (fun k => parseList top k (n :: acc)) i node left)

theorem AfterSeparator.yields_top {acc : List Node} {node : Node} {rest left : List Token}
    (h : AfterSeparator true acc n tk rest node left) (hi : Upcoming (tk :: rest) i) :
    Yields (fun k => continueList k true (n :: acc)) i node left := by
  refine (yields_peekToken hi).bind fun j hj => ?_
  cases h with
  | ends hleaves hnode =>
      cases hleaves with
      | newline hnl =>
          simp only [hnl]
          refine yields_draw hj fun k hk => finishes hnode ?_
          exact hk.upcoming (by simp [hnl])
      | endOfInput hend =>
          simp only [hend]
          exact finishes hnode hj
  | goesOn hstarts hyields =>
      split
      · exact absurd ‹_› hstarts.2
      · rename_i hend
        have hends := hstarts.1
        simp [Token.endsList, hend] at hends
      · exact hyields j hj

theorem AfterSeparator.yields_inner {acc : List Node} {node : Node} {rest left : List Token}
    (h : AfterSeparator false acc n tk rest node left) (hi : Upcoming (tk :: rest) i) :
    Yields (fun k => do
      if (← peekToken k).endsList then closeList (n :: acc)
      else parseList false k (n :: acc)) i node left := by
  refine (yields_peekToken hi).bind fun j hj => ?_
  cases h with
  | ends hleaves hnode =>
      cases hleaves with
      | closer hcloses =>
          simp only [if_pos hcloses.ends]
          exact finishes hnode hj
  | goesOn hstarts hyields =>
      simp only [if_neg (Bool.eq_false_iff.mp hstarts.1)]
      exact hyields j hj

theorem AfterSeparator.ne_newline {acc : List Node} {node : Node} {rest left : List Token}
    (h : AfterSeparator false acc n tk rest node left) : tk.kind ≠ .newline := by
  cases h with
  | ends hleaves _ =>
      cases hleaves with
      | closer hcloses =>
          intro hnl
          have hends := hcloses.ends
          simp [Token.endsList, hnl] at hends
  | goesOn hstarts _ => exact hstarts.2

/-- After the separator the newlines that belong to it are skipped. -/
theorem AfterSeparator.yields {top : Bool} {acc : List Node} {node : Node}
    {nl rest left : List Token} (h : AfterSeparator top acc n tk rest node left)
    (hnl : Newlines nl) (htop : top = true → nl = []) (hi : Upcoming (nl ++ tk :: rest) i) :
    Yields (fun k => continueList k top (n :: acc)) i node left := by
  cases top with
  | true =>
      obtain rfl := htop rfl
      exact h.yields_top hi
  | false => exact (yields_skipNewlines hnl hi h.ne_newline).bind fun j => h.yields_inner

/-- A command of a list and the separator after it. -/
theorem separated {top : Bool} {n' : Node} {acc : List Node} {node : Node}
    {rest left : List Token} (h : Accepted (.andOr n o) ts) (hsep : Separator top n n' us)
    (hnext : AfterSeparator top acc n' tk rest node left)
    (hi : Upcoming (ts ++ us ++ tk :: rest) i) :
    Yields (fun k => parseList top k acc) i node left := by
  obtain ⟨-, hyields⟩ := h
  rw [List.append_assoc] at hi
  refine Yields.step ?_
  unfold parseList
  cases hsep with
  | @semi sep nl _ hsep hnl htop =>
      refine (hyields sep _ i (Token.endsChain_of_kind (by simp [hsep])) hi).bind fun j hj => ?_
      refine yields_draw hj fun k hk => ?_
      simp only [hsep]
      exact hnext.yields hnl htop (hk.upcoming (by simp [hsep]))
  | @amp sep nl _ hsep hnl htop =>
      refine (hyields sep _ i (Token.endsChain_of_kind (by simp [hsep])) hi).bind fun j hj => ?_
      refine yields_draw hj fun k hk => ?_
      simp only [hsep]
      exact hnext.yields hnl htop (hk.upcoming (by simp [hsep]))
  | @newline sep nl _ hsep hnl htop =>
      refine (hyields sep _ i (Token.endsChain_of_kind (by simp [hsep])) hi).bind fun j hj => ?_
      refine yields_draw hj fun k hk => ?_
      subst htop
      simp only [hsep]
      exact hnext.yields hnl (fun h => absurd h Bool.false_ne_true) (hk.upcoming (by simp [hsep]))

theorem closedItem {top : Bool} {n' : Node} (h : Accepted (.andOr n o) ts)
    (hsep : Separator top n n' us) : Accepted (.items top [n'] false) (ts ++ us) := by
  obtain ⟨⟨first, ts, rfl, hstarts⟩, -⟩ := id h
  refine ⟨⟨first, ts ++ us, rfl, hstarts⟩, fun acc node tk rest left i hnode hleaves hi => ?_⟩
  exact separated h hsep (.ends hleaves hnode) hi

theorem item {top : Bool} {n' : Node} {ns : List Node} {o' : Bool} (h : Accepted (.andOr n o) ts)
    (hsep : Separator top n n' us) (hns : Accepted (.items top ns o') vs) :
    Accepted (.items top (n' :: ns) o') (ts ++ us ++ vs) := by
  obtain ⟨⟨first, ts, rfl, hstarts⟩, -⟩ := id h
  obtain ⟨⟨next, vs, rfl, hnext⟩, hyields⟩ := hns
  refine ⟨⟨first, ts ++ us ++ next :: vs, rfl, hstarts⟩, ?_⟩
  intro acc node tk rest left i hnode hleaves hi
  rw [List.append_assoc] at hi
  refine separated h hsep (.goesOn hnext fun j hj => ?_) hi
  exact hyields (n' :: acc) node tk rest left j (by simpa using hnode) hleaves hj

theorem block {ns : List Node} {nl : List Token} (hnl : Newlines nl)
    (hns : Accepted (.items false ns o) ts) (hn : Node.ofList ns = some n) :
    Accepted (.block n o) (nl ++ ts) := by
  refine ⟨nl, ts, rfl, hnl, hns.1, fun tk rest i htk hi => ?_⟩
  exact hns.2 [] n tk rest _ i hn (.closer htk) hi

end Accepted

/-- Every phrase is read from the tokens that spell it. -/
theorem Derives.accepted {p : Phrase} (h : Derives p ts) : Accepted p ts := by
  induction h with
  | simple hfirst hel => exact .simple hfirst hel
  | subshell hopen _ hclose hrs ih => exact .subshell hopen ih hclose hrs
  | unredirected _ ih => exact .unredirected ih
  | redirected _ hrs ih => exact .redirected ih hrs
  | function hname hfree hfname hid hopen hclose hnl hfirst _ ih =>
      exact .function hname hfree hfname hid hopen hclose hnl hfirst ih
  | brace hopen _ hclose ih => exact .brace hopen ih hclose
  | ifThen hkw _ hline ih => exact .ifThen hkw ih hline
  | whileDo hkw _ hdo _ hdone ihcond ihbody => exact .whileDo hkw ihcond hdo ihbody hdone
  | untilDo hkw _ hdo _ hdone ihcond ihbody => exact .untilDo hkw ihcond hdo ihbody hdone
  | forIn hkw hvar hid hnl hitems hnl' hdo _ hdone ih =>
      exact .forIn hkw hvar hid hnl hitems hnl' hdo ih hdone
  | caseOf hkw hword hnl hin _ ih => exact .caseOf hkw hword hnl hin ih
  | thenFi _ hthen _ hfi ihcond ihbody => exact .thenFi ihcond hthen ihbody hfi
  | thenElse _ hthen _ helse _ hfi ihcond ihbody ihother =>
      exact .thenElse ihcond hthen ihbody helse ihother hfi
  | thenElif _ hthen _ helif _ hline ihcond ihbody ihrest =>
      exact .thenElif ihcond hthen ihbody helif ihrest hline
  | emptyArm hnl => exact hnl
  | fullArm _ ih => exact ih
  | noArms hnl hesac => exact .noArms hnl hesac
  | lastArm hnl hps _ hesac ih => exact .lastArm hnl hps ih hesac
  | arm hnl hps _ hstop _ ihbody ihas => exact .arm hnl hps ihbody hstop ihas
  | lastStage _ ih => exact .lastStage ih
  | stage _ hbar hnl _ ih ihns => exact .stage ih hbar hnl ihns
  | plain hfirst _ ih => exact .plain hfirst ih
  | negated hbang _ ih => exact .negated hbang ih
  | chainEnd => exact .chainEnd
  | chainAnd hop hnl _ _ ihright ihrest => exact .chainAnd hop hnl ihright ihrest
  | chainOr hop hnl _ _ ihright ihrest => exact .chainOr hop hnl ihright ihrest
  | andOr _ _ ihfirst ihrest => exact .andOr ihfirst ihrest
  | lastItem _ ih => exact .lastItem ih
  | closedItem _ hsep ih => exact .closedItem ih hsep
  | item _ hsep _ ih ihns => exact .item ih hsep ihns
  | block hnl _ hn ih => exact .block hnl ih hn

end CommandShell.Script
