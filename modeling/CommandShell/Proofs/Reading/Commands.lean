import CommandShell.Proofs.Reading.Words

/-!
# Reading commands takes a bounded number of steps

Every function that reads commands takes a token before it calls itself, directly or through others,
or hands on a token that it has in hand. The steps that a chain of calls takes without a token in
between are few enough to be paid by the one that came before.
-/

namespace CommandShell.Script

open Reader

variable {A : Table Text} {α β : Type} {n : Nat} {i : Input}

/-! ## Tokens in hand -/

theorem Token.weight_pos {tk : Token} (h : tk.kind ≠ .endOfInput) {lvl : Nat} (hl : 0 < lvl) :
    0 < tk.weight lvl := by
  unfold Token.weight
  split
  · exact absurd ‹_› h
  · exact wordWeight_pos hl _
  · exact Nat.one_pos

theorem Token.kind_of_word? {tk : Token} {w : Word} (h : tk.word? = some w) :
    tk.kind = .word w := by
  unfold Token.word? at h
  split at h
  · rename_i v hv
    rw [hv, Option.some.inj h]
  · exact nomatch h

theorem Token.kind_of_literal? {tk : Token} {t : Text} (h : tk.literal? = some t) :
    ∃ w, tk.kind = .word w ∧ w.literal? = some t := by
  obtain ⟨w, hw, ht⟩ := Option.bind_eq_some_iff.mp h
  exact ⟨w, Token.kind_of_word? hw, ht⟩

theorem Token.weight_of_literal? {tk : Token} {t : Text} (h : tk.literal? = some t) (lvl : Nat) :
    tk.weight lvl = lvl := by
  obtain ⟨w, hw, ht⟩ := Token.kind_of_literal? h
  unfold Word.literal? at ht
  split at ht
  · rename_i s hs
    simp only [Token.weight, hw, hs, wordWeight]
  · contradiction

theorem Token.kind_ne_of_isKeyword {tk : Token} {kw : Text} (h : tk.isKeyword kw = true) :
    tk.kind ≠ .endOfInput := by
  obtain ⟨w, hw, -⟩ := Token.kind_of_literal? (beq_iff_eq.mp h)
  exact fun he => nomatch hw.symm.trans he

theorem Token.kind_of_isNewline {tk : Token} (h : tk.isNewline = true) : tk.kind = .newline := by
  unfold Token.isNewline at h
  split at h
  · assumption
  · exact nomatch h

theorem Token.kind_of_isRightParen {tk : Token} (h : tk.isRightParen = true) :
    tk.kind = .rightParen := by
  unfold Token.isRightParen at h
  split at h
  · assumption
  · exact nomatch h

theorem Token.kind_of_isLeftParen {tk : Token} (h : tk.isLeftParen = true) :
    tk.kind = .leftParen := by
  unfold Token.isLeftParen at h
  split at h
  · assumption
  · exact nomatch h

theorem GotToken.consumes {w : Nat} {tk : Token} {j : Input} (h : GotToken A w tk j) :
    Consumes A w 0 j :=
  ⟨h.toSane, Nat.le_trans (Nat.le_add_right _ _) h.weight⟩

/-- A token that is not the end was paid for. -/
theorem GotToken.taken {w : Nat} {tk : Token} {j : Input} (h : GotToken A w tk j)
    (hk : tk.kind ≠ .endOfInput) : Consumes A w 1 j :=
  ⟨h.toSane, by have := h.weight; have := Token.weight_pos hk j.lvl_pos; omega⟩

theorem Consumes.le {w k m : Nat} {j : Input} (h : Consumes A w k j) (hm : m ≤ k) :
    Consumes A w m j :=
  ⟨h.toSane, by have := h.weight; omega⟩

theorem Consumes.trans {w k m : Nat} {j l : Input} (h : Consumes A w k j)
    (h' : Consumes A j.weight m l) : Consumes A w (k + m) l :=
  ⟨h'.toSane, by have := h.weight; have := h'.weight; omega⟩

theorem Consumes.gotToken {w k : Nat} {j l : Input} {tk : Token} (h : Consumes A w k j)
    (h' : GotToken A j.weight tk l) : GotToken A w tk l :=
  ⟨h'.toLexing, by have := h.weight; have := h'.weight; omega⟩

theorem consumes_refl (hi : Sane A i) : Consumes A i.weight 0 i := ⟨hi, Nat.le_refl _⟩

/-- What follows a part of the reading, with what it spent. -/
theorem Consumes.ends {w k m l : Nat} {j : Input} {r : Reader α} (h : Consumes A w k j)
    (hr : Ends (fun _ => Consumes A j.weight m) r j) (hl : l ≤ k + m) :
    Ends (fun _ => Consumes A w l) r j :=
  hr.mono fun _ _ hm => (h.trans hm).le hl

theorem pushToken_ends {w : Nat} {tk : Token} (h : GotToken A w tk i) :
    Ends (fun _ j => Consumes A w 0 j ∧ j.pushback = some tk) (pushToken tk) i := by
  have hlvl : { i with pushback := some tk }.lvl = i.lvl := rfl
  have hweight : { i with pushback := some tk }.weight = i.weight + tk.weight i.lvl := by
    simp only [Input.weight, hlvl, h.pushback, Option.elim]
    omega
  refine ⟨⟨{ h.toSane with }, ?_⟩, rfl⟩
  show { i with pushback := some tk }.weight + 0 ≤ w
  rw [hweight]
  exact h.weight

theorem unexpected_ends {Q : α → Input → Prop} {tk : Token} {expecting : Option Text}
    (hi : Sane A i) : Ends Q (unexpected tk expecting) i :=
  ⟨fun h => (nomatch h), hi.proper⟩

namespace Suffices

theorem peekToken_succ (h : Suffices A n) (hi : Sane A i) (hn : 20 * i.weight + 4 ≤ n + 1) :
    Ends (fun tk j => Consumes A i.weight 0 j ∧ j.pushback = some tk)
      (Script.peekToken (n + 1)) i := by
  unfold Script.peekToken
  exact (h.nextToken hi (by omega)).bind fun tk j hj => (pushToken_ends hj).bind fun _ _ hk => hk

theorem expectKeyword_succ (h : Suffices A n) {kw : Text} (hi : Sane A i)
    (hn : 20 * i.weight + 4 ≤ n + 1) :
    Ends (fun _ => Consumes A i.weight 0) (Script.expectKeyword kw (n + 1)) i := by
  unfold Script.expectKeyword
  refine (h.nextToken hi (by omega)).bind fun tk j hj => ?_
  exact .ite (fun _ => hj.consumes) fun _ => unexpected_ends hj.toSane

/-- The token that was looked at is taken. -/
theorem nextToken_again {tk : Token} (hi : Sane A i) (hp : i.pushback = some tk) (hn : 1 ≤ n) :
    Ends (fun tk' j => tk' = tk ∧ GotToken A i.weight tk j) (Script.nextToken n) i := by
  obtain ⟨m, rfl⟩ := Nat.exists_eq_add_of_le' hn
  unfold Ends Meets
  rw [nextToken_pushback hp]
  exact ⟨rfl, gotToken_pushback hi hp⟩

theorem skipNewlines_succ (h : Suffices A n) (hi : Sane A i) (hn : 20 * i.weight + 5 ≤ n + 1) :
    Ends (fun _ => Consumes A i.weight 0) (Script.skipNewlines (n + 1)) i := by
  unfold Script.skipNewlines
  refine (h.peekToken hi (by omega)).bind ?_
  rintro tk j ⟨hj, hp⟩
  refine .ite (fun hnl => ?_) fun _ => hj
  refine (nextToken_again hj.toSane hp (by omega)).bind ?_
  rintro _ k ⟨_, hk⟩
  have hne : tk.kind ≠ .endOfInput := by simp [Token.kind_of_isNewline hnl]
  have hk1 := hj.trans (hk.taken hne)
  have hw := hk1.weight
  exact hk1.ends (h.skipNewlines hk.toSane (by omega)) (Nat.zero_le _)

theorem aliasText?_ends (name : Text) : Ends (fun t j => j = i ∧ ∀ text, t = some text →
    i.frames.any (fun f => f.name == name) = false ∧ i.aliases.get? name = some text)
    (aliasText? name) i := by
  unfold aliasText?
  refine meets_get.mpr (.ite (fun _ => ⟨rfl, fun _ h => nomatch h⟩) fun hnew => ⟨rfl, ?_⟩)
  exact fun text htext => ⟨Bool.eq_false_iff.mpr hnew, htext⟩

/-- An alias weighs less than its name did. -/
theorem pushAlias_ends (hA : ∀ b ∈ A.toList, Plain b.2) {w : Nat} {name text : Text}
    (hi : Lexing A i) (hw : i.weight + i.lvl ≤ w)
    (hnew : i.frames.any (fun f => f.name == name) = false)
    (htext : i.aliases.get? name = some text) :
    Ends (fun _ => Consumes A w 1) (pushAlias name text) i := by
  have hmem : (name, text) ∈ A.toList := Table.mem_of_get? (hi.aliases ▸ htext)
  generalize hf : ({
      name := name
      rest := text
      endsBlank := text.getLast?.any fun c => c == ' ' || c == '\t'
      spent := false } : AliasFrame) = f
  have hname : f.name = name := hf ▸ rfl
  have hrest : f.rest = text := hf ▸ rfl
  have hspent : f.spent = false := hf ▸ rfl
  have hunfold : (pushAlias name text).on i = (.ok (), { i with
      expanded := { name, within := i.inUse } :: i.expanded
      frames := f :: i.frames }) := by
    rw [← hf]
    rfl
  unfold Ends Meets
  rw [hunfold]
  constructor
  · refine { hi.toSane with spent := ?_, plain := ?_, proper := ?_, quiet := ?_ }
    · intro g hg hgs
      rcases List.mem_cons.mp hg with rfl | hg
      · exact nomatch hspent.symm.trans hgs
      · exact hi.spent g hg hgs
    · intro g hg
      rcases List.mem_cons.mp hg with rfl | hg
      · exact hrest ▸ hA _ hmem
      · exact hi.plain g hg
    · intro u hu
      rcases List.mem_cons.mp hu with rfl | hu
      · have hframes := List.any_eq_false.mp hnew
        rw [Input.inUse, hi.within, List.append_nil]
        intro h
        obtain ⟨g, hg, hgn⟩ := List.mem_map.mp h
        exact hframes g hg (beq_iff_eq.mpr hgn)
      · exact hi.proper u hu
    · exact fun h => nomatch h ▸ hmem
  · -- inside the alias a character weighs little enough for all of its text
    have hlvl : i.lvl = level A (live i.frames) := by rw [Input.lvl, hi.aliases]
    have hlow := level_cons_mul_growth_le (hname ▸ hmem) (live_subset i.frames) (hname ▸ hnew)
    have hlong := Nat.mul_le_mul_left (level A (f :: i.frames)) (length_add_two_le_growth hmem)
    have hunread : i.unread.length * level A (f :: i.frames) ≤ i.unread.length * i.lvl := by
      refine Nat.mul_le_mul_left _ (hlvl ▸ Nat.le_trans ?_ hlow)
      exact Nat.le_mul_of_pos_right _ (growth_pos A)
    have hpos := level_pos A (f :: i.frames)
    have hinner : level A (live (f :: i.frames)) = level A (f :: i.frames) := by
      rw [live, if_neg (by simp [hspent])]
    have hsize : f.size = text.length + 1 := by simp [AliasFrame.size, hrest, hspent]
    simp only [Input.weight, Input.lvl, hi.aliases, hi.pushback, hinner, framesWeight, hsize,
      Option.elim] at hw hunread ⊢
    rw [Nat.mul_comm, Nat.add_mul] at hlong
    rw [Nat.add_mul]
    omega

theorem expandAlias_succ (h : Suffices A n) (hA : ∀ b ∈ A.toList, Plain b.2) {w : Nat}
    {tk : Token} (hi : GotToken A w tk i) (hn : 20 * w + 1 ≤ n + 1) :
    Ends (GotToken A w) (Script.expandAlias (n + 1) tk) i := by
  unfold Script.expandAlias
  split
  · exact hi
  · rename_i name hname
    obtain ⟨hliteral, -⟩ := Option.filter_eq_some_iff.mp hname
    have hw := hi.weight
    rw [Token.weight_of_literal? hliteral] at hw
    refine (aliasText?_ends name).bind ?_
    rintro t j ⟨hj, htext⟩
    subst hj
    cases t with
    | none => exact hi
    | some text =>
        obtain ⟨hnew, hget⟩ := htext text rfl
        refine (pushAlias_ends hA hi.toLexing hw hnew hget).bind fun _ k hk => ?_
        have hwk := hk.weight
        refine (h.nextToken hk.toSane (by omega)).bind fun tk' l hl => ?_
        refine (h.expandAlias hl (by omega)).mono fun tk'' m hm => ?_
        exact hk.gotToken hm

theorem commandToken_succ (h : Suffices A n) (hi : Sane A i) (hn : 20 * i.weight + 4 ≤ n + 1) :
    Ends (GotToken A i.weight) (Script.commandToken (n + 1)) i := by
  unfold Script.commandToken
  have hi' : Sane A { i with aliasBlank := false } :=
    { hi with quiet := fun h => ⟨(hi.quiet h).1, rfl⟩ }
  have hw : { i with aliasBlank := false }.weight = i.weight := rfl
  show Ends _ (Script.nextToken n >>= Script.expandAlias n) { i with aliasBlank := false }
  refine (h.nextToken hi' (by omega)).bind fun tk j hj => ?_
  rw [hw] at hj
  exact h.expandAlias hj (by omega)

/-! ## Lists -/

theorem parseTop_succ (h : Suffices A n) (hi : Sane A i) (hn : 20 * i.weight + 8 ≤ n + 1) :
    Ends (fun p j => Consumes A i.weight 0 j ∧ (p ≠ .done → Consumes A i.weight 1 j))
      (Script.parseTop (n + 1)) i := by
  unfold Script.parseTop
  have hi' : Sane A { i with primary := true } := { hi with }
  have hw : { i with primary := true }.weight = i.weight := rfl
  show Ends _ (Script.nextToken n >>= fun tk => _) { i with primary := true }
  refine (h.nextToken hi' (by omega)).bind fun tk j hj => ?_
  rw [hw] at hj
  split
  · exact ⟨hj.consumes, fun h => absurd rfl h⟩
  · rename_i hk
    exact ⟨hj.consumes, fun _ => hj.taken (by simp [hk])⟩
  · refine (pushToken_ends hj).bind ?_
    rintro _ k ⟨hk, _⟩
    have hwk := hk.weight
    refine (h.parseList hk.toSane (by omega)).bind fun node l hl => ?_
    have hl1 := hk.trans hl
    exact ⟨hl1.le (Nat.zero_le _), fun _ => hl1.le (by omega)⟩

theorem parseAllFrom_succ (h : Suffices A n) {acc : List Node} (hi : Sane A i)
    (hn : 20 * i.weight + 9 ≤ n + 1) :
    Ends (fun _ => Consumes A i.weight 0) (Script.parseAllFrom (n + 1) acc) i := by
  unfold Script.parseAllFrom
  refine (h.parseTop hi (by omega)).bind ?_
  rintro p j ⟨hj, hmore⟩
  have hagain : p ≠ .done → ∀ acc, Ends (fun _ => Consumes A i.weight 0)
      (Script.parseAllFrom n acc) j := by
    intro hp acc
    have hj1 := hmore hp
    have hw := hj1.weight
    exact hj1.ends (h.parseAllFrom hj1.toSane (by omega)) (Nat.zero_le _)
  cases p with
  | done => exact hj
  | empty => exact hagain (fun h => nomatch h) acc
  | command node => exact hagain (fun h => nomatch h) (node :: acc)

theorem parseSubstitution_succ (h : Suffices A n) (hi : Lexing A i)
    (hn : 20 * i.weight + 9 ≤ n + 1) :
    Ends (fun _ => Spends A i 0) (Script.parseSubstitution (n + 1)) i := by
  unfold Script.parseSubstitution
  refine (h.skipNewlines hi.toSane (by omega)).bind fun _ j hj => ?_
  have hwj := hj.weight
  refine (h.peekToken hj.toSane (by omega)).bind ?_
  rintro tk k ⟨hk, _⟩
  have hk1 := hj.trans hk
  have hwk := hk1.weight
  -- the closing parenthesis is taken, and characters follow
  have hclose : ∀ {w tk l}, Consumes A i.weight 0 w → GotToken A w.weight tk l →
      Spends A i 0 l := by
    intro w tk l hw hl
    have := hw.weight
    have := hl.consumes.weight
    exact ⟨hl.toLexing, by omega⟩
  refine .ite (fun _ => ?_) fun _ => ?_
  · exact (h.nextToken hk.toSane (by omega)).bind fun tk l hl => hclose hk1 hl
  · refine (h.parseInner hk.toSane (by omega)).bind fun node l hl => ?_
    have hl1 := hk1.trans hl
    have hwl := hl1.weight
    refine (h.nextToken hl.toSane (by omega)).bind fun tk m hm => ?_
    exact .ite (fun _ => hclose hl1 hm) fun _ => unexpected_ends hm.toSane

theorem parseInner_succ (h : Suffices A n) (hi : Sane A i) (hn : 20 * i.weight + 8 ≤ n + 1) :
    Ends (fun _ => Consumes A i.weight 0) (Script.parseInner (n + 1)) i := by
  unfold Script.parseInner
  refine (h.skipNewlines hi (by omega)).bind fun _ j hj => ?_
  have hw := hj.weight
  exact hj.ends (h.parseList hj.toSane (by omega)) (Nat.zero_le _)

theorem parseList_succ (h : Suffices A n) {top : Bool} {acc : List Node} (hi : Sane A i)
    (hn : 20 * i.weight + 7 ≤ n + 1) :
    Ends (fun _ => Consumes A i.weight 1) (Script.parseList top (n + 1) acc) i := by
  rw [parseList_eq]
  refine (h.parseAndOr hi (by omega)).bind fun node j hj => ?_
  have hwj := hj.weight
  refine (h.nextToken hj.toSane (by omega)).bind fun tk k hk => ?_
  have hpush : ∀ {l}, Consumes A j.weight 0 l → Consumes A i.weight 1 l := hj.trans
  have hfinish : ∀ {acc l}, Consumes A i.weight 1 l →
      Ends (fun _ => Consumes A i.weight 1) (closeList acc) l := by
    intro acc l hl
    unfold closeList
    split
    · exact hl
    · exact fail_ends hl.toSane (by decide)
  -- what comes after a separator is paid by it
  have hgoOn : ∀ {acc}, tk.kind ≠ .endOfInput →
      Ends (fun _ => Consumes A i.weight 1) (continueList n top acc) k := by
    intro acc hne
    have hk2 := hj.trans (hk.taken hne)
    have hwk := hk2.weight
    have hagain : ∀ {l}, Consumes A i.weight 2 l → Ends (fun _ => Consumes A i.weight 1)
        (Script.parseList top n acc) l := by
      intro l hl
      have hwl := hl.weight
      exact hl.ends (h.parseList hl.toSane (by omega)) (by omega)
    refine .ite (fun _ => ?_) fun _ => ?_
    · refine (h.peekToken hk.toSane (by omega)).bind ?_
      rintro tk l ⟨hl, _⟩
      have hl2 := hk2.trans hl
      have hwl := hl2.weight
      split
      · refine (h.nextToken hl.toSane (by omega)).bind fun tk m hm => ?_
        exact hfinish ((hl2.trans hm.consumes).le (by omega))
      · exact hfinish (hl2.le (by omega))
      · exact hagain hl2
    · refine (h.skipNewlines hk.toSane (by omega)).bind fun _ l hl => ?_
      have hl2 := hk2.trans hl
      have hwl := hl2.weight
      refine (h.peekToken hl.toSane (by omega)).bind ?_
      rintro tk m ⟨hm, _⟩
      exact .ite (fun _ => hfinish ((hl2.trans hm).le (by omega))) fun _ => hagain (hl2.trans hm)
  split
  · rename_i hk'
    exact hgoOn fun h => nomatch hk'.symm.trans h
  · rename_i hk'
    exact hgoOn fun h => nomatch hk'.symm.trans h
  · rename_i hk'
    refine .ite (fun _ => hfinish (hpush hk.consumes)) fun _ => ?_
    exact hgoOn fun h => nomatch hk'.symm.trans h
  · refine (pushToken_ends hk).bind ?_
    rintro _ l ⟨hl, _⟩
    exact hfinish (hpush hl)
  · refine .ite (fun _ => unexpected_ends hk.toSane) fun _ => ?_
    refine (pushToken_ends hk).bind ?_
    rintro _ l ⟨hl, _⟩
    exact hfinish (hpush hl)

theorem parseAndOr_succ (h : Suffices A n) (hi : Sane A i) (hn : 20 * i.weight + 6 ≤ n + 1) :
    Ends (fun _ => Consumes A i.weight 1) (Script.parseAndOr (n + 1)) i := by
  unfold Script.parseAndOr
  refine (h.parsePipeline hi (by omega)).bind fun first j hj => ?_
  have hw := hj.weight
  exact hj.ends (h.parseAndOrRest hj.toSane (by omega)) (Nat.le_refl _)

theorem parseAndOrRest_succ (h : Suffices A n) {left : Node} (hi : Sane A i)
    (hn : 20 * i.weight + 4 ≤ n + 1) :
    Ends (fun _ => Consumes A i.weight 0) (Script.parseAndOrRest (n + 1) left) i := by
  unfold Script.parseAndOrRest
  refine (h.nextToken hi (by omega)).bind fun tk j hj => ?_
  have hright : ∀ {f : Node → Node}, tk.kind ≠ .endOfInput →
      Ends (fun _ => Consumes A i.weight 0) (do
        Script.skipNewlines n
        let right ← Script.parsePipeline n
        Script.parseAndOrRest n (f right)) j := by
    intro f hne
    have hj1 := hj.taken hne
    have hwj := hj1.weight
    refine (h.skipNewlines hj.toSane (by omega)).bind fun _ k hk => ?_
    have hk1 := hj1.trans hk
    have hwk := hk1.weight
    refine (h.parsePipeline hk.toSane (by omega)).bind fun right l hl => ?_
    have hl1 := hk1.trans hl
    have hwl := hl1.weight
    exact hl1.ends (h.parseAndOrRest hl.toSane (by omega)) (Nat.zero_le _)
  split
  · rename_i hk
    exact hright (by simp [hk])
  · rename_i hk
    exact hright (by simp [hk])
  · refine (pushToken_ends hj).bind ?_
    rintro _ k ⟨hk, _⟩
    exact hk

theorem parsePipeline_succ (h : Suffices A n) (hi : Sane A i)
    (hn : 20 * i.weight + 5 ≤ n + 1) :
    Ends (fun _ => Consumes A i.weight 1) (Script.parsePipeline (n + 1)) i := by
  rw [parsePipeline_eq]
  have hrest : ∀ {negated : Bool} {line tk j}, GotToken A i.weight tk j →
      Ends (fun _ => Consumes A i.weight 1) (parsePipelineFrom n negated line tk) j := by
    intro negated line tk j hj
    refine (h.parseCommandAt hj (by omega)).bind fun stage k hk => ?_
    have hw := hk.weight
    refine (h.parseStages hk.toSane (by omega)).bind fun stages l hl => ?_
    exact hk.trans hl
  refine (h.commandToken hi (by omega)).bind fun first j hj => ?_
  refine .ite (fun _ => ?_) fun _ => hrest hj
  have hw := hj.consumes.weight
  refine (h.commandToken hj.toSane (by omega)).bind fun tk k hk => ?_
  exact hrest (hj.consumes.gotToken hk)

theorem parseStages_succ (h : Suffices A n) {acc : List Node} (hi : Sane A i)
    (hn : 20 * i.weight + 4 ≤ n + 1) :
    Ends (fun _ => Consumes A i.weight 0) (Script.parseStages (n + 1) acc) i := by
  unfold Script.parseStages
  refine (h.nextToken hi (by omega)).bind fun tk j hj => ?_
  split
  · rename_i hpipe
    have hj1 := hj.taken (by simp [hpipe])
    have hwj := hj1.weight
    refine (h.skipNewlines hj.toSane (by omega)).bind fun _ k hk => ?_
    have hk1 := hj1.trans hk
    have hwk := hk1.weight
    refine (h.commandToken hk.toSane (by omega)).bind fun tk l hl => ?_
    refine (h.parseCommandAt hl (by omega)).bind fun stage m hm => ?_
    have hm1 := hk1.trans hm
    have hwm := hm1.weight
    exact hm1.ends (h.parseStages hm.toSane (by omega)) (Nat.zero_le _)
  · refine (pushToken_ends hj).bind ?_
    rintro _ k ⟨hk, _⟩
    exact hk

/-! ## Commands -/

theorem parseCommandAt_succ (h : Suffices A n) {w : Nat} {tk : Token} (hi : GotToken A w tk i)
    (hn : 20 * w + 2 ≤ n + 1) :
    Ends (fun _ => Consumes A w 1) (Script.parseCommandAt (n + 1) tk) i := by
  unfold Script.parseCommandAt
  have hsimple : tk.InSimple → Ends (fun _ => Consumes A w 1)
      (Script.parseSimple n tk.line [] [] [] tk) i :=
    fun htk => (h.parseSimple hi (by omega)).mono fun _ _ hj => hj.2 htk
  split
  · rename_i hk
    have hi1 := hi.taken (by simp [hk])
    have hwi := hi1.weight
    refine (h.parseInner hi.toSane (by omega)).bind fun body j hj => ?_
    have hj1 := hi1.trans hj
    have hwj := hj1.weight
    refine (h.nextToken hj.toSane (by omega)).bind fun close k hk => ?_
    have hk1 := hj1.trans hk.consumes
    have hwk := hk1.weight
    refine .ite (fun _ => ?_) fun _ => ?_
    · have hfail : Ends (fun _ _ => False) (unexpected close (some ")") : Reader PUnit) k :=
        unexpected_ends hk.toSane
      exact hfail.bind fun _ _ h => h.elim
    · exact (h.parseRedirects hk.toSane (by omega)).bind fun redirects l hl => hk1.trans hl
  · rename_i hk
    exact hsimple (.inr ⟨_, _, hk⟩)
  · rename_i v hk
    have hi1 := hi.taken (by simp [hk])
    have hwi := hi1.weight
    have hword := hsimple (.inl ⟨v, hk⟩)
    have hclose : ∀ {body : Reader Node}, Ends (fun _ => Consumes A i.weight 0) body i →
        Ends (fun _ => Consumes A w 1) (do Script.closeCompound n tk.line (← body)) i := by
      intro body hbody
      refine hbody.bind fun node j hj => ?_
      have hj1 := hi1.trans hj
      have hwj := hj1.weight
      exact hj1.ends (h.closeCompound hj.toSane (by omega)) (Nat.le_refl _)
    split
    · exact hword
    · refine .ite (fun _ => hclose (h.parseIf hi.toSane (by omega))) fun _ => ?_
      refine .ite (fun _ => hclose (h.parseLoop hi.toSane (by omega))) fun _ => ?_
      refine .ite (fun _ => hclose (h.parseLoop hi.toSane (by omega))) fun _ => ?_
      refine .ite (fun _ => hclose (h.parseFor hi.toSane (by omega))) fun _ => ?_
      refine .ite (fun _ => hclose (h.parseCase hi.toSane (by omega))) fun _ => ?_
      refine .ite (fun _ => ?_) fun _ => ?_
      · refine (h.parseInner hi.toSane (by omega)).bind fun body j hj => ?_
        have hj1 := hi1.trans hj
        have hwj := hj1.weight
        refine (h.expectKeyword hj.toSane (by omega)).bind fun _ k hk => ?_
        have hk1 := hj1.trans hk
        have hwk := hk1.weight
        exact hk1.ends (h.closeCompound hk.toSane (by omega)) (Nat.le_refl _)
      · exact .ite (fun _ => unexpected_ends hi.toSane) fun _ => hword
  · exact unexpected_ends hi.toSane

theorem closeCompound_succ (h : Suffices A n) {line : Nat} {body : Node} (hi : Sane A i)
    (hn : 20 * i.weight + 5 ≤ n + 1) :
    Ends (fun _ => Consumes A i.weight 0) (Script.closeCompound (n + 1) line body) i := by
  unfold Script.closeCompound
  refine (h.parseRedirects hi (by omega)).bind fun redirects j hj => ?_
  cases redirects with
  | nil => exact hj
  | cons r rs => exact hj

theorem parseSimple_succ (h : Suffices A n) {line : Nat} {assigns argv : List Word}
    {redirects : List Redirect} {w : Nat} {tk : Token} (hi : GotToken A w tk i)
    (hn : 20 * w + 1 ≤ n + 1) :
    Ends (fun _ j => Consumes A w 0 j ∧ (tk.InSimple → Consumes A w 1 j))
      (Script.parseSimple (n + 1) line assigns argv redirects tk) i := by
  unfold Script.parseSimple
  dsimp only
  -- the next token, with the token in hand paid for
  have hgoOn : ∀ {assigns argv redirects j}, Consumes A w 1 j →
      Ends (fun _ j => Consumes A w 0 j ∧ (tk.InSimple → Consumes A w 1 j)) (do
        let tk ← Script.nextToken n
        if ← takeAliasBlank then
          let tk ← Script.expandAlias n tk
          Script.parseSimple n line assigns argv redirects tk
        else Script.parseSimple n line assigns argv redirects tk) j := by
    intro assigns argv redirects j hj
    have hwj := hj.weight
    have hrest : ∀ {tk' k}, GotToken A j.weight tk' k →
        Ends (fun _ l => Consumes A w 0 l ∧ (tk.InSimple → Consumes A w 1 l))
          (Script.parseSimple n line assigns argv redirects tk') k := by
      intro tk' k hk
      refine (h.parseSimple hk (by omega)).mono fun _ l hl => ?_
      have hl1 := hj.trans hl.1
      exact ⟨hl1.le (Nat.zero_le _), fun _ => hl1⟩
    refine (h.nextToken hj.toSane (by omega)).bind fun tk' k hk => ?_
    have hk' : GotToken A j.weight tk' { k with aliasBlank := false } :=
      ⟨{ hk.toLexing with quiet := fun h => ⟨(hk.quiet h).1, rfl⟩ }, hk.weight⟩
    show Ends _ (if k.aliasBlank then _ else _) { k with aliasBlank := false }
    refine .ite (fun _ => ?_) fun _ => hrest hk'
    exact (h.expandAlias hk' (by omega)).bind fun tk'' l hl => hrest hl
  split
  · rename_i hk
    have hi1 := hi.taken (by simp [hk])
    have hwi := hi1.weight
    exact (h.parseRedirect hi.toSane (by omega)).bind fun r j hj => hgoOn (hi1.trans hj)
  · rename_i v hk
    have hi1 := hi.taken (by simp [hk])
    have hwi := hi1.weight
    refine .ite (fun _ => hgoOn hi1) fun _ => .ite (fun _ => ?_) fun _ => hgoOn hi1
    refine (h.peekToken hi.toSane (by omega)).bind ?_
    rintro tk' j ⟨hj, _⟩
    have hj1 := hi1.trans hj
    have hwj := hj1.weight
    refine .ite (fun _ => ?_) fun _ => hgoOn hj1
    refine (h.parseFunction hj.toSane (by omega)).mono fun _ k hk => ?_
    have hk1 := hj1.trans hk
    exact ⟨hk1.le (Nat.zero_le _), fun _ => hk1⟩
  · rename_i hredirect hword
    refine (pushToken_ends hi).bind fun _ j ⟨hj, _⟩ => ⟨hj, fun h => ?_⟩
    rcases h with ⟨v, hv⟩ | ⟨fd, op, hr⟩
    · exact absurd hv (hword v)
    · exact absurd hr (hredirect fd op)

theorem parseFunction_succ (h : Suffices A n) {name : Word} {line : Nat} (hi : Sane A i)
    (hn : 20 * i.weight + 9 ≤ n + 1) :
    Ends (fun _ => Consumes A i.weight 0) (Script.parseFunction (n + 1) name line) i := by
  unfold Script.parseFunction
  refine (h.nextToken hi (by omega)).bind fun _ j hj => ?_
  have hj0 := hj.consumes
  have hwj := hj0.weight
  refine (h.nextToken hj.toSane (by omega)).bind fun tk k hk => ?_
  have hk0 := hj0.trans hk.consumes
  have hwk := hk0.weight
  refine .ite (fun _ => ?_) fun _ => ?_
  · have hfail : Ends (fun _ _ => False) (unexpected tk (some ")") : Reader PUnit) k :=
      unexpected_ends hk.toSane
    exact hfail.bind fun _ _ h => h.elim
  · split
    · exact ⟨fun h => (nomatch h), hk.toSane.proper⟩
    · refine (h.skipNewlines hk.toSane (by omega)).bind fun _ l hl => ?_
      have hl0 := hk0.trans hl
      have hwl := hl0.weight
      refine (h.commandToken hl.toSane (by omega)).bind fun tk m hm => ?_
      refine .ite (fun _ => ?_) fun _ => unexpected_ends hm.toSane
      refine (h.parseCommandAt hm (by omega)).bind fun body o ho => ?_
      exact (hl0.trans ho).le (Nat.zero_le _)

theorem parseRedirect_succ (h : Suffices A n) {fd : Option Nat} {op : RedirectOp}
    (hi : Sane A i) (hn : 20 * i.weight + 4 ≤ n + 1) :
    Ends (fun _ => Consumes A i.weight 0) (Script.parseRedirect (n + 1) fd op) i := by
  unfold Script.parseRedirect
  refine (h.nextToken hi (by omega)).bind fun tk j hj => ?_
  split
  · rename_i v hk
    have hj1 := hj.taken (by simp [hk])
    have hwj := hj1.weight
    -- the word pays for the body that is to come
    have hrequest : ∀ {delimiter stripTabs quoted}, Ends (fun _ => Consumes A i.weight 0)
        (requestHereDoc delimiter stripTabs quoted) j := by
      intro delimiter stripTabs quoted
      refine ⟨{ hj.toSane with }, Nat.le_trans (Nat.le_of_eq ?_) hwj⟩
      show _ + (j.pending ++ [_]).length + 0 = j.weight + 1
      rw [List.length_append]
      rfl
    split
    · exact hrequest.bind fun _ k hk => hk
    · exact hrequest.bind fun _ k hk => hk
    · exact hj1.le (Nat.zero_le _)
  · exact unexpected_ends hj.toSane

theorem parseRedirects_succ (h : Suffices A n) {acc : List Redirect} (hi : Sane A i)
    (hn : 20 * i.weight + 4 ≤ n + 1) :
    Ends (fun _ => Consumes A i.weight 0) (Script.parseRedirects (n + 1) acc) i := by
  unfold Script.parseRedirects
  refine (h.nextToken hi (by omega)).bind fun tk j hj => ?_
  split
  · rename_i hk
    have hj1 := hj.taken (by simp [hk])
    have hwj := hj1.weight
    refine (h.parseRedirect hj.toSane (by omega)).bind fun r k hk => ?_
    have hk1 := hj1.trans hk
    have hwk := hk1.weight
    exact hk1.ends (h.parseRedirects hk.toSane (by omega)) (Nat.zero_le _)
  · refine (pushToken_ends hj).bind ?_
    rintro _ k ⟨hk, _⟩
    exact hk

/-! ## Constructs -/

theorem parseIf_succ (h : Suffices A n) {line : Nat} (hi : Sane A i)
    (hn : 20 * i.weight + 9 ≤ n + 1) :
    Ends (fun _ => Consumes A i.weight 0) (Script.parseIf (n + 1) line) i := by
  unfold Script.parseIf
  refine (h.parseInner hi (by omega)).bind fun cond j hj => ?_
  have hwj := hj.weight
  refine (h.expectKeyword hj.toSane (by omega)).bind fun _ k hk => ?_
  have hk0 := hj.trans hk
  have hwk := hk0.weight
  refine (h.parseInner hk.toSane (by omega)).bind fun thenBody l hl => ?_
  have hl0 := hk0.trans hl
  have hwl := hl0.weight
  refine (h.nextToken hl.toSane (by omega)).bind fun tk m hm => ?_
  refine .ite (fun hkw => ?_) fun _ => .ite (fun hkw => ?_) fun _ => ?_
  · have hm1 := hl0.trans (hm.taken (Token.kind_ne_of_isKeyword hkw))
    have hwm := hm1.weight
    refine (h.parseIf hm.toSane (by omega)).bind fun rest o ho => ?_
    exact (hm1.trans ho).le (Nat.zero_le _)
  · have hm1 := hl0.trans (hm.taken (Token.kind_ne_of_isKeyword hkw))
    have hwm := hm1.weight
    refine (h.parseInner hm.toSane (by omega)).bind fun body o ho => ?_
    have ho1 := hm1.trans ho
    have hwo := ho1.weight
    refine (h.expectKeyword ho.toSane (by omega)).bind fun _ q hq => ?_
    exact (ho1.trans hq).le (Nat.zero_le _)
  · exact .ite (fun _ => hl0.trans hm.consumes) fun _ => unexpected_ends hm.toSane

/-- What follows the condition of a loop, up to `done`. -/
theorem loopBody_ends (h : Suffices A n) {w : Nat} {f : Node → Node} (hi : Consumes A w 0 i)
    (hn : 20 * w + 9 ≤ n + 1) :
    Ends (fun _ => Consumes A w 0) (do
      Script.expectKeyword "do" n
      let body ← Script.parseInner n
      Script.expectKeyword "done" n
      return f body) i := by
  have hwi := hi.weight
  refine (h.expectKeyword hi.toSane (by omega)).bind fun _ j hj => ?_
  have hj0 := hi.trans hj
  have hwj := hj0.weight
  refine (h.parseInner hj.toSane (by omega)).bind fun body k hk => ?_
  have hk0 := hj0.trans hk
  have hwk := hk0.weight
  exact (h.expectKeyword hk.toSane (by omega)).bind fun _ l hl => hk0.trans hl

theorem parseLoop_succ (h : Suffices A n) {isWhile : Bool} {line : Nat} (hi : Sane A i)
    (hn : 20 * i.weight + 9 ≤ n + 1) :
    Ends (fun _ => Consumes A i.weight 0) (Script.parseLoop (n + 1) isWhile line) i := by
  unfold Script.parseLoop
  exact (h.parseInner hi (by omega)).bind fun cond j hj => h.loopBody_ends hj hn

theorem parseFor_succ (h : Suffices A n) {line : Nat} (hi : Sane A i)
    (hn : 20 * i.weight + 9 ≤ n + 1) :
    Ends (fun _ => Consumes A i.weight 0) (Script.parseFor (n + 1) line) i := by
  unfold Script.parseFor
  refine (h.nextToken hi (by omega)).bind fun tk j hj => ?_
  have hj0 := hj.consumes
  have hwj := hj0.weight
  split
  · exact ⟨fun h => (nomatch h), hj.toSane.proper⟩
  · rename_i var _
    refine (h.skipNewlines hj.toSane (by omega)).bind fun _ k hk => ?_
    have hk0 := hj0.trans hk
    have hwk := hk0.weight
    have hrest : ∀ {items : Option (List Word)} {l}, Consumes A i.weight 0 l →
        Ends (fun _ => Consumes A i.weight 0) (do
          Script.skipNewlines n
          Script.expectKeyword "do" n
          let body ← Script.parseInner n
          Script.expectKeyword "done" n
          return Node.mk (.forIn var items body) line) l := by
      intro items l hl
      have hwl := hl.weight
      refine (h.skipNewlines hl.toSane (by omega)).bind fun _ m hm => ?_
      exact h.loopBody_ends (hl.trans hm) hn
    refine (h.nextToken hk.toSane (by omega)).bind fun tk' l hl => ?_
    have hl0 := hk0.trans hl.consumes
    have hwl := hl0.weight
    refine .ite (fun _ => ?_) fun _ => ?_
    · exact (h.parseItems hl.toSane (by omega)).bind fun items m hm => hrest (hl0.trans hm)
    · split
      · exact hrest hl0
      · refine (pushToken_ends hl).bind ?_
        rintro _ m ⟨hm, _⟩
        exact hrest (hk0.trans hm)

theorem parseItems_succ (h : Suffices A n) {acc : List Word} (hi : Sane A i)
    (hn : 20 * i.weight + 4 ≤ n + 1) :
    Ends (fun _ => Consumes A i.weight 0) (Script.parseItems (n + 1) acc) i := by
  unfold Script.parseItems
  refine (h.nextToken hi (by omega)).bind fun tk j hj => ?_
  split
  · rename_i hk
    have hj1 := hj.taken (by simp [hk])
    have hwj := hj1.weight
    exact hj1.ends (h.parseItems hj.toSane (by omega)) (Nat.zero_le _)
  · exact hj.consumes
  · exact hj.consumes
  · exact unexpected_ends hj.toSane

theorem parseCase_succ (h : Suffices A n) {line : Nat} (hi : Sane A i)
    (hn : 20 * i.weight + 9 ≤ n + 1) :
    Ends (fun _ => Consumes A i.weight 0) (Script.parseCase (n + 1) line) i := by
  unfold Script.parseCase
  refine (h.nextToken hi (by omega)).bind fun tk j hj => ?_
  have hj0 := hj.consumes
  have hwj := hj0.weight
  split
  · refine (h.skipNewlines hj.toSane (by omega)).bind fun _ k hk => ?_
    have hk0 := hj0.trans hk
    have hwk := hk0.weight
    refine (h.expectKeyword hk.toSane (by omega)).bind fun _ l hl => ?_
    have hl0 := hk0.trans hl
    have hwl := hl0.weight
    exact (h.parseArms hl.toSane (by omega)).bind fun arms m hm => hl0.trans hm
  · exact unexpected_ends hj.toSane

theorem parseArms_succ (h : Suffices A n) {acc : List CaseArm} (hi : Sane A i)
    (hn : 20 * i.weight + 6 ≤ n + 1) :
    Ends (fun _ => Consumes A i.weight 0) (Script.parseArms (n + 1) acc) i := by
  rw [parseArms_eq]
  refine (h.skipNewlines hi (by omega)).bind fun _ j hj => ?_
  have hwj := hj.weight
  refine (h.nextToken hj.toSane (by omega)).bind fun tk k hk => ?_
  have hk0 := hj.trans hk.consumes
  have hwk := hk0.weight
  refine .ite (fun _ => hk0) fun _ => ?_
  -- the commands of an arm are paid by its patterns
  have hbody : ∀ {o}, Consumes A i.weight 1 o → ∀ (acc : List CaseArm) p, Consumes A o.weight 0 p →
      Ends (fun _ => Consumes A i.weight 0) (continueArms n acc) p := by
    intro o ho acc p hp
    have hp1 := ho.trans hp
    have hwp := hp1.weight
    refine (h.nextToken hp.toSane (by omega)).bind fun tk q hq => ?_
    have hq1 := hp1.trans hq.consumes
    have hwq := hq1.weight
    refine .ite (fun _ => hq1.le (Nat.zero_le _)) fun _ => ?_
    split
    · exact hq1.ends (h.parseArms hq.toSane (by omega)) (Nat.zero_le _)
    · exact unexpected_ends hq.toSane
  have harm : ∀ {tk l}, GotToken A i.weight tk l →
      Ends (fun _ => Consumes A i.weight 0) (parseArmFrom n acc tk) l := by
    intro tk l hl
    refine (h.parsePatterns hl (by omega)).bind fun patterns m hm => ?_
    have hwm := hm.weight
    refine (h.skipNewlines hm.toSane (by omega)).bind fun _ o ho => ?_
    have ho1 := hm.trans ho
    have hwo := ho1.weight
    refine (h.peekToken ho.toSane (by omega)).bind ?_
    rintro peeked p ⟨hp, _⟩
    have hp1 := ho1.trans hp
    have hwp := hp1.weight
    have hdone := hbody hp1 (.mk patterns none :: acc) p (consumes_refl hp.toSane)
    split
    · exact hdone
    · refine .ite (fun _ => hdone) fun _ => ?_
      exact (h.parseInner hp.toSane (by omega)).bind fun body q hq => hbody hp1 _ q hq
  refine .ite (fun _ => ?_) fun _ => harm (hj.gotToken hk)
  exact (h.nextToken hk.toSane (by omega)).bind fun tk' l hl => harm (hk0.gotToken hl)

theorem parsePatterns_succ (h : Suffices A n) {acc : List Word} {w : Nat} {tk : Token}
    (hi : GotToken A w tk i) (hn : 20 * w + 1 ≤ n + 1) :
    Ends (fun _ => Consumes A w 1) (Script.parsePatterns (n + 1) acc tk) i := by
  unfold Script.parsePatterns
  split
  · rename_i hk
    have hi1 := hi.taken (by simp [hk])
    have hwi := hi1.weight
    refine (h.nextToken hi.toSane (by omega)).bind fun separator j hj => ?_
    have hj1 := hi1.trans hj.consumes
    have hwj := hj1.weight
    split
    · rename_i hpipe
      have hj2 := hi1.trans (hj.taken (by simp [hpipe]))
      have hwj := hj2.weight
      refine (h.nextToken hj.toSane (by omega)).bind fun tk' k hk => ?_
      refine (h.parsePatterns hk (by omega)).mono fun _ l hl => ?_
      exact (hj2.trans hl).le (by omega)
    · exact hj1
    · exact unexpected_ends hj.toSane
  · exact unexpected_ends hi.toSane

theorem zero : Suffices A 0 := by
  constructor <;> intros <;> omega

theorem succ (h : Suffices A n) (hA : ∀ b ∈ A.toList, Plain b.2) : Suffices A (n + 1) where
  readParts := h.readParts_succ
  readDoubleQuoted := h.readDoubleQuoted_succ
  readDollar := h.readDollar_succ
  readBracedParam := h.readBracedParam_succ
  readArithmetic := h.readArithmetic_succ
  readBackQuoted := h.readBackQuoted_succ
  readHereDocs := h.readHereDocs_succ
  readPending := h.readPending_succ
  nextToken := h.nextToken_succ
  peekToken := h.peekToken_succ
  expectKeyword := h.expectKeyword_succ
  skipNewlines := h.skipNewlines_succ
  expandAlias := h.expandAlias_succ hA
  commandToken := h.commandToken_succ
  parseTop := h.parseTop_succ
  parseAllFrom := h.parseAllFrom_succ
  parseSubstitution := h.parseSubstitution_succ
  parseInner := h.parseInner_succ
  parseList := h.parseList_succ
  parseAndOr := h.parseAndOr_succ
  parseAndOrRest := h.parseAndOrRest_succ
  parsePipeline := h.parsePipeline_succ
  parseStages := h.parseStages_succ
  parseCommandAt := h.parseCommandAt_succ
  closeCompound := h.closeCompound_succ
  parseSimple := h.parseSimple_succ
  parseFunction := h.parseFunction_succ
  parseRedirect := h.parseRedirect_succ
  parseRedirects := h.parseRedirects_succ
  parseIf := h.parseIf_succ
  parseLoop := h.parseLoop_succ
  parseFor := h.parseFor_succ
  parseItems := h.parseItems_succ
  parseCase := h.parseCase_succ
  parseArms := h.parseArms_succ
  parsePatterns := h.parsePatterns_succ

end Suffices

theorem suffices_all (hA : ∀ b ∈ A.toList, Plain b.2) (n : Nat) : Suffices A n := by
  induction n with
  | zero => exact .zero
  | succ n ih => exact ih.succ hA

end CommandShell.Script
