import CommandShell.Proofs.Grammar.Invariants
import CommandShell.Proofs.Grammar.Lines
import CommandShell.Proofs.TokenStarts

/-!
# Texts before a closing parenthesis

The tokens of a text are the same when a closing parenthesis follows it, unless the last of them goes on
past its end. So what reads a substitution up to the parenthesis after the text had the tokens of the
text by itself (`enclosed_lexes`), and the commands of these, line by line (`enclosed_commandLines`).
-/

namespace CommandShell.Script

open Reader

variable {c : Text} {ts us vs : List Token} {tk : Token} {n line : Nat} {i i₀ j s : Input}
  {body : Option Node}

/-! ## Tokens of the text -/

/-- The token starts no here-document, and none was asked for up to its end, in a word of which one may
stand. -/
def Token.AsksNone (tk : Token) (j : Input) : Prop :=
  j.nextTicket = 0 ∧ ∀ fd op, tk.kind = .redirect fd op → op.isHereDoc = false

/-- No token of the text starts a here-document, and no word of it has one inside. -/
def NoHereDocs (t : Text) (line : Nat) : Prop :=
  ∀ i tk j, Lexed t line i → readToken.on i = (.ok tk, j) → tk.kind ≠ .endOfInput → tk.AsksNone j

/-- Two inputs whose tokens `us` were read. -/
structure AfterTokens (i₀ i : Input) (us : List Token) : Prop where
  lexes : ∀ {vs}, Lexes vs i → Lexes (us ++ vs) i₀

theorem AfterTokens.refl : AfterTokens i i [] := ⟨fun h => h⟩

/-- One more token was read, which is not the last one. -/
theorem AfterTokens.read (h : AfterTokens i₀ i us) (hread : readToken.on i = (.ok tk, j))
    (hbodies : j.bodies = []) (hnone : ∀ fd op, tk.kind = .redirect fd op → op.isHereDoc = false)
    (hne : tk.kind ≠ .endOfInput) : AfterTokens i₀ j (us ++ [tk]) where
  lexes hvs := by
    rw [List.append_assoc]
    refine h.lexes ⟨j, hread, hbodies, hnone, ?_⟩
    split
    · exact absurd ‹_› hne
    · exact hvs

/-- An input with the text ahead and a closing parenthesis after it, from which tokens were read: so
many of the text, or the parenthesis was taken too. -/
inductive Enclosed (c : Text) (line : Nat) (i₀ i : Input) : Prop
  | inside (s : Input) (us : List Token) (hs : Lexed c line s) (hnone : s.nextTicket = 0)
    (hcut : Excerpt 0 [')'] i s) (hlong : AfterTokens i₀ i us)
    (hshort : AfterTokens (.ofText c line) s us) : Enclosed c line i₀ i
  | past (h : i.left = []) : Enclosed c line i₀ i

theorem atBreak_rightParen : AtBreak [')'] := by
  rintro c ⟨rfl⟩
  decide

/-- A token of the text is the same in both inputs, or goes past its end. -/
theorem Excerpt.reads (hcut : Excerpt 0 [')'] i s) (hs : BetweenTokens s)
    (hread : readToken.on i = (.ok tk, j)) :
    j.left = [] ∨ ∃ s', readToken.on s = (.ok tk, s') ∧ Excerpt 0 [')'] j s' := by
  have htracks := (readersMirror 0 i.stepBound).nextToken.tracks [')'] i s atBreak_rightParen hcut
  unfold Tracks at htracks
  rw [← readToken_on, hread] at htracks
  rcases htracks with hbeyond | ⟨s', hs', hstep⟩
  · exact .inl (List.length_eq_zero_iff.mp (Nat.lt_one_iff.mp hbeyond))
  · rw [Token.down_zero] at hs'
    exact .inr ⟨s', hs.readToken_of_steps hs', hstep.toExcerpt⟩

/-- A redirection operator is no part of what only ends with backslashes, or with a parenthesis before
them. -/
theorem TookOperator.left_ne_nil {gap t : Text} {k : Input} (h : TookOperator k j)
    (hgap : t ++ [')'] = gap ++ k.ahead) : j.left ≠ [] := by
  intro hleft
  obtain ⟨taken, d, hd, hk⟩ := h.taken
  have hahead : j.ahead = j.unread := by rw [Input.ahead, hleft, List.append_nil]
  have hlast : (d :: j.unread).getLast? = some ')' := by
    rw [hk, hahead, ← List.append_assoc] at hgap
    have hboth := congrArg List.getLast? hgap
    rw [List.getLast?_append, List.getLast?_append] at hboth
    simpa using hboth.symm
  rcases List.mem_cons.mp (List.mem_of_getLast? hlast) with rfl | hmem
  · exact absurd hd (by decide)
  · exact absurd (h.alone.lined.unread _ hmem) (by decide)

/-- Nor of what was put back, with nothing after it. -/
theorem TookOperator.ahead_ne {gap : Text} {k : Input} (h : TookOperator k j) (hi : Alone i)
    (hleft : i.left = []) : i.ahead ≠ gap ++ k.ahead := by
  intro hgap
  obtain ⟨taken, d, hd, hk⟩ := h.taken
  have hmem : d ∈ i.unread := by
    have hahead : i.ahead = i.unread := by rw [Input.ahead, hleft, List.append_nil]
    rw [← hahead, hgap, hk]
    simp
  exact absurd (hi.lined.unread d hmem ▸ hd) (by decide)

/-- What is known between the tokens of the text, and after the parenthesis. -/
def BetweenEnclosed (c : Text) (line : Nat) (i₀ i : Input) : Prop :=
  BetweenTokens i ∧ Enclosed c line i₀ i

/-- A token is read where the text is not used up. -/
theorem Enclosed.read (hdocs : NoHereDocs c line) (hi : BetweenTokens i) (h : Enclosed c line i₀ i)
    (hread : readToken.on i = (.ok tk, j)) : Enclosed c line i₀ j := by
  obtain ⟨hj, hstep⟩ := hi.read hread
  cases h with
  | past h =>
      have hle := hi.alone.left_le fun S start =>
        (readersMirror 0 i.stepBound).nextToken.keeps S start
      rw [← readToken_on, hread, h] at hle
      exact .past (List.length_eq_zero_iff.mp (Nat.le_zero.mp hle))
  | inside s us hs hnone hcut hlong hshort =>
      rcases hcut.reads hs.betweenTokens.1 hread with hbeyond | ⟨s', hs', hcut'⟩
      · exact .past hbeyond
      · have hne : tk.kind ≠ .endOfInput := by
          intro hend
          obtain ⟨_, _, _, _, hfits⟩ := hi.token_fits hread
          have hahead := hcut'.ahead
          rw [hfits.ended hend] at hahead
          simp at hahead
        obtain ⟨hnone', hplain⟩ := hdocs s tk s' hs hs' hne
        have hunasked := hcut'.unasked (hcut'.nextTicket ▸ hnone')
        have hunasked' := (hs.token hs').betweenTokens.1.unasked hnone'
        exact .inside s' (us ++ [tk]) (hs.token hs') hnone' hcut'
          (hlong.read hread hunasked.2 hplain hne) (hshort.read hs' hunasked'.2 hplain hne)

/-- Tokens are read one after the other, without a here-document. -/
theorem kept_betweenEnclosed (hdocs : NoHereDocs c line) : Kept (BetweenEnclosed c line i₀) where
  between h := h.1
  read := fun ⟨hi, h⟩ hread => ⟨(hi.read hread).1, h.read hdocs hi hread⟩
  noHereDoc := by
    rintro i tk j ⟨hi, h⟩ hread fd op hop
    obtain ⟨gap, k, hgap, -, hfits⟩ := hi.token_fits hread
    have htook := hfits.redirect hop
    cases h with
    | past h => exact absurd hgap (htook.ahead_ne hi.alone h)
    | inside s us hs hnone hcut hlong hshort =>
        rcases hcut.reads hs.betweenTokens.1 hread with hbeyond | ⟨s', hs', -⟩
        · exact absurd hbeyond (htook.left_ne_nil (hcut.ahead.symm.trans hgap))
        · exact (hdocs s tk s' hs hs' (by simp [hop])).2 fd op hop

/-! ## Up to the parenthesis -/

/-- Where the text ends the input does. -/
theorem takes_tokenHere_end :
    Takes .empty (ReadersObey.tokenHere (n + 2)) [] (fun tk => tk.kind = .endOfInput) [] := by
  apply Takes.line
  intro l
  apply (takes_peek []).next
  apply takes_readPending.bind
  rintro - -
  exact takes_pure rfl

theorem BetweenTokens.lexesEnd (hi : BetweenTokens i) (hend : i.ahead = [])
    (hnone : i.nextTicket = 0) : ∃ stop, stop.kind = .endOfInput ∧ Lexes [stop] i := by
  obtain ⟨stop, j, hread, hstop, hj⟩ := takes_readToken_end.on (hi.ahead_nil hend hnone)
  refine ⟨stop, hstop, j, hread, hj.bodies, fun fd op hop => ?_, by rw [hstop]⟩
  exact nomatch hstop.symm.trans hop

/-- Nothing but the parenthesis is taken for it. -/
theorem tokenHere_rightParen (hi : Alone i) (hhead : i.ahead.head? = some ')')
    (hj : (ReadersObey.tokenHere n).on i = (.ok tk, j)) : j.nextTicket = i.nextTicket := by
  obtain ⟨k, hk, hk', hsame⟩ := hi.peek_on
  obtain ⟨r, hr⟩ := List.head?_eq_some_iff.mp hhead
  obtain ⟨l, hl, -, -, -, -, -, -, -, -, hticket⟩ := hk'.next_on_cons (hsame.ahead.trans hr)
  rw [tokenHere_eq] at hj
  change (kindHere n i.line >>= fun kind => pure (⟨kind, i.line⟩ : Token)).on i = _ at hj
  unfold kindHere at hj
  rw [bind_assoc, Reader.on_bind, hk, hhead] at hj
  change ((next >>= fun _ => pure TokenKind.rightParen) >>= fun kind =>
    pure (⟨kind, i.line⟩ : Token)).on k = _ at hj
  rw [bind_assoc, Reader.on_bind, hl] at hj
  cases hj
  exact hticket.trans hsame.nextTicket

/-- Where the parenthesis is read and nothing follows it, the text by itself ends. -/
theorem Enclosed.closer (hi : BetweenTokens i) (h : Enclosed c line i₀ i)
    (hread : readToken.on i = (.ok tk, j)) (hclose : tk.kind = .rightParen) (hend : j.ahead = []) :
    ∃ us stop stop', stop.kind = .endOfInput ∧ stop'.kind = .endOfInput ∧
      Lexes (us ++ [tk, stop]) i₀ ∧ Lexes (us ++ [stop']) (.ofText c line) := by
  obtain ⟨n, k, hskip, hj⟩ := hi.fresh_on hread
  obtain ⟨hk, hat, hticket⟩ := hi.skips hskip
  have hparen : k.ahead = [')'] := by rw [(tokenHere_fits hk.excerpt hj).rightParen hclose, hend]
  have hleft : k.left ≠ [] := by
    rw [hk.alone.left_eq_ahead (hparen ▸ atBreak_rightParen), hparen]
    exact List.cons_ne_nil _ _
  have hpast : i.left ≠ [] := by
    intro hnil
    have hle := hi.alone.left_le (Mirrors.skipBlanks (d := 0) (n + 1)).keeps
    rw [hskip, hnil] at hle
    exact hleft (List.length_eq_zero_iff.mp (Nat.le_zero.mp hle))
  cases h with
  | past h => exact absurd h hpast
  | inside s us hs hnone hcut hlong hshort =>
      have hsb := hs.betweenTokens.1
      -- the blanks before the parenthesis are skipped in both inputs
      have htracks := (Mirrors.skipBlanks (n + 2)).tracks [')'] i s atBreak_rightParen hcut
      unfold Tracks at htracks
      rw [(skipBlanks_grows (n + 1)).on_eq hskip nofun] at htracks
      rcases htracks with hbeyond | ⟨s', hskip', hstep⟩
      · exact absurd (List.length_eq_zero_iff.mp (Nat.lt_one_iff.mp hbeyond)) hleft
      have hahead : s'.ahead = [] := by
        have hboth := hparen.symm.trans hstep.ahead
        simpa using hboth
      obtain ⟨hs', -, hticket'⟩ := hsb.skips hskip'
      obtain ⟨stop', m, hm, hstop', hmahead⟩ := takes_tokenHere_end.on
        (hs'.ahead_nil hahead (hticket'.trans hnone))
      have hlexes' : Lexes [stop'] s := by
        refine ⟨m, hsb.readToken_of_fresh hskip' hm, hmahead.bodies, fun fd op hop => ?_, by rw [hstop']⟩
        exact nomatch hstop'.symm.trans hop
      have hnone' : j.nextTicket = 0 := by
        rw [tokenHere_rightParen hk.alone (by rw [hparen]; rfl) hj, hticket, ← hcut.nextTicket, hnone]
      obtain ⟨hjb, -⟩ := hi.read hread
      obtain ⟨stop, hstop, hlexes⟩ := hjb.lexesEnd hend hnone'
      refine ⟨us, stop, stop', hstop, hstop', hlong.lexes ?_, hshort.lexes hlexes'⟩
      refine ⟨j, hread, (hjb.unasked hnone').2, fun fd op hop => ?_, by rw [hclose]; exact hlexes⟩
      exact nomatch hclose.symm.trans hop

/-! ## Its commands -/

/-- The tokens of a substitution: nothing but newlines, or a list of commands. -/
def SubstitutionBody (body : Option Node) (ts : List Token) : Prop :=
  match body with
  | none => Newlines ts
  | some node => ∃ o, Derives (.block node o) ts

theorem SubstitutionBody.commandLines (h : SubstitutionBody body ts) :
    ∃ gs, CommandLines gs ts ∧ body = Node.ofList gs.flatten := by
  cases body with
  | none => exact ⟨[], Newlines.commandLines h, rfl⟩
  | some node =>
      obtain ⟨o, h⟩ := h
      cases h with
      | block hnl hns hn =>
          obtain ⟨gs, rfl, hgs⟩ := hns.splitsLines.commandLines
          exact ⟨gs, hgs.newlines hnl, hn.symm⟩

theorem Derives.afterNewlines {node : Node} {o : Bool} (h : Derives (.block node o) ts)
    (hnl : Newlines us) : Derives (.block node o) (us ++ ts) := by
  cases h with
  | block hnl' hns hn =>
      rw [← List.append_assoc]
      exact .block (hnl.append hnl') hns hn

/-- What is read as a substitution is spelled by the tokens up to the parenthesis. -/
theorem finds_parseSubstitution (n : Nat) (h : Upcoming ts i) :
    Finds (fun body us _ => ∃ xs closer, us = xs ++ [closer] ∧ SubstitutionBody body xs) ts
      (parseSubstitution n) i := by
  cases n with
  | zero => trivial
  | succ n =>
      unfold parseSubstitution
      refine (finds_skipNewlines n h).bind ?_
      rintro _ nl vs j rfl hj hnl
      refine (finds_peekToken n hj).bind ?_
      rintro tk _ ws k rfl hk ⟨rfl, xs, rfl⟩
      refine .ite (fun hclose => ?_) fun _ => ?_
      · refine finds_draw n hk ?_
        rintro tk' us l hts hl
        obtain ⟨rfl, rfl⟩ := List.cons.inj hts
        refine hl.finds (by simp [Token.kind_of_isRightParen hclose]) fun hm => ?_
        exact finds_pure hm ⟨nl, tk, rfl, hnl⟩
      · refine ((parsesSound n).parseInner hk).bind ?_
        rintro node us ws l hts hl ⟨o, hnode, -⟩
        refine finds_draw n hl ?_
        rintro closer us' m rfl hm
        refine .ite (fun hclose => ?_) fun _ => trivial
        refine hm.finds (by simp [Token.kind_of_isRightParen hclose]) fun hp => ?_
        refine finds_pure hp ⟨nl ++ us, closer, by simp, o, hnode.afterNewlines hnl⟩

/-- What a substitution has for a body when its parenthesis ends the input: the commands of the text
before the parenthesis. -/
theorem enclosed_commandLines (hdocs : NoHereDocs c line) (hi : BetweenTokens i)
    (hnone : i.nextTicket = 0) (hahead : i.ahead = c ++ [')']) (hline : i.line = line)
    (hread : (parseSubstitution n).on i = (.ok body, j)) (hend : j.ahead = []) :
    ∃ us gs stop, stop.kind = .endOfInput ∧ Lexes (us ++ [stop]) (.ofText c line) ∧
      CommandLines gs us ∧ body = Node.ofList gs.flatten := by
  have hcut : Excerpt 0 [')'] i (.ofText c line) := {
    pushback := by rw [hi.lexing.pushback]; rfl
    pending := (hi.unasked hnone).1.symm
    bodies := by rw [(hi.unasked hnone).2]; rfl
    nextTicket := hnone.symm
    unasked := hi.unasked
    long := hi.alone
    short := alone_ofText c line
    ahead := by rw [hahead, Input.ahead_ofText]
    line := hline.symm }
  have hR : Kept (BetweenEnclosed c line i) := kept_betweenEnclosed hdocs
  have hstart : BetweenEnclosed c line i i := ⟨hi, .inside _ [] .start rfl hcut .refl .refl⟩
  obtain ⟨tk, hhand, hclose⟩ := (parseSubstitution_closer hR n (.used hstart)).value hread
  obtain ⟨k, ⟨hk, hencl⟩, hlast⟩ := hhand.last
  obtain ⟨us, stop, stop', hstop, hstop', hlong, hshort⟩ := hencl.closer hk hlast hclose hend
  have hupcoming : Upcoming (us ++ [tk, stop]) i := ⟨hi.lexing.toSane, hlong, (hi.unasked hnone).2⟩
  obtain ⟨xs, vs, hsplit, hvs, ys, closer, rfl, hbody⟩ :=
    (finds_parseSubstitution n hupcoming).value hread
  -- only the end is left after the parenthesis
  obtain ⟨last, ws, l, rfl, hreadLast, htaken⟩ := hvs.takes
  obtain ⟨gap, m, hgap, -, hfits⟩ := hhand.holds.1.token_fits hreadLast
  have hlastKind : last.kind = .endOfInput := by
    refine hfits.endOfInput ?_
    rw [hend] at hgap
    rw [(List.append_eq_nil_iff.mp hgap.symm).2]
    rfl
  have hws : ws = [] := by
    have hrest := htaken.rest
    rw [hlastKind] at hrest
    exact hrest
  subst hws
  obtain rfl : us = ys := by
    have hboth : us ++ [tk] ++ [stop] = ys ++ [closer] ++ [last] := by simpa using hsplit
    exact (List.append_inj' (List.append_inj' hboth rfl).1 rfl).1
  obtain ⟨gs, hgs, hbody⟩ := hbody.commandLines
  exact ⟨us, gs, stop', hstop', hshort, hgs, hbody⟩

end CommandShell.Script
