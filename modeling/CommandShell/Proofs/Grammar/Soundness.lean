import CommandShell.Proofs.Grammar.Stream

/-!
# What is read is spelled by its tokens

Every function that reads a phrase takes tokens that spell it (`ParsesSound`). It also took every
word that would belong to an open phrase (`Fits`), so that a keyword after it closes what is around
it.
-/

namespace CommandShell.Script

open Reader

variable {n : Nat} {ts us : List Token} {tk : Token} {i j : Input}

/-! ## Small phrases -/

theorem Newlines.nil : Newlines [] := fun _ h => nomatch h

theorem Newlines.cons (htk : tk.kind = .newline) (hts : Newlines ts) : Newlines (tk :: ts) := by
  intro tk' h
  rcases List.mem_cons.mp h with rfl | h
  · exact htk
  · exact hts tk' h

theorem Newlines.append (hts : Newlines ts) (hus : Newlines us) : Newlines (ts ++ us) :=
  fun tk h => (List.mem_append.mp h).elim (hts tk) (hus tk)

theorem finds_skipNewlines (n : Nat) (h : Upcoming ts i) :
    Finds (fun _ us _ => Newlines us) ts (skipNewlines n) i := by
  induction n generalizing ts i with
  | zero => trivial
  | succ n ih =>
      unfold skipNewlines
      refine (finds_peekToken n h).bind ?_
      rintro tk _ vs j rfl hj ⟨rfl, ws, rfl⟩
      refine .ite (fun hnl => ?_) fun _ => finds_pure hj .nil
      refine finds_draw n hj ?_
      rintro tk' us k hts hk
      obtain ⟨rfl, rfl⟩ := List.cons.inj hts
      have hkind := Token.kind_of_isNewline hnl
      refine hk.finds (by simp [hkind]) fun hk => ?_
      exact (ih hk).mono fun _ _ _ hus => .cons hkind hus

theorem finds_expectKeyword (kw : Text) (n : Nat) (h : Upcoming ts i) :
    Finds (fun _ us _ => ∃ tk, us = [tk] ∧ tk.isKeyword kw = true) ts (expectKeyword kw n) i := by
  cases n with
  | zero => trivial
  | succ n =>
      refine finds_draw n h ?_
      rintro tk us j rfl hj
      refine .ite (fun hkw => ?_) fun _ => trivial
      refine hj.finds (Token.kind_ne_of_isKeyword hkw) fun hk => ?_
      exact finds_pure hk ⟨tk, rfl, hkw⟩

theorem finds_parseRedirect (fd : Option Nat) (op : RedirectOp) (hop : op.isHereDoc = false)
    (n : Nat) (h : Upcoming ts i) :
    Finds (fun r us _ => ∀ tk : Token, tk.kind = .redirect fd op → Redirection r (tk :: us)) ts
      (parseRedirect n fd op) i := by
  cases n with
  | zero => trivial
  | succ n =>
      refine finds_draw n h ?_
      rintro target us j rfl hj
      split
      · rename_i w hw
        refine hj.finds (by simp [hw]) fun hk => ?_
        split
        · exact nomatch hop
        · exact nomatch hop
        · exact finds_pure hk fun tk htk => .mk htk hop hw
      · trivial

theorem finds_parseRedirects (acc : List Redirect) (n : Nat) (h : Upcoming ts i) :
    Finds (fun rs us _ => ∃ rs', rs = acc.reverse ++ rs' ∧ Redirections rs' us) ts
      (parseRedirects n acc) i := by
  induction n generalizing ts i acc with
  | zero => trivial
  | succ n ih =>
      refine finds_draw n h ?_
      rintro tk us j rfl hj
      split
      · rename_i fd op hop
        refine hj.finds (by simp [hop]) fun hk => ?_
        refine (finds_parseRedirect fd op (hj.noHereDoc fd op hop) n hk).bind ?_
        rintro r vs ws l rfl hl hr
        refine (ih (r :: acc) hl).mono ?_
        rintro rs xs _ ⟨rs', rfl, hrs⟩
        exact ⟨r :: rs', by simp, .cons (hr tk hop) hrs⟩
      · exact hj.finds_push fun k hk => finds_pure hk ⟨[], by simp, .nil⟩

/-- The redirections after a compound command belong to it. -/
theorem finds_closeCompound (line : Nat) (body : Node) (n : Nat) (h : Upcoming ts i) :
    Finds (fun node us _ => ∀ ts', Derives (.compound body) ts' → body.line = line →
      Derives (.command node false) (ts' ++ us)) ts (closeCompound n line body) i := by
  cases n with
  | zero => trivial
  | succ n =>
      unfold closeCompound
      refine (finds_parseRedirects [] n h).bind ?_
      rintro rs us vs j rfl hj ⟨rs', hrs', hrs⟩
      obtain rfl : rs = rs' := hrs'
      cases rs with
      | nil =>
          cases hrs
          refine finds_pure hj fun ts' hbody _ => ?_
          simpa using Derives.unredirected hbody
      | cons r rs =>
          refine finds_pure hj ?_
          rintro ts' hbody rfl
          simpa using Derives.redirected hbody hrs

theorem finds_parseItems (acc : List Word) (n : Nat) (h : Upcoming ts i) :
    Finds (fun ws us _ => ∃ ws' vs stop, ws = acc.reverse ++ ws' ∧ us = vs ++ [stop] ∧
      vs.map Token.kind = ws'.map .word ∧ (stop.kind = .semi ∨ stop.kind = .newline)) ts
      (parseItems n acc) i := by
  induction n generalizing ts i acc with
  | zero => trivial
  | succ n ih =>
      refine finds_draw n h ?_
      rintro tk us j rfl hj
      have hstop : tk.kind = .semi ∨ tk.kind = .newline →
          Finds (fun ws us _ => ∃ ws' vs stop, ws = acc.reverse ++ ws' ∧ us = vs ++ [stop] ∧
            vs.map Token.kind = ws'.map .word ∧ (stop.kind = .semi ∨ stop.kind = .newline))
            (tk :: us) (pure acc.reverse) j := by
        intro htk
        have hne : tk.kind ≠ .endOfInput := by
          rcases htk with h | h <;> rw [h] <;> exact fun h => nomatch h
        exact hj.finds hne fun hk => finds_pure hk ⟨[], [], tk, by simp, rfl, rfl, htk⟩
      split
      · rename_i w hw
        refine hj.finds (by simp [hw]) fun hk => ?_
        refine (ih (w :: acc) hk).mono ?_
        rintro ws xs _ ⟨ws', vs, stop, rfl, rfl, hkinds, hstop⟩
        exact ⟨w :: ws', tk :: vs, stop, by simp, rfl, by simp [hw, hkinds], hstop⟩
      · exact hstop (.inl ‹_›)
      · exact hstop (.inr ‹_›)
      · trivial

theorem finds_parsePatterns (acc : List Word) (n : Nat) (h : Taken tk ts i) :
    Finds (fun ws us _ => ∃ ws', ws = acc.reverse ++ ws' ∧ Patterns ws' us ∧
      ∃ vs, us = tk :: vs) (tk :: ts) (parsePatterns n acc tk) i := by
  induction n generalizing ts i acc tk with
  | zero => trivial
  | succ n ih =>
      unfold parsePatterns
      split
      · rename_i w hw
        refine h.finds (by simp [hw]) fun hk => ?_
        refine finds_draw n hk ?_
        rintro separator us j rfl hj
        split
        · rename_i hbar
          refine hj.finds (by simp [hbar]) fun hl => ?_
          refine finds_draw n hl ?_
          rintro tk' vs k rfl hk
          refine (ih (w :: acc) hk).mono ?_
          rintro ws xs _ ⟨ws', rfl, hws, -⟩
          exact ⟨w :: ws', by simp, .cons hw hbar hws, _, rfl⟩
        · rename_i hclose
          refine hj.finds (by simp [hclose]) fun hl => ?_
          exact finds_pure hl ⟨[w], by simp, .last hw hclose, _, rfl⟩
        · trivial
      · trivial

/-! ## All phrases -/

/-- No word was left that would belong to an open phrase. -/
def Fits (isOpen : Bool) (ts : List Token) : Prop :=
  isOpen = true → ∀ tk us, ts = tk :: us → ∀ w, tk.kind ≠ .word w

theorem fits_false : Fits false ts := fun h => nomatch h

/-- Nothing open stands before a keyword. -/
theorem Fits.closed {o : Bool} {kw : Text} (h : Fits o (tk :: ts))
    (hkw : tk.isKeyword kw = true) : o = false := by
  obtain ⟨w, hw, -⟩ := Token.kind_of_literal? (beq_iff_eq.mp hkw)
  exact Bool.eq_false_iff.mpr fun ho => h ho tk ts rfl w hw

/-- The token would be one more part of a simple command before it. -/
def Token.ExtendsSimple (tk : Token) : Prop :=
  (∃ w, tk.kind = .word w) ∨ ∃ fd op, tk.kind = .redirect fd op

/-- A simple command before the tokens has all its parts. -/
def EndsSimple (ts : List Token) : Prop := ∀ tk us, ts = tk :: us → ¬ tk.ExtendsSimple

theorem EndsSimple.fits (h : EndsSimple ts) (isOpen : Bool) : Fits isOpen ts :=
  fun _ tk us hts w hw => h tk us hts (.inl ⟨w, hw⟩)

theorem Token.startsCompound_of_tests
    (h : (tk.isLeftParen || tk.literal?.any compoundStarters.contains) = true) :
    tk.StartsCompound := by
  rcases Bool.or_eq_true_iff.mp h with hopen | hany
  · exact .inl (Token.kind_of_isLeftParen hopen)
  · obtain ⟨kw, hkw, hmem⟩ := (Option.any_eq_true ..).mp hany
    exact .inr ⟨kw, List.contains_iff_mem.mp hmem, beq_iff_eq.mpr hkw⟩

theorem Token.StartsSimple.not_startsCompound (h : tk.StartsSimple) : ¬ tk.StartsCompound := by
  rintro (hopen | ⟨kw, hkw, hkey⟩)
  · rcases h with ⟨fd, op, hop⟩ | ⟨w, hw, -⟩
    · exact nomatch hop.symm.trans hopen
    · exact nomatch hw.symm.trans hopen
  · obtain ⟨w, hw, ht⟩ := Token.kind_of_literal? (beq_iff_eq.mp hkey)
    rcases h with ⟨fd, op, hop⟩ | ⟨w', hw', hfree⟩
    · exact nomatch hop.symm.trans hw
    · obtain rfl := TokenKind.word.inj (hw.symm.trans hw')
      exact (hfree kw ht).1 hkw

/-- What starts like a compound command is closed. -/
theorem Derives.closed {node : Node} {o : Bool} (h : Derives (.command node o) (tk :: ts))
    (htk : tk.StartsCompound) : o = false := by
  generalize hts : tk :: ts = us at h
  cases h with
  | simple hfirst _ =>
      obtain ⟨rfl, -⟩ := List.cons.inj hts
      exact absurd htk hfirst.not_startsCompound
  | _ => rfl

/-- Newlines before a list mean nothing. -/
theorem Derives.block_newlines {node : Node} {o : Bool} {nl : List Token} (hnl : Newlines nl)
    (h : Derives (.block node o) ts) : Derives (.block node o) (nl ++ ts) := by
  cases h with
  | block hnl' hns hn =>
      rw [← List.append_assoc]
      exact .block (hnl.append hnl') hns hn

/-- The tokens spell the rest of a simple command with the parts read so far, in reverse. -/
def SimpleRest (line : Nat) (assigns argv : List Word) (redirects : List Redirect) (node : Node)
    (ts : List Token) : Prop :=
  ∃ as ws rs, node = .mk (.simple (assigns.reverse ++ as) (argv.reverse ++ ws)
    (redirects.reverse ++ rs)) line ∧ Elements (!argv.isEmpty) as ws rs ts

/-- How a list ends: on a command line with the newline after it, or before the end of the
input. -/
def ListEnds (top : Bool) (ts us vs : List Token) : Prop :=
  if top then
    (∃ stop, stop.kind = .newline ∧ us = ts ++ [stop]) ∨
      us = ts ∧ ∃ stop ws, stop.kind = .endOfInput ∧ vs = stop :: ws
  else us = ts

theorem pipelineOf_eq (line : Nat) (ns : List Node) :
    (match ns with
      | [single] => single
      | stages => .mk (.pipeline stages) line) = pipelineOf line ns := by
  match ns with
  | [] => rfl
  | [_] => rfl
  | _ :: _ :: _ => rfl

theorem parsePipelineFrom_eq (n : Nat) (negated : Bool) (line : Nat) (tk : Token) :
    parsePipelineFrom n negated line tk = (do
      let stage ← parseCommandAt n tk
      let ns ← parseStages n [stage]
      return if negated then .mk (.not (pipelineOf line ns)) line else pipelineOf line ns) := by
  simp only [← pipelineOf_eq]
  rfl

/-- With `n` steps, whatever is read is spelled by the tokens that were taken for it. -/
structure ParsesSound (n : Nat) : Prop where
  parseInner : ∀ {ts i}, Upcoming ts i →
    Finds (fun node us vs => ∃ o, Derives (.block node o) us ∧ Fits o vs) ts (parseInner n) i
  parseList : ∀ {top acc ts i}, Upcoming ts i →
    Finds (fun node us vs => ∃ ns o xs, Node.ofList (acc.reverse ++ ns) = some node ∧
      Derives (.items top ns o) xs ∧ (top = false → Fits o vs) ∧ ListEnds top xs us vs) ts
      (parseList top n acc) i
  parseAndOr : ∀ {ts i}, Upcoming ts i →
    Finds (fun node us vs => ∃ o, Derives (.andOr node o) us ∧ Fits o vs) ts (parseAndOr n) i
  parseAndOrRest : ∀ {left o ts i}, Upcoming ts i → Fits o ts →
    Finds (fun node us vs => ∃ o', Derives (.chain left o node o') us ∧ Fits o' vs) ts
      (parseAndOrRest n left) i
  parsePipeline : ∀ {ts i}, Upcoming ts i →
    Finds (fun node us vs => ∃ o, Derives (.pipeline node o) us ∧ Fits o vs) ts
      (parsePipeline n) i
  parseStages : ∀ {stage acc o xs ts i}, Derives (.command stage o) xs → Upcoming ts i →
    Fits o ts → Finds (fun ns us vs => ∃ ns' o', ns = acc.reverse ++ ns' ∧
      Derives (.stages ns' o') (xs ++ us) ∧ Fits o' vs) ts (parseStages n (stage :: acc)) i
  parseCommandAt : ∀ {tk ts i}, Taken tk ts i →
    Finds (fun node us vs => (∃ o, Derives (.command node o) us ∧ Fits o vs) ∧
      ∃ ws, us = tk :: ws) (tk :: ts) (parseCommandAt n tk) i
  parseSimple : ∀ {line assigns argv redirects tk ts i}, Taken tk ts i →
    Finds (fun node us vs => SimpleRest line assigns argv redirects node us ∧ EndsSimple vs ∨
      assigns = [] ∧ argv = [] ∧ redirects = [] ∧ ∃ xs, us = tk :: xs ∧
        (tk.StartsSimple → tk.line = line → Derives (.command node false) us))
      (tk :: ts) (parseSimple n line assigns argv redirects tk) i
  parseFunction : ∀ {name line opener ts i}, Upcoming (opener :: ts) i → opener.kind = .leftParen →
    Finds (fun node us _ => ∀ tk : Token, tk.kind = .word name → tk.StartsSimple →
      tk.line = line → Derives (.command node false) (tk :: us)) (opener :: ts)
      (parseFunction n name line) i
  parseIf : ∀ {line ts i}, Upcoming ts i →
    Finds (fun node us _ => Derives (.branches node) us ∧ node.line = line) ts (parseIf n line) i
  parseLoop : ∀ {isWhile line ts i}, Upcoming ts i →
    Finds (fun node us _ => ∀ kw : Token, kw.line = line →
      kw.isKeyword (if isWhile then "while" else "until") = true →
      Derives (.compound node) (kw :: us) ∧ node.line = line) ts (parseLoop n isWhile line) i
  parseFor : ∀ {line ts i}, Upcoming ts i →
    Finds (fun node us _ => ∀ kw : Token, kw.line = line → kw.isKeyword "for" = true →
      Derives (.compound node) (kw :: us) ∧ node.line = line) ts (parseFor n line) i
  parseCase : ∀ {line ts i}, Upcoming ts i →
    Finds (fun node us _ => ∀ kw : Token, kw.line = line → kw.isKeyword "case" = true →
      Derives (.compound node) (kw :: us) ∧ node.line = line) ts (parseCase n line) i
  parseArms : ∀ {acc ts i}, Upcoming ts i →
    Finds (fun arms us _ => ∃ as, arms = acc.reverse ++ as ∧ Derives (.arms as) us) ts
      (parseArms n acc) i

namespace ParsesSound

theorem zero : ParsesSound 0 := by
  constructor <;> intros <;> trivial

/-! ## Lists -/

theorem parseInner_succ (h : ParsesSound n) (hi : Upcoming ts i) :
    Finds (fun node us vs => ∃ o, Derives (.block node o) us ∧ Fits o vs) ts
      (Script.parseInner (n + 1)) i := by
  unfold Script.parseInner
  refine (finds_skipNewlines n hi).bind ?_
  rintro _ nl us j rfl hj hnl
  refine (h.parseList hj).mono ?_
  rintro node vs ws ⟨ns, o, xs, hnode, hns, hfits, rfl⟩
  exact ⟨o, .block hnl hns hnode, hfits rfl⟩

theorem parseAndOr_succ (h : ParsesSound n) (hi : Upcoming ts i) :
    Finds (fun node us vs => ∃ o, Derives (.andOr node o) us ∧ Fits o vs) ts
      (Script.parseAndOr (n + 1)) i := by
  unfold Script.parseAndOr
  refine (h.parsePipeline hi).bind ?_
  rintro first us vs j rfl hj ⟨o, hfirst, hfits⟩
  refine (h.parseAndOrRest hj hfits).mono ?_
  rintro node ws xs ⟨o', hchain, hfits'⟩
  exact ⟨o', .andOr hfirst hchain, hfits'⟩

theorem parseAndOrRest_succ (h : ParsesSound n) {left : Node} {o : Bool} (hi : Upcoming ts i)
    (ho : Fits o ts) :
    Finds (fun node us vs => ∃ o', Derives (.chain left o node o') us ∧ Fits o' vs) ts
      (Script.parseAndOrRest (n + 1) left) i := by
  unfold Script.parseAndOrRest
  refine finds_draw n hi ?_
  rintro op us j rfl hj
  have hright : ∀ {f : Node → Node}, op.kind ≠ .endOfInput →
      (∀ {right node nl xs ys o₁ o₂}, Newlines nl → Derives (.pipeline right o₁) xs →
        Derives (.chain (f right) o₁ node o₂) ys →
        Derives (.chain left o node o₂) (op :: nl ++ xs ++ ys)) →
      Finds (fun node us vs => ∃ o', Derives (.chain left o node o') us ∧ Fits o' vs) (op :: us)
        (do
          Script.skipNewlines n
          let right ← Script.parsePipeline n
          Script.parseAndOrRest n (f right)) j := by
    intro f hne hstep
    refine hj.finds hne fun hk => (finds_skipNewlines n hk).bind ?_
    rintro _ nl vs k rfl hk hnl
    refine (h.parsePipeline hk).bind ?_
    rintro right xs ws l rfl hl ⟨o₁, hright, hfits⟩
    refine (h.parseAndOrRest hl hfits).mono ?_
    rintro node ys zs ⟨o₂, hchain, hfits'⟩
    exact ⟨o₂, by simpa using hstep hnl hright hchain, hfits'⟩
  split
  · rename_i hop
    exact hright (by simp [hop]) fun hnl hr hc => .chainAnd hop hnl hr hc
  · rename_i hop
    exact hright (by simp [hop]) fun hnl hr hc => .chainOr hop hnl hr hc
  · exact hj.finds_push fun k hk => finds_pure hk ⟨o, .chainEnd, ho⟩

/-- The commands read so far and the last one make a list. -/
theorem finds_closeList {P : Node → List Token → List Token → Prop} {acc : List Node} {node : Node}
    (hi : Upcoming ts i)
    (hP : ∀ list, Node.ofList (acc.reverse ++ [node]) = some list → P list [] ts) :
    Finds P ts (closeList (node :: acc)) i := by
  rw [closeList, List.reverse_cons]
  split
  · rename_i list hlist
    exact finds_pure hi (hP list hlist)
  · trivial

theorem parseList_succ (h : ParsesSound n) {top : Bool} {acc : List Node} (hi : Upcoming ts i) :
    Finds (fun node us vs => ∃ ns o xs, Node.ofList (acc.reverse ++ ns) = some node ∧
      Derives (.items top ns o) xs ∧ (top = false → Fits o vs) ∧ ListEnds top xs us vs) ts
      (Script.parseList top (n + 1) acc) i := by
  rw [parseList_eq]
  refine (h.parseAndOr hi).bind ?_
  rintro node us vs j rfl hj ⟨o, hnode, hfits⟩
  refine finds_draw n hj ?_
  rintro tk ws k rfl hk
  -- a separator was taken, and makes `node` the command `node'`
  have hgoOn : ∀ {node'}, tk.kind ≠ .endOfInput →
      (∀ nl, Newlines nl → (top = true → nl = []) → Separator top node node' (tk :: nl)) →
      Finds (fun list us' vs => ∃ ns o xs, Node.ofList (acc.reverse ++ ns) = some list ∧
        Derives (.items top ns o) xs ∧ (top = false → Fits o vs) ∧
          ListEnds top xs (us ++ us') vs) (tk :: ws) (continueList n top (node' :: acc)) k := by
    intro node' hne hsep
    refine hk.finds hne fun hk => ?_
    refine .ite (fun htop => ?_) fun htop => ?_
    · subst htop
      have hsep := hsep [] .nil fun _ => rfl
      refine (finds_peekToken n hk).bind ?_
      rintro tk' _ _ l rfl hl ⟨rfl, zs, rfl⟩
      split
      · rename_i hnl
        refine finds_draw n hl ?_
        rintro tk'' us' m hts hm
        obtain ⟨rfl, rfl⟩ := List.cons.inj hts
        refine hm.finds (by simp [hnl]) fun hm => ?_
        refine finds_closeList hm fun list hlist => ⟨[node'], false, us ++ [tk], hlist,
          .closedItem hnode hsep, fun _ => fits_false, .inl ⟨tk', hnl, by simp⟩⟩
      · rename_i hend
        refine finds_closeList hl fun list hlist => ⟨[node'], false, us ++ [tk], hlist,
          .closedItem hnode hsep, fun _ => fits_false, .inr ⟨by simp, tk', zs, hend, rfl⟩⟩
      · refine (h.parseList hl).mono ?_
        rintro list xs ys ⟨ns, o', zs', hlist, hns, hfits', hends⟩
        refine ⟨node' :: ns, o', us ++ [tk] ++ zs', by simpa using hlist,
          .item hnode hsep hns, hfits', ?_⟩
        rcases hends with ⟨stop, hstop, rfl⟩ | ⟨rfl, hend⟩
        · exact .inl ⟨stop, hstop, by simp⟩
        · exact .inr ⟨by simp, hend⟩
    · refine (finds_skipNewlines n hk).bind ?_
      rintro _ nl xs l rfl hl hnl
      have hsep := hsep nl hnl fun h => absurd h htop
      have htop' : top = false := Bool.eq_false_iff.mpr htop
      subst htop'
      refine (finds_peekToken n hl).bind ?_
      rintro tk' _ _ m rfl hm ⟨rfl, zs, rfl⟩
      refine .ite (fun _ => ?_) fun _ => ?_
      · refine finds_closeList hm fun list hlist => ⟨[node'], false, us ++ tk :: nl, hlist,
          .closedItem hnode hsep, fun _ => fits_false, ?_⟩
        show us ++ _ = _
        simp
      · refine (h.parseList hm).mono ?_
        rintro list xs ys ⟨ns, o', zs', hlist, hns, hfits', rfl⟩
        refine ⟨node' :: ns, o', us ++ tk :: nl ++ _, by simpa using hlist,
          .item hnode hsep hns, hfits', ?_⟩
        show us ++ _ = _
        simp
  split
  · rename_i hamp
    refine hgoOn (by simp [hamp]) fun nl hnl htop => .amp hamp hnl htop
  · rename_i hsemi
    refine hgoOn (by simp [hsemi]) fun nl hnl htop => .semi hsemi hnl htop
  · rename_i hnl
    have hne : tk.kind ≠ .endOfInput := by simp [hnl]
    refine .ite (fun htop => ?_) fun htop => ?_
    · subst htop
      refine hk.finds hne fun hk => finds_closeList hk fun list hlist => ?_
      exact ⟨[node], o, us, hlist, .lastItem hnode, fun h => (nomatch h), .inl ⟨tk, hnl, by simp⟩⟩
    · exact hgoOn hne fun nl hnl' _ => .newline hnl hnl' (Bool.eq_false_iff.mpr htop)
  · rename_i hend
    refine hk.finds_push fun l hl => finds_closeList hl fun list hlist => ?_
    refine ⟨[node], o, us, hlist, .lastItem hnode, fun _ => hfits, ?_⟩
    cases top with
    | true => exact .inr ⟨by simp, tk, ws, hend, rfl⟩
    | false => show us ++ [] = us; simp
  · refine .ite (fun _ => trivial) fun htop => ?_
    have htop' : top = false := Bool.eq_false_iff.mpr htop
    subst htop'
    refine hk.finds_push fun l hl => finds_closeList hl fun list hlist => ?_
    refine ⟨[node], o, us, hlist, .lastItem hnode, fun _ => hfits, ?_⟩
    show us ++ [] = us
    simp

/-! ## Pipelines -/

/-- The stages of a pipeline, from the first token of the first one on. -/
theorem finds_stages (h : ParsesSound n) {tk : Token} (negated : Bool) (line : Nat)
    (hi : Taken tk ts i) :
    Finds (fun node us vs => ∃ ns o, Derives (.stages ns o) us ∧ Fits o vs ∧
      (∃ ws, us = tk :: ws) ∧ node = if negated then .mk (.not (pipelineOf line ns)) line
        else pipelineOf line ns) (tk :: ts) (parsePipelineFrom n negated line tk) i := by
  rw [parsePipelineFrom_eq]
  refine (h.parseCommandAt hi).bind ?_
  rintro stage us vs j hts hj ⟨⟨o, hstage, hfits⟩, ws, rfl⟩
  refine (h.parseStages hstage hj hfits).bind ?_
  rintro ns xs ys k rfl hk ⟨ns', o', hns', hns, hfits'⟩
  obtain rfl : ns = ns' := hns'
  exact finds_pure hk ⟨ns, o', by simpa using hns, hfits', ⟨ws ++ xs, by simp⟩, rfl⟩

theorem parsePipeline_succ (h : ParsesSound n) (hi : Upcoming ts i) :
    Finds (fun node us vs => ∃ o, Derives (.pipeline node o) us ∧ Fits o vs) ts
      (Script.parsePipeline (n + 1)) i := by
  rw [parsePipeline_eq]
  refine finds_draw n hi ?_
  rintro first us j rfl hj
  refine .ite (fun hneg => ?_) fun hneg => ?_
  · refine hj.finds (Token.kind_ne_of_isKeyword hneg) fun hk => ?_
    refine finds_draw n hk ?_
    rintro tk vs k rfl hk
    rw [hneg]
    refine (h.finds_stages true first.line hk).mono ?_
    rintro node xs ys ⟨ns, o, hns, hfits, -, rfl⟩
    exact ⟨o, .negated hneg hns, hfits⟩
  · rw [Bool.eq_false_iff.mpr hneg]
    refine (h.finds_stages false first.line hj).mono ?_
    rintro node xs ys ⟨ns, o, hns, hfits, ⟨ws, rfl⟩, rfl⟩
    exact ⟨o, .plain (Bool.eq_false_iff.mpr hneg) hns, hfits⟩

theorem parseStages_succ (h : ParsesSound n) {stage : Node} {acc : List Node} {o : Bool}
    {xs : List Token} (hstage : Derives (.command stage o) xs) (hi : Upcoming ts i)
    (ho : Fits o ts) :
    Finds (fun ns us vs => ∃ ns' o', ns = acc.reverse ++ ns' ∧ Derives (.stages ns' o') (xs ++ us) ∧
      Fits o' vs) ts (Script.parseStages (n + 1) (stage :: acc)) i := by
  unfold Script.parseStages
  refine finds_draw n hi ?_
  rintro bar us j rfl hj
  split
  · rename_i hbar
    refine hj.finds (by simp [hbar]) fun hk => ?_
    refine (finds_skipNewlines n hk).bind ?_
    rintro _ nl vs k rfl hk hnl
    refine finds_draw n hk ?_
    rintro tk ws l rfl hl
    refine (h.parseCommandAt hl).bind ?_
    rintro stage' ys zs m hts hm ⟨⟨o₁, hstage', hfits⟩, -⟩
    refine (h.parseStages hstage' hm hfits).mono ?_
    rintro ns us' vs' ⟨ns', o', rfl, hns, hfits'⟩
    exact ⟨stage :: ns', o', by simp, by simpa using Derives.stage hstage hbar hnl hns, hfits'⟩
  · refine hj.finds_push fun k hk => finds_pure hk ⟨[stage], o, by simp, ?_, ho⟩
    simpa using Derives.lastStage hstage

/-! ## Simple commands and functions -/

/-- A simple command with a part goes on; no alias is expanded at its next word. -/
theorem finds_goOn (h : ParsesSound n) (line : Nat) (assigns argv : List Word)
    (redirects : List Redirect) (hne : assigns ≠ [] ∨ argv ≠ [] ∨ redirects ≠ [])
    (hi : Upcoming ts i) :
    Finds (fun node us vs => SimpleRest line assigns argv redirects node us ∧ EndsSimple vs) ts
      (do
        let tk ← Script.nextToken n
        if ← takeAliasBlank then
          let tk ← Script.expandAlias n tk
          Script.parseSimple n line assigns argv redirects tk
        else Script.parseSimple n line assigns argv redirects tk) i := by
  refine finds_draw n hi ?_
  rintro tk us j rfl hj
  refine hj.finds_takeAliasBlank ((h.parseSimple hj).mono ?_)
  rintro node vs ws (hrest | ⟨rfl, rfl, rfl, -⟩)
  · exact hrest
  · simp at hne

theorem parseSimple_succ (h : ParsesSound n) {line : Nat} {assigns argv : List Word}
    {redirects : List Redirect} (hi : Taken tk ts i) :
    Finds (fun node us vs => SimpleRest line assigns argv redirects node us ∧ EndsSimple vs ∨
      assigns = [] ∧ argv = [] ∧ redirects = [] ∧ ∃ xs, us = tk :: xs ∧
        (tk.StartsSimple → tk.line = line → Derives (.command node false) us))
      (tk :: ts) (Script.parseSimple (n + 1) line assigns argv redirects tk) i := by
  unfold Script.parseSimple
  dsimp only
  split
  · rename_i fd op hop
    refine hi.finds (by simp [hop]) fun hj => ?_
    refine (finds_parseRedirect fd op (hi.noHereDoc fd op hop) n hj).bind ?_
    rintro r us vs k rfl hk hr
    refine (h.finds_goOn line assigns argv (r :: redirects) (by simp) hk).mono ?_
    rintro node ws xs ⟨⟨as, ws', rs, rfl, hel⟩, hends⟩
    exact .inl ⟨⟨as, ws', r :: rs, by simp, .redirection (hr tk hop) hel⟩, hends⟩
  · rename_i w hw
    refine hi.finds (by simp [hw]) fun hj => ?_
    refine .ite (fun hassign => ?_) fun hn => ?_
    · obtain ⟨hempty, hassign⟩ := Bool.and_eq_true_iff.mp hassign
      obtain rfl := List.isEmpty_iff.mp hempty
      refine (h.finds_goOn line (w :: assigns) [] redirects (by simp) hj).mono ?_
      rintro node us vs ⟨⟨as, ws, rs, rfl, hel⟩, hends⟩
      exact .inl ⟨⟨w :: as, ws, rs, by simp, .assignment hw hassign hel⟩, hends⟩
    · have hword : argv.isEmpty = true → w.isAssignment = false := by
        intro hempty
        rw [hempty, Bool.true_and] at hn
        exact Bool.eq_false_iff.mpr hn
      have hcons : ∀ {node us}, SimpleRest line assigns (w :: argv) redirects node us →
          SimpleRest line assigns argv redirects node (tk :: us) := by
        rintro node us ⟨as, ws, rs, rfl, hel⟩
        exact ⟨as, w :: ws, rs, by simp, .word hw (fun h => hword (by simpa using h)) hel⟩
      refine .ite (fun hfirst => ?_) fun _ => ?_
      · simp only [Bool.and_eq_true, List.isEmpty_iff] at hfirst
        obtain ⟨⟨rfl, rfl⟩, rfl⟩ := hfirst
        refine (finds_peekToken n hj).bind ?_
        rintro opener _ _ k rfl hk ⟨rfl, ws, rfl⟩
        refine .ite (fun hopen => ?_) fun _ => ?_
        · refine (h.parseFunction hk (Token.kind_of_isLeftParen hopen)).mono ?_
          rintro node us vs hnode
          exact .inr ⟨rfl, rfl, rfl, us, rfl, hnode tk hw⟩
        · refine (h.finds_goOn line [] [w] [] (by simp) hk).mono ?_
          rintro node us vs ⟨hrest, hends⟩
          exact .inl ⟨hcons hrest, hends⟩
      · refine (h.finds_goOn line assigns (w :: argv) redirects (by simp) hj).mono ?_
        rintro node us vs ⟨hrest, hends⟩
        exact .inl ⟨hcons hrest, hends⟩
  · rename_i hredirect hword
    refine hi.finds_push fun j hj => finds_pure hj (.inl ⟨⟨[], [], [], by simp, .nil⟩, ?_⟩)
    rintro tk' us hts hext
    obtain ⟨rfl, rfl⟩ := List.cons.inj hts
    rcases hext with ⟨w, hw⟩ | ⟨fd, op, hop⟩
    · exact hword w hw
    · exact hredirect fd op hop

/-- A simple command from its first token on. -/
theorem finds_simple (h : ParsesSound n) (hi : Taken tk ts i) (htk : tk.StartsSimple) :
    Finds (fun node us vs => (∃ o, Derives (.command node o) us ∧ Fits o vs) ∧
      ∃ ws, us = tk :: ws) (tk :: ts) (Script.parseSimple n tk.line [] [] [] tk) i := by
  refine (h.parseSimple hi).split.mono ?_
  rintro node us vs ⟨hts, ⟨⟨as, ws, rs, rfl, hel⟩, hends⟩ | ⟨-, -, -, xs, rfl, hnode⟩⟩
  · cases us with
    | nil =>
        refine absurd ?_ (hends tk ts hts.symm)
        exact htk.elim .inr fun ⟨w, hw, _⟩ => .inl ⟨w, hw⟩
    | cons tk' us =>
        obtain ⟨rfl, -⟩ := List.cons.inj hts
        exact ⟨⟨true, .simple htk hel, hends.fits true⟩, us, rfl⟩
  · exact ⟨⟨false, hnode htk rfl, fits_false⟩, xs, rfl⟩

theorem parseFunction_succ (h : ParsesSound n) {name : Word} {line : Nat} {opener : Token}
    (hi : Upcoming (opener :: ts) i) (hopen : opener.kind = .leftParen) :
    Finds (fun node us _ => ∀ tk : Token, tk.kind = .word name → tk.StartsSimple →
      tk.line = line → Derives (.command node false) (tk :: us)) (opener :: ts)
      (Script.parseFunction (n + 1) name line) i := by
  unfold Script.parseFunction
  refine finds_draw n hi ?_
  rintro opener' us j hts hj
  obtain ⟨rfl, rfl⟩ := List.cons.inj hts
  refine hj.finds (by simp [hopen]) fun hk => ?_
  refine finds_draw n hk ?_
  rintro closer us k rfl hk
  refine .ite (fun _ => trivial) fun hclose => ?_
  have hclose := Token.kind_of_isRightParen (by simpa using hclose)
  refine hk.finds (by simp [hclose]) fun hk => ?_
  split
  · trivial
  · rename_i fname hfname
    obtain ⟨hfname, hid⟩ := Option.filter_eq_some_iff.mp hfname
    refine (finds_skipNewlines n hk).bind ?_
    rintro _ nl vs l rfl hl hnl
    refine finds_draw n hl ?_
    rintro first ws m rfl hm
    refine .ite (fun hstarts => ?_) fun _ => trivial
    refine (h.parseCommandAt hm).bind ?_
    rintro body xs ys p hts hp ⟨⟨o, hbody, -⟩, zs, rfl⟩
    refine finds_pure hp ?_
    rintro tk htk hfree rfl
    have hfirst := Token.startsCompound_of_tests hstarts
    obtain rfl := hbody.closed hfirst
    simpa using Derives.function htk hfree hfname hid hopen hclose hnl hfirst hbody

/-! ## Compound commands -/

/-- A compound command with its redirections, from its first token on. -/
theorem finds_compound {r : Reader Node} (hi : Taken tk ts i) (hne : tk.kind ≠ .endOfInput)
    (hr : ∀ {j}, Upcoming ts j → Finds (fun node us _ => Derives (.compound node) (tk :: us) ∧
      node.line = tk.line) ts r j) :
    Finds (fun node us vs => (∃ o, Derives (.command node o) us ∧ Fits o vs) ∧
      ∃ ws, us = tk :: ws) (tk :: ts) (r >>= fun body => closeCompound n tk.line body) i := by
  refine hi.finds hne fun hj => (hr hj).bind ?_
  rintro body us vs k rfl hk ⟨hbody, hline⟩
  refine (finds_closeCompound tk.line body n hk).mono ?_
  rintro node ws xs hnode
  exact ⟨⟨false, hnode _ hbody hline, fits_false⟩, us ++ ws, rfl⟩

/-- A list and the keyword after it. -/
theorem finds_closed {β : Type} {Q : β → List Token → List Token → Prop} {f : Node → Reader β}
    (h : ParsesSound n) (kw : Text) (hi : Upcoming ts i)
    (hf : ∀ {node xs closer vs j}, ts = xs ++ closer :: vs → Upcoming vs j →
      Derives (.block node false) xs → closer.isKeyword kw = true →
      Finds (fun b ws => Q b (xs ++ closer :: ws)) vs (f node) j) :
    Finds Q ts (do
      let node ← Script.parseInner n
      Script.expectKeyword kw n
      f node) i := by
  refine (h.parseInner hi).bind ?_
  rintro node us vs j rfl hj ⟨o, hnode, hfits⟩
  refine (finds_expectKeyword kw n hj).bind ?_
  rintro _ _ ws k rfl hk ⟨closer, rfl, hclose⟩
  obtain rfl := hfits.closed hclose
  simpa using hf rfl hk hnode hclose

theorem parseCommandAt_succ (h : ParsesSound n) (hi : Taken tk ts i) :
    Finds (fun node us vs => (∃ o, Derives (.command node o) us ∧ Fits o vs) ∧
      ∃ ws, us = tk :: ws) (tk :: ts) (Script.parseCommandAt (n + 1) tk) i := by
  unfold Script.parseCommandAt
  dsimp only
  split
  · rename_i hopen
    refine hi.finds (by simp [hopen]) fun hj => ?_
    refine (h.parseInner hj).bind ?_
    rintro body us vs k rfl hk ⟨o, hbody, -⟩
    refine finds_draw n hk ?_
    rintro closer ws l rfl hl
    refine .ite (fun _ => trivial) fun hclose => ?_
    have hclose := Token.kind_of_isRightParen (by simpa using hclose)
    refine hl.finds (by simp [hclose]) fun hl => ?_
    refine (finds_parseRedirects [] n hl).bind ?_
    rintro rs xs ys m rfl hm ⟨rs', hrs', hrs⟩
    obtain rfl : rs = rs' := hrs'
    refine finds_pure hm ⟨⟨false, ?_, fits_false⟩, _, rfl⟩
    simpa using Derives.subshell hopen hbody hclose hrs
  · rename_i fd op hop
    exact h.finds_simple hi (.inl ⟨fd, op, hop⟩)
  · rename_i w hw
    have hne : tk.kind ≠ .endOfInput := by simp [hw]
    split
    · rename_i hnone
      exact h.finds_simple hi (.inr ⟨w, hw, by simp [hnone]⟩)
    · rename_i kw hkw
      have hkey : ∀ {text}, kw = text → tk.isKeyword text = true := by
        rintro _ rfl
        simp [Token.isKeyword, Token.literal?, Token.word?, hw, hkw]
      refine .ite (fun heq => ?_) fun hif => ?_
      · refine finds_compound hi hne fun hj => (h.parseIf hj).mono ?_
        rintro node us vs ⟨hnode, hline⟩
        exact ⟨.ifThen (hkey heq) hnode hline, hline⟩
      refine .ite (fun heq => ?_) fun hwhile => ?_
      · exact finds_compound hi hne fun hj => (h.parseLoop hj).mono fun node us vs hnode =>
          hnode tk rfl (hkey heq)
      refine .ite (fun heq => ?_) fun huntil => ?_
      · exact finds_compound hi hne fun hj => (h.parseLoop hj).mono fun node us vs hnode =>
          hnode tk rfl (hkey heq)
      refine .ite (fun heq => ?_) fun hfor => ?_
      · exact finds_compound hi hne fun hj => (h.parseFor hj).mono fun node us vs hnode =>
          hnode tk rfl (hkey heq)
      refine .ite (fun heq => ?_) fun hcase => ?_
      · exact finds_compound hi hne fun hj => (h.parseCase hj).mono fun node us vs hnode =>
          hnode tk rfl (hkey heq)
      refine .ite (fun heq => ?_) fun hbrace => ?_
      · refine hi.finds hne fun hj => h.finds_closed "\x7d" hj ?_
        rintro body us closer vs k rfl hk hbody hclose
        refine (finds_closeCompound tk.line _ n hk).mono ?_
        rintro node xs ys hnode
        refine ⟨⟨false, ?_, fits_false⟩, _, rfl⟩
        simpa using hnode _ (.brace (hkey heq) hbody hclose) rfl
      refine .ite (fun _ => trivial) fun henders => h.finds_simple hi (.inr ⟨w, hw, ?_⟩)
      rintro kw' hkw'
      obtain rfl := Option.some.inj (hkw.symm.trans hkw')
      refine ⟨?_, by simpa using henders⟩
      simp only [compoundStarters, List.mem_cons, List.not_mem_nil, or_false, not_or]
      exact ⟨hbrace, hif, hwhile, huntil, hfor, hcase⟩
  · trivial

theorem parseLoop_succ (h : ParsesSound n) {isWhile : Bool} {line : Nat} (hi : Upcoming ts i) :
    Finds (fun node us _ => ∀ kw : Token, kw.line = line →
      kw.isKeyword (if isWhile then "while" else "until") = true →
      Derives (.compound node) (kw :: us) ∧ node.line = line) ts
      (Script.parseLoop (n + 1) isWhile line) i := by
  unfold Script.parseLoop
  refine h.finds_closed "do" hi ?_
  rintro cond us kwDo vs j rfl hj hcond hdo
  refine h.finds_closed "done" hj ?_
  rintro body ws kwDone xs k rfl hk hbody hdone
  refine finds_pure hk ?_
  rintro kw rfl hkw
  cases isWhile with
  | true => exact ⟨by simpa using Derives.whileDo hkw hcond hdo hbody hdone, rfl⟩
  | false => exact ⟨by simpa using Derives.untilDo hkw hcond hdo hbody hdone, rfl⟩

theorem parseIf_succ (h : ParsesSound n) {line : Nat} (hi : Upcoming ts i) :
    Finds (fun node us _ => Derives (.branches node) us ∧ node.line = line) ts
      (Script.parseIf (n + 1) line) i := by
  unfold Script.parseIf
  refine h.finds_closed "then" hi ?_
  rintro cond us kwThen vs j rfl hj hcond hthen
  refine (h.parseInner hj).bind ?_
  rintro body ws xs k rfl hk ⟨o, hbody, hfits⟩
  refine finds_draw n hk ?_
  rintro kw ys l rfl hl
  refine .ite (fun helif => ?_) fun _ => .ite (fun helse => ?_) fun _ => .ite (fun hfi => ?_)
    fun _ => trivial
  · obtain rfl := hfits.closed helif
    refine hl.finds (Token.kind_ne_of_isKeyword helif) fun hl => (h.parseIf hl).bind ?_
    rintro rest zs us' m rfl hm ⟨hrest, hline⟩
    refine finds_pure hm ⟨?_, rfl⟩
    simpa using Derives.thenElif hcond hthen hbody helif hrest hline
  · obtain rfl := hfits.closed helse
    refine hl.finds (Token.kind_ne_of_isKeyword helse) fun hl => h.finds_closed "fi" hl ?_
    rintro other zs kwFi us' m rfl hm hother hfi
    refine finds_pure hm ⟨?_, rfl⟩
    simpa using Derives.thenElse hcond hthen hbody helse hother hfi
  · obtain rfl := hfits.closed hfi
    refine hl.finds (Token.kind_ne_of_isKeyword hfi) fun hl => finds_pure hl ⟨?_, rfl⟩
    simpa using Derives.thenFi hcond hthen hbody hfi

/-- What a `for` goes through, from the token after the newlines on. -/
theorem finds_forItems {β : Type} {Q : β → List Token → List Token → Prop}
    {f : Option (List Word) → Reader β} (n : Nat) (hi : Taken tk ts i)
    (hf : ∀ {items us vs j}, tk :: ts = us ++ vs → Upcoming vs j → ForItems items us →
      Finds (fun b ws => Q b (us ++ ws)) vs (f items) j) :
    Finds Q (tk :: ts) (do
      let items ←
        if tk.isKeyword "in" then pure (some (← Script.parseItems n []))
        else do
          match tk.kind with
          | .semi => pure none
          | _ =>
            pushToken tk
            pure none
      f items) i := by
  refine .ite (fun hin => ?_) fun _ => ?_
  · refine hi.finds (Token.kind_ne_of_isKeyword hin) fun hj => (finds_parseItems [] n hj).bind ?_
    rintro ws us vs k rfl hk ⟨ws', xs, stop, hws, rfl, hkinds, hstop⟩
    obtain rfl : ws = ws' := hws
    exact hf rfl hk (.words hin hkinds hstop)
  · split
    · rename_i hsemi
      refine hi.finds (by simp [hsemi]) fun hj => ?_
      exact hf rfl hj (.semi hsemi)
    · exact hi.finds_push fun j hj => hf rfl hj .none

theorem parseFor_succ (h : ParsesSound n) {line : Nat} (hi : Upcoming ts i) :
    Finds (fun node us _ => ∀ kw : Token, kw.line = line → kw.isKeyword "for" = true →
      Derives (.compound node) (kw :: us) ∧ node.line = line) ts
      (Script.parseFor (n + 1) line) i := by
  unfold Script.parseFor
  refine finds_draw n hi ?_
  rintro name us j rfl hj
  split
  · trivial
  · rename_i var hvar
    obtain ⟨hvar, hid⟩ := Option.filter_eq_some_iff.mp hvar
    obtain ⟨w, hw, -⟩ := Token.kind_of_literal? hvar
    refine hj.finds (by simp [hw]) fun hj => ?_
    refine (finds_skipNewlines n hj).bind ?_
    rintro _ nl vs k rfl hk hnl
    refine finds_draw n hk ?_
    rintro tk ws l rfl hl
    refine finds_forItems n hl ?_
    rintro items xs ys m hts hm hitems
    refine (finds_skipNewlines n hm).bind ?_
    rintro _ nl' zs p rfl hp hnl'
    refine (finds_expectKeyword "do" n hp).bind ?_
    rintro _ _ us' q rfl hq ⟨kwDo, rfl, hdo⟩
    refine h.finds_closed "done" hq ?_
    rintro body vs' kwDone ws' r rfl hr hbody hdone
    refine finds_pure hr ?_
    rintro kw rfl hkw
    exact ⟨by simpa using Derives.forIn hkw hvar hid hnl hitems hnl' hdo hbody hdone, rfl⟩

/-! ## Arms -/

theorem parseCase_succ (h : ParsesSound n) {line : Nat} (hi : Upcoming ts i) :
    Finds (fun node us _ => ∀ kw : Token, kw.line = line → kw.isKeyword "case" = true →
      Derives (.compound node) (kw :: us) ∧ node.line = line) ts
      (Script.parseCase (n + 1) line) i := by
  unfold Script.parseCase
  refine finds_draw n hi ?_
  rintro word us j rfl hj
  split
  · rename_i subject hword
    refine hj.finds (by simp [hword]) fun hj => ?_
    refine (finds_skipNewlines n hj).bind ?_
    rintro _ nl vs k rfl hk hnl
    refine (finds_expectKeyword "in" n hk).bind ?_
    rintro _ _ ws l rfl hl ⟨kwIn, rfl, hin⟩
    refine (h.parseArms hl).bind ?_
    rintro arms xs ys m rfl hm ⟨as, harms, has⟩
    obtain rfl : arms = as := harms
    refine finds_pure hm ?_
    rintro kw rfl hkw
    exact ⟨by simpa using Derives.caseOf hkw hword hnl hin has, rfl⟩
  · trivial

/-- The patterns of an arm, with a parenthesis before them or without one. -/
theorem finds_armPatterns (n : Nat) (hi : Taken tk ts i) (hne : ¬ tk.isKeyword "esac" = true)
    {β : Type} {Q : β → List Token → List Token → Prop} {f : List Word → Reader β}
    (hf : ∀ {ps us vs j}, tk :: ts = us ++ vs → Upcoming vs j → ArmPatterns ps us →
      Finds (fun b ws => Q b (us ++ ws)) vs (f ps) j) :
    Finds Q (tk :: ts) (do
      let tk ← if tk.isLeftParen then Script.nextToken n else pure tk
      let patterns ← Script.parsePatterns n [] tk
      f patterns) i := by
  by_cases hopen : tk.isLeftParen = true
  · rw [if_pos hopen]
    have hopen := Token.kind_of_isLeftParen hopen
    refine hi.finds (by simp [hopen]) fun hj => finds_draw n hj ?_
    rintro first us j rfl hj
    refine (finds_parsePatterns [] n hj).bind ?_
    rintro ps vs ws k hts hk ⟨ps', hps', hps, -⟩
    obtain rfl : ps = ps' := hps'
    exact hf (by rw [hts, List.cons_append]) hk (.parenthesized hopen hps)
  · rw [if_neg hopen, pure_bind]
    refine (finds_parsePatterns [] n hi).bind ?_
    rintro ps vs ws k hts hk ⟨ps', hps', hps, xs, rfl⟩
    obtain rfl : ps = ps' := hps'
    exact hf hts hk (.bare (Bool.eq_false_iff.mpr hne) hps)

theorem parseArms_succ (h : ParsesSound n) {acc : List CaseArm} (hi : Upcoming ts i) :
    Finds (fun arms us _ => ∃ as, arms = acc.reverse ++ as ∧ Derives (.arms as) us) ts
      (Script.parseArms (n + 1) acc) i := by
  unfold Script.parseArms
  refine (finds_skipNewlines n hi).bind ?_
  rintro _ nl us j rfl hj hnl
  refine finds_draw n hj ?_
  rintro tk vs k rfl hk
  refine .ite (fun hesac => ?_) fun hesac => ?_
  · refine hk.finds (Token.kind_ne_of_isKeyword hesac) fun hk => ?_
    exact finds_pure hk ⟨[], by simp, .noArms hnl hesac⟩
  refine finds_armPatterns n hk hesac ?_
  rintro ps ws xs l hts hl hps
  refine (finds_skipNewlines n hl).bind ?_
  rintro _ nl' ys m rfl hm hnl'
  refine (finds_peekToken n hm).bind ?_
  rintro tk' _ _ p rfl hp ⟨rfl, zs, rfl⟩
  -- whatever the body is, it is in hand when the arm ends
  have hends : ∀ us' {body o vs' q}, tk' :: zs = us' ++ vs' → Upcoming vs' q →
      Derives (.armBody body o) (nl' ++ us') → Fits o vs' →
      Finds (fun arms ts' _ => ∃ as, arms = acc.reverse ++ as ∧
        Derives (.arms as) (nl ++ (ws ++ (nl' ++ (us' ++ ts'))))) vs'
          (continueArms n (CaseArm.mk ps body :: acc)) q := by
    intro us' body o vs' q hts' hq hbody hfits
    refine finds_draw n hq ?_
    rintro stop vs' r rfl hr
    refine .ite (fun hesac' => ?_) fun _ => ?_
    · obtain rfl := hfits.closed hesac'
      refine hr.finds (Token.kind_ne_of_isKeyword hesac') fun hr => ?_
      refine finds_pure hr ⟨[.mk ps body], by simp, ?_⟩
      simpa using Derives.lastArm hnl hps hbody hesac'
    · split
      · rename_i hstop
        refine hr.finds (by simp [hstop]) fun hr => (h.parseArms hr).mono ?_
        rintro arms xs' _ ⟨as, rfl, has⟩
        exact ⟨.mk ps body :: as, by simp, by simpa using Derives.arm hnl hps hbody hstop has⟩
      · trivial
  have hnone := fun q (hq : Upcoming (tk' :: zs) q) =>
    hends [] rfl hq (by simpa using Derives.emptyArm hnl') fits_false
  split
  · exact hnone p hp
  · refine .ite (fun _ => hnone p hp) fun _ => ?_
    refine (h.parseInner hp).bind ?_
    rintro body us' vs' q hts' hq ⟨o, hbody, hfits⟩
    exact hends us' hts' hq (.fullArm (.block_newlines hnl' hbody)) hfits

theorem succ (h : ParsesSound n) : ParsesSound (n + 1) where
  parseInner := h.parseInner_succ
  parseList := h.parseList_succ
  parseAndOr := h.parseAndOr_succ
  parseAndOrRest := h.parseAndOrRest_succ
  parsePipeline := h.parsePipeline_succ
  parseStages := h.parseStages_succ
  parseCommandAt := h.parseCommandAt_succ
  parseSimple := h.parseSimple_succ
  parseFunction := h.parseFunction_succ
  parseIf := h.parseIf_succ
  parseLoop := h.parseLoop_succ
  parseFor := h.parseFor_succ
  parseCase := h.parseCase_succ
  parseArms := h.parseArms_succ

end ParsesSound

theorem parsesSound (n : Nat) : ParsesSound n := by
  induction n with
  | zero => exact .zero
  | succ n ih => exact ih.succ

end CommandShell.Script
