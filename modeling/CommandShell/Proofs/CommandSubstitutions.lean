import CommandShell.Proofs.Grammar.Enclosed

/-!
# The two forms of a command substitution

A text in `$(…)` is read where it stands, as a list up to the parenthesis. A text in back-quotes is
taken out first and read as a script of its own, line by line. Both come to the same commands
(`backQuoted_agrees`), since they have the same tokens, and each line of a list is a command line.
Only how the lists are put together may differ.
-/

namespace CommandShell.Script

open Reader

variable {α β : Type} {c r t : Text} {d : Char} {ts us vs : List Token} {tk stop : Token} {n line : Nat}
  {i j k : Input} {w : Word} {body : Option Node} {gs : List (List Node)} {p : Part} {ps : PartsSoFar}

/-! ## The commands of a list -/

/-- The commands of a list, in order. -/
def Node.commands : Node → List Node
  | .mk (.list left right) _ => left.commands ++ right.commands
  | n => [n]
termination_by structural n => n

theorem Node.commands_ne_nil (n : Node) : n.commands ≠ [] := by
  fun_induction Node.commands n with
  | case1 left right line ihl ihr => exact List.append_ne_nil_of_left_ne_nil ihl _
  | case2 n h => exact List.cons_ne_nil _ _

theorem Node.commands_foldl (n : Node) (ns : List Node) :
    (ns.foldl (fun left right => mk (.list left right) left.line) n).commands =
      n.commands ++ ns.flatMap Node.commands := by
  induction ns generalizing n with
  | nil => simp
  | cons m ns ih => rw [List.foldl_cons, ih, commands, List.flatMap_cons, List.append_assoc]

/-- A list has the commands that it was made of. -/
theorem Node.commands_ofList (ns : List Node) : (Node.ofList ns).map Node.commands =
    if (ns.flatMap Node.commands).isEmpty then none else some (ns.flatMap Node.commands) := by
  cases ns with
  | nil => rfl
  | cons n ns =>
      have hne : (n :: ns).flatMap Node.commands ≠ [] := by
        rw [List.flatMap_cons]
        exact List.append_ne_nil_of_left_ne_nil n.commands_ne_nil _
      rw [if_neg (by simpa using hne)]
      exact congrArg some (Node.commands_foldl n ns)

/-- The commands of all lines are those of a list of the lines. -/
theorem Node.flatMap_commands_lines (gs : List (List Node)) :
    (gs.filterMap Node.ofList).flatMap Node.commands = gs.flatten.flatMap Node.commands := by
  induction gs with
  | nil => rfl
  | cons g gs ih =>
      rw [List.flatten_cons, List.flatMap_append, ← ih]
      cases g with
      | nil => rfl
      | cons n ns =>
          have hlist : Node.ofList (n :: ns) =
              some (ns.foldl (fun left right => mk (.list left right) left.line) n) := rfl
          rw [List.filterMap_cons_some hlist, List.flatMap_cons, Node.commands_foldl,
            List.flatMap_cons]

theorem Node.commands_lines (gs : List (List Node)) :
    (Node.ofList (gs.filterMap Node.ofList)).map Node.commands =
      (Node.ofList gs.flatten).map Node.commands := by
  rw [Node.commands_ofList, Node.commands_ofList, Node.flatMap_commands_lines]

/-! ## Blank texts -/

/-- Nothing but blanks and ends of lines. -/
def BlankText (t : Text) : Prop := ∀ c ∈ t, c = ' ' ∨ c = '\t' ∨ c = '\n'

instance (t : Text) : Decidable (BlankText t) :=
  inferInstanceAs (Decidable (∀ c ∈ t, c = ' ' ∨ c = '\t' ∨ c = '\n'))

/-- A blank text has no tokens but newlines. -/
theorem Lexes.newlines_of_blank (h : Lexes (us ++ [stop]) i) (hi : BetweenTokens i)
    (hblank : BlankText i.ahead) : Newlines us := by
  induction us generalizing i with
  | nil => exact .nil
  | cons tk us ih =>
      obtain ⟨j, hread, -, -, hrest⟩ := h
      obtain ⟨hj, hstep⟩ := hi.read hread
      obtain ⟨taken, htaken, -⟩ := hstep.taken
      obtain ⟨gap, k, hgap, hat, hfits⟩ := hi.token_fits hread
      have hkind : tk.kind = .newline := by
        cases hhead : k.ahead.head? with
        | none =>
            rw [hfits.endOfInput hhead] at hrest
            exact absurd hrest (List.append_ne_nil_of_right_ne_nil _ (List.cons_ne_nil _ _))
        | some c =>
            obtain ⟨hspace, htab, -⟩ := hat.notBlank c hhead
            have hmem : c ∈ i.ahead := by
              rw [hgap]
              exact List.mem_append_right _ (List.mem_of_head? hhead)
            obtain rfl := ((hblank c hmem).resolve_left hspace).resolve_left htab
            exact hfits.newline hhead
      rw [hkind] at hrest
      refine .cons hkind (ih hrest hj fun c hc => hblank c ?_)
      rw [htaken.ahead]
      exact List.mem_append_right _ hc

/-- Where there are only newlines there is no command. -/
theorem CommandLines.eq_nil (h : CommandLines gs ts) (hnl : Newlines ts) : gs = [] := by
  have hnone : ∀ {g o us}, Derives (.items true g o) us → ¬ Newlines us := by
    intro g o us hg hus
    obtain ⟨⟨first, us, rfl, hstarts⟩, -⟩ := hg.accepted
    exact hstarts.2 (hus first List.mem_cons_self)
  induction h with
  | nil => rfl
  | newline _ _ ih => exact ih (List.forall_mem_cons.mp hnl).2
  | last hg => exact absurd hnl (hnone hg)
  | line hg _ _ => exact absurd (fun tk htk => hnl tk (List.mem_append_left _ htk)) (hnone hg)

/-! ## Single characters -/

/-- The text is what is ahead, from the line on, and no here-document was asked for. -/
structure Stands (t : Text) (line : Nat) (i : Input) : Prop extends BetweenTokens i where
  ahead : i.ahead = t
  line : i.line = line
  nextTicket : i.nextTicket = 0

theorem stands_ofText (t : Text) (line : Nat) : Stands t line (.ofText t line) :=
  ⟨betweenTokens_ofText t line, Input.ahead_ofText t line, rfl, rfl⟩

theorem Stands.of_same (hi : Stands t line i) (hsame : Same i j) (hj : Alone j)
    (hlexing : Lexing .empty j) : Stands t line j where
  alone := hj
  lexing := hlexing
  unasked _ := by
    rw [hsame.pending, hsame.bodies]
    exact hi.unasked hi.nextTicket
  ahead := hsame.ahead.trans hi.ahead
  line := hsame.line.trans hi.line
  nextTicket := hsame.nextTicket.trans hi.nextTicket

theorem Stands.peek_on (hi : Stands t line i) :
    ∃ j, peek.on i = (.ok t.head?, j) ∧ Stands t line j := by
  obtain ⟨j, hj, hj', hsame⟩ := hi.alone.peek_on
  rw [hi.ahead] at hj
  exact ⟨j, hj, hi.of_same hsame hj' ((peek_ends hi.lexing).value hj).toLexing⟩

theorem Stands.next_on (hi : Stands (d :: t) line i) :
    ∃ j, next.on i = (.ok (some d), j) ∧ Stands t (if d = '\n' then line + 1 else line) j := by
  obtain ⟨j, hj, hj', hahead, -, hline, -, -, hpending, hbodies, hticket⟩ :=
    hi.alone.next_on_cons hi.ahead
  refine ⟨j, hj, ⟨hj', ((next_ends hi.lexing).value hj).toLexing, fun _ => ?_⟩, hahead, ?_,
    hticket.trans hi.nextTicket⟩
  · rw [hpending, hbodies]
    exact hi.unasked hi.nextTicket
  · rw [hline, ← hi.line]
    rfl

/-- Nothing is skipped before a token. -/
theorem Stands.skipBlanks_on (hi : Stands t line i) (hat : TokenNext t) (n : Nat) :
    ∃ j, (skipBlanks (n + 1)).on i = (.ok (), j) ∧ Stands t line j := by
  obtain ⟨j, hj, hunmoved⟩ := skipBlanks_stays hi.alone (hi.ahead ▸ hat) n
  obtain ⟨hj', -, hticket⟩ := hi.toBetweenTokens.skips hj
  exact ⟨j, hj, hj', hunmoved.ahead.trans hi.ahead, hunmoved.line.trans hi.line,
    hticket.trans hi.nextTicket⟩

theorem Stands.startCapture (hi : Stands t line i) :
    Stands t line { i with captures := [] :: i.captures } where
  alone := .of_lined { hi.alone.lined with } hi.alone.closed
  lexing := { hi.lexing with }
  unasked := hi.unasked
  ahead := hi.ahead
  line := hi.line
  nextTicket := hi.nextTicket

/-! ## Parts of a word -/

/-- A command or an arithmetic expression: no character is ever added to the part. -/
def Part.IsSubstitution : Part → Prop
  | .command _ | .arithmetic _ => True
  | _ => False

theorem PartsSoFar.literal_append (hp : p.IsSubstitution) (d : Char) (ps : PartsSoFar) :
    PartsSoFar.literal d (ps ++ [p]) = PartsSoFar.literal d ps ++ [p] := by
  cases ps with
  | nil =>
      cases p with
      | command _ => rfl
      | arithmetic _ => rfl
      | _ => exact hp.elim
  | cons q ps => cases q <;> rfl

theorem PartsSoFar.escaped_append (hp : p.IsSubstitution) (d : Char) (ps : PartsSoFar) :
    PartsSoFar.escaped d (ps ++ [p]) = PartsSoFar.escaped d ps ++ [p] := by
  cases ps with
  | nil =>
      cases p with
      | command _ => rfl
      | arithmetic _ => rfl
      | _ => exact hp.elim
  | cons q ps => cases q <;> rfl

theorem PartsSoFar.length_le_literal (d : Char) (ps : PartsSoFar) :
    ps.length ≤ (PartsSoFar.literal d ps).length := by
  cases ps with
  | nil => exact Nat.zero_le _
  | cons p ps => cases p <;> simp [PartsSoFar.literal]

theorem PartsSoFar.literal_length_pos (d : Char) (ps : PartsSoFar) :
    0 < (PartsSoFar.literal d ps).length := by
  cases ps with
  | nil => exact Nat.one_pos
  | cons p ps => cases p <;> simp [PartsSoFar.literal]

theorem PartsSoFar.length_le_escaped (d : Char) (ps : PartsSoFar) :
    ps.length ≤ (PartsSoFar.escaped d ps).length := by
  cases ps with
  | nil => exact Nat.zero_le _
  | cons p ps => cases p <;> simp [PartsSoFar.escaped]

theorem PartsSoFar.sealed_append (hp : p.IsSubstitution) (ps : PartsSoFar) :
    PartsSoFar.sealed (ps ++ [p]) = p :: PartsSoFar.sealed ps := by
  cases p with
  | command _ => simp [PartsSoFar.sealed]
  | arithmetic _ => simp [PartsSoFar.sealed]
  | _ => exact hp.elim

/-- The word starts with the substitution, and has at least some number of parts after it. -/
def StartsWith (p : Part) (m : Nat) (parts : List Part) : Prop :=
  ∃ rest, parts = p :: rest ∧ m ≤ rest.length

theorem StartsWith.le {m m' : Nat} {parts : List Part} (h : StartsWith p m parts) (hm : m' ≤ m) :
    StartsWith p m' parts := by
  obtain ⟨rest, hparts, hle⟩ := h
  exact ⟨rest, hparts, Nat.le_trans hm hle⟩

/-- Parts that were read stay, and a character that continues no line makes one more of them. -/
theorem gives_readPartFrom (hp : p.IsSubstitution) {start depth m : Nat}
    (ih : ∀ depth ps,
      Gives (StartsWith p ps.length) (readParts .base start n depth (ps ++ [p])))
    (hm : m ≤ ps.length ∨ d ≠ '\\' ∧ m ≤ 1) :
    Gives (StartsWith p m) (readPartFrom .base start n depth (ps ++ [p]) d) := by
  have hon : ∀ qs, m ≤ qs.length →
      Gives (StartsWith p m) (readParts .base start n depth (qs ++ [p])) :=
    fun qs hle i => (ih depth qs i).mono fun _ _ h => h.le hle
  have hliteral : ∀ e, (m ≤ ps.length ∨ m ≤ 1) → Gives (StartsWith p m)
      (readParts .base start n depth (PartsSoFar.literal e (ps ++ [p]))) := by
    intro e hm
    rw [PartsSoFar.literal_append hp]
    refine hon _ (hm.elim (fun h => Nat.le_trans h (PartsSoFar.length_le_literal e ps)) fun h => ?_)
    exact Nat.le_trans h (PartsSoFar.literal_length_pos e ps)
  have hpart : ∀ q, (m ≤ ps.length ∨ m ≤ 1) →
      Gives (StartsWith p m) (readParts .base start n depth (q :: (ps ++ [p]))) := by
    intro q hm
    refine hon (q :: ps) ?_
    rw [List.length_cons]
    omega
  have hm' := hm.imp_right And.right
  unfold readPartFrom
  rw [if_neg (by simp [WordContext.isParamArg]), if_neg (by simp [WordContext.isParamArg])]
  split
  · -- a backslash may only continue the line
    rename_i hd
    have hm := hm.resolve_right fun h => h.1 hd
    refine .after fun c => ?_
    split
    · exact hon ps hm
    · refine .ite ?_ ?_
      · rw [PartsSoFar.escaped_append hp]
        exact hon _ (Nat.le_trans hm (PartsSoFar.length_le_escaped _ ps))
      · rw [PartsSoFar.literal_append hp, PartsSoFar.literal_append hp]
        refine hon _ (Nat.le_trans hm (Nat.le_trans ?_ (PartsSoFar.length_le_literal _ _)))
        exact PartsSoFar.length_le_literal _ ps
    · exact hliteral _ (.inl hm)
  · refine .ite (.after fun t => hpart _ hm') (.ite (.after fun inner => hpart _ hm') ?_)
    refine .ite (.after fun q => ?_) (.ite (.after fun q => hpart _ hm') (hliteral _ hm'))
    cases q with
    | none => exact hliteral _ hm'
    | some q => exact hpart _ hm'

theorem gives_readParts (hp : p.IsSubstitution) {start depth : Nat} (ps : PartsSoFar) :
    Gives (StartsWith p ps.length) (readParts .base start n depth (ps ++ [p])) := by
  induction n generalizing depth ps with
  | zero => exact gives_fail _
  | succ n ih =>
      have hdone : Gives (StartsWith p ps.length)
          (pure (PartsSoFar.sealed (ps ++ [p]))) := by
        refine gives_pure ⟨PartsSoFar.sealed ps, PartsSoFar.sealed_append hp ps, ?_⟩
        simp [PartsSoFar.sealed]
      rw [readParts_eq]
      refine .after fun c => ?_
      cases c with
      | none => exact hdone
      | some c =>
          refine .ite hdone (.after fun _ => ?_)
          exact gives_readPartFrom hp (fun _ qs => ih qs) (.inl (Nat.le_refl _))

/-- A word that is one substitution ends with it. -/
theorem readParts_single (hp : p.IsSubstitution) {q : Part} {start : Nat} (hi : Alone i)
    (hslash : '\\' ∉ i.ahead) (hread : (readParts .base start n 0 [p]).on i = (.ok [q], j))
    (hend : j.ahead = []) : p = q ∧ i.ahead = [] := by
  cases n with
  | zero => exact nomatch hread
  | succ n =>
      obtain ⟨k, hk, -, hsame⟩ := hi.peek_on
      rw [readParts_eq, Reader.on_bind, hk] at hread
      have hdone : ((pure (PartsSoFar.sealed [p]) : Reader (List Part)).on k = (.ok [q], j)) →
          p = q ∧ i.ahead = [] := by
        intro hread
        obtain ⟨hparts, rfl⟩ := Prod.mk.inj hread
        have hsealed := PartsSoFar.sealed_append hp []
        have hparts : PartsSoFar.sealed [p] = [q] := Except.ok.inj hparts
        exact ⟨(List.cons.inj (hsealed.symm.trans hparts)).1, hsame.ahead.symm.trans hend⟩
      cases ht : i.ahead with
      | nil =>
          rw [ht] at hread
          exact ⟨(hdone hread).1, rfl⟩
      | cons d t =>
          rw [ht] at hread hslash
          change (if (decide (WordContext.base = .base) && isWordBreak d) = true then _ else _ :
            Reader _).on k = _ at hread
          split at hread
          · exact absurd (ht.symm.trans (hdone hread).2) (List.cons_ne_nil _ _)
          · have hd : d ≠ '\\' := fun h => hslash (h ▸ List.mem_cons_self)
            have hfrom : Gives (StartsWith p 1) (readPartFrom .base start n 0 ([] ++ [p]) d) :=
              gives_readPartFrom hp (fun _ qs => gives_readParts hp qs) (.inr ⟨hd, Nat.le_refl 1⟩)
            have hgives : Gives (StartsWith p 1)
                (next >>= fun _ => readPartFrom .base start n 0 [p] d) := .after fun _ => hfrom
            obtain ⟨rest, hparts, hrest⟩ := (hgives k).value hread
            obtain ⟨-, rfl⟩ := List.cons.inj hparts
            exact absurd hrest (by simp)

/-! ## The form with parentheses -/

/-- The text of the substitution with parentheses. -/
def parenthesized (c : Text) : Text := '$' :: '(' :: (c ++ [')'])

/-- A word starts with the character. -/
theorem tokenHere_on_word (hi : Stands (d :: t) line i) (hword : isWordBreak d = false) :
    ∃ k, Stands (d :: t) line k ∧ ∀ n, (ReadersObey.tokenHere n).on i =
      (wordHere n line >>= fun kind => pure (⟨kind, line⟩ : Token)).on k := by
  obtain ⟨k, hk, hk'⟩ := hi.peek_on
  refine ⟨k, hk', fun n => ?_⟩
  rw [tokenHere_eq]
  change (kindHere n i.line >>= fun kind => pure (⟨kind, i.line⟩ : Token)).on i = _
  rw [hi.line]
  unfold kindHere
  rw [bind_assoc, Reader.on_bind, hk]
  dsimp only [List.head?_cons]
  split
  case h_1 => contradiction
  case h_10 => rfl
  all_goals
    -- the character is no operator
    rename_i heq
    cases heq
    exact absurd hword (by decide)

/-- What is read for a `$` with a parenthesis after it, in a word of its own. -/
theorem readDollar_single {start m : Nat} (hi : Stands ('(' :: (c ++ [')'])) line i)
    (hslash : '\\' ∉ c)
    (hread : (readDollar n false >>= fun p => match p with
      | some p => readParts .base start m 0 [p]
      | none => readParts .base start m 0 (PartsSoFar.literal '$' [])).on i = (.ok [.command body], j))
    (hend : j.ahead = []) :
    ∃ n k l, Stands (c ++ [')']) line k ∧ (parseSubstitution n).on k = (.ok body, l) ∧
      l.ahead = [] := by
  cases n with
  | zero => exact nomatch hread
  | succ n =>
      obtain ⟨i₁, h₁, hi₁⟩ := hi.peek_on
      obtain ⟨i₂, h₂, hi₂⟩ := hi₁.next_on
      obtain ⟨i₃, h₃, hi₃⟩ := hi₂.peek_on
      unfold readDollar at hread
      rw [bind_assoc, Reader.on_bind, h₁] at hread
      dsimp only [List.head?_cons] at hread
      rw [if_neg (by decide), if_pos rfl, bind_assoc, Reader.on_bind, h₂] at hread
      dsimp only at hread
      rw [bind_assoc, Reader.on_bind, h₃] at hread
      dsimp only at hread
      split at hread
      · -- an arithmetic expression is no command
        simp only [bind_assoc, pure_bind] at hread
        have hgives : Gives (fun parts => ∃ ps rest, parts = .arithmetic ps :: rest) (do
            let _ ← next
            let l ← Reader.line
            let ps ← readArithmetic l n 0 []
            readParts .base start m 0 [.arithmetic ps]) :=
          .after fun _ => .after fun _ => .after fun ps => fun i =>
            (gives_readParts (p := .arithmetic ps) trivial [] i).mono fun _ _ h =>
              ⟨ps, h.imp fun _ h => h.1⟩
        obtain ⟨ps, rest, hparts⟩ := (hgives i₃).value hread
        simp at hparts
      · rw [bind_assoc, Reader.on_bind] at hread
        cases hb : (parseSubstitution n).on i₃ with
        | mk o l =>
            rw [hb] at hread
            cases o with
            | error e => cases hread
            | ok b =>
                have hstep := (readersMirror 0 n).parseSubstitution.self hi₃.excerpt hb
                obtain ⟨taken, htaken, -⟩ := hstep.taken
                have hslash : '\\' ∉ l.ahead := by
                  have hsplit : c ++ [')'] = taken ++ l.ahead := hi₃.ahead.symm.trans htaken.ahead
                  intro hmem
                  have hmem := List.mem_append_right taken hmem
                  rw [← hsplit] at hmem
                  exact hslash (by simpa using hmem)
                obtain ⟨hbody, hl⟩ :=
                  readParts_single (p := .command b) trivial hstep.long hslash hread hend
                cases hbody
                exact ⟨n, i₃, l, hi₃, hb, hl⟩

/-- A word that is a substitution is read as one, up to the last parenthesis. -/
theorem parenthesized_reads (hslash : '\\' ∉ c)
    (hread : readToken.on (.ofText (parenthesized c) line) = (.ok tk, j))
    (hword : tk.kind = .word w) (hparts : w.parts = [.command body]) (hend : j.ahead = []) :
    ∃ n k l, Stands (c ++ [')']) line k ∧ (parseSubstitution n).on k = (.ok body, l) ∧
      l.ahead = [] := by
  have hs := stands_ofText (parenthesized c) line
  have hat : TokenNext (parenthesized c) :=
    ⟨by rintro _ ⟨rfl⟩; decide, fun r h => absurd (List.cons.inj h).1 (by decide)⟩
  obtain ⟨n, k, hskip, htk⟩ := hs.fresh_on hread
  obtain ⟨k', hskip', hk⟩ := hs.skipBlanks_on hat n
  obtain rfl : k' = k := congrArg Prod.snd (hskip'.symm.trans hskip)
  obtain ⟨m, hm, hon⟩ := tokenHere_on_word hk (by decide)
  rw [hon, Reader.on_bind] at htk
  cases hw : (wordHere (n + 1) line).on m with
  | mk o l =>
      rw [hw] at htk
      cases o with
      | error e => exact nomatch htk
      | ok kind =>
          cases htk
          obtain rfl : kind = .word w := hword
          obtain ⟨k₂, hcap, -, hsame⟩ := wordHere_parts hm.excerpt hw
          obtain ⟨-, k₃, hk₃, hahead⟩ := captured_taken
            ((readersMirror 0 (n + 1)).readParts .base line line 0 (show [] = Part.downAll 0 [] from rfl))
            hm.excerpt hcap
          obtain ⟨p₁, h₁, hp₁⟩ := hm.startCapture.peek_on
          obtain ⟨p₂, h₂, hp₂⟩ := hp₁.next_on
          rw [hparts, readParts_eq, Reader.on_bind, h₁] at hk₃
          change (next >>= fun _ => readPartFrom .base line n 0 [] '$').on p₁ = _ at hk₃
          rw [Reader.on_bind, h₂] at hk₃
          exact readDollar_single hp₂ hslash hk₃ (hahead.trans (hsame.symm.trans hend))

/-! ## The form with back-quotes -/

/-- The text of the substitution with back-quotes. -/
def backQuoted (c : Text) : Text := '\x60' :: (c ++ ['\x60'])

/-- With enough steps the reader comes to the value. -/
def Comes (r : Nat → Reader α) (i : Input) (a : α) (j : Input) : Prop :=
  ∃ N, ∀ n, N ≤ n → (r n).on i = (.ok a, j)

section

variable {a : α} {b : β}

theorem comes_of_on {r : Nat → Reader α} (h : ∀ n, (r n).on i = (.ok a, j)) : Comes r i a j :=
  ⟨0, fun n _ => h n⟩

theorem Comes.of_grows {r : Nat → Reader α} (hr : ∀ n, Grows r n) (h : (r n).on i = (.ok a, j)) :
    Comes r i a j :=
  ⟨n, fun _ hm => (refines_of_le hr hm).on_eq h nofun⟩

theorem Comes.bind {x : Nat → Reader α} {f : Nat → α → Reader β} (hx : Comes x i a j)
    (hf : Comes (fun n => f n a) j b k) : Comes (fun n => x n >>= f n) i b k := by
  obtain ⟨N, hN⟩ := hx
  obtain ⟨M, hM⟩ := hf
  refine ⟨N + M, fun n hn => ?_⟩
  rw [Reader.on_bind, hN n (by omega)]
  exact hM n (by omega)

theorem Comes.congr {r r' : Nat → Reader α} {i' : Input} (h : Comes r i a j)
    (heq : ∀ n, (r' n).on i' = (r n).on i) : Comes r' i' a j := by
  obtain ⟨N, hN⟩ := h
  exact ⟨N, fun n hn => (heq n).trans (hN n hn)⟩

/-- A function that is unfolded once. -/
theorem Comes.step {r : Nat → Reader α} (h : Comes (fun n => r (n + 1)) i a j) : Comes r i a j := by
  obtain ⟨N, hN⟩ := h
  refine ⟨N + 1, fun n hn => ?_⟩
  obtain ⟨m, rfl⟩ := Nat.exists_eq_add_of_le' hn
  exact hN (m + N) (Nat.le_add_left N m)

end

/-- The text in back-quotes is taken as it is. -/
theorem Stands.readBackQuotedText_on (hi : Stands (c ++ '\x60' :: t) line i) (hslash : '\\' ∉ c)
    (hquote : '\x60' ∉ c) (q : Bool) (start : Nat) (acc : Text) :
    ∃ l j, Stands t l j ∧
      (readBackQuotedText q start (c.length + 1) acc).on i = (.ok (acc.reverse ++ c), j) := by
  induction c generalizing i line acc with
  | nil =>
      obtain ⟨j, hj, hj'⟩ := hi.next_on
      refine ⟨_, j, hj', ?_⟩
      unfold readBackQuotedText
      rw [Reader.on_bind, hj, List.append_nil]
      rfl
  | cons d c ih =>
      obtain ⟨j, hj, hj'⟩ := hi.next_on
      obtain ⟨l, k, hk, hread⟩ := ih hj' (fun h => hslash (List.mem_cons_of_mem d h))
        (fun h => hquote (List.mem_cons_of_mem d h)) (d :: acc)
      refine ⟨l, k, hk, ?_⟩
      unfold readBackQuotedText
      rw [Reader.on_bind, hj]
      dsimp only
      split
      · rename_i heq
        exact absurd (Option.some.inj heq ▸ List.mem_cons_self) hquote
      · rename_i heq
        exact absurd (Option.some.inj heq ▸ List.mem_cons_self) hslash
      · rename_i heq
        cases heq
        rw [List.reverse_cons, List.append_assoc] at hread
        exact hread
      · contradiction

/-- The text is read as a script of its own. -/
theorem Stands.readBackQuoted_comes (hi : Stands (c ++ '\x60' :: t) line i) (hslash : '\\' ∉ c)
    (hquote : '\x60' ∉ c) (hlexes : Lexes (us ++ [stop]) (.ofText c line))
    (hstop : stop.kind = .endOfInput) (hgs : CommandLines gs us) (q : Bool) (start : Nat) :
    ∃ j, Comes (fun n => readBackQuoted n q start) i
      (.command (Node.ofList (gs.filterMap Node.ofList))) j ∧ Alone j ∧ j.ahead = t := by
  obtain ⟨l, j, hj, htext⟩ := hi.readBackQuotedText_on hslash hquote q start []
  have hnested : Lexing .empty (j.nested [] c line) := hj.lexing.toSane.nested c line
  have hcut : Excerpt 0 [] (.ofText c line) (j.nested [] c line) := {
    (betweenTokens_ofText c line).excerpt with
    short := .of_lined { lined_ofText .empty c line with aliases := hj.lexing.aliases } rfl }
  have hself : Excerpt 0 [] (j.nested [] c line) (j.nested [] c line) :=
    { hcut with long := hcut.short }
  have hupcoming : Upcoming (us ++ [stop]) (j.nested [] c line) :=
    ⟨hnested.toSane, hlexes.of_excerpt hcut hnested.toSane, rfl⟩
  obtain ⟨m, hm⟩ := hgs.read hstop [] hupcoming hself
  refine ⟨{ j with expanded := m.expanded }, ?_, .of_lined { hj.alone.lined with } hj.alone.closed,
    hj.ahead⟩
  have htext : Comes (fun n => readBackQuotedText q start n []) i c j :=
    .of_grows (fun n => readBackQuotedText_grows q start n []) htext
  have hsub : Comes (fun n => readNested [] c line (parseAllFrom n [])) j
      (gs.filterMap Node.ofList, m) { j with expanded := m.expanded } := by
    obtain ⟨N, hN⟩ := hm
    refine ⟨N, fun n hn => ?_⟩
    unfold readNested
    rw [Reader.on_get, Reader.on_withInput, hN n hn]
    rfl
  have hall : Comes (fun n => do
      let t ← readBackQuotedText q start n []
      let p ← readNested [] t line (parseAllFrom n [])
      return Part.command (Node.ofList p.1)) i
      (.command (Node.ofList (gs.filterMap Node.ofList))) { j with expanded := m.expanded } :=
    htext.bind (hsub.bind (comes_of_on fun _ => rfl))
  refine .step (hall.congr fun n => ?_)
  show (readBackQuoted (n + 1) q start).on i = _
  have hline : Reader.line.on i = (.ok line, i) := congrArg (fun l => (Except.ok l, i)) hi.line
  rw [ReadersObey.readBackQuoted_eq, Reader.on_bind, hline]
  exact aliasesInUse_on _ hi.alone.lined

/-- A word in back-quotes is the substitution. -/
theorem Stands.readParts_comes (hi : Stands (backQuoted c) line i) (hslash : '\\' ∉ c)
    (hquote : '\x60' ∉ c) (hlexes : Lexes (us ++ [stop]) (.ofText c line))
    (hstop : stop.kind = .endOfInput) (hgs : CommandLines gs us) (start : Nat) :
    ∃ j, Comes (fun n => readParts .base start n 0 []) i
      [.command (Node.ofList (gs.filterMap Node.ofList))] j ∧ j.ahead = [] := by
  obtain ⟨i₁, h₁, hi₁⟩ := hi.peek_on
  obtain ⟨i₂, h₂, hi₂⟩ := hi₁.next_on
  obtain ⟨j, hj, halone, hahead⟩ :=
    hi₂.readBackQuoted_comes hslash hquote hlexes hstop hgs false start
  obtain ⟨k, hk, -, hsame⟩ := halone.peek_on
  refine ⟨k, .step ?_, hsame.ahead.trans hahead⟩
  have hend : Comes (fun n => readParts .base start n 0
      [.command (Node.ofList (gs.filterMap Node.ofList))]) j
      [.command (Node.ofList (gs.filterMap Node.ofList))] k := by
    refine .step (comes_of_on fun n => ?_)
    rw [readParts_eq, Reader.on_bind, hk, hahead]
    rfl
  refine (hj.bind (f := fun n p => readParts .base start n 0 [p]) hend).congr fun n => ?_
  show (readParts .base start (n + 1) 0 []).on i = _
  rw [readParts_eq, Reader.on_bind, h₁]
  change (next >>= fun _ => readPartFrom .base start n 0 [] '\x60').on i₁ = _
  rw [Reader.on_bind, h₂]
  rfl

/-- All of the text is recorded. -/
theorem Comes.captured {f : α → α} {r : Nat → Reader α} {a : α} (hr : ∀ n, Mirrors 0 f (r n) (r n))
    (hi : Stands t line i) (h : Comes r { i with captures := [] :: i.captures } a j)
    (hend : j.ahead = []) :
    ∃ k, Comes (fun n => Script.captured (r n)) i (t, a) k ∧ k.ahead = [] := by
  obtain ⟨N, hN⟩ := h
  refine ⟨{ j with captures := i.captures.map (t.reverse ++ ·) }, ⟨N, fun n hn => ?_⟩, hend⟩
  obtain ⟨taken, htaken, -⟩ := ((hr n).self hi.startCapture.excerpt (hN n hn)).taken
  obtain rfl : t = taken := by
    have hahead := htaken.ahead
    rw [hend, List.append_nil] at hahead
    exact hi.ahead.symm.trans hahead
  exact captured_on (hN n hn) htaken.captures

/-- The text in back-quotes is read as one word, with the commands of all its lines. -/
theorem backQuoted_reads (hslash : '\\' ∉ c) (hquote : '\x60' ∉ c)
    (hlexes : Lexes (us ++ [stop]) (.ofText c line)) (hstop : stop.kind = .endOfInput)
    (hgs : CommandLines gs us) :
    ∃ w j, readToken.on (.ofText (backQuoted c) line) = (.ok ⟨.word w, line⟩, j) ∧
      w.parts = [.command (Node.ofList (gs.filterMap Node.ofList))] ∧ j.ahead = [] := by
  have hs := stands_ofText (backQuoted c) line
  have hat : TokenNext (backQuoted c) :=
    ⟨by rintro _ ⟨rfl⟩; decide, fun r h => absurd (List.cons.inj h).1 (by decide)⟩
  obtain ⟨k, hskip, hk⟩ := hs.skipBlanks_on hat 0
  obtain ⟨m, hm, hon⟩ := tokenHere_on_word hk (by decide)
  obtain ⟨l, hl, hlend⟩ := hm.startCapture.readParts_comes hslash hquote hlexes hstop hgs line
  obtain ⟨j, ⟨N, hN⟩, hend⟩ := hl.captured (fun n => (readersMirror 0 n).readParts .base line line 0
    (show [] = Part.downAll 0 [] from rfl)) hm hlend
  refine ⟨.mk (backQuoted c) [.command (Node.ofList (gs.filterMap Node.ofList))] line, j, ?_, rfl, hend⟩
  have hword : (ReadersObey.tokenHere (N + 1)).on k = (.ok ⟨.word
      (.mk (backQuoted c) [.command (Node.ofList (gs.filterMap Node.ofList))] line), line⟩, j) := by
    rw [hon]
    unfold wordHere
    rw [bind_assoc, Reader.on_bind, hN (N + 1) (Nat.le_succ N)]
    rfl
  refine hs.toBetweenTokens.readToken_of_fresh ?_ hword
  exact (refines_of_le skipBlanks_grows (Nat.le_add_left 1 N)).on_eq hskip nofun

/-! ## Both forms -/

/-- A text that is a substitution in parentheses is one in back-quotes, with the same commands. Only
the lists of them may be put together in another way. Neither form has any if the text is blank. -/
theorem backQuoted_agrees (hslash : '\\' ∉ c) (hquote : '\x60' ∉ c) (hdocs : NoHereDocs c line)
    (hread : readToken.on (.ofText (parenthesized c) line) = (.ok tk, j))
    (hword : tk.kind = .word w) (hparts : w.parts = [.command body]) (hend : j.ahead = []) :
    ∃ w' body' k, readToken.on (.ofText (backQuoted c) line) = (.ok ⟨.word w', line⟩, k) ∧
      w'.parts = [.command body'] ∧ k.ahead = [] ∧
      body'.map Node.commands = body.map Node.commands ∧
      (BlankText c → body = none ∧ body' = none) := by
  obtain ⟨n, k, l, hk, hbody, hl⟩ := parenthesized_reads hslash hread hword hparts hend
  obtain ⟨us, gs, stop, hstop, hlexes, hgs, rfl⟩ :=
    enclosed_commandLines hdocs hk.toBetweenTokens hk.nextTicket hk.ahead hk.line hbody hl
  obtain ⟨w', m, hread', hparts', hend'⟩ := backQuoted_reads hslash hquote hlexes hstop hgs
  refine ⟨w', _, m, hread', hparts', hend', Node.commands_lines gs, fun hblank => ?_⟩
  have hnl := hlexes.newlines_of_blank (betweenTokens_ofText c line)
    ((Input.ahead_ofText c line).symm ▸ hblank)
  rw [hgs.eq_nil hnl]
  exact ⟨rfl, rfl⟩

/-- Whether an input comes to its end or to a failure in at most some number of tokens, without a
here-document that is asked for. -/
def asksNoneWithin : Nat → Input → Bool
  | 0, _ => false
  | n + 1, i =>
    match readToken.on i with
    | (.error _, _) => true
    | (.ok tk, j) =>
      match tk.kind with
      | .endOfInput => true
      | .redirect _ op => j.nextTicket == 0 && !op.isHereDoc && asksNoneWithin n j
      | _ => j.nextTicket == 0 && asksNoneWithin n j

theorem asksNone_of_within (h : asksNoneWithin (n + 1) i = true)
    (hread : readToken.on i = (.ok tk, j)) (hne : tk.kind ≠ .endOfInput) :
    tk.AsksNone j ∧ asksNoneWithin n j = true := by
  unfold asksNoneWithin at h
  rw [hread] at h
  dsimp only at h
  split at h
  · exact absurd ‹_› hne
  · rename_i fd op hop
    obtain ⟨⟨hnone, hplain⟩, hrest⟩ := by simpa using h
    refine ⟨⟨hnone, fun fd' op' hop' => ?_⟩, hrest⟩
    obtain ⟨-, rfl⟩ := TokenKind.redirect.inj (hop.symm.trans hop')
    exact hplain
  · rename_i hother
    obtain ⟨hnone, hrest⟩ := by simpa using h
    exact ⟨⟨hnone, fun fd op hop => absurd hop (hother fd op)⟩, hrest⟩

theorem noHereDocs_of_within (h : asksNoneWithin n (.ofText t line) = true) : NoHereDocs t line := by
  -- once the end was read there is nothing left
  have hinv : ∀ {i}, Lexed t line i → (∃ m, asksNoneWithin m i = true) ∨ i.ahead = [] := by
    intro i hi
    induction hi with
    | start => exact .inl ⟨n, h⟩
    | @token i j tk hi hread ih =>
        have hbetween := hi.betweenTokens.1
        by_cases hend : tk.kind = .endOfInput
        · obtain ⟨_, _, _, _, hfits⟩ := hbetween.token_fits hread
          exact .inr (hfits.ended hend)
        · rcases ih with ⟨m, hm⟩ | hnil
          · cases m with
            | zero => exact nomatch hm
            | succ m => exact .inl ⟨m, (asksNone_of_within hm hread hend).2⟩
          · obtain ⟨taken, htaken, -⟩ := (hbetween.read hread).2.taken
            exact .inr (List.append_eq_nil_iff.mp (htaken.ahead.symm.trans hnil)).2
  intro i tk j hi hread hne
  rcases hinv hi with ⟨m, hm⟩ | hnil
  · cases m with
    | zero => exact nomatch hm
    | succ m => exact (asksNone_of_within hm hread hne).1
  · obtain ⟨gap, k, hgap, -, hfits⟩ := hi.betweenTokens.1.token_fits hread
    have hk : k.ahead = [] := (List.append_eq_nil_iff.mp (hgap.symm.trans hnil)).2
    exact absurd (hfits.endOfInput (by rw [hk]; rfl)) hne

/-- Whether an input is one word that is a command substitution and nothing else. -/
def isSubstitution (i : Input) : Bool :=
  match readToken.on i with
  | (.ok ⟨.word (.mk _ [.command _] _), _⟩, j) => j.ahead.isEmpty
  | _ => false

theorem exists_of_isSubstitution (h : isSubstitution i = true) :
    ∃ tk w body j, readToken.on i = (.ok tk, j) ∧ tk.kind = .word w ∧ w.parts = [.command body] ∧
      j.ahead = [] := by
  unfold isSubstitution at h
  split at h
  · rename_i t body l l' j hread
    exact ⟨_, _, body, j, hread, rfl, rfl, List.isEmpty_iff.mp h⟩
  · exact nomatch h

/-- Commands on several lines, one of them in the background, with a substitution and quotes among
them. -/
theorem backQuoted_agrees_lines : ∃ (c : Text) (tk : Token) (w : Word) (body : Option Node)
    (j : Input), c = "a $(b; c) 'd'\n\ne & f;\n" ∧ '\\' ∉ c ∧ '\x60' ∉ c ∧ NoHereDocs c 1 ∧
    readToken.on (.ofText (parenthesized c) 1) = (.ok tk, j) ∧
    tk.kind = .word w ∧ w.parts = [.command body] ∧ j.ahead = [] ∧
    ∃ w' body' k, readToken.on (.ofText (backQuoted c) 1) = (.ok ⟨.word w', 1⟩, k) ∧
      w'.parts = [.command body'] ∧ k.ahead = [] ∧
      body'.map Node.commands = body.map Node.commands ∧
      (BlankText c → body = none ∧ body' = none) := by
  obtain ⟨tk, w, body, j, hread, hword, hparts, hend⟩ := exists_of_isSubstitution
    (i := .ofText (parenthesized "a $(b; c) 'd'\n\ne & f;\n") 1) (by decide +kernel)
  have hdocs : NoHereDocs "a $(b; c) 'd'\n\ne & f;\n" 1 :=
    noHereDocs_of_within (n := 12) (by decide +kernel)
  exact ⟨_, tk, w, body, j, rfl, by decide, by decide, hdocs, hread, hword, hparts, hend,
    backQuoted_agrees (by decide) (by decide) hdocs hread hword hparts hend⟩

end CommandShell.Script
