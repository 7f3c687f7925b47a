import CommandShell.Proofs.Grammar.Acceptance
import CommandShell.Proofs.WordTexts

/-!
# Lists over several lines

Between the keywords or parentheses of a compound command a list may go over several lines. Each of
these is a command line by itself (`Derives.commandLines`), so that a script with the same tokens has
the same commands, read line by line (`CommandLines.read`). They only come as lists of lists.
-/

namespace CommandShell.Script

open Reader

variable {ts us vs : List Token} {tk stop : Token} {i j s : Input} {ns g : List Node}
  {gs : List (List Node)} {o : Bool}

/-! ## Lines of commands -/

/-- Lines of commands, with newlines between them. -/
inductive CommandLines : List (List Node) → List Token → Prop
  | nil : CommandLines [] []
  | newline {tk : Token} {gs : List (List Node)} {ts : List Token} (htk : tk.kind = .newline)
    (h : CommandLines gs ts) : CommandLines gs (tk :: ts)
  | last {g : List Node} {o : Bool} {us : List Token} (hg : Derives (.items true g o) us) :
    CommandLines [g] us
  | line {tk : Token} {g : List Node} {gs : List (List Node)} {o : Bool} {us ts : List Token}
    (hg : Derives (.items true g o) us) (htk : tk.kind = .newline) (h : CommandLines gs ts) :
    CommandLines (g :: gs) (us ++ tk :: ts)

theorem CommandLines.newlines {nl : List Token} (hnl : Newlines nl) (h : CommandLines gs ts) :
    CommandLines gs (nl ++ ts) := by
  induction nl with
  | nil => exact h
  | cons tk nl ih =>
      exact .newline (hnl tk List.mem_cons_self) (ih fun tk' htk' => hnl tk' (List.mem_cons_of_mem _ htk'))

theorem Newlines.commandLines (h : Newlines ts) : CommandLines [] ts := by
  simpa using CommandLines.newlines h .nil

/-- What comes after a line: nothing more, or a newline and further lines. -/
inductive LinesAfter : List (List Node) → List Token → Prop
  | nil : LinesAfter [] []
  | newline {tk : Token} {gs : List (List Node)} {ts : List Token} (htk : tk.kind = .newline)
    (h : CommandLines gs ts) : LinesAfter gs (tk :: ts)

/-- The tokens are those of a first line with the first of the commands, and of lines with the
others. -/
def SplitsLines (ns : List Node) (ts : List Token) : Prop :=
  ∃ g gs o us vs, ns = g ++ gs.flatten ∧ ts = us ++ vs ∧ Derives (.items true g o) us ∧
    LinesAfter gs vs

theorem SplitsLines.commandLines (h : SplitsLines ns ts) :
    ∃ gs, ns = gs.flatten ∧ CommandLines gs ts := by
  obtain ⟨g, gs, o, us, vs, rfl, rfl, hg, hvs⟩ := h
  cases hvs with
  | nil => exact ⟨[g], rfl, by simpa using CommandLines.last hg⟩
  | newline htk hgs => exact ⟨g :: gs, rfl, .line hg htk hgs⟩

/-- After a command and a separator the line goes on, or ends with the newlines there. -/
theorem SplitsLines.item {n n' : Node} (h : Derives (.andOr n o) ts)
    (hsep : Separator false n n' us) (hns : SplitsLines ns vs) :
    SplitsLines (n' :: ns) (ts ++ us ++ vs) := by
  have hcloses : ∀ {sep : Token} {nl : List Token}, us = sep :: nl → Newlines nl →
      Separator true n n' [sep] → SplitsLines (n' :: ns) (ts ++ us ++ vs) := by
    rintro sep nl rfl hnl hline
    cases nl with
    | nil =>
        obtain ⟨g, gs, o', xs, ys, rfl, rfl, hg, hys⟩ := hns
        exact ⟨n' :: g, gs, o', ts ++ [sep] ++ xs, ys, rfl, by simp, .item h hline hg, hys⟩
    | cons tk nl =>
        obtain ⟨gs, rfl, hgs⟩ := hns.commandLines
        obtain ⟨htk, hnl⟩ := List.forall_mem_cons.mp hnl
        exact ⟨[n'], gs, false, ts ++ [sep], tk :: (nl ++ vs), rfl, by simp, .closedItem h hline,
          .newline htk (hgs.newlines hnl)⟩
  cases hsep with
  | semi htk hnl _ => exact hcloses rfl hnl (.semi htk .nil fun _ => rfl)
  | amp htk hnl _ => exact hcloses rfl hnl (.amp htk .nil fun _ => rfl)
  | @newline tk nl _ htk hnl _ =>
      obtain ⟨gs, rfl, hgs⟩ := hns.commandLines
      exact ⟨[n], gs, o, ts, tk :: (nl ++ vs), rfl, by simp, .lastItem h,
        .newline htk (hgs.newlines hnl)⟩

/-- The last separator ends its line. -/
theorem SplitsLines.closedItem {n n' : Node} (h : Derives (.andOr n o) ts)
    (hsep : Separator false n n' us) : SplitsLines [n'] (ts ++ us) := by
  have hcloses : ∀ {sep : Token} {nl : List Token}, us = sep :: nl → Newlines nl →
      Separator true n n' [sep] → SplitsLines [n'] (ts ++ us) := by
    rintro sep nl rfl hnl hline
    have hafter : LinesAfter [] nl := by
      cases nl with
      | nil => exact .nil
      | cons tk nl =>
          obtain ⟨htk, hnl⟩ := List.forall_mem_cons.mp hnl
          exact .newline htk (Newlines.commandLines hnl)
    exact ⟨[n'], [], false, ts ++ [sep], nl, rfl, by simp, .closedItem h hline, hafter⟩
  cases hsep with
  | semi htk hnl _ => exact hcloses rfl hnl (.semi htk .nil fun _ => rfl)
  | amp htk hnl _ => exact hcloses rfl hnl (.amp htk .nil fun _ => rfl)
  | newline htk hnl _ =>
      exact ⟨[n], [], o, ts, _, rfl, rfl, .lastItem h, .newline htk hnl.commandLines⟩

/-- A list inside a compound command, by its lines. -/
theorem Derives.splitsLines (h : Derives (.items false ns o) ts) : SplitsLines ns ts := by
  generalize hp : Phrase.items false ns o = p at h
  induction h generalizing ns o with
  | @lastItem top n isOpen ts h _ =>
      cases hp
      exact ⟨[n], [], isOpen, ts, [], rfl, by simp, .lastItem h, .nil⟩
  | closedItem h hsep _ =>
      cases hp
      exact .closedItem h hsep
  | item h hsep _ _ ih =>
      cases hp
      exact .item h hsep (ih rfl)
  | _ => exact nomatch hp

/-! ## Reading line by line -/

theorem Token.down_zero (tk : Token) : tk.down 0 = tk := by
  obtain ⟨kind, line⟩ := tk
  cases kind with
  | word w => exact congrArg (fun w => Token.mk (.word w) line) w.down_zero
  | _ => rfl

theorem sane_of_readToken (hi : Sane .empty i) (hread : readToken.on i = (.ok tk, j)) :
    Sane .empty j := by
  rw [readToken_on] at hread
  have hends := (suffices_all empty_plain i.stepBound).nextToken hi (by
    have := weight_le_stepBound i
    omega)
  exact (hends.value hread).toSane

/-- Inputs with the same text ahead, which stands on the same lines, have the same tokens. -/
theorem Lexes.of_excerpt (h : Lexes ts i) (hcut : Excerpt 0 [] i s) (hs : Sane .empty s) :
    Lexes ts s := by
  induction ts generalizing i s with
  | nil => exact h.elim
  | cons tk ts ih =>
      obtain ⟨j, hread, hbodies, hnone, hrest⟩ := h
      have htracks := (readersMirror 0 i.stepBound).nextToken.tracks [] i s nofun hcut
      unfold Tracks at htracks
      rw [← readToken_on, hread] at htracks
      obtain ⟨s', hs', hstep⟩ := htracks.resolve_left (Nat.not_lt_zero _)
      rw [Token.down_zero] at hs'
      have hread' := hs.readToken_of_steps hs'
      refine ⟨s', hread', by rw [hstep.bodies, hbodies]; rfl, hnone, ?_⟩
      split at hrest
      · exact hrest
      · exact ih hrest hstep.toExcerpt (sane_of_readToken hs hread')

/-- The prompt that the next line gets makes no difference. -/
theorem Upcoming.startLine (h : Upcoming ts i) (hi : Excerpt 0 [] i i) :
    Upcoming ts { i with primary := true } := by
  have hs : Sane .empty { i with primary := true } := { h.toSane with }
  have hcut : Excerpt 0 [] i { i with primary := true } :=
    { hi with short := .of_lined { hi.long.lined with } hi.long.closed }
  exact ⟨hs, h.lexes.of_excerpt hcut hs, h.bodies⟩

/-- A blank line is read as such. -/
theorem yields_blankLine (hi : Upcoming (tk :: ts) { i with primary := true })
    (htk : tk.kind = .newline) : Yields (fun k => parseTop k) i .empty ts := by
  refine Yields.step ?_
  show Yields (fun k => nextToken k >>= _) { i with primary := true } _ _
  refine yields_draw hi fun j hj => ?_
  simp only [htk]
  exact yields_pure (hj.upcoming (by simp [htk]))

/-- The end of the input is found where a line may start. -/
theorem parseTop_done (hi : Upcoming [stop] { i with primary := true })
    (hstop : stop.kind = .endOfInput) : ∃ j N, ∀ k, N ≤ k → (parseTop k).on i = (.ok .done, j) := by
  obtain ⟨tk, us, j, hts, -, -, N, hN⟩ := Draws.takes (r := nextToken) hi
  obtain ⟨rfl, -⟩ := List.cons.inj hts
  refine ⟨j, N + 1, fun k hk => ?_⟩
  obtain ⟨m, rfl⟩ := Nat.exists_eq_add_of_le' hk
  show (nextToken (m + N) >>= _).on { i with primary := true } = _
  rw [Reader.on_bind, hN _ (Nat.le_add_left N m)]
  simp only [hstop]
  rfl

/-- What is read from a line on, if `p` stands there. -/
theorem parseAllFrom_on {p : Parsed} {acc nodes : List Node}
    (htop : Yields (fun k => parseTop k) i p us) (hi : Excerpt 0 [] i i)
    (hnext : ∀ j, Upcoming us j → Excerpt 0 [] j j → ∃ l N, ∀ k, N ≤ k →
      (match p with
        | .done => return acc.reverse
        | .empty => parseAllFrom k acc
        | .command node => parseAllFrom k (node :: acc) : Reader (List Node)).on j = (.ok nodes, l)) :
    ∃ l N, ∀ k, N ≤ k → (parseAllFrom k acc).on i = (.ok nodes, l) := by
  obtain ⟨j, hj, N, hN⟩ := htop
  have hself := ((readersMirror 0 N).parseTop.self hi (hN N (Nat.le_refl N))).toExcerpt
  obtain ⟨l, M, hM⟩ := hnext j hj hself
  refine ⟨l, N + M + 1, fun k hk => ?_⟩
  obtain ⟨m, rfl⟩ := Nat.exists_eq_add_of_le' hk
  show (parseTop (m + (N + M)) >>= _).on i = _
  rw [Reader.on_bind, hN (m + (N + M)) (by omega)]
  exact hM (m + (N + M)) (by omega)

theorem Derives.exists_ofList (h : Derives (.items true g o) ts) : ∃ n, Node.ofList g = some n := by
  cases h <;> exact ⟨_, rfl⟩

/-- The commands of all lines are read, each line as one command. -/
theorem CommandLines.read (h : CommandLines gs ts) (hstop : stop.kind = .endOfInput)
    (acc : List Node) (hi : Upcoming (ts ++ [stop]) i) (hself : Excerpt 0 [] i i) :
    ∃ j N, ∀ k, N ≤ k →
      (parseAllFrom k acc).on i = (.ok (acc.reverse ++ gs.filterMap Node.ofList), j) := by
  have hend : ∀ acc {i}, Upcoming [stop] i → Excerpt 0 [] i i → ∃ j N, ∀ k, N ≤ k →
      (parseAllFrom k acc).on i = (.ok acc.reverse, j) := by
    intro acc i hi hself
    obtain ⟨j, N, hN⟩ := parseTop_done (hi.startLine hself) hstop
    refine ⟨j, N + 1, fun k hk => ?_⟩
    obtain ⟨m, rfl⟩ := Nat.exists_eq_add_of_le' hk
    show (parseTop (m + N) >>= _).on i = _
    rw [Reader.on_bind, hN _ (Nat.le_add_left N m)]
    rfl
  induction h generalizing acc i with
  | nil => simpa using hend acc hi hself
  | newline htk _ ih =>
      refine parseAllFrom_on (yields_blankLine (hi.startLine hself) htk) hself ?_
      exact fun j hj hjself => ih acc hj hjself
  | last hg =>
      obtain ⟨n, hn⟩ := hg.exists_ofList
      refine parseAllFrom_on (yields_line (hi.startLine hself) hg hn (.endOfInput hstop)) hself ?_
      intro j hj hjself
      simpa [hn] using hend (n :: acc) hj hjself
  | line hg htk _ ih =>
      obtain ⟨n, hn⟩ := hg.exists_ofList
      rw [List.append_assoc] at hi
      refine parseAllFrom_on (yields_line (hi.startLine hself) hg hn (.newline htk)) hself ?_
      intro j hj hjself
      simpa [hn] using ih (n :: acc) hj hjself

end CommandShell.Script
