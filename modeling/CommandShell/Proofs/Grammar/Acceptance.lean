import CommandShell.Proofs.Grammar.Completeness
import CommandShell.Proofs.Trees

/-!
# The commands of a text

A command is read from a text exactly if the tokens of its first line spell it, and they spell one
command only (`parseCommand_iff_commandLine`). That is what the reader finds and what it yields, put
together: `Input.stepBound` is enough steps, so what it yields with enough of them it does come to.
-/

namespace CommandShell.Script

open Reader

variable {t : Text} {line : Nat} {ts us vs : List Token} {tk : Token} {i j : Input} {n n' : Node}

/-! ## Command lines -/

/-- The tokens are those of the first line, up to a newline or the end of the input. -/
def FirstLine (us ts : List Token) : Prop :=
  ∃ stop rest, ts = us ++ stop :: rest ∧ (stop.kind = .newline ∨ stop.kind = .endOfInput)

/-- What is read as a command is spelled by the tokens of the first line. -/
theorem finds_parseTop (hi : Upcoming ts i) (hprimary : i.primary = true) (k : Nat) :
    Meets (fun _ _ => True) (fun p _ => ∀ n, p = .command n → ∃ us, FirstLine us ts ∧
      CommandLine n us) (parseTop k) i := by
  cases k with
  | zero => trivial
  | succ k =>
      have hsame : { i with primary := true } = i := by rw [← hprimary]
      obtain ⟨tk, us, j, rfl, htaken, hmeets, -⟩ := Draws.takes (r := nextToken) hi
      show Meets _ _ (nextToken k >>= _) { i with primary := true }
      rw [hsame]
      refine Meets.bind (hmeets k) ?_
      rintro tk' j' ⟨rfl, rfl⟩
      split
      · rintro n ⟨⟩
      · rintro n ⟨⟩
      · refine Meets.bind (P := fun _ l => Upcoming (tk' :: us) l) htaken.pushed fun _ l hl => ?_
        refine Meets.bind ((parsesSound k).parseList hl) ?_
        rintro node m ⟨taken, left, hts, hm, ns, o, xs, hnode, hns, -, hends⟩ n hn
        obtain rfl : node.fill m.bodies = n := Parsed.command.inj hn
        rw [hm.bodies, node.fill_nil]
        refine ⟨xs, ?_, ns, o, hns, hnode⟩
        rcases hends with ⟨stop, hstop, rfl⟩ | ⟨rfl, stop, rest, hstop, rfl⟩
        · exact ⟨stop, left, by simpa using hts, .inl hstop⟩
        · exact ⟨stop, rest, hts, .inr hstop⟩

/-- A command that the tokens of a line spell is read, and what is after the line is left. -/
theorem yields_line {ns : List Node} {o : Bool} {stop : Token} {rest left : List Token}
    (hi : Upcoming (us ++ stop :: rest) { i with primary := true })
    (hns : Derives (.items true ns o) us) (hnode : Node.ofList ns = some n)
    (hleaves : ListLeaves o stop rest true left) :
    Yields (fun k => parseTop k) i (.command n) left := by
  obtain ⟨⟨first, us, rfl, hstarts⟩, hreads⟩ := hns.accepted
  refine Yields.step ?_
  show Yields (fun k => nextToken k >>= _) { i with primary := true } _ _
  refine yields_draw hi fun j hj => ?_
  split
  · rename_i hend
    have hends := hstarts.1
    simp [Token.endsList, hend] at hends
  · exact absurd ‹_› hstarts.2
  · refine hj.yields_push fun l hl => ?_
    refine (hreads [] n stop rest left l hnode hleaves hl).bind fun m hm => ?_
    have hfill : n.fill m.bodies = n := by rw [hm.bodies, n.fill_nil]
    refine ⟨m, hm, 0, fun _ _ => ?_⟩
    show (Except.ok (Parsed.command (n.fill m.bodies)), m) = _
    rw [hfill]

/-- A command that the tokens of the first line spell is read. -/
theorem yields_parseTop (hi : Upcoming ts i) (hprimary : i.primary = true) (hus : FirstLine us ts)
    (hn : CommandLine n us) : ∃ j N, ∀ k, N ≤ k → (parseTop k).on i = (.ok (.command n), j) := by
  obtain ⟨stop, rest, rfl, hstop⟩ := hus
  obtain ⟨ns, o, hns, hnode⟩ := hn
  have hleaves : ∃ left, ListLeaves o stop rest true left := by
    rcases hstop with hnl | hend
    · exact ⟨_, .newline hnl⟩
    · exact ⟨_, .endOfInput hend⟩
  obtain ⟨left, hleaves⟩ := hleaves
  have hsame : { i with primary := true } = i := by rw [← hprimary]
  obtain ⟨j, -, N, hN⟩ := yields_line (hsame.symm ▸ hi) hns hnode hleaves
  exact ⟨j, N, hN⟩

/-- `Input.stepBound` is enough steps to read a command that is read with enough of them. -/
theorem parseCommand_on_of_yields (hi : Upcoming ts i)
    (hn : ∃ j N, ∀ k, N ≤ k → (parseTop k).on i = (.ok (.command n), j)) :
    ∃ j, parseCommand.on i = (.ok (.command n), j) := by
  obtain ⟨j, N, hN⟩ := hn
  obtain ⟨o, hsettles, -⟩ := parseTop_settles empty_plain hi.toSane
  have ho : o = (.ok (.command n), j) := by
    rw [← hsettles.2 (i.stepBound + N) (Nat.le_add_right ..), hN _ (Nat.le_add_left ..)]
  exact ⟨j, ho ▸ hsettles.parseCommand_on⟩

theorem upcoming_ofText (h : Lexes ts (.ofText t line)) : Upcoming ts (.ofText t line) where
  aliases := rfl
  spent := fun _ hf => nomatch hf
  plain := fun _ hf => nomatch hf
  unread := fun _ hc => nomatch hc
  lines := nil_notMem_lines t
  within := rfl
  proper := fun _ hu => nomatch hu
  quiet := fun _ => ⟨rfl, rfl⟩
  lexes := h
  bodies := rfl

/-- Without aliases and here-documents, a command is read from a text exactly if the tokens of its
first line spell it. They spell no other one. -/
theorem parseCommand_iff_commandLine (h : Lexes ts (.ofText t line)) :
    (∀ n, (∃ j, parseCommand.on (.ofText t line) = (.ok (.command n), j)) ↔
      ∃ us, FirstLine us ts ∧ CommandLine n us) ∧
    ∀ us us' n n', FirstLine us ts → CommandLine n us → FirstLine us' ts → CommandLine n' us' →
      n = n' := by
  have hi := upcoming_ofText h
  have hreads : ∀ us n, FirstLine us ts → CommandLine n us →
      ∃ j, parseCommand.on (.ofText t line) = (.ok (.command n), j) := fun us n hus hn =>
    parseCommand_on_of_yields hi (yields_parseTop hi rfl hus hn)
  refine ⟨fun n => ⟨?_, fun ⟨us, hus, hn⟩ => hreads us n hus hn⟩, ?_⟩
  · rintro ⟨j, hj⟩
    rw [parseCommand_on] at hj
    exact (finds_parseTop hi rfl _).value hj n rfl
  · intro us us' n n' hus hn hus' hn'
    obtain ⟨j, hj⟩ := hreads us n hus hn
    obtain ⟨j', hj'⟩ := hreads us' n' hus' hn'
    rw [hj] at hj'
    exact Parsed.command.inj (Except.ok.inj (Prod.mk.inj hj').1)

/-- Whether an input comes to its end in at most some number of tokens, without a
here-document. -/
def lexesWithin : Nat → Input → Bool
  | 0, _ => false
  | n + 1, i =>
    match readToken.on i with
    | (.ok tk, j) => j.bodies.isEmpty &&
      match tk.kind with
      | .endOfInput => true
      | .redirect _ op => !op.isHereDoc && lexesWithin n j
      | _ => lexesWithin n j
    | (.error _, _) => false

theorem exists_lexes {n : Nat} (h : lexesWithin n i = true) : ∃ ts, Lexes ts i := by
  induction n generalizing i with
  | zero => exact nomatch h
  | succ n ih =>
      unfold lexesWithin at h
      split at h
      · rename_i tk j hread
        rw [Bool.and_eq_true, List.isEmpty_iff] at h
        obtain ⟨hbodies, hrest⟩ := h
        split at hrest
        · rename_i hend
          refine ⟨[tk], j, hread, hbodies, ?_, by rw [hend]⟩
          intro fd op hop
          exact nomatch hend.symm.trans hop
        · rename_i fd op hop
          rw [Bool.and_eq_true, Bool.not_eq_true'] at hrest
          obtain ⟨ts, hts⟩ := ih hrest.2
          refine ⟨tk :: ts, j, hread, hbodies, ?_, by rw [hop]; exact hts⟩
          intro fd' op' hop'
          obtain ⟨-, rfl⟩ := TokenKind.redirect.inj (hop.symm.trans hop')
          exact hrest.1
        · rename_i hend hredirect
          obtain ⟨ts, hts⟩ := ih hrest
          refine ⟨tk :: ts, j, hread, hbodies, fun fd op hop => absurd hop (hredirect fd op), ?_⟩
          split
          · exact absurd ‹_› hend
          · exact hts
      · exact nomatch h

/-- Pipelines, assignments, redirections and a compound command in one line. -/
theorem parseCommand_iff_commandLine_pipeline :
    ∃ ts, Lexes ts (.ofText "! a=1 $(b; c) >f | \x7b if d; then e & fi; \x7d && g\nh\n") ∧
      (∀ n, (∃ j, parseCommand.on
          (.ofText "! a=1 $(b; c) >f | \x7b if d; then e & fi; \x7d && g\nh\n")
          = (.ok (.command n), j)) ↔ ∃ us, FirstLine us ts ∧ CommandLine n us) ∧
      ∀ us us' n n', FirstLine us ts → CommandLine n us → FirstLine us' ts →
        CommandLine n' us' → n = n' := by
  obtain ⟨ts, hts⟩ := exists_lexes (n := 25)
    (i := .ofText "! a=1 $(b; c) >f | \x7b if d; then e & fi; \x7d && g\nh\n") (by decide +kernel)
  exact ⟨ts, hts, parseCommand_iff_commandLine hts⟩

end CommandShell.Script
