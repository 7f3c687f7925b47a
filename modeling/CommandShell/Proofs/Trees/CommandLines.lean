import CommandShell.Proofs.Trees.Commands

/-!
# The trees of command lines

Whatever has been read of a script before, every command in a tree that is read from it stands where
it may (`parseCommand_wellFormed`). A script goes on after a command line, after a line that could
not be read, with other aliases, and with further lines (`Reached`).

The here-documents of a fresh script are filled in, but for those whose operators stand in a
here-document that ends before they are read (`parseCommand_isFilled`). There are such
(`not_parseCommand_isFilled`): a line of a here-document ends without a newline token, so that a
here-document wanted by a `$(…)` in it is never read.
-/

namespace CommandShell.Script

open Reader

variable {A : Table Text} {t : Text} {line : Nat} {i j : Input} {n : Node}

/-- The states of reading a script. -/
inductive Reached : Input → Prop
  | start (t : Text) (line : Nat) (aliases : Table Text) : Reached (.ofText t line aliases)
  /-- A command line was read. -/
  | next {i j : Input} {p : Parsed} (h : Reached i) (hread : parseCommand.on i = (.ok p, j)) :
    Reached j
  /-- A command line could not be read, and the rest of the line is dropped. -/
  | failed {i j : Input} {e : Halt} (h : Reached i) (hread : parseCommand.on i = (.error e, j)) :
    Reached j.discardLine
  /-- The commands in between changed the aliases. -/
  | realiased {i : Input} (h : Reached i) (aliases : Table Text) : Reached { i with aliases }
  /-- There are more lines, or no more, and they are shown as they are read, or not. -/
  | supplied {i : Input} (h : Reached i) (queue : List Text) (closed verbose : Bool)
    (shown : List Text) : Reached { i with queue, closed, verbose, shown }

theorem leads_parseCommand {fresh : Prop} (hi : Held A fresh i) :
    Leads (fun p j => (Held A fresh j ∧ j.AtLineEnd) ∧ ∀ n, p = .command n →
      n.Every (fun _ m => m.WellFormed) false ∧ (fresh → n.Sound A 0)) parseCommand i :=
  meets_get.mpr ((treesSound A i.stepBound).parseTop hi)

/-- With other aliases the input is in order too, if it need not be fresh. -/
theorem Held.realiased (h : Held A False i) (hend : i.AtLineEnd) (B : Table Text) :
    Held B False { i with aliases := B } where
  aliases := rfl
  wellFormed := h.wellFormed
  settled := False.elim
  known := False.elim
  hand tk htk := by
    have hkind := hend.pushback tk htk
    exact ⟨fun w hw => (nomatch hkind.symm.trans hw), fun _ => hend.pending⟩

theorem Reached.held (h : Reached i) : Held i.aliases False i ∧ i.AtLineEnd := by
  induction h with
  | start t line aliases =>
      have hstart : Clear aliases False (.ofText t line aliases) :=
        ⟨⟨rfl, fun _ hb => (nomatch hb), False.elim, False.elim⟩, rfl⟩
      exact ⟨hstart.held, rfl, fun _ hp => nomatch hp⟩
  | next _ hread ih =>
      obtain ⟨hj, hend⟩ := ((leads_parseCommand ih.1).value hread).2.1
      exact ⟨hj.aliases.symm ▸ hj, hend⟩
  | @failed i j e _ hread ih =>
      have hbodies : j.WellFormed := (leads_parseCommand ih.1).failure hread
      have hdiscard : Clear j.discardLine.aliases False j.discardLine :=
        ⟨⟨rfl, hbodies, False.elim, False.elim⟩, rfl⟩
      exact ⟨hdiscard.held, rfl, fun _ hp => nomatch hp⟩
  | realiased _ aliases ih => exact ⟨ih.1.realiased ih.2 aliases, ih.2.pending, ih.2.pushback⟩
  | supplied _ _ _ _ _ ih => exact ⟨ih.1.of_docs rfl, ih.2.pending, ih.2.pushback⟩

/-- Every command in a tree that is read stands where it may, whatever was read before. -/
theorem parseCommand_wellFormed (hi : Reached i) (h : parseCommand.on i = (.ok (.command n), j)) :
    n.Every (fun _ m => m.WellFormed) false :=
  (((leads_parseCommand hi.held.1).value h).2.2 n rfl).1

/-- The command that is read from an input, if one is. -/
def readNode? (i : Input) : Option Node :=
  match parseCommand.on i with
  | (.ok (.command n), _) => some n
  | _ => none

theorem exists_parseCommand {P : Node → Bool} (h : (readNode? i).any P = true) :
    ∃ n j, parseCommand.on i = (.ok (.command n), j) ∧ P n = true := by
  obtain ⟨n, hn, hP⟩ := (Option.any_eq_true ..).mp h
  unfold readNode? at hn
  split at hn
  · rename_i m j hm
    obtain rfl := Option.some.inj hn
    exact ⟨_, j, hm, hP⟩
  · exact nomatch hn

/-- A pipeline of a redirected loop, a subshell, and a function, with commands in their words. -/
theorem parseCommand_wellFormed_pipeline : ∃ n j,
    parseCommand.on
        (.ofText "! while a=1 $(b && c &) <<E; do :; done <f | (d `e`) | f() \x7b g; \x7d\nE\n")
      = (.ok (.command n), j) ∧ n.shape = .not ∧ n.Every (fun _ m => m.WellFormed) false := by
  obtain ⟨n, j, hread, hshape⟩ := exists_parseCommand (P := fun n => n.shape == .not)
    (i := .ofText "! while a=1 $(b && c &) <<E; do :; done <f | (d `e`) | f() \x7b g; \x7d\nE\n")
    (by decide +kernel)
  exact ⟨n, j, hread, beq_iff_eq.mp hshape, parseCommand_wellFormed (.start _ _ _) hread⟩

/-! ## Here-documents -/

/-- All here-documents in a command of a fresh script are filled in, the bodies of here-documents
apart, and in these too if no here-document is waited for at the end of a body. -/
theorem parseCommand_isFilled (h : parseCommand.on (.ofText t line A) = (.ok (.command n), j)) :
    n.Every (fun inDoc m => inDoc = false → m.IsFilled) false ∧
      (n.Every (fun _ m => m.DocsLeaveNothing A) false →
        n.Every (fun _ m => m.IsFilled) false) := by
  have hstart : Clear A True (.ofText t line A) :=
    ⟨⟨rfl, fun _ hb => (nomatch hb), fun _ _ hb => (nomatch hb),
      fun _ _ hk => absurd hk (Nat.not_lt_zero _)⟩, rfl⟩
  have hsound : n.Sound A 0 := (((leads_parseCommand hstart.held).value h).2.2 n rfl).2 trivial
  refine ⟨Node.Every.mono (fun m hm _ r hr => ?_) (fun _ _ hdoc => nomatch hdoc) hsound,
    Node.Every.filled hsound⟩
  match r, hm.awaits rfl r hr with
  | .word .., _ => trivial
  | .hereDoc _ _ (.body _), _ => trivial
  | .hereDoc _ _ (.pending k), hk => exact absurd hk (Nat.not_lt_zero k)

/-- Whether the command is one literal word and a here-document of plain text. -/
def Node.hasPlainDoc : Node → Bool
  | .mk (.simple [] [.mk _ [.literal _] _] [.hereDoc _ _ (.body (.mk t [.singleQuoted t'] _))]) _ =>
    t == t'
  | _ => false

theorem Node.docsLeaveNothing_of_hasPlainDoc (h : n.hasPlainDoc = true) :
    n.Every (fun _ m => m.DocsLeaveNothing A) false := by
  unfold Node.hasPlainDoc at h
  split at h
  · obtain rfl := beq_iff_eq.mp h
    refine ⟨fun fd op w hw => .inl ?_, trivial, ⟨⟨trivial, trivial⟩, trivial⟩,
      ⟨⟨trivial, trivial⟩, trivial⟩⟩
    obtain ⟨-, -, hdoc⟩ := Redirect.hereDoc.inj (List.mem_singleton.mp hw)
    obtain rfl := HereDoc.body.inj hdoc
    rfl
  · exact nomatch h

/-- The body of a quoted here-document is plain text, also when it looks like a command. -/
theorem parseCommand_isFilled_quoted : ∃ n j,
    parseCommand.on (.ofText "cat <<'A'\n$(cat <<B)\nA\n") = (.ok (.command n), j) ∧
      n.Every (fun _ m => m.IsFilled) false := by
  obtain ⟨n, j, hread, hplain⟩ := exists_parseCommand (P := Node.hasPlainDoc)
    (i := .ofText "cat <<'A'\n$(cat <<B)\nA\n") (by decide +kernel)
  exact ⟨n, j, hread, (parseCommand_isFilled hread).2 (Node.docsLeaveNothing_of_hasPlainDoc hplain)⟩

/-- Whether the command has a here-document that starts with a substituted command, which waits for
a here-document. -/
def Node.waitsInDoc : Node → Bool
  | .mk (.simple _ _ [.hereDoc _ _ (.body (.mk _ (.command (some n) :: _) _))]) _ =>
    match n with
    | .mk (.simple _ _ [.hereDoc _ _ (.pending _)]) _ => true
    | _ => false
  | _ => false

theorem Node.not_isFilled_of_waitsInDoc (h : n.waitsInDoc = true) :
    ¬ n.Every (fun _ m => m.IsFilled) false := by
  unfold Node.waitsInDoc at h
  split at h
  · split at h
    · rintro ⟨-, -, -, ⟨⟨hwaits, -⟩, -⟩, -⟩
      exact hwaits _ List.mem_cons_self
    · exact nomatch h
  · exact nomatch h

/-- The here-document of a command in the body of a here-document is never read: no newline token
ends the line of its operator there. -/
theorem not_parseCommand_isFilled : ¬ ∀ (t : Text) (line : Nat) (A : Table Text) (n : Node)
    (j : Input), parseCommand.on (.ofText t line A) = (.ok (.command n), j) →
      n.Every (fun _ m => m.IsFilled) false := by
  intro hall
  obtain ⟨n, j, hread, hwaits⟩ := exists_parseCommand (P := Node.waitsInDoc)
    (i := .ofText "cat <<A\n$(cat <<B)\nA\n") (by decide +kernel)
  exact Node.not_isFilled_of_waitsInDoc hwaits (hall _ _ _ n j hread)

end CommandShell.Script
