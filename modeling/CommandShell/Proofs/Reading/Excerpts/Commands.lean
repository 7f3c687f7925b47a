import CommandShell.Proofs.Reading.Excerpts.Tokens

/-!
# Excerpts, command by command

A command of an excerpt is the same one further down. `readersMirror` has all functions of the grammar
together.
-/

namespace CommandShell.Script

open Reader

variable {d n : Nat}

/-- Reads on in a simple command, of which some was read. -/
def continueSimple (n line : Nat) (assigns argv : List Word) (redirects : List Redirect) :
    Reader Node := do
  let tk ← nextToken n
  if ← takeAliasBlank then
    let tk ← expandAlias n tk
    parseSimple n line assigns argv redirects tk
  else parseSimple n line assigns argv redirects tk

namespace ReadersMirror

/-! ## Lists -/

theorem parseTop_succ (h : ReadersMirror d n) :
    Mirrors d (Parsed.down d) (Script.parseTop (n + 1)) (Script.parseTop (n + 1)) := by
  have hlist : ∀ tk : Token, Mirrors d (Parsed.down d)
      (do
        pushToken tk
        let node ← Script.parseList true n []
        return .command (node.fill (← bodiesRead)))
      (do
        pushToken (tk.down d)
        let node ← Script.parseList true n []
        return .command (node.fill (← bodiesRead))) := fun tk =>
    .bind (.pushToken tk) fun _ => .bind (h.parseList true []) fun node =>
      .bind .bodiesRead fun bs => .pure (congrArg Parsed.command (Node.fill_down bs node))
  rw [ReadersObey.parseTop_eq]
  refine .bind .startLine fun _ => .bind h.nextToken fun tk => ?_
  obtain ⟨kind, line⟩ := tk
  cases kind with
  | endOfInput => exact .pure rfl
  | newline => exact .pure rfl
  | _ => exact hlist _

theorem parseAllFrom_succ (h : ReadersMirror d n) (acc : List Node) :
    Mirrors d (Node.downAll d) (Script.parseAllFrom (n + 1) acc)
      (Script.parseAllFrom (n + 1) (Node.downAll d acc)) := by
  refine .bind h.parseTop fun p => ?_
  cases p with
  | done => exact .pure (Node.downAll_reverse acc)
  | empty => exact h.parseAllFrom acc
  | command node => exact h.parseAllFrom (node :: acc)

theorem parseSubstitution_succ (h : ReadersMirror d n) :
    Mirrors d (Option.map (Node.down d)) (Script.parseSubstitution (n + 1))
      (Script.parseSubstitution (n + 1)) := by
  refine .bind h.skipNewlines fun _ => .bind h.peekToken fun tk => ?_
  rw [Token.isRightParen_down]
  refine .ite (.bind h.nextToken fun _ => .pure rfl) ?_
  refine .bind h.parseInner fun node => .bind h.nextToken fun tk => ?_
  rw [Token.isRightParen_down]
  exact .ite (.pure rfl) (.throw _ _)

theorem parseInner_succ (h : ReadersMirror d n) :
    Mirrors d (Node.down d) (Script.parseInner (n + 1)) (Script.parseInner (n + 1)) :=
  .bind h.skipNewlines fun _ => h.parseList false []

theorem closeList (acc : List Node) :
    Mirrors d (Node.down d) (closeList acc) (closeList (Node.downAll d acc)) := by
  unfold Script.closeList
  rw [Node.downAll_reverse, Node.ofList_down]
  cases Node.ofList acc.reverse with
  | none => exact .throw _ _
  | some list => exact .pure rfl

theorem continueList (h : ReadersMirror d n) (top : Bool) (acc : List Node) :
    Mirrors d (Node.down d) (continueList n top acc) (continueList n top (Node.downAll d acc)) := by
  refine .ite ?_ ?_
  · refine .bind h.peekToken fun tk => ?_
    obtain ⟨kind, line⟩ := tk
    cases kind with
    | newline => exact .bind h.nextToken fun _ => closeList acc
    | endOfInput => exact closeList acc
    | _ => exact h.parseList top acc
  · refine .bind h.skipNewlines fun _ => .bind h.peekToken fun tk => ?_
    rw [Token.endsList_down]
    exact .ite (closeList acc) (h.parseList top acc)

theorem parseList_succ (h : ReadersMirror d n) (top : Bool) (acc : List Node) :
    Mirrors d (Node.down d) (Script.parseList top (n + 1) acc)
      (Script.parseList top (n + 1) (Node.downAll d acc)) := by
  rw [parseList_eq, parseList_eq]
  refine .bind h.parseAndOr fun node => .bind h.nextToken fun tk => ?_
  have hpush : ∀ tk : Token, Mirrors d (Node.down d)
      (do
        pushToken tk
        Script.closeList (node :: acc))
      (do
        pushToken (tk.down d)
        Script.closeList (Node.downAll d (node :: acc))) := fun tk =>
    .bind (.pushToken tk) fun _ => closeList (node :: acc)
  have hbackground : Mirrors d (Node.down d)
      (Script.continueList n top (.mk (.background node) node.line :: acc))
      (Script.continueList n top (.mk (.background (node.down d)) (node.down d).line ::
        Node.downAll d acc)) := by
    rw [Node.line_down]
    exact h.continueList top (.mk (.background node) node.line :: acc)
  obtain ⟨kind, line⟩ := tk
  cases kind with
  | amp => exact hbackground
  | semi => exact h.continueList top (node :: acc)
  | newline => exact .ite (closeList (node :: acc)) (h.continueList top (node :: acc))
  | endOfInput => exact hpush _
  | _ => exact .ite (.throw _ _) (hpush _)

/-! ## Pipelines -/

theorem parseAndOr_succ (h : ReadersMirror d n) :
    Mirrors d (Node.down d) (Script.parseAndOr (n + 1)) (Script.parseAndOr (n + 1)) :=
  .bind h.parsePipeline fun first => h.parseAndOrRest first

theorem parseAndOrRest_succ (h : ReadersMirror d n) (left : Node) :
    Mirrors d (Node.down d) (Script.parseAndOrRest (n + 1) left)
      (Script.parseAndOrRest (n + 1) (left.down d)) := by
  refine .bind h.nextToken fun tk => ?_
  rw [Node.line_down]
  have hdone : ∀ tk : Token, Mirrors d (Node.down d)
      (do
        pushToken tk
        return left)
      (do
        pushToken (tk.down d)
        return left.down d) := fun tk => .bind (.pushToken tk) fun _ => .pure rfl
  obtain ⟨kind, line⟩ := tk
  cases kind with
  | andIf =>
      exact .bind h.skipNewlines fun _ => .bind h.parsePipeline fun right =>
        h.parseAndOrRest (.mk (.and left right) left.line)
  | orIf =>
      exact .bind h.skipNewlines fun _ => .bind h.parsePipeline fun right =>
        h.parseAndOrRest (.mk (.or left right) left.line)
  | _ => exact hdone _

/-- A pipeline of the stages that were read. -/
theorem pipelineFrom (negated : Bool) (line : Nat) (stages : List Node) :
    (let node := match Node.downAll d stages with
        | [single] => single
        | stages => .mk (.pipeline stages) (line + d)
      if negated then .mk (.not node) (line + d) else node) =
      (let node := match stages with
        | [single] => single
        | stages => .mk (.pipeline stages) line
      if negated then Node.mk (.not node) line else node).down d := by
  match stages with
  | [] => cases negated <;> rfl
  | [single] => cases negated <;> rfl
  | first :: second :: stages => cases negated <;> rfl

theorem parsePipelineFrom (h : ReadersMirror d n) (negated : Bool) (line : Nat) (tk : Token) :
    Mirrors d (Node.down d) (parsePipelineFrom n negated line tk)
      (parsePipelineFrom n negated (line + d) (tk.down d)) :=
  .bind (h.parseCommandAt tk) fun stage => .bind (h.parseStages [stage]) fun stages =>
    .pure (pipelineFrom negated line stages)

theorem parsePipeline_succ (h : ReadersMirror d n) :
    Mirrors d (Node.down d) (Script.parsePipeline (n + 1)) (Script.parsePipeline (n + 1)) := by
  rw [parsePipeline_eq]
  refine .bind h.commandToken fun first => ?_
  rw [Token.isKeyword_down]
  exact .ite (.bind h.commandToken fun tk => h.parsePipelineFrom _ _ tk)
    (h.parsePipelineFrom _ _ first)

theorem parseStages_succ (h : ReadersMirror d n) (acc : List Node) :
    Mirrors d (Node.downAll d) (Script.parseStages (n + 1) acc)
      (Script.parseStages (n + 1) (Node.downAll d acc)) := by
  refine .bind h.nextToken fun tk => ?_
  have hdone : ∀ tk : Token, Mirrors d (Node.downAll d)
      (do
        pushToken tk
        return acc.reverse)
      (do
        pushToken (tk.down d)
        return (Node.downAll d acc).reverse) := fun tk =>
    .bind (.pushToken tk) fun _ => .pure (Node.downAll_reverse acc)
  obtain ⟨kind, line⟩ := tk
  cases kind with
  | pipe =>
      exact .bind h.skipNewlines fun _ => .bind h.commandToken fun tk =>
        .bind (h.parseCommandAt tk) fun stage => h.parseStages (stage :: acc)
  | _ => exact hdone _

/-! ## Commands -/

theorem parseCommandAt_succ (h : ReadersMirror d n) (first : Token) :
    Mirrors d (Node.down d) (Script.parseCommandAt (n + 1) first)
      (Script.parseCommandAt (n + 1) (first.down d)) := by
  have hsimple : ∀ (line : Nat) (tk : Token), Mirrors d (Node.down d)
      (Script.parseSimple n line [] [] [] tk) (Script.parseSimple n (line + d) [] [] [] (tk.down d)) :=
    fun line tk => h.parseSimple line [] [] [] tk
  obtain ⟨kind, line⟩ := first
  cases kind with
  | leftParen =>
      refine .bind h.parseInner fun body => .bind h.nextToken fun tk => ?_
      rw [Token.isRightParen_down]
      refine .ite (.throw _ _) ?_
      exact .bind (h.parseRedirects []) fun redirects => .pure rfl
  | redirect fd op => exact hsimple line ⟨.redirect fd op, line⟩
  | word w =>
      unfold Script.parseCommandAt
      dsimp only [Token.down, TokenKind.down]
      rw [Word.literal?_down]
      cases w.literal? with
      | none => exact hsimple line ⟨.word w, line⟩
      | some kw =>
          refine .ite ?_ (.ite ?_ (.ite ?_ (.ite ?_ (.ite ?_ (.ite ?_ (.ite ?_ ?_))))))
          · exact .bind (h.parseIf line) fun body => h.closeCompound line body
          · exact .bind (h.parseLoop true line) fun body => h.closeCompound line body
          · exact .bind (h.parseLoop false line) fun body => h.closeCompound line body
          · exact .bind (h.parseFor line) fun body => h.closeCompound line body
          · exact .bind (h.parseCase line) fun body => h.closeCompound line body
          · exact .bind h.parseInner fun body => .bind (h.expectKeyword _) fun _ =>
              h.closeCompound line (.mk (.brace body) line)
          · exact .throw _ _
          · exact hsimple line ⟨.word w, line⟩
  | _ => exact .throw _ _

theorem closeCompound_succ (h : ReadersMirror d n) (line : Nat) (body : Node) :
    Mirrors d (Node.down d) (Script.closeCompound (n + 1) line body)
      (Script.closeCompound (n + 1) (line + d) (body.down d)) := by
  refine .bind (h.parseRedirects []) fun redirects => ?_
  cases redirects with
  | nil => exact .pure rfl
  | cons r rs => exact .pure rfl

theorem continueSimple (h : ReadersMirror d n) (line : Nat) (assigns argv : List Word)
    (redirects : List Redirect) : Mirrors d (Node.down d)
      (continueSimple n line assigns argv redirects)
      (continueSimple n (line + d) (Word.downAll d assigns) (Word.downAll d argv)
        (Redirect.downAll d redirects)) := by
  have hsimple := h.parseSimple line assigns argv redirects
  refine .bind h.nextToken fun tk => .bind .takeAliasBlank fun b => ?_
  exact .ite (.bind (h.expandAlias tk) hsimple) (hsimple tk)

theorem parseSimple_succ (h : ReadersMirror d n) (line : Nat) (assigns argv : List Word)
    (redirects : List Redirect) (tk : Token) : Mirrors d (Node.down d)
      (Script.parseSimple (n + 1) line assigns argv redirects tk)
      (Script.parseSimple (n + 1) (line + d) (Word.downAll d assigns) (Word.downAll d argv)
        (Redirect.downAll d redirects) (tk.down d)) := by
  have hdone : ∀ tk : Token, Mirrors d (Node.down d)
      (do
        pushToken tk
        return Node.mk (.simple assigns.reverse argv.reverse redirects.reverse) line)
      (do
        pushToken (tk.down d)
        return Node.mk (.simple (Word.downAll d assigns).reverse (Word.downAll d argv).reverse
          (Redirect.downAll d redirects).reverse) (line + d)) := by
    intro tk
    rw [Word.downAll_reverse, Word.downAll_reverse, Redirect.downAll_reverse]
    exact .bind (.pushToken tk) fun _ => .pure rfl
  have hempty : ∀ ws : List Word, (Word.downAll d ws).isEmpty = ws.isEmpty :=
    fun ws => by cases ws <;> rfl
  have hnone : (Redirect.downAll d redirects).isEmpty = redirects.isEmpty := by
    cases redirects <;> rfl
  have hon := h.continueSimple line
  obtain ⟨kind, l⟩ := tk
  cases kind with
  | redirect fd op => exact .bind (h.parseRedirect fd op) fun r => hon assigns argv (r :: redirects)
  | word w =>
      unfold Script.parseSimple
      dsimp only [Token.down, TokenKind.down]
      rw [hempty, hempty, hnone, Word.isAssignment_down]
      refine .ite (hon (w :: assigns) argv redirects) (.ite ?_ (hon assigns (w :: argv) redirects))
      refine .bind h.peekToken fun tk => ?_
      rw [Token.isLeftParen_down]
      exact .ite (h.parseFunction w line) (hon assigns [w] redirects)
  | _ => exact hdone _

theorem parseFunction_succ (h : ReadersMirror d n) (name : Word) (line : Nat) :
    Mirrors d (Node.down d) (Script.parseFunction (n + 1) name line)
      (Script.parseFunction (n + 1) (name.down d) (line + d)) := by
  refine .bind h.nextToken fun _ => .bind h.nextToken fun tk => ?_
  rw [Token.isRightParen_down, Word.literal?_down]
  refine .ite (.throw _ _) ?_
  split
  · exact .throw _ _
  · refine .bind h.skipNewlines fun _ => .bind h.commandToken fun tk => ?_
    rw [Token.isLeftParen_down, Token.literal?_down]
    exact .ite (.bind (h.parseCommandAt tk) fun body => .pure rfl) (.throw _ _)

theorem parseRedirect_succ (h : ReadersMirror d n) (fd : Option Nat) (op : RedirectOp) :
    Mirrors d (Redirect.down d) (Script.parseRedirect (n + 1) fd op)
      (Script.parseRedirect (n + 1) fd op) := by
  refine .bind h.nextToken fun tk => ?_
  obtain ⟨kind, line⟩ := tk
  cases kind with
  | word w =>
      dsimp only [Token.down, TokenKind.down]
      rw [Word.unquoted_down, Word.isQuoted_down]
      split
      · exact .bind (.requestHereDoc _ _ _) fun ticket => .pure rfl
      · exact .bind (.requestHereDoc _ _ _) fun ticket => .pure rfl
      · exact .pure rfl
  | _ => exact .throw _ _

theorem parseRedirects_succ (h : ReadersMirror d n) (acc : List Redirect) :
    Mirrors d (Redirect.downAll d) (Script.parseRedirects (n + 1) acc)
      (Script.parseRedirects (n + 1) (Redirect.downAll d acc)) := by
  refine .bind h.nextToken fun tk => ?_
  have hdone : ∀ tk : Token, Mirrors d (Redirect.downAll d)
      (do
        pushToken tk
        return acc.reverse)
      (do
        pushToken (tk.down d)
        return (Redirect.downAll d acc).reverse) := fun tk =>
    .bind (.pushToken tk) fun _ => .pure (Redirect.downAll_reverse acc)
  obtain ⟨kind, line⟩ := tk
  cases kind with
  | redirect fd op =>
      exact .bind (h.parseRedirect fd op) fun r => h.parseRedirects (r :: acc)
  | _ => exact hdone _

/-! ## Constructs -/

theorem parseIf_succ (h : ReadersMirror d n) (line : Nat) :
    Mirrors d (Node.down d) (Script.parseIf (n + 1) line) (Script.parseIf (n + 1) (line + d)) := by
  refine .bind h.parseInner fun cond => .bind (h.expectKeyword _) fun _ =>
    .bind h.parseInner fun thenBody => .bind h.nextToken fun tk => ?_
  rw [Token.isKeyword_down, Token.isKeyword_down, Token.isKeyword_down]
  refine .ite ?_ (.ite ?_ (.ite (.pure rfl) (.throw _ _)))
  · exact .bind (h.parseIf tk.line) fun rest => .pure rfl
  · exact .bind h.parseInner fun body => .bind (h.expectKeyword _) fun _ => .pure rfl

theorem parseLoop_succ (h : ReadersMirror d n) (isWhile : Bool) (line : Nat) :
    Mirrors d (Node.down d) (Script.parseLoop (n + 1) isWhile line)
      (Script.parseLoop (n + 1) isWhile (line + d)) := by
  refine .bind h.parseInner fun cond => .bind (h.expectKeyword _) fun _ =>
    .bind h.parseInner fun body => .bind (h.expectKeyword _) fun _ => .pure ?_
  cases isWhile <;> rfl

theorem parseFor_succ (h : ReadersMirror d n) (line : Nat) :
    Mirrors d (Node.down d) (Script.parseFor (n + 1) line) (Script.parseFor (n + 1) (line + d)) := by
  refine .bind h.nextToken fun tk => ?_
  rw [Token.literal?_down]
  split
  · exact .throw _ _
  · rename_i var _
    have hbody : ∀ items : Option (List Word), Mirrors d (Node.down d)
        (do
          Script.skipNewlines n
          Script.expectKeyword "do" n
          let body ← Script.parseInner n
          Script.expectKeyword "done" n
          return Node.mk (.forIn var items body) line)
        (do
          Script.skipNewlines n
          Script.expectKeyword "do" n
          let body ← Script.parseInner n
          Script.expectKeyword "done" n
          return Node.mk (.forIn var (items.map (Word.downAll d)) body) (line + d)) := fun items =>
      .bind h.skipNewlines fun _ => .bind (h.expectKeyword _) fun _ => .bind h.parseInner fun body =>
        .bind (h.expectKeyword _) fun _ => .pure (by cases items <;> rfl)
    refine .bind h.skipNewlines fun _ => .bind h.nextToken fun tk => ?_
    rw [Token.isKeyword_down]
    refine .ite (.bind (h.parseItems []) fun items => hbody (some items)) ?_
    obtain ⟨kind, l⟩ := tk
    cases kind with
    | semi => exact hbody none
    | _ => exact .bind (.pushToken _) fun _ => hbody none

theorem parseItems_succ (h : ReadersMirror d n) (acc : List Word) :
    Mirrors d (Word.downAll d) (Script.parseItems (n + 1) acc)
      (Script.parseItems (n + 1) (Word.downAll d acc)) := by
  refine .bind h.nextToken fun tk => ?_
  obtain ⟨kind, line⟩ := tk
  cases kind with
  | word w => exact h.parseItems (w :: acc)
  | semi => exact .pure (Word.downAll_reverse acc)
  | newline => exact .pure (Word.downAll_reverse acc)
  | _ => exact .throw _ _

theorem parseCase_succ (h : ReadersMirror d n) (line : Nat) :
    Mirrors d (Node.down d) (Script.parseCase (n + 1) line)
      (Script.parseCase (n + 1) (line + d)) := by
  refine .bind h.nextToken fun tk => ?_
  obtain ⟨kind, l⟩ := tk
  cases kind with
  | word subject =>
      exact .bind h.skipNewlines fun _ => .bind (h.expectKeyword _) fun _ =>
        .bind (h.parseArms []) fun arms => .pure rfl
  | _ => exact .throw _ _

theorem continueArms (h : ReadersMirror d n) (acc : List CaseArm) :
    Mirrors d (CaseArm.downAll d) (continueArms n acc)
      (continueArms n (CaseArm.downAll d acc)) := by
  refine .bind h.nextToken fun tk => ?_
  rw [Token.isKeyword_down]
  refine .ite (.pure (CaseArm.downAll_reverse acc)) ?_
  obtain ⟨kind, line⟩ := tk
  cases kind with
  | doubleSemi => exact h.parseArms acc
  | _ => exact .throw _ _

theorem parseArmFrom (h : ReadersMirror d n) (acc : List CaseArm) (tk : Token) :
    Mirrors d (CaseArm.downAll d) (parseArmFrom n acc tk)
      (parseArmFrom n (CaseArm.downAll d acc) (tk.down d)) := by
  refine .bind (h.parsePatterns [] tk) fun patterns => .bind h.skipNewlines fun _ =>
    .bind h.peekToken fun peeked => ?_
  have hmore : ∀ peeked : Token, Mirrors d (CaseArm.downAll d)
      (if peeked.isKeyword "esac" then Script.continueArms n (.mk patterns none :: acc)
      else do
        let body ← Script.parseInner n
        Script.continueArms n (.mk patterns (some body) :: acc))
      (if (peeked.down d).isKeyword "esac" then
        Script.continueArms n (.mk (Word.downAll d patterns) none :: CaseArm.downAll d acc)
      else do
        let body ← Script.parseInner n
        Script.continueArms n (.mk (Word.downAll d patterns) (some body) ::
          CaseArm.downAll d acc)) := by
    intro peeked
    rw [Token.isKeyword_down]
    exact .ite (h.continueArms (.mk patterns none :: acc)) (.bind h.parseInner fun body =>
      h.continueArms (.mk patterns (some body) :: acc))
  obtain ⟨kind, line⟩ := peeked
  cases kind with
  | doubleSemi => exact h.continueArms (.mk patterns none :: acc)
  | _ => exact hmore _

theorem parseArms_succ (h : ReadersMirror d n) (acc : List CaseArm) :
    Mirrors d (CaseArm.downAll d) (Script.parseArms (n + 1) acc)
      (Script.parseArms (n + 1) (CaseArm.downAll d acc)) := by
  rw [parseArms_eq, parseArms_eq]
  refine .bind h.skipNewlines fun _ => .bind h.nextToken fun tk => ?_
  rw [Token.isKeyword_down, Token.isLeftParen_down]
  refine .ite (.pure (CaseArm.downAll_reverse acc)) ?_
  exact .ite (.bind h.nextToken fun tk => h.parseArmFrom acc tk) (h.parseArmFrom acc tk)

theorem parsePatterns_succ (h : ReadersMirror d n) (acc : List Word) (tk : Token) :
    Mirrors d (Word.downAll d) (Script.parsePatterns (n + 1) acc tk)
      (Script.parsePatterns (n + 1) (Word.downAll d acc) (tk.down d)) := by
  obtain ⟨kind, line⟩ := tk
  cases kind with
  | word w =>
      refine .bind h.nextToken fun separator => ?_
      obtain ⟨kind, line⟩ := separator
      cases kind with
      | pipe => exact .bind h.nextToken fun tk => h.parsePatterns (w :: acc) tk
      | rightParen => exact .pure (Word.downAll_reverse (w :: acc))
      | _ => exact .throw _ _
  | _ => exact .throw _ _

theorem succ (h : ReadersMirror d n) : ReadersMirror d (n + 1) where
  readParts := h.readParts_succ
  readDoubleQuoted := h.readDoubleQuoted_succ
  readDollar := h.readDollar_succ
  readBracedParam := h.readBracedParam_succ
  readArithmetic := h.readArithmetic_succ
  readBackQuoted := h.readBackQuoted_succ
  readHereDocs := h.readHereDocs_succ
  readPending := h.readPending_succ
  nextToken := h.nextToken_succ
  peekToken := h.peekToken_succ
  expectKeyword := h.expectKeyword_succ
  skipNewlines := h.skipNewlines_succ
  expandAlias := expandAlias_succ
  commandToken := h.commandToken_succ
  parseTop := h.parseTop_succ
  parseAllFrom := h.parseAllFrom_succ
  parseSubstitution := h.parseSubstitution_succ
  parseInner := h.parseInner_succ
  parseList := h.parseList_succ
  parseAndOr := h.parseAndOr_succ
  parseAndOrRest := h.parseAndOrRest_succ
  parsePipeline := h.parsePipeline_succ
  parseStages := h.parseStages_succ
  parseCommandAt := h.parseCommandAt_succ
  closeCompound := h.closeCompound_succ
  parseSimple := h.parseSimple_succ
  parseFunction := h.parseFunction_succ
  parseRedirect := h.parseRedirect_succ
  parseRedirects := h.parseRedirects_succ
  parseIf := h.parseIf_succ
  parseLoop := h.parseLoop_succ
  parseFor := h.parseFor_succ
  parseItems := h.parseItems_succ
  parseCase := h.parseCase_succ
  parseArms := h.parseArms_succ
  parsePatterns := h.parsePatterns_succ

end ReadersMirror

/-- With any number of steps every function of the grammar gives the same further down. -/
theorem readersMirror (d n : Nat) : ReadersMirror d n := by
  induction n with
  | zero => exact .zero
  | succ n ih => exact ih.succ

end CommandShell.Script
