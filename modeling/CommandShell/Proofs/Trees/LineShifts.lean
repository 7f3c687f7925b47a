import Mathlib.Logic.Basic
import CommandShell.Proofs.Trees

/-!
# Trees further down

The lines of a tree count from where its text started. `Node.down` is the tree of the same text some
lines further down. Nothing but the lines changes: what is asked of words and tokens, how commands
are put in a list, and how here-documents are filled in go with the shift.
-/

namespace CommandShell.Script

section

variable (d : Nat)

mutual

/-- The part, `d` lines further down. -/
def Part.down : Part → Part
  | .doubleQuoted ps => .doubleQuoted (Part.downAll ps)
  | .param name op colon arg q => .param name op colon (Part.downAll arg) q
  | .command (some n) => .command (some n.down)
  | .arithmetic ps => .arithmetic (Part.downAll ps)
  | p => p

/-- The parts, `d` lines further down. -/
def Part.downAll : List Part → List Part
  | [] => []
  | p :: ps => p.down :: Part.downAll ps

/-- The word, `d` lines further down. -/
def Word.down : Word → Word
  | .mk t ps l => .mk t (Part.downAll ps) (l + d)

/-- The words, `d` lines further down. -/
def Word.downAll : List Word → List Word
  | [] => []
  | w :: ws => w.down :: Word.downAll ws

/-- The redirection, `d` lines further down. -/
def Redirect.down : Redirect → Redirect
  | .word fd op w => .word fd op w.down
  | .hereDoc fd op (.pending k) => .hereDoc fd op (.pending k)
  | .hereDoc fd op (.body w) => .hereDoc fd op (.body w.down)

/-- The redirections, `d` lines further down. -/
def Redirect.downAll : List Redirect → List Redirect
  | [] => []
  | r :: rs => r.down :: Redirect.downAll rs

/-- The arm, `d` lines further down. -/
def CaseArm.down : CaseArm → CaseArm
  | .mk ps none => .mk (Word.downAll ps) none
  | .mk ps (some n) => .mk (Word.downAll ps) (some n.down)

/-- The arms, `d` lines further down. -/
def CaseArm.downAll : List CaseArm → List CaseArm
  | [] => []
  | a :: as => a.down :: CaseArm.downAll as

/-- The command, `d` lines further down. -/
def Node.down : Node → Node
  | .mk c l => .mk c.down (l + d)

/-- The commands, `d` lines further down. -/
def Node.downAll : List Node → List Node
  | [] => []
  | n :: ns => n.down :: Node.downAll ns

/-- The kind of command, with what it is made of `d` lines further down. -/
def Command.down : Command → Command
  | .simple as ws rs => .simple (Word.downAll as) (Word.downAll ws) (Redirect.downAll rs)
  | .pipeline ns => .pipeline (Node.downAll ns)
  | .not n => .not n.down
  | .and l r => .and l.down r.down
  | .or l r => .or l.down r.down
  | .list l r => .list l.down r.down
  | .background n => .background n.down
  | .ifThen c t none => .ifThen c.down t.down none
  | .ifThen c t (some e) => .ifThen c.down t.down (some e.down)
  | .whileDo c b => .whileDo c.down b.down
  | .untilDo c b => .untilDo c.down b.down
  | .forIn v none b => .forIn v none b.down
  | .forIn v (some ws) b => .forIn v (some (Word.downAll ws)) b.down
  | .caseOf w as => .caseOf w.down (CaseArm.downAll as)
  | .subshell b rs => .subshell b.down (Redirect.downAll rs)
  | .brace b => .brace b.down
  | .redirected b rs => .redirected b.down (Redirect.downAll rs)
  | .function name b => .function name b.down

end

/-- The kind of token, `d` lines further down. -/
def TokenKind.down : TokenKind → TokenKind
  | .word w => .word (w.down d)
  | k => k

/-- The token, `d` lines further down. -/
def Token.down (tk : Token) : Token := ⟨tk.kind.down d, tk.line + d⟩

/-- The bodies of here-documents, `d` lines further down. -/
def Bodies.down (bs : Bodies) : Bodies := bs.map fun b => (b.1, b.2.down d)

end

variable {d : Nat}

/-! ## Lists -/

theorem Part.downAll_eq_map (ps : List Part) : Part.downAll d ps = ps.map (Part.down d) := by
  induction ps with
  | nil => rfl
  | cons p ps ih => exact congrArg (p.down d :: ·) ih

theorem Word.downAll_eq_map (ws : List Word) : Word.downAll d ws = ws.map (Word.down d) := by
  induction ws with
  | nil => rfl
  | cons w ws ih => exact congrArg (w.down d :: ·) ih

theorem Redirect.downAll_eq_map (rs : List Redirect) :
    Redirect.downAll d rs = rs.map (Redirect.down d) := by
  induction rs with
  | nil => rfl
  | cons r rs ih => exact congrArg (r.down d :: ·) ih

theorem CaseArm.downAll_eq_map (as : List CaseArm) :
    CaseArm.downAll d as = as.map (CaseArm.down d) := by
  induction as with
  | nil => rfl
  | cons a as ih => exact congrArg (a.down d :: ·) ih

theorem Node.downAll_eq_map (ns : List Node) : Node.downAll d ns = ns.map (Node.down d) := by
  induction ns with
  | nil => rfl
  | cons n ns ih => exact congrArg (n.down d :: ·) ih

theorem Word.downAll_reverse (ws : List Word) :
    (Word.downAll d ws).reverse = Word.downAll d ws.reverse := by
  rw [Word.downAll_eq_map, Word.downAll_eq_map, List.map_reverse]

theorem Redirect.downAll_reverse (rs : List Redirect) :
    (Redirect.downAll d rs).reverse = Redirect.downAll d rs.reverse := by
  rw [Redirect.downAll_eq_map, Redirect.downAll_eq_map, List.map_reverse]

theorem CaseArm.downAll_reverse (as : List CaseArm) :
    (CaseArm.downAll d as).reverse = CaseArm.downAll d as.reverse := by
  rw [CaseArm.downAll_eq_map, CaseArm.downAll_eq_map, List.map_reverse]

theorem Node.downAll_reverse (ns : List Node) :
    (Node.downAll d ns).reverse = Node.downAll d ns.reverse := by
  rw [Node.downAll_eq_map, Node.downAll_eq_map, List.map_reverse]

/-! ## Parts as they are read -/

theorem PartsSoFar.literal_down (c : Char) (ps : PartsSoFar) :
    PartsSoFar.literal c (Part.downAll d ps) = Part.downAll d (ps.literal c) := by
  cases ps with
  | nil => rfl
  | cons p ps =>
      cases p with
      | command body => cases body <;> rfl
      | _ => rfl

theorem PartsSoFar.escaped_down (c : Char) (ps : PartsSoFar) :
    PartsSoFar.escaped c (Part.downAll d ps) = Part.downAll d (ps.escaped c) := by
  cases ps with
  | nil => rfl
  | cons p ps =>
      cases p with
      | command body => cases body <;> rfl
      | _ => rfl

theorem PartsSoFar.sealed_down (ps : PartsSoFar) :
    PartsSoFar.sealed (Part.downAll d ps) = Part.downAll d ps.sealed := by
  unfold PartsSoFar.sealed
  rw [Part.downAll_eq_map, Part.downAll_eq_map, ← List.map_reverse, List.map_map, List.map_map]
  refine List.map_congr_left fun p _ => ?_
  cases p with
  | command body => cases body <;> rfl
  | _ => rfl

/-! ## Words and tokens -/

theorem Word.text_down (w : Word) : (w.down d).text = w.text := by
  obtain ⟨t, ps, l⟩ := w
  rfl

theorem Word.literal?_down (w : Word) : (w.down d).literal? = w.literal? := by
  obtain ⟨t, ps, l⟩ := w
  match ps with
  | [] => rfl
  | [p] =>
      cases p with
      | command body => cases body <;> rfl
      | _ => rfl
  | p :: q :: ps =>
      cases p with
      | command body => cases body <;> rfl
      | _ => rfl

theorem Word.isAssignment_down (w : Word) : (w.down d).isAssignment = w.isAssignment := by
  obtain ⟨t, ps, l⟩ := w
  cases ps with
  | nil => rfl
  | cons p ps =>
      cases p with
      | command body => cases body <;> rfl
      | _ => rfl

theorem Word.isQuoted_down (w : Word) : (w.down d).isQuoted = w.isQuoted := by
  obtain ⟨t, ps, l⟩ := w
  show (Part.downAll d ps).any _ = ps.any _
  rw [Part.downAll_eq_map, List.any_map]
  refine congrArg (List.any ps) (funext fun p => ?_)
  cases p with
  | command body => cases body <;> rfl
  | _ => rfl

theorem Word.unquoted_down (w : Word) : (w.down d).unquoted = w.unquoted :=
  congrArg (unquoteFrom .bare) w.text_down

theorem descriptorNumber?_down (w : Word) : descriptorNumber? (w.down d) = descriptorNumber? w := by
  unfold descriptorNumber?
  rw [Word.literal?_down]

theorem Token.literal?_down (tk : Token) : (tk.down d).literal? = tk.literal? := by
  obtain ⟨kind, l⟩ := tk
  cases kind with
  | word w => exact w.literal?_down
  | _ => rfl

theorem Token.isKeyword_down (tk : Token) (kw : Text) :
    (tk.down d).isKeyword kw = tk.isKeyword kw := by
  unfold Token.isKeyword
  rw [Token.literal?_down]

theorem Token.isNewline_down (tk : Token) : (tk.down d).isNewline = tk.isNewline := by
  obtain ⟨kind, l⟩ := tk
  cases kind <;> rfl

theorem Token.isRightParen_down (tk : Token) : (tk.down d).isRightParen = tk.isRightParen := by
  obtain ⟨kind, l⟩ := tk
  cases kind <;> rfl

theorem Token.isLeftParen_down (tk : Token) : (tk.down d).isLeftParen = tk.isLeftParen := by
  obtain ⟨kind, l⟩ := tk
  cases kind <;> rfl

theorem Token.endsList_down (tk : Token) : (tk.down d).endsList = tk.endsList := by
  obtain ⟨kind, l⟩ := tk
  cases kind with
  | word w => exact congrArg (Option.any listEnders.contains) w.literal?_down
  | _ => rfl

/-! ## Commands -/

theorem Node.line_down (n : Node) : (n.down d).line = n.line + d := by
  obtain ⟨c, l⟩ := n
  rfl

theorem Node.ofList_down (ns : List Node) :
    Node.ofList (Node.downAll d ns) = (Node.ofList ns).map (Node.down d) := by
  cases ns with
  | nil => rfl
  | cons n ns =>
      refine congrArg some ?_
      induction ns generalizing n with
      | nil => rfl
      | cons m ns ih =>
          show List.foldl _ (Node.mk (.list (n.down d) (m.down d)) (n.down d).line) _ = _
          rw [Node.line_down]
          exact ih (.mk (.list n m) n.line)

theorem Bodies.lookup_down (bs : Bodies) (k : Nat) :
    (Bodies.down d bs).lookup k = (bs.lookup k).map (Word.down d) := by
  induction bs with
  | nil => rfl
  | cons b bs ih =>
      show List.lookup k ((b.1, b.2.down d) :: Bodies.down d bs) = _
      rw [List.lookup_cons, List.lookup_cons]
      split
      · rfl
      · exact ih

/-! ## No lines further down -/

mutual

/-- Without a shift the tree stays as it is. -/
theorem Part.down_zero : ∀ p : Part, p.down 0 = p
  | .literal _ | .escaped _ | .singleQuoted _ | .command none => rfl
  | .doubleQuoted ps => congrArg Part.doubleQuoted (Part.downAll_zero ps)
  | .param name op colon arg q => congrArg (Part.param name op colon · q) (Part.downAll_zero arg)
  | .command (some n) => congrArg (fun n => Part.command (some n)) n.down_zero
  | .arithmetic ps => congrArg Part.arithmetic (Part.downAll_zero ps)

theorem Part.downAll_zero : ∀ ps : List Part, Part.downAll 0 ps = ps
  | [] => rfl
  | p :: ps => congrArg₂ List.cons p.down_zero (Part.downAll_zero ps)

theorem Word.down_zero : ∀ w : Word, w.down 0 = w
  | .mk t ps l => congrArg (Word.mk t · l) (Part.downAll_zero ps)

theorem Word.downAll_zero : ∀ ws : List Word, Word.downAll 0 ws = ws
  | [] => rfl
  | w :: ws => congrArg₂ List.cons w.down_zero (Word.downAll_zero ws)

theorem Redirect.downAll_zero : ∀ rs : List Redirect, Redirect.downAll 0 rs = rs
  | [] => rfl
  | .word fd op w :: rs =>
      congrArg₂ List.cons (congrArg (Redirect.word fd op) w.down_zero) (Redirect.downAll_zero rs)
  | .hereDoc _ _ (.pending _) :: rs => congrArg (_ :: ·) (Redirect.downAll_zero rs)
  | .hereDoc fd op (.body w) :: rs =>
      congrArg₂ List.cons (congrArg (fun w => Redirect.hereDoc fd op (.body w)) w.down_zero)
        (Redirect.downAll_zero rs)

theorem CaseArm.downAll_zero : ∀ as : List CaseArm, CaseArm.downAll 0 as = as
  | [] => rfl
  | .mk ps none :: as =>
      congrArg₂ List.cons (congrArg (CaseArm.mk · none) (Word.downAll_zero ps))
        (CaseArm.downAll_zero as)
  | .mk ps (some n) :: as =>
      congrArg₂ List.cons
        (congrArg₂ (fun ps n => CaseArm.mk ps (some n)) (Word.downAll_zero ps) n.down_zero)
        (CaseArm.downAll_zero as)

theorem Node.down_zero : ∀ n : Node, n.down 0 = n
  | .mk c l => congrArg (Node.mk · l) c.down_zero

theorem Node.downAll_zero : ∀ ns : List Node, Node.downAll 0 ns = ns
  | [] => rfl
  | n :: ns => congrArg₂ List.cons n.down_zero (Node.downAll_zero ns)

theorem Command.down_zero : ∀ c : Command, c.down 0 = c
  | .simple as ws rs => by
      show Command.simple (Word.downAll 0 as) (Word.downAll 0 ws) (Redirect.downAll 0 rs) = _
      rw [Word.downAll_zero as, Word.downAll_zero ws, Redirect.downAll_zero rs]
  | .pipeline ns => congrArg Command.pipeline (Node.downAll_zero ns)
  | .not n => congrArg Command.not n.down_zero
  | .and l r => congrArg₂ Command.and l.down_zero r.down_zero
  | .or l r => congrArg₂ Command.or l.down_zero r.down_zero
  | .list l r => congrArg₂ Command.list l.down_zero r.down_zero
  | .background n => congrArg Command.background n.down_zero
  | .ifThen c t none => congrArg₂ (Command.ifThen · · none) c.down_zero t.down_zero
  | .ifThen c t (some e) => by
      show Command.ifThen (c.down 0) (t.down 0) (some (e.down 0)) = _
      rw [c.down_zero, t.down_zero, e.down_zero]
  | .whileDo c b => congrArg₂ Command.whileDo c.down_zero b.down_zero
  | .untilDo c b => congrArg₂ Command.untilDo c.down_zero b.down_zero
  | .forIn v none b => congrArg (Command.forIn v none) b.down_zero
  | .forIn v (some ws) b =>
      congrArg₂ (fun ws b => Command.forIn v (some ws) b) (Word.downAll_zero ws) b.down_zero
  | .caseOf w as => congrArg₂ Command.caseOf w.down_zero (CaseArm.downAll_zero as)
  | .subshell b rs => congrArg₂ Command.subshell b.down_zero (Redirect.downAll_zero rs)
  | .brace b => congrArg Command.brace b.down_zero
  | .redirected b rs => congrArg₂ Command.redirected b.down_zero (Redirect.downAll_zero rs)
  | .function name b => congrArg (Command.function name) b.down_zero

end

theorem Bodies.down_zero (bs : Bodies) : Bodies.down 0 bs = bs := by
  refine (List.map_congr_left fun b _ => ?_).trans (List.map_id bs)
  exact congrArg (b.1, ·) b.2.down_zero

/-! ## Here-documents -/

section

variable (bs : Bodies)

mutual

/-- Here-documents are filled in with bodies that were moved as the tree was. -/
theorem Part.fill_down : ∀ p : Part, (p.down d).fill (Bodies.down d bs) = (p.fill bs).down d
  | .literal _ | .escaped _ | .singleQuoted _ | .command none => rfl
  | .doubleQuoted ps => congrArg Part.doubleQuoted (Part.fillAll_down ps)
  | .param name op colon arg q => congrArg (Part.param name op colon · q) (Part.fillAll_down arg)
  | .command (some n) => congrArg (fun n => Part.command (some n)) n.fill_down
  | .arithmetic ps => congrArg Part.arithmetic (Part.fillAll_down ps)

theorem Part.fillAll_down :
    ∀ ps : List Part, Part.fillAll (Bodies.down d bs) (Part.downAll d ps) =
      Part.downAll d (Part.fillAll bs ps)
  | [] => rfl
  | p :: ps => by
      show (p.down d).fill _ :: Part.fillAll _ (Part.downAll d ps) = _
      rw [p.fill_down, Part.fillAll_down ps]
      rfl

theorem Word.fill_down : ∀ w : Word, (w.down d).fill (Bodies.down d bs) = (w.fill bs).down d
  | .mk t ps l => congrArg (Word.mk t · (l + d)) (Part.fillAll_down ps)

theorem Word.fillAll_down :
    ∀ ws : List Word, Word.fillAll (Bodies.down d bs) (Word.downAll d ws) =
      Word.downAll d (Word.fillAll bs ws)
  | [] => rfl
  | w :: ws => by
      show (w.down d).fill _ :: Word.fillAll _ (Word.downAll d ws) = _
      rw [w.fill_down, Word.fillAll_down ws]
      rfl

theorem Redirect.fillAll_down : ∀ rs : List Redirect,
    Redirect.fillAll (Bodies.down d bs) (Redirect.downAll d rs) =
      Redirect.downAll d (Redirect.fillAll bs rs)
  | [] => rfl
  | .word fd op w :: rs => by
      show .word fd op ((w.down d).fill _) :: Redirect.fillAll _ (Redirect.downAll d rs) = _
      rw [w.fill_down, Redirect.fillAll_down rs]
      rfl
  | .hereDoc fd op (.pending k) :: rs => by
      show Redirect.hereDoc fd op (match (Bodies.down d bs).lookup k with
        | some w => .body w
        | none => .pending k) :: Redirect.fillAll _ (Redirect.downAll d rs) = _
      rw [Bodies.lookup_down bs, Redirect.fillAll_down rs, Redirect.fillAll]
      cases bs.lookup k <;> rfl
  | .hereDoc fd op (.body w) :: rs =>
      congrArg (Redirect.hereDoc fd op (.body (w.down d)) :: ·) (Redirect.fillAll_down rs)

theorem CaseArm.fillAll_down : ∀ as : List CaseArm,
    CaseArm.fillAll (Bodies.down d bs) (CaseArm.downAll d as) =
      CaseArm.downAll d (CaseArm.fillAll bs as)
  | [] => rfl
  | .mk ps none :: as => by
      show CaseArm.mk (Word.fillAll _ (Word.downAll d ps)) none ::
        CaseArm.fillAll _ (CaseArm.downAll d as) = _
      rw [Word.fillAll_down ps, CaseArm.fillAll_down as]
      rfl
  | .mk ps (some n) :: as => by
      show CaseArm.mk (Word.fillAll _ (Word.downAll d ps)) (some ((n.down d).fill _)) ::
        CaseArm.fillAll _ (CaseArm.downAll d as) = _
      rw [Word.fillAll_down ps, n.fill_down, CaseArm.fillAll_down as]
      rfl

theorem Node.fill_down : ∀ n : Node, (n.down d).fill (Bodies.down d bs) = (n.fill bs).down d
  | .mk c l => congrArg (Node.mk · (l + d)) c.fill_down

theorem Node.fillAll_down :
    ∀ ns : List Node, Node.fillAll (Bodies.down d bs) (Node.downAll d ns) =
      Node.downAll d (Node.fillAll bs ns)
  | [] => rfl
  | n :: ns => by
      show (n.down d).fill _ :: Node.fillAll _ (Node.downAll d ns) = _
      rw [n.fill_down, Node.fillAll_down ns]
      rfl

theorem Command.fill_down : ∀ c : Command, (c.down d).fill (Bodies.down d bs) = (c.fill bs).down d
  | .simple as ws rs => by
      show Command.simple (Word.fillAll _ (Word.downAll d as)) (Word.fillAll _ (Word.downAll d ws))
        (Redirect.fillAll _ (Redirect.downAll d rs)) = _
      rw [Word.fillAll_down as, Word.fillAll_down ws, Redirect.fillAll_down rs]
      rfl
  | .pipeline ns => congrArg Command.pipeline (Node.fillAll_down ns)
  | .not n => congrArg Command.not n.fill_down
  | .and l r => congrArg₂ Command.and l.fill_down r.fill_down
  | .or l r => congrArg₂ Command.or l.fill_down r.fill_down
  | .list l r => congrArg₂ Command.list l.fill_down r.fill_down
  | .background n => congrArg Command.background n.fill_down
  | .ifThen c t none => congrArg₂ (Command.ifThen · · none) c.fill_down t.fill_down
  | .ifThen c t (some e) => by
      show Command.ifThen ((c.down d).fill _) ((t.down d).fill _) (some ((e.down d).fill _)) = _
      rw [c.fill_down, t.fill_down, e.fill_down]
      rfl
  | .whileDo c b => congrArg₂ Command.whileDo c.fill_down b.fill_down
  | .untilDo c b => congrArg₂ Command.untilDo c.fill_down b.fill_down
  | .forIn v none b => congrArg (Command.forIn v none) b.fill_down
  | .forIn v (some ws) b => by
      show Command.forIn v (some (Word.fillAll _ (Word.downAll d ws))) ((b.down d).fill _) = _
      rw [Word.fillAll_down ws, b.fill_down]
      rfl
  | .caseOf w as => by
      show Command.caseOf ((w.down d).fill _) (CaseArm.fillAll _ (CaseArm.downAll d as)) = _
      rw [w.fill_down, CaseArm.fillAll_down as]
      rfl
  | .subshell b rs => by
      show Command.subshell ((b.down d).fill _) (Redirect.fillAll _ (Redirect.downAll d rs)) = _
      rw [b.fill_down, Redirect.fillAll_down rs]
      rfl
  | .brace b => congrArg Command.brace b.fill_down
  | .redirected b rs => by
      show Command.redirected ((b.down d).fill _) (Redirect.fillAll _ (Redirect.downAll d rs)) = _
      rw [b.fill_down, Redirect.fillAll_down rs]
      rfl
  | .function name b => congrArg (Command.function name) b.fill_down

end

end

end CommandShell.Script
