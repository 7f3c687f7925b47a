import CommandShell.Proofs.Grammar
import CommandShell.Proofs.Trees

/-!
# Which commands stand where

Not every tree is that of a script: the stages of a pipeline are no pipelines themselves, a
redirection after a command needs a compound command before it, and what is assigned has a name.
`Node.WellFormed` says so of a single command, and filling in here-documents does not change it.
-/

namespace CommandShell.Script

/-- The kinds of commands, as far as they decide what may stand where. -/
inductive Shape where
  | simple | function | subshell
  /-- `if`, a loop, `case` or braces. -/
  | compound
  /-- A compound command with redirections after it. -/
  | redirected
  | pipeline | not
  /-- Commands joined by `&&` or `||`. -/
  | andOr
  | list | background
  deriving DecidableEq, Repr

namespace Shape

/-- What may be a stage of a pipeline. -/
def isCommand : Shape → Bool
  | simple | function | subshell | compound | redirected => true
  | _ => false

/-- What may stand after `!`. -/
def isStages (s : Shape) : Bool := s.isCommand || s == pipeline

/-- What may stand on the right of `&&` and `||`. -/
def isPipeline (s : Shape) : Bool := s.isStages || s == not

/-- What may run in the background. -/
def isAndOr (s : Shape) : Bool := s.isPipeline || s == andOr

/-- What may be the body of a function. -/
def isBody : Shape → Bool
  | subshell | compound | redirected => true
  | _ => false

theorem isCommand_of_isBody {s : Shape} (h : s.isBody = true) : s.isCommand = true := by
  cases s with
  | subshell => rfl
  | compound => rfl
  | redirected => rfl
  | _ => exact nomatch h

theorem isStages_of_isCommand {s : Shape} (h : s.isCommand = true) : s.isStages = true :=
  Bool.or_eq_true_iff.mpr (.inl h)

theorem isPipeline_of_isStages {s : Shape} (h : s.isStages = true) : s.isPipeline = true :=
  Bool.or_eq_true_iff.mpr (.inl h)

theorem isAndOr_of_isPipeline {s : Shape} (h : s.isPipeline = true) : s.isAndOr = true :=
  Bool.or_eq_true_iff.mpr (.inl h)

end Shape

/-- The kind of a command. -/
def Node.shape (n : Node) : Shape :=
  match n.command with
  | .simple .. => .simple
  | .pipeline _ => .pipeline
  | .not _ => .not
  | .and .. | .or .. => .andOr
  | .list .. => .list
  | .background _ => .background
  | .ifThen .. | .whileDo .. | .untilDo .. | .forIn .. | .caseOf .. | .brace _ => .compound
  | .subshell .. => .subshell
  | .redirected .. => .redirected
  | .function .. => .function

/-- The redirections that are written after a command. -/
def Node.redirects (n : Node) : List Redirect :=
  match n.command with
  | .simple _ _ rs | .subshell _ rs | .redirected _ rs => rs
  | _ => []

/-- Whether a redirection is from a here-document. -/
def Redirect.isHereDoc : Redirect → Bool
  | .word .. => false
  | .hereDoc .. => true

/-- The word starts with a name and `=`, unquoted. -/
def Word.Assigns (w : Word) : Prop :=
  ∃ name value ps, w.parts = .literal (name ++ '=' :: value) :: ps ∧ Text.isName name = true

/-- What a command is made of may stand there. -/
def Command.WellFormed : Command → Prop
  | .simple as ws rs => (as ≠ [] ∨ ws ≠ [] ∨ rs ≠ []) ∧ ∀ w ∈ as, w.Assigns
  | .pipeline ns => 2 ≤ ns.length ∧ ∀ n ∈ ns, n.shape.isCommand = true
  | .not n => n.shape.isStages = true
  | .and _ r | .or _ r => r.shape.isPipeline = true
  | .background n => n.shape.isAndOr = true
  | .redirected n rs => n.shape = .compound ∧ rs ≠ []
  | .function name n => Text.isName name = true ∧ n.shape.isBody = true
  | .caseOf _ as => ∀ ps body, .mk ps body ∈ as → ps ≠ []
  | _ => True

/-- A command is made of what may stand in it, and its redirections are from here-documents where
their operators say so. -/
structure Node.WellFormed (n : Node) : Prop where
  command : n.command.WellFormed
  redirects : ∀ r ∈ n.redirects, r.isHereDoc = r.op.isHereDoc

/-! ## Filling in here-documents -/

section

variable (bs : Bodies)

theorem Word.fillAll_eq_map (ws : List Word) : Word.fillAll bs ws = ws.map (Word.fill bs) := by
  induction ws with
  | nil => rfl
  | cons w ws ih => exact congrArg (w.fill bs :: ·) ih

theorem Node.fillAll_eq_map (ns : List Node) : Node.fillAll bs ns = ns.map (Node.fill bs) := by
  induction ns with
  | nil => rfl
  | cons n ns ih => exact congrArg (n.fill bs :: ·) ih

theorem Part.fillAll_cons (p : Part) (ps : List Part) :
    Part.fillAll bs (p :: ps) = p.fill bs :: Part.fillAll bs ps := rfl

/-- A redirection is filled in by itself. -/
def Redirect.fill (r : Redirect) : Redirect := (Redirect.fillAll bs [r]).headD r

theorem Redirect.fillAll_eq_map (rs : List Redirect) :
    Redirect.fillAll bs rs = rs.map (Redirect.fill bs) := by
  induction rs with
  | nil => rfl
  | cons r rs ih =>
      match r with
      | .word fd op w => exact congrArg (Redirect.fill bs (.word fd op w) :: ·) ih
      | .hereDoc fd op (.pending k) =>
          exact congrArg (Redirect.fill bs (.hereDoc fd op (.pending k)) :: ·) ih
      | .hereDoc fd op (.body w) =>
          exact congrArg (Redirect.fill bs (.hereDoc fd op (.body w)) :: ·) ih

theorem Redirect.fill_facts (r : Redirect) :
    (r.fill bs).isHereDoc = r.isHereDoc ∧ (r.fill bs).op = r.op := by
  match r with
  | .word .. => exact ⟨rfl, rfl⟩
  | .hereDoc _ _ (.pending _) => exact ⟨rfl, rfl⟩
  | .hereDoc _ _ (.body _) => exact ⟨rfl, rfl⟩

@[simp] theorem Node.shape_fill (n : Node) : (n.fill bs).shape = n.shape := by
  obtain ⟨c, l⟩ := n
  cases c with
  | ifThen cond body rest => cases rest <;> rfl
  | forIn var items body => cases items <;> rfl
  | _ => rfl

theorem Node.redirects_fill (n : Node) :
    (n.fill bs).redirects = n.redirects.map (Redirect.fill bs) := by
  rw [← Redirect.fillAll_eq_map]
  obtain ⟨c, l⟩ := n
  cases c with
  | ifThen cond body rest => cases rest <;> rfl
  | forIn var items body => cases items <;> rfl
  | _ => rfl

theorem Word.Assigns.fill {w : Word} (h : w.Assigns) : (w.fill bs).Assigns := by
  obtain ⟨t, ps, l⟩ := w
  obtain ⟨name, value, ps', hps, hname⟩ := h
  obtain rfl : ps = .literal (name ++ '=' :: value) :: ps' := hps
  exact ⟨name, value, Part.fillAll bs ps', rfl, hname⟩

theorem CaseArm.fillAll_cons (ps : List Word) (body : Option Node) (as : List CaseArm) :
    ∃ body', CaseArm.fillAll bs (.mk ps body :: as) =
      .mk (ps.map (Word.fill bs)) body' :: CaseArm.fillAll bs as := by
  rw [← Word.fillAll_eq_map]
  cases body with
  | none => exact ⟨none, rfl⟩
  | some n => exact ⟨some (n.fill bs), rfl⟩

theorem CaseArm.exists_of_mem_fillAll {as : List CaseArm} {ps : List Word} {body : Option Node}
    (h : CaseArm.mk ps body ∈ CaseArm.fillAll bs as) :
    ∃ qs body', .mk qs body' ∈ as ∧ ps = qs.map (Word.fill bs) := by
  induction as with
  | nil => exact nomatch h
  | cons a as ih =>
      obtain ⟨qs, body'⟩ := a
      obtain ⟨body'', heq⟩ := CaseArm.fillAll_cons bs qs body' as
      rw [heq] at h
      rcases List.mem_cons.mp h with hfirst | h
      · exact ⟨qs, body', List.mem_cons_self, (CaseArm.mk.inj hfirst).1⟩
      · obtain ⟨rs, body', hmem, hps⟩ := ih h
        exact ⟨rs, body', List.mem_cons_of_mem _ hmem, hps⟩

theorem Command.WellFormed.fill {c : Command} (h : c.WellFormed) : (c.fill bs).WellFormed := by
  match c with
  | .simple as ws rs =>
      obtain ⟨hne, has⟩ := h
      refine ⟨?_, fun w hw => ?_⟩
      · simpa [Word.fillAll_eq_map, Redirect.fillAll_eq_map] using hne
      · rw [Word.fillAll_eq_map] at hw
        obtain ⟨v, hv, rfl⟩ := List.mem_map.mp hw
        exact (has v hv).fill bs
  | .pipeline ns =>
      obtain ⟨hlength, hstages⟩ := h
      refine ⟨by simpa [Node.fillAll_eq_map] using hlength, fun n hn => ?_⟩
      rw [Node.fillAll_eq_map] at hn
      obtain ⟨m, hm, rfl⟩ := List.mem_map.mp hn
      simpa using hstages m hm
  | .not n => exact (congrArg Shape.isStages (n.shape_fill bs)).trans h
  | .and _ r | .or _ r => exact (congrArg Shape.isPipeline (r.shape_fill bs)).trans h
  | .background n => exact (congrArg Shape.isAndOr (n.shape_fill bs)).trans h
  | .redirected n rs =>
      exact ⟨(n.shape_fill bs).trans h.1, by simpa [Redirect.fillAll_eq_map] using h.2⟩
  | .function name n => exact ⟨h.1, (congrArg Shape.isBody (n.shape_fill bs)).trans h.2⟩
  | .caseOf w as =>
      intro ps body hmem
      obtain ⟨qs, body', hqs, rfl⟩ := CaseArm.exists_of_mem_fillAll bs hmem
      simpa using h qs body' hqs
  | .list .. | .ifThen _ _ none | .ifThen _ _ (some _) | .whileDo .. | .untilDo .. => trivial
  | .forIn _ none _ | .forIn _ (some _) _ | .subshell .. | .brace _ => trivial

/-- Filling in here-documents does not change where commands stand. -/
theorem Node.WellFormed.fill {n : Node} (h : n.WellFormed) : (n.fill bs).WellFormed where
  command := by
    obtain ⟨c, l⟩ := n
    exact Command.WellFormed.fill bs h.command
  redirects r hr := by
    rw [n.redirects_fill] at hr
    obtain ⟨s, hs, rfl⟩ := List.mem_map.mp hr
    obtain ⟨hdoc, hop⟩ := s.fill_facts bs
    rw [hdoc, hop]
    exact h.redirects s hs

end

end CommandShell.Script
