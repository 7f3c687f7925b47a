import CommandShell.Script.Grammar

/-!
# Conditions on all commands of a tree

`Node.Every` says of all commands in a tree that a condition holds of them: of those in its words
and in the bodies of its here-documents too. The condition is told which commands stand in the body
of a here-document, since what is read there is read by itself.

Filling in here-documents carries a condition from the tree over to the complete one, if it holds in
the bodies that are filled in (`Node.Every.fill`). Filled in with nothing a tree stays as it is, so
that this also weakens the condition (`Node.Every.mono`).
-/

namespace CommandShell.Script

/-! ## All commands -/

section

variable (P : Bool → Node → Prop)

mutual

/-- `P` holds of all commands in a part. It is told whether they stand in a here-document. -/
def Part.Every (inDoc : Bool) : Part → Prop
  | .literal _ | .escaped _ | .singleQuoted _ | .command none => True
  | .doubleQuoted ps => Part.EveryOf inDoc ps
  | .param _ _ _ arg _ => Part.EveryOf inDoc arg
  | .command (some n) => n.Every inDoc
  | .arithmetic ps => Part.EveryOf inDoc ps

/-- `P` holds of all commands in the parts. -/
def Part.EveryOf (inDoc : Bool) : List Part → Prop
  | [] => True
  | p :: ps => p.Every inDoc ∧ Part.EveryOf inDoc ps

/-- `P` holds of all commands in a word. -/
def Word.Every (inDoc : Bool) : Word → Prop
  | .mk _ ps _ => Part.EveryOf inDoc ps

/-- `P` holds of all commands in the words. -/
def Word.EveryOf (inDoc : Bool) : List Word → Prop
  | [] => True
  | w :: ws => w.Every inDoc ∧ Word.EveryOf inDoc ws

/-- `P` holds of all commands in a redirection. -/
def Redirect.Every (inDoc : Bool) : Redirect → Prop
  | .word _ _ w => w.Every inDoc
  | .hereDoc _ _ (.pending _) => True
  | .hereDoc _ _ (.body w) => w.Every true

/-- `P` holds of all commands in the redirections. -/
def Redirect.EveryOf (inDoc : Bool) : List Redirect → Prop
  | [] => True
  | r :: rs => r.Every inDoc ∧ Redirect.EveryOf inDoc rs

/-- `P` holds of all commands in the arm of a `case`. -/
def CaseArm.Every (inDoc : Bool) : CaseArm → Prop
  | .mk ps none => Word.EveryOf inDoc ps
  | .mk ps (some n) => Word.EveryOf inDoc ps ∧ n.Every inDoc

/-- `P` holds of all commands in the arms of a `case`. -/
def CaseArm.EveryOf (inDoc : Bool) : List CaseArm → Prop
  | [] => True
  | a :: as => a.Every inDoc ∧ CaseArm.EveryOf inDoc as

/-- `P` holds of a command and of all commands in it. -/
def Node.Every (inDoc : Bool) : Node → Prop
  | .mk c l => P inDoc (.mk c l) ∧ c.Every inDoc

/-- `P` holds of the commands and of all commands in them. -/
def Node.EveryOf (inDoc : Bool) : List Node → Prop
  | [] => True
  | n :: ns => n.Every inDoc ∧ Node.EveryOf inDoc ns

/-- `P` holds of all commands in a command of some kind. -/
def Command.Every (inDoc : Bool) : Command → Prop
  | .simple as ws rs => Word.EveryOf inDoc as ∧ Word.EveryOf inDoc ws ∧ Redirect.EveryOf inDoc rs
  | .pipeline ns => Node.EveryOf inDoc ns
  | .not n => n.Every inDoc
  | .and l r => l.Every inDoc ∧ r.Every inDoc
  | .or l r => l.Every inDoc ∧ r.Every inDoc
  | .list l r => l.Every inDoc ∧ r.Every inDoc
  | .background n => n.Every inDoc
  | .ifThen c t none => c.Every inDoc ∧ t.Every inDoc
  | .ifThen c t (some e) => c.Every inDoc ∧ t.Every inDoc ∧ e.Every inDoc
  | .whileDo c b => c.Every inDoc ∧ b.Every inDoc
  | .untilDo c b => c.Every inDoc ∧ b.Every inDoc
  | .forIn _ none b => b.Every inDoc
  | .forIn _ (some ws) b => Word.EveryOf inDoc ws ∧ b.Every inDoc
  | .caseOf w as => w.Every inDoc ∧ CaseArm.EveryOf inDoc as
  | .subshell b rs => b.Every inDoc ∧ Redirect.EveryOf inDoc rs
  | .brace b => b.Every inDoc
  | .redirected b rs => b.Every inDoc ∧ Redirect.EveryOf inDoc rs
  | .function _ b => b.Every inDoc

end

end

/-! ## Here-documents that are not there -/

mutual

/-- Without bodies nothing is filled in. -/
theorem Part.fill_nil : ∀ p : Part, p.fill [] = p
  | .literal _ | .escaped _ | .singleQuoted _ | .command none => rfl
  | .doubleQuoted ps => congrArg Part.doubleQuoted (Part.fillAll_nil ps)
  | .param name op colon arg q => congrArg (Part.param name op colon · q) (Part.fillAll_nil arg)
  | .command (some n) => congrArg (fun n => Part.command (some n)) n.fill_nil
  | .arithmetic ps => congrArg Part.arithmetic (Part.fillAll_nil ps)

theorem Part.fillAll_nil : ∀ ps : List Part, Part.fillAll [] ps = ps
  | [] => rfl
  | p :: ps => by
      show p.fill [] :: Part.fillAll [] ps = _
      rw [p.fill_nil, Part.fillAll_nil ps]

theorem Word.fill_nil : ∀ w : Word, w.fill [] = w
  | .mk t ps l => congrArg (Word.mk t · l) (Part.fillAll_nil ps)

theorem Word.fillAll_nil : ∀ ws : List Word, Word.fillAll [] ws = ws
  | [] => rfl
  | w :: ws => by
      show w.fill [] :: Word.fillAll [] ws = _
      rw [w.fill_nil, Word.fillAll_nil ws]

theorem Redirect.fillAll_nil : ∀ rs : List Redirect, Redirect.fillAll [] rs = rs
  | [] => rfl
  | .word fd op w :: rs => by
      show .word fd op (w.fill []) :: Redirect.fillAll [] rs = _
      rw [w.fill_nil, Redirect.fillAll_nil rs]
  | .hereDoc fd op (.pending k) :: rs =>
      congrArg (Redirect.hereDoc fd op (.pending k) :: ·) (Redirect.fillAll_nil rs)
  | .hereDoc fd op (.body w) :: rs =>
      congrArg (Redirect.hereDoc fd op (.body w) :: ·) (Redirect.fillAll_nil rs)

theorem CaseArm.fillAll_nil : ∀ as : List CaseArm, CaseArm.fillAll [] as = as
  | [] => rfl
  | .mk ps none :: as => by
      show CaseArm.mk (Word.fillAll [] ps) none :: CaseArm.fillAll [] as = _
      rw [Word.fillAll_nil ps, CaseArm.fillAll_nil as]
  | .mk ps (some n) :: as => by
      show CaseArm.mk (Word.fillAll [] ps) (some (n.fill [])) :: CaseArm.fillAll [] as = _
      rw [Word.fillAll_nil ps, n.fill_nil, CaseArm.fillAll_nil as]

theorem Node.fill_nil : ∀ n : Node, n.fill [] = n
  | .mk c l => congrArg (Node.mk · l) c.fill_nil

theorem Node.fillAll_nil : ∀ ns : List Node, Node.fillAll [] ns = ns
  | [] => rfl
  | n :: ns => by
      show n.fill [] :: Node.fillAll [] ns = _
      rw [n.fill_nil, Node.fillAll_nil ns]

theorem Command.fill_nil : ∀ c : Command, c.fill [] = c
  | .simple as ws rs => by
      show Command.simple (Word.fillAll [] as) (Word.fillAll [] ws) (Redirect.fillAll [] rs) = _
      rw [Word.fillAll_nil as, Word.fillAll_nil ws, Redirect.fillAll_nil rs]
  | .pipeline ns => congrArg Command.pipeline (Node.fillAll_nil ns)
  | .not n => congrArg Command.not n.fill_nil
  | .and l r => congr (congrArg Command.and l.fill_nil) r.fill_nil
  | .or l r => congr (congrArg Command.or l.fill_nil) r.fill_nil
  | .list l r => congr (congrArg Command.list l.fill_nil) r.fill_nil
  | .background n => congrArg Command.background n.fill_nil
  | .ifThen c t none => congrArg (· none) (congr (congrArg Command.ifThen c.fill_nil) t.fill_nil)
  | .ifThen c t (some e) => by
      show Command.ifThen (c.fill []) (t.fill []) (some (e.fill [])) = _
      rw [c.fill_nil, t.fill_nil, e.fill_nil]
  | .whileDo c b => congr (congrArg Command.whileDo c.fill_nil) b.fill_nil
  | .untilDo c b => congr (congrArg Command.untilDo c.fill_nil) b.fill_nil
  | .forIn v none b => congrArg (Command.forIn v none) b.fill_nil
  | .forIn v (some ws) b => by
      show Command.forIn v (some (Word.fillAll [] ws)) (b.fill []) = _
      rw [Word.fillAll_nil ws, b.fill_nil]
  | .caseOf w as => by
      show Command.caseOf (w.fill []) (CaseArm.fillAll [] as) = _
      rw [w.fill_nil, CaseArm.fillAll_nil as]
  | .subshell b rs => by
      show Command.subshell (b.fill []) (Redirect.fillAll [] rs) = _
      rw [b.fill_nil, Redirect.fillAll_nil rs]
  | .brace b => congrArg Command.brace b.fill_nil
  | .redirected b rs => by
      show Command.redirected (b.fill []) (Redirect.fillAll [] rs) = _
      rw [b.fill_nil, Redirect.fillAll_nil rs]
  | .function name b => congrArg (Command.function name) b.fill_nil

end

/-! ## Conditions and here-documents -/

/-- Filling in the bodies takes the condition `P` to `Q`, and `Q` holds in the bodies. -/
structure Carries (bs : Bodies) (P Q : Bool → Node → Prop) (inDoc inDoc' : Bool) : Prop where
  fill : ∀ n, P inDoc n → Q inDoc' (n.fill bs)
  inDoc : ∀ n, P true n → Q true n
  bodies : ∀ b ∈ bs, b.2.Every Q true

section

variable {P Q : Bool → Node → Prop}

/-- In the body of a here-document that is there already nothing is filled in. -/
theorem Carries.document {bs : Bodies} {d d' : Bool}
    (h : Carries bs P Q d d') : Carries [] P Q true true where
  fill n hn := n.fill_nil.symm ▸ h.inDoc n hn
  inDoc := h.inDoc
  bodies _ hb := nomatch hb

/-- The body with a ticket. -/
theorem mem_of_lookup {bs : Bodies} {k : Nat} {w : Word} (h : bs.lookup k = some w) :
    (k, w) ∈ bs := by
  induction bs with
  | nil => exact nomatch h
  | cons b bs ih =>
      rw [List.lookup_cons] at h
      split at h
      · rename_i hk
        obtain rfl := Option.some.inj h
        exact List.mem_cons.mpr (.inl (by rw [beq_iff_eq.mp hk]))
      · exact List.mem_cons_of_mem _ (ih h)

mutual

theorem Part.Every.fill {bs : Bodies} {d d' : Bool} (h : Carries bs P Q d d') :
    ∀ {p : Part}, p.Every P d → (p.fill bs).Every Q d'
  | .literal _, _ | .escaped _, _ | .singleQuoted _, _ | .command none, _ => trivial
  | .doubleQuoted _, hp | .param .., hp | .arithmetic _, hp => Part.EveryOf.fill h hp
  | .command (some _), hp => Node.Every.fill h hp

theorem Part.EveryOf.fill {bs : Bodies} {d d' : Bool} (h : Carries bs P Q d d') :
    ∀ {ps : List Part}, Part.EveryOf P d ps → Part.EveryOf Q d' (Part.fillAll bs ps)
  | [], _ => trivial
  | _ :: _, hps => ⟨Part.Every.fill h hps.1, Part.EveryOf.fill h hps.2⟩

theorem Word.Every.fill {bs : Bodies} {d d' : Bool} (h : Carries bs P Q d d') :
    ∀ {w : Word}, w.Every P d → (w.fill bs).Every Q d'
  | .mk .., hw => Part.EveryOf.fill h hw

theorem Word.EveryOf.fill {bs : Bodies} {d d' : Bool} (h : Carries bs P Q d d') :
    ∀ {ws : List Word}, Word.EveryOf P d ws → Word.EveryOf Q d' (Word.fillAll bs ws)
  | [], _ => trivial
  | _ :: _, hws => ⟨Word.Every.fill h hws.1, Word.EveryOf.fill h hws.2⟩

theorem Redirect.EveryOf.fill {bs : Bodies} {d d' : Bool} (h : Carries bs P Q d d') :
    ∀ {rs : List Redirect}, Redirect.EveryOf P d rs → Redirect.EveryOf Q d' (Redirect.fillAll bs rs)
  | [], _ => trivial
  | .word .. :: _, hrs => ⟨Word.Every.fill h hrs.1, Redirect.EveryOf.fill h hrs.2⟩
  | .hereDoc _ _ (.pending k) :: _, hrs => by
      refine ⟨?_, Redirect.EveryOf.fill h hrs.2⟩
      cases hk : bs.lookup k with
      | none => exact trivial
      | some w => exact h.bodies _ (mem_of_lookup hk)
  | .hereDoc _ _ (.body w) :: _, hrs => by
      refine ⟨?_, Redirect.EveryOf.fill h hrs.2⟩
      have hw := Word.Every.fill h.document hrs.1
      rwa [w.fill_nil] at hw

theorem CaseArm.EveryOf.fill {bs : Bodies} {d d' : Bool} (h : Carries bs P Q d d') :
    ∀ {as : List CaseArm}, CaseArm.EveryOf P d as → CaseArm.EveryOf Q d' (CaseArm.fillAll bs as)
  | [], _ => trivial
  | .mk _ none :: _, has => ⟨Word.EveryOf.fill h has.1, CaseArm.EveryOf.fill h has.2⟩
  | .mk _ (some _) :: _, has =>
      ⟨⟨Word.EveryOf.fill h has.1.1, Node.Every.fill h has.1.2⟩, CaseArm.EveryOf.fill h has.2⟩

/-- The condition holds of the complete command. -/
theorem Node.Every.fill {bs : Bodies} {d d' : Bool} (h : Carries bs P Q d d') :
    ∀ {n : Node}, n.Every P d → (n.fill bs).Every Q d'
  | .mk .., hn => ⟨h.fill _ hn.1, Command.Every.fill h hn.2⟩

theorem Node.EveryOf.fill {bs : Bodies} {d d' : Bool} (h : Carries bs P Q d d') :
    ∀ {ns : List Node}, Node.EveryOf P d ns → Node.EveryOf Q d' (Node.fillAll bs ns)
  | [], _ => trivial
  | _ :: _, hns => ⟨Node.Every.fill h hns.1, Node.EveryOf.fill h hns.2⟩

theorem Command.Every.fill {bs : Bodies} {d d' : Bool} (h : Carries bs P Q d d') :
    ∀ {c : Command}, c.Every P d → (c.fill bs).Every Q d'
  | .simple .., hc =>
      ⟨Word.EveryOf.fill h hc.1, Word.EveryOf.fill h hc.2.1, Redirect.EveryOf.fill h hc.2.2⟩
  | .pipeline _, hc => Node.EveryOf.fill h hc
  | .not _, hc | .background _, hc | .brace _, hc | .function .., hc | .forIn _ none _, hc =>
      Node.Every.fill h hc
  | .and .., hc | .or .., hc | .list .., hc | .whileDo .., hc | .untilDo .., hc
  | .ifThen _ _ none, hc => ⟨Node.Every.fill h hc.1, Node.Every.fill h hc.2⟩
  | .ifThen _ _ (some _), hc =>
      ⟨Node.Every.fill h hc.1, Node.Every.fill h hc.2.1, Node.Every.fill h hc.2.2⟩
  | .forIn _ (some _) _, hc => ⟨Word.EveryOf.fill h hc.1, Node.Every.fill h hc.2⟩
  | .caseOf .., hc => ⟨Word.Every.fill h hc.1, CaseArm.EveryOf.fill h hc.2⟩
  | .subshell .., hc | .redirected .., hc =>
      ⟨Node.Every.fill h hc.1, Redirect.EveryOf.fill h hc.2⟩

end

/-! ## Weaker conditions -/

theorem Carries.of_imp {d d' : Bool} (h : ∀ n, P d n → Q d' n) (hdoc : ∀ n, P true n → Q true n) :
    Carries [] P Q d d' where
  fill n hn := n.fill_nil.symm ▸ h n hn
  inDoc := hdoc
  bodies _ hb := nomatch hb

variable {d d' : Bool} (h : ∀ n, P d n → Q d' n) (hdoc : ∀ n, P true n → Q true n)
include h hdoc

theorem Part.EveryOf.mono {ps : List Part} (hps : Part.EveryOf P d ps) : Part.EveryOf Q d' ps :=
  Part.fillAll_nil ps ▸ hps.fill (.of_imp h hdoc)

theorem Word.Every.mono {w : Word} (hw : w.Every P d) : w.Every Q d' :=
  w.fill_nil ▸ hw.fill (.of_imp h hdoc)

theorem Word.EveryOf.mono {ws : List Word} (hws : Word.EveryOf P d ws) : Word.EveryOf Q d' ws :=
  Word.fillAll_nil ws ▸ hws.fill (.of_imp h hdoc)

theorem Redirect.EveryOf.mono {rs : List Redirect} (hrs : Redirect.EveryOf P d rs) :
    Redirect.EveryOf Q d' rs :=
  Redirect.fillAll_nil rs ▸ hrs.fill (.of_imp h hdoc)

theorem CaseArm.EveryOf.mono {as : List CaseArm} (has : CaseArm.EveryOf P d as) :
    CaseArm.EveryOf Q d' as :=
  CaseArm.fillAll_nil as ▸ has.fill (.of_imp h hdoc)

/-- A condition that holds of all commands may be weakened. -/
theorem Node.Every.mono {n : Node} (hn : n.Every P d) : n.Every Q d' :=
  n.fill_nil ▸ hn.fill (.of_imp h hdoc)

theorem Node.EveryOf.mono {ns : List Node} (hns : Node.EveryOf P d ns) : Node.EveryOf Q d' ns :=
  Node.fillAll_nil ns ▸ hns.fill (.of_imp h hdoc)

end

/-- A condition that does not ask for the place holds elsewhere too. -/
theorem Word.Every.elsewhere {P : Node → Prop} {d d' : Bool} {w : Word}
    (hw : w.Every (fun _ => P) d) : w.Every (fun _ => P) d' :=
  hw.mono (Q := fun _ => P) (fun _ hn => hn) fun _ hn => hn

end CommandShell.Script
