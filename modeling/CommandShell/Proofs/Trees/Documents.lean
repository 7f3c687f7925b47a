import CommandShell.Proofs.Reading
import CommandShell.Proofs.Trees.Shapes

/-!
# Which here-documents are filled in

The bodies of here-documents are read by the reader that found their operators. The body of a
here-document has a reader of its own, which stops at the end of the body. If it then still waits
for a here-document (`Word.LeavesNothing` does not hold), that one is never read; all others are
filled in (`Node.Every.filled`).

A tree that is being read is sound (`Node.Sound`) if its commands are well-formed and its open
here-documents are known, by tickets below some bound. It is complete when there are none.
-/

namespace CommandShell.Script

/-- The redirection does not wait for a here-document. -/
def Redirect.IsFilled : Redirect → Prop
  | .hereDoc _ _ (.pending _) => False
  | _ => True

/-- No redirection after the command waits for its here-document. -/
def Node.IsFilled (n : Node) : Prop := ∀ r ∈ n.redirects, r.IsFilled

/-- A body of a here-document is either quoted, or no here-document is waited for when it has been
read, in the text of whatever aliases it stood. -/
def Word.LeavesNothing (aliases : Table Text) (w : Word) : Prop :=
  w.parts = [.singleQuoted w.text] ∨ ∀ within expanded n ps j,
    (readParts .hereDoc w.line n 0 []).on
      { Input.ofText w.text w.line aliases with within, expanded } = (.ok ps, j) → j.pending = []

/-- The here-documents after the command leave nothing. -/
def Node.DocsLeaveNothing (aliases : Table Text) (n : Node) : Prop :=
  ∀ fd op w, .hereDoc fd op (.body w) ∈ n.redirects → w.LeavesNothing aliases

/-- All here-documents in a body are filled in, if it and they leave nothing. -/
def Word.Settles (aliases : Table Text) (w : Word) : Prop :=
  w.LeavesNothing aliases → w.Every (fun _ n => n.DocsLeaveNothing aliases) true →
    w.Every (fun _ n => n.IsFilled) true

/-- The redirection waits for a here-document with a ticket below `t`, or its body settles. -/
def Redirect.Awaits (aliases : Table Text) (t : Nat) : Redirect → Prop
  | .word .. => True
  | .hereDoc _ _ (.pending k) => k < t
  | .hereDoc _ _ (.body w) => w.Settles aliases

/-- A command is well-formed, and outside of here-documents it waits for none with a ticket from `t`
on. -/
structure Node.SoundAt (aliases : Table Text) (t : Nat) (inDoc : Bool) (n : Node) : Prop where
  wellFormed : n.WellFormed
  awaits : inDoc = false → ∀ r ∈ n.redirects, r.Awaits aliases t

section

variable (aliases : Table Text) (t : Nat)

/-- All commands in the part are sound. -/
abbrev Part.Sound (p : Part) : Prop := p.Every (Node.SoundAt aliases t) false

/-- All commands in the word are sound. -/
abbrev Word.Sound (w : Word) : Prop := w.Every (Node.SoundAt aliases t) false

/-- The command and all commands in it are sound. -/
abbrev Node.Sound (n : Node) : Prop := n.Every (Node.SoundAt aliases t) false

/-- All commands in the arm are sound. -/
abbrev CaseArm.Sound (a : CaseArm) : Prop := a.Every (Node.SoundAt aliases t) false

/-- All commands in the redirection are sound, and it may stand after a sound command. -/
structure Redirect.Sound (r : Redirect) : Prop where
  every : r.Every (Node.SoundAt aliases t) false
  awaits : r.Awaits aliases t
  wellFormed : r.isHereDoc = r.op.isHereDoc

end

/-! ## Lists -/

section

variable {P : Bool → Node → Prop} {d : Bool}

theorem Part.everyOf_iff {ps : List Part} : Part.EveryOf P d ps ↔ ∀ p ∈ ps, p.Every P d := by
  induction ps with
  | nil => exact ⟨fun _ _ hp => (nomatch hp), fun _ => trivial⟩
  | cons p ps ih => exact (and_congr_right' ih).trans List.forall_mem_cons.symm

theorem Word.everyOf_iff {ws : List Word} : Word.EveryOf P d ws ↔ ∀ w ∈ ws, w.Every P d := by
  induction ws with
  | nil => exact ⟨fun _ _ hw => (nomatch hw), fun _ => trivial⟩
  | cons w ws ih => exact (and_congr_right' ih).trans List.forall_mem_cons.symm

theorem Redirect.everyOf_iff {rs : List Redirect} :
    Redirect.EveryOf P d rs ↔ ∀ r ∈ rs, r.Every P d := by
  induction rs with
  | nil => exact ⟨fun _ _ hr => (nomatch hr), fun _ => trivial⟩
  | cons r rs ih => exact (and_congr_right' ih).trans List.forall_mem_cons.symm

theorem CaseArm.everyOf_iff {as : List CaseArm} :
    CaseArm.EveryOf P d as ↔ ∀ a ∈ as, a.Every P d := by
  induction as with
  | nil => exact ⟨fun _ _ ha => (nomatch ha), fun _ => trivial⟩
  | cons a as ih => exact (and_congr_right' ih).trans List.forall_mem_cons.symm

theorem Node.everyOf_iff {ns : List Node} : Node.EveryOf P d ns ↔ ∀ n ∈ ns, n.Every P d := by
  induction ns with
  | nil => exact ⟨fun _ _ hn => (nomatch hn), fun _ => trivial⟩
  | cons n ns ih => exact (and_congr_right' ih).trans List.forall_mem_cons.symm

end

/-! ## More tickets -/

section

variable {aliases : Table Text} {s t : Nat}

theorem Redirect.Awaits.le {r : Redirect} (h : r.Awaits aliases s) (hst : s ≤ t) :
    r.Awaits aliases t := by
  match r with
  | .word .. => trivial
  | .hereDoc _ _ (.pending _) => exact Nat.lt_of_lt_of_le h hst
  | .hereDoc _ _ (.body _) => exact h

theorem Node.SoundAt.le {n : Node} {d : Bool} (h : n.SoundAt aliases s d) (hst : s ≤ t) :
    n.SoundAt aliases t d :=
  ⟨h.wellFormed, fun hd r hr => (h.awaits hd r hr).le hst⟩

theorem Node.Sound.le {n : Node} (h : n.Sound aliases s) (hst : s ≤ t) : n.Sound aliases t :=
  Node.Every.mono (fun _ hn => hn.le hst) (fun _ hn => hn.le hst) h

theorem Word.Sound.le {w : Word} (h : w.Sound aliases s) (hst : s ≤ t) : w.Sound aliases t :=
  Word.Every.mono (fun _ hn => hn.le hst) (fun _ hn => hn.le hst) h

theorem Part.Sound.le {p : Part} (h : p.Sound aliases s) (hst : s ≤ t) : p.Sound aliases t := by
  have hp : Part.EveryOf (Node.SoundAt aliases s) false [p] := ⟨h, trivial⟩
  exact (Part.EveryOf.mono (fun _ hn => hn.le hst) (fun _ hn => hn.le hst) hp).1

theorem CaseArm.Sound.le {a : CaseArm} (h : a.Sound aliases s) (hst : s ≤ t) :
    a.Sound aliases t := by
  have ha : CaseArm.EveryOf (Node.SoundAt aliases s) false [a] := ⟨h, trivial⟩
  exact (CaseArm.EveryOf.mono (fun _ hn => hn.le hst) (fun _ hn => hn.le hst) ha).1

theorem Redirect.Sound.le {r : Redirect} (h : r.Sound aliases s) (hst : s ≤ t) :
    r.Sound aliases t := by
  have hr : Redirect.EveryOf (Node.SoundAt aliases s) false [r] := ⟨h.every, trivial⟩
  exact ⟨(Redirect.EveryOf.mono (fun _ hn => hn.le hst) (fun _ hn => hn.le hst) hr).1,
    h.awaits.le hst, h.wellFormed⟩

/-! ## Building commands -/

theorem Node.Sound.plain {c : Command} {l : Nat} (h : c.WellFormed)
    (hc : c.Every (Node.SoundAt aliases t) false) (hrs : (Node.mk c l).redirects = []) :
    (Node.mk c l).Sound aliases t := by
  refine ⟨⟨⟨h, fun r hr => ?_⟩, fun _ r hr => ?_⟩, hc⟩
  · exact nomatch hrs ▸ hr
  · exact nomatch hrs ▸ hr

theorem Node.Sound.redirecting {c : Command} {l : Nat} (h : c.WellFormed)
    (hc : c.Every (Node.SoundAt aliases t) false)
    (hrs : ∀ r ∈ (Node.mk c l).redirects, r.Sound aliases t) : (Node.mk c l).Sound aliases t :=
  ⟨⟨⟨h, fun r hr => (hrs r hr).wellFormed⟩, fun _ r hr => (hrs r hr).awaits⟩, hc⟩

theorem Node.Sound.wellFormed {n : Node} (h : n.Sound aliases t) : n.WellFormed := by
  obtain ⟨c, l⟩ := n
  exact h.1.wellFormed

end

/-! ## Filling in -/

section

variable {aliases : Table Text}

/-- A body that was read: its commands are well-formed, and it settles. -/
structure Word.IsBody (aliases : Table Text) (w : Word) : Prop where
  wellFormed : w.Every (fun _ n => n.WellFormed) true
  settles : w.Settles aliases

/-- The bodies were read, and they are those of all tickets below `t`. -/
structure Bodies.Complete (aliases : Table Text) (t : Nat) (bs : Bodies) : Prop where
  isBody : ∀ b ∈ bs, b.2.IsBody aliases
  known : ∀ k < t, k ∈ bs.map Prod.fst

theorem exists_lookup {bs : Bodies} {k : Nat} (h : k ∈ bs.map Prod.fst) :
    ∃ w, bs.lookup k = some w := by
  induction bs with
  | nil => exact nomatch h
  | cons b bs ih =>
      rw [List.lookup_cons]
      split
      · exact ⟨b.2, rfl⟩
      · rename_i hk
        refine ih ((List.mem_cons.mp h).resolve_left fun heq => ?_)
        exact absurd (beq_iff_eq.mpr heq) (Bool.eq_false_iff.mp hk)

theorem Redirect.Awaits.fill {bs : Bodies} {t : Nat} (hbs : bs.Complete aliases t) {r : Redirect}
    (h : r.Awaits aliases t) : (r.fill bs).Awaits aliases 0 := by
  match r with
  | .word .. => trivial
  | .hereDoc fd op (.pending k) =>
      obtain ⟨w, hw⟩ := exists_lookup (hbs.known k h)
      have hfill : (Redirect.hereDoc fd op (.pending k)).fill bs = .hereDoc fd op (.body w) := by
        simp [Redirect.fill, Redirect.fillAll, hw]
      rw [hfill]
      exact (hbs.isBody _ (mem_of_lookup hw)).settles
  | .hereDoc _ _ (.body _) => exact h

/-- With the bodies of all its here-documents, a tree is complete. -/
theorem Bodies.Complete.carries {bs : Bodies} {t : Nat} (hbs : bs.Complete aliases t) :
    Carries bs (Node.SoundAt aliases t) (Node.SoundAt aliases 0) false false where
  fill n hn := by
    refine ⟨hn.wellFormed.fill bs, fun _ r hr => ?_⟩
    rw [n.redirects_fill] at hr
    obtain ⟨s, hs, rfl⟩ := List.mem_map.mp hr
    exact (hn.awaits rfl s hs).fill hbs
  inDoc n hn := ⟨hn.wellFormed, fun h => nomatch h⟩
  bodies b hb := by
    refine Word.Every.mono (P := fun _ n => n.WellFormed) ?_ ?_ (hbs.isBody b hb).wellFormed
    · exact fun n hn => ⟨hn, fun h => nomatch h⟩
    · exact fun n hn => ⟨hn, fun h => nomatch h⟩

/-! ## Complete trees -/

section

variable (aliases)

/-- The condition under which the here-documents in a tree are filled in. -/
abbrev DocsLeave (_ : Bool) (n : Node) : Prop := n.DocsLeaveNothing aliases

end

/-- The redirections of a complete command, whose here-documents leave nothing. -/
structure Redirect.Leave (aliases : Table Text) (rs : List Redirect) : Prop where
  awaits : ∀ r ∈ rs, r.Awaits aliases 0
  leave : ∀ fd op w, .hereDoc fd op (.body w) ∈ rs → w.LeavesNothing aliases

theorem Redirect.Leave.tail {r : Redirect} {rs : List Redirect}
    (h : Redirect.Leave aliases (r :: rs)) : Redirect.Leave aliases rs :=
  ⟨fun s hs => h.awaits s (List.mem_cons_of_mem _ hs),
    fun fd op w hw => h.leave fd op w (List.mem_cons_of_mem _ hw)⟩

theorem Redirect.Leave.isFilled {rs : List Redirect} (h : Redirect.Leave aliases rs) :
    ∀ r ∈ rs, r.IsFilled := by
  intro r hr
  match r with
  | .word .. => trivial
  | .hereDoc _ _ (.pending _) => exact absurd (h.awaits _ hr) (Nat.not_lt_zero _)
  | .hereDoc _ _ (.body _) => trivial

mutual

theorem Part.Every.filled : ∀ {p : Part}, p.Sound aliases 0 → p.Every (DocsLeave aliases) false →
    p.Every (fun _ n => n.IsFilled) false
  | .literal _, _, _ | .escaped _, _, _ | .singleQuoted _, _, _ | .command none, _, _ => trivial
  | .doubleQuoted _, hp, hl | .param .., hp, hl | .arithmetic _, hp, hl => Part.EveryOf.filled hp hl
  | .command (some _), hp, hl => Node.Every.filled hp hl

theorem Part.EveryOf.filled : ∀ {ps : List Part}, Part.EveryOf (Node.SoundAt aliases 0) false ps →
    Part.EveryOf (DocsLeave aliases) false ps → Part.EveryOf (fun _ n => n.IsFilled) false ps
  | [], _, _ => trivial
  | _ :: _, hps, hl => ⟨Part.Every.filled hps.1 hl.1, Part.EveryOf.filled hps.2 hl.2⟩

theorem Word.Every.filled : ∀ {w : Word}, w.Sound aliases 0 → w.Every (DocsLeave aliases) false →
    w.Every (fun _ n => n.IsFilled) false
  | .mk .., hw, hl => Part.EveryOf.filled hw hl

theorem Word.EveryOf.filled : ∀ {ws : List Word}, Word.EveryOf (Node.SoundAt aliases 0) false ws →
    Word.EveryOf (DocsLeave aliases) false ws → Word.EveryOf (fun _ n => n.IsFilled) false ws
  | [], _, _ => trivial
  | _ :: _, hws, hl => ⟨Word.Every.filled hws.1 hl.1, Word.EveryOf.filled hws.2 hl.2⟩

theorem Redirect.EveryOf.filled : ∀ {rs : List Redirect}, Redirect.Leave aliases rs →
    Redirect.EveryOf (Node.SoundAt aliases 0) false rs →
    Redirect.EveryOf (DocsLeave aliases) false rs →
    Redirect.EveryOf (fun _ n => n.IsFilled) false rs
  | [], _, _, _ => trivial
  | .word .. :: _, h, hrs, hl =>
      ⟨Word.Every.filled hrs.1 hl.1, Redirect.EveryOf.filled h.tail hrs.2 hl.2⟩
  | .hereDoc _ _ (.pending _) :: _, h, hrs, hl =>
      ⟨trivial, Redirect.EveryOf.filled h.tail hrs.2 hl.2⟩
  | .hereDoc fd op (.body w) :: _, h, hrs, hl =>
      ⟨h.awaits _ List.mem_cons_self (h.leave fd op w List.mem_cons_self) hl.1,
        Redirect.EveryOf.filled h.tail hrs.2 hl.2⟩

theorem CaseArm.EveryOf.filled : ∀ {as : List CaseArm},
    CaseArm.EveryOf (Node.SoundAt aliases 0) false as →
    CaseArm.EveryOf (DocsLeave aliases) false as →
    CaseArm.EveryOf (fun _ n => n.IsFilled) false as
  | [], _, _ => trivial
  | .mk _ none :: _, has, hl =>
      ⟨Word.EveryOf.filled has.1 hl.1, CaseArm.EveryOf.filled has.2 hl.2⟩
  | .mk _ (some _) :: _, has, hl =>
      ⟨⟨Word.EveryOf.filled has.1.1 hl.1.1, Node.Every.filled has.1.2 hl.1.2⟩,
        CaseArm.EveryOf.filled has.2 hl.2⟩

/-- In a complete tree all here-documents are filled in, if the bodies leave nothing. -/
theorem Node.Every.filled : ∀ {n : Node}, n.Sound aliases 0 → n.Every (DocsLeave aliases) false →
    n.Every (fun _ n => n.IsFilled) false
  | .mk c l, hn, hl =>
      have h : Redirect.Leave aliases (Node.mk c l).redirects := ⟨hn.1.awaits rfl, hl.1⟩
      ⟨h.isFilled, Command.Every.filled h hn.2 hl.2⟩

theorem Node.EveryOf.filled : ∀ {ns : List Node}, Node.EveryOf (Node.SoundAt aliases 0) false ns →
    Node.EveryOf (DocsLeave aliases) false ns → Node.EveryOf (fun _ n => n.IsFilled) false ns
  | [], _, _ => trivial
  | _ :: _, hns, hl => ⟨Node.Every.filled hns.1 hl.1, Node.EveryOf.filled hns.2 hl.2⟩

theorem Command.Every.filled : ∀ {c : Command} {l : Nat},
    Redirect.Leave aliases (Node.mk c l).redirects → c.Every (Node.SoundAt aliases 0) false →
    c.Every (DocsLeave aliases) false → c.Every (fun _ n => n.IsFilled) false
  | .simple .., _, h, hc, hl => ⟨Word.EveryOf.filled hc.1 hl.1, Word.EveryOf.filled hc.2.1 hl.2.1,
      Redirect.EveryOf.filled h hc.2.2 hl.2.2⟩
  | .pipeline _, _, _, hc, hl => Node.EveryOf.filled hc hl
  | .not _, _, _, hc, hl | .background _, _, _, hc, hl | .brace _, _, _, hc, hl
  | .function .., _, _, hc, hl | .forIn _ none _, _, _, hc, hl => Node.Every.filled hc hl
  | .and .., _, _, hc, hl | .or .., _, _, hc, hl | .list .., _, _, hc, hl
  | .whileDo .., _, _, hc, hl | .untilDo .., _, _, hc, hl | .ifThen _ _ none, _, _, hc, hl =>
      ⟨Node.Every.filled hc.1 hl.1, Node.Every.filled hc.2 hl.2⟩
  | .ifThen _ _ (some _), _, _, hc, hl => ⟨Node.Every.filled hc.1 hl.1,
      Node.Every.filled hc.2.1 hl.2.1, Node.Every.filled hc.2.2 hl.2.2⟩
  | .forIn _ (some _) _, _, _, hc, hl =>
      ⟨Word.EveryOf.filled hc.1 hl.1, Node.Every.filled hc.2 hl.2⟩
  | .caseOf .., _, _, hc, hl => ⟨Word.Every.filled hc.1 hl.1, CaseArm.EveryOf.filled hc.2 hl.2⟩
  | .subshell .., _, h, hc, hl | .redirected .., _, h, hc, hl =>
      ⟨Node.Every.filled hc.1 hl.1, Redirect.EveryOf.filled h hc.2 hl.2⟩

end

end

end CommandShell.Script
