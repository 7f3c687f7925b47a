import CommandShell.Proofs.Grammar.Soundness
import CommandShell.Proofs.Trees.Words

/-!
# Commands of sound trees

Every function that reads commands puts together what it was given by others, so that the result is
sound where they were; which kind of command may stand where follows from who calls whom.
-/

namespace CommandShell.Script

open Reader

variable {A : Table Text} {fresh : Prop} {i j : Input} {n : Nat}

/-! ## Building commands -/

theorem eq_of_cut? {sep : Char} {t left right : Text}
    (h : Text.cut? sep t = some (left, right)) : t = left ++ sep :: right := by
  induction t generalizing left with
  | nil => exact nomatch h
  | cons c r ih =>
      unfold Text.cut? at h
      split at h
      · obtain ⟨rfl, rfl⟩ := Prod.mk.inj (Option.some.inj h)
        exact congrArg (· :: r) ‹c = sep›
      · obtain ⟨⟨a, b⟩, hcut, heq⟩ := Option.map_eq_some_iff.mp h
        obtain ⟨rfl, rfl⟩ := Prod.mk.inj heq
        exact congrArg (c :: ·) (ih hcut)

theorem exists_of_splitAssignment? {t : Text} (h : (Text.splitAssignment? t).isSome = true) :
    ∃ name value, t = name ++ '=' :: value ∧ Text.isName name = true := by
  unfold Text.splitAssignment? at h
  split at h
  · rename_i name value hcut
    split at h
    · exact ⟨name, value, eq_of_cut? hcut, ‹_›⟩
    · exact nomatch h
  · exact nomatch h

theorem Word.assigns_of_isAssignment {w : Word} (h : w.isAssignment = true) : w.Assigns := by
  unfold Word.isAssignment at h
  split at h
  · rename_i t ps hps
    obtain ⟨name, value, rfl, hname⟩ := exists_of_splitAssignment? h
    exact ⟨name, value, ps, hps, hname⟩
  · exact nomatch h

theorem Token.StartsSimple.inSimple {tk : Token} (h : tk.StartsSimple) : tk.InSimple :=
  h.symm.imp (fun ⟨w, hw, _⟩ => ⟨w, hw⟩) id

theorem Node.Fits.le {s : Shape → Bool} {t u : Nat} {n : Node} (h : n.Fits A s t) (htu : t ≤ u) :
    n.Fits A s u :=
  ⟨h.sound.le htu, h.shape⟩

theorem Node.Fits.imp {s s' : Shape → Bool} {t : Nat} {n : Node} (h : n.Fits A s t)
    (hs : ∀ x, s x = true → s' x = true) : n.Fits A s' t :=
  ⟨h.sound, hs _ h.shape⟩

theorem CaseArm.Fits.le {t u : Nat} {a : CaseArm} (h : a.Fits A t) (htu : t ≤ u) : a.Fits A u :=
  ⟨h.sound.le htu, h.patterns⟩

theorem SimpleSoFar.le {t u : Nat} {as ws : List Word} {rs : List Redirect}
    (h : SimpleSoFar A t as ws rs) (htu : t ≤ u) : SimpleSoFar A u as ws rs where
  assigns w hw := ⟨(h.assigns w hw).1.le htu, (h.assigns w hw).2⟩
  argv w hw := (h.argv w hw).le htu
  redirects r hr := (h.redirects r hr).le htu

namespace TreesSound

variable (h : TreesSound A n)
include h

/-! ## Lists -/

theorem parseTop_succ (hi : Held A fresh i) :
    Leads (fun p j => (Held A fresh j ∧ j.AtLineEnd) ∧ ∀ n, p = .command n →
      n.Every (fun _ m => m.WellFormed) false ∧ (fresh → n.Sound A 0))
      (Script.parseTop (n + 1)) i := by
  unfold Script.parseTop
  refine Leads.bind (P := fun _ j => Held A fresh j) ⟨Nat.le_refl _, hi.of_docs rfl⟩
    fun _ j _ hj => ?_
  refine (h.nextToken hj).bind ?_
  rintro tk k _ ⟨hk, htk⟩
  split
  · rename_i hend
    exact leads_pure ⟨⟨hk.held, hk.atLineEnd htk (.inr hend)⟩, fun _ h => nomatch h⟩
  · rename_i hnl
    exact leads_pure ⟨⟨hk.held, hk.atLineEnd htk (.inl hnl)⟩, fun _ h => nomatch h⟩
  · refine (hk.leads_pushToken htk).bind ?_
    rintro _ l _ ⟨hl, _⟩
    refine (h.parseList hl (List.forall_mem_nil _)).bind ?_
    rintro node m _ ⟨⟨hm, hnode⟩, htop⟩
    refine meets_get.mpr (leads_pure ⟨⟨hm, htop rfl⟩, ?_⟩)
    rintro _ ⟨⟩
    refine ⟨Node.Every.fill (hm.carries _ false) hnode, fun hf => ?_⟩
    exact Node.Every.fill (hm.complete hf (htop rfl).pending).carries hnode

theorem parseAllFrom_succ {acc : List Node} (hi : Held A True i)
    (hacc : ∀ n ∈ acc, Node.Sound A 0 n) :
    Leads (fun ns _ => ∀ n ∈ ns, Node.Sound A 0 n) (Script.parseAllFrom (n + 1) acc) i := by
  unfold Script.parseAllFrom
  refine (h.parseTop hi).bind ?_
  rintro p j _ ⟨⟨hj, _⟩, hp⟩
  split
  · exact leads_pure fun n hn => hacc n (List.mem_reverse.mp hn)
  · exact h.parseAllFrom hj hacc
  · exact h.parseAllFrom hj (List.forall_mem_cons.mpr ⟨(hp _ rfl).2 trivial, hacc⟩)

theorem parseSubstitution_succ (hi : Clear A fresh i) :
    Leads (Found A fresh fun t n? => ∀ n ∈ n?, Node.Sound A t n)
      (Script.parseSubstitution (n + 1)) i := by
  unfold Script.parseSubstitution
  refine (h.skipNewlines hi.held).bind fun _ j _ hj => ?_
  refine (h.peekToken hj).bind ?_
  rintro tk k _ ⟨hk, _⟩
  refine .ite (fun _ => ?_) fun _ => ?_
  · refine (h.nextToken hk).bind ?_
    rintro _ l _ ⟨hl, _⟩
    exact leads_pure ⟨hl, fun _ hn => absurd hn (Option.not_mem_none _)⟩
  · refine (h.parseInner hk).bind ?_
    rintro node l _ ⟨hl, hnode⟩
    refine (h.nextToken hl).bind ?_
    rintro tk m hlm ⟨hm, _⟩
    refine .ite (fun _ => ?_) fun _ => leads_unexpected hm.wellFormed
    exact leads_pure ⟨hm, fun n hn => Option.some.inj hn ▸ hnode.le hlm⟩

theorem parseInner_succ (hi : Held A fresh i) :
    Leads (Built A fresh fun t n => Node.Sound A t n) (Script.parseInner (n + 1)) i := by
  unfold Script.parseInner
  refine (h.skipNewlines hi).bind fun _ j _ hj => ?_
  exact (h.parseList hj (List.forall_mem_nil _)).mono fun _ _ hn => hn.1

theorem parseList_succ {top : Bool} {acc : List Node} (hi : Held A fresh i)
    (hacc : ∀ n ∈ acc, Node.Sound A i.nextTicket n) :
    Leads (fun n j => Built A fresh (fun t n => Node.Sound A t n) n j ∧ (top = true → j.AtLineEnd))
      (Script.parseList top (n + 1) acc) i := by
  rw [parseList_eq]
  refine (h.parseAndOr hi).bind ?_
  rintro node j hij ⟨hj, hnode⟩
  refine (h.nextToken hj).bind ?_
  rintro tk k hjk ⟨hk, htk⟩
  have hik := Nat.le_trans hij hjk
  have hnode := hnode.le hjk
  have hall : ∀ {node} {l : Input}, i.nextTicket ≤ l.nextTicket → Node.Sound A l.nextTicket node →
      ∀ n ∈ node :: acc, Node.Sound A l.nextTicket n :=
    fun hil hnode => List.forall_mem_cons.mpr ⟨hnode, fun n hn => (hacc n hn).le hil⟩
  have hfinish : ∀ {node l}, Held A fresh l → i.nextTicket ≤ l.nextTicket →
      Node.Sound A l.nextTicket node → (top = true → l.AtLineEnd) →
      Leads (fun n j => Built A fresh (fun t n => Node.Sound A t n) n j ∧
        (top = true → j.AtLineEnd)) (closeList (node :: acc)) l := by
    intro node l hl hil hnode htop
    unfold closeList
    split
    · rename_i list hlist
      refine leads_pure ⟨⟨hl, ?_⟩, htop⟩
      exact sound_ofList (fun n hn => hall hil hnode n (List.mem_reverse.mp hn)) list hlist
    · exact leads_fail hl.wellFormed
  -- what comes after a separator
  have hgoOn : ∀ {node}, Node.Sound A k.nextTicket node →
      Leads (fun n j => Built A fresh (fun t n => Node.Sound A t n) n j ∧
        (top = true → j.AtLineEnd)) (continueList n top (node :: acc)) k := by
    intro node hnode
    refine .ite (fun _ => ?_) fun htop => ?_
    · refine (h.peekToken hk.held).bind ?_
      rintro tk l hkl ⟨hl, hp⟩
      have hil := Nat.le_trans hik hkl
      split
      · rename_i hnl
        refine (nextToken_held hl hp).bind ?_
        rintro _ m hlm ⟨_, hm, htk⟩
        refine hfinish hm.held (Nat.le_trans hil hlm) (hnode.le (Nat.le_trans hkl hlm)) fun _ => ?_
        exact hm.atLineEnd htk (.inl hnl)
      · rename_i hend
        exact hfinish hl hil (hnode.le hkl) fun _ => hl.atLineEnd hp hend
      · exact h.parseList hl (hall hil (hnode.le hkl))
    · refine (h.skipNewlines hk.held).bind fun _ l hkl hl => ?_
      refine (h.peekToken hl).bind ?_
      rintro tk m hlm ⟨hm, _⟩
      have hkm := Nat.le_trans hkl hlm
      have him := Nat.le_trans hik hkm
      refine .ite (fun _ => hfinish hm him (hnode.le hkm) fun h => absurd h htop) fun _ => ?_
      exact h.parseList hm (hall him (hnode.le hkm))
  split
  · exact hgoOn (.plain hnode.shape hnode.sound rfl)
  · exact hgoOn hnode.sound
  · rename_i hnl
    refine .ite (fun _ => ?_) fun _ => hgoOn hnode.sound
    exact hfinish hk.held hik hnode.sound fun _ => hk.atLineEnd htk (.inl hnl)
  · rename_i hend
    refine (hk.leads_pushToken htk).bind ?_
    rintro _ l hkl ⟨hl, hp⟩
    exact hfinish hl (Nat.le_trans hik hkl) (hnode.sound.le hkl) fun _ => hl.atLineEnd hp hend
  · refine .ite (fun _ => leads_unexpected hk.wellFormed) fun htop => ?_
    refine (hk.leads_pushToken htk).bind ?_
    rintro _ l hkl ⟨hl, _⟩
    exact hfinish hl (Nat.le_trans hik hkl) (hnode.sound.le hkl) fun h => absurd h htop

theorem parseAndOr_succ (hi : Held A fresh i) :
    Leads (Built A fresh (Node.Fits A Shape.isAndOr)) (Script.parseAndOr (n + 1)) i := by
  unfold Script.parseAndOr
  refine (h.parsePipeline hi).bind ?_
  rintro first j _ ⟨hj, hfirst⟩
  exact h.parseAndOrRest hj (hfirst.imp fun _ => Shape.isAndOr_of_isPipeline)

theorem parseAndOrRest_succ {left : Node} (hi : Held A fresh i)
    (hleft : left.Fits A Shape.isAndOr i.nextTicket) :
    Leads (Built A fresh (Node.Fits A Shape.isAndOr)) (Script.parseAndOrRest (n + 1) left) i := by
  unfold Script.parseAndOrRest
  refine (h.nextToken hi).bind ?_
  rintro tk j hij ⟨hj, htk⟩
  -- the pipeline on the right of the operator
  have hright : ∀ {f : Node → Command}, (∀ {t right}, left.Sound A t →
        right.Fits A Shape.isPipeline t → (Node.mk (f right) left.line).Fits A Shape.isAndOr t) →
      Leads (Built A fresh (Node.Fits A Shape.isAndOr)) (do
        Script.skipNewlines n
        let right ← Script.parsePipeline n
        Script.parseAndOrRest n (.mk (f right) left.line)) j := by
    intro f hf
    refine (h.skipNewlines hj.held).bind fun _ k hjk hk => ?_
    refine (h.parsePipeline hk).bind ?_
    rintro right l hkl ⟨hl, hr⟩
    exact h.parseAndOrRest hl (hf (hleft.sound.le (Nat.le_trans hij (Nat.le_trans hjk hkl))) hr)
  split
  · exact hright (f := .and left) fun hl hr => ⟨.plain hr.shape ⟨hl, hr.sound⟩ rfl, rfl⟩
  · exact hright (f := .or left) fun hl hr => ⟨.plain hr.shape ⟨hl, hr.sound⟩ rfl, rfl⟩
  · refine (hj.leads_pushToken htk).bind ?_
    rintro _ k hjk ⟨hk, _⟩
    exact leads_pure ⟨hk, hleft.le (Nat.le_trans hij hjk)⟩

/-! ## Pipelines -/

omit h in
/-- A pipeline of one stage is that stage. -/
theorem fits_stages (line t : Nat) : ∀ stages : List Node, stages ≠ [] →
    (∀ n ∈ stages, Node.Fits A Shape.isCommand t n) →
    Node.Fits A Shape.isStages t (match stages with
      | [single] => single
      | stages => .mk (.pipeline stages) line)
  | [], hne, _ => absurd rfl hne
  | [_], _, hstages => (hstages _ List.mem_cons_self).imp fun _ => Shape.isStages_of_isCommand
  | _ :: _ :: _, _, hstages =>
      ⟨.plain ⟨Nat.le_add_left 2 _, fun n hn => (hstages n hn).shape⟩
        (Node.everyOf_iff.mpr fun n hn => (hstages n hn).sound) rfl, rfl⟩

theorem parsePipeline_succ (hi : Held A fresh i) :
    Leads (Built A fresh (Node.Fits A Shape.isPipeline)) (Script.parsePipeline (n + 1)) i := by
  rw [parsePipeline_eq]
  refine (h.commandToken hi).bind ?_
  rintro first j _ ⟨hj, hfirst⟩
  have hrest : ∀ {negated tk k}, Drawn A fresh tk k →
      Leads (Built A fresh (Node.Fits A Shape.isPipeline))
        (parsePipelineFrom n negated first.line tk) k := by
    rintro negated tk k ⟨hk, htk⟩
    refine (h.parseCommandAt hk htk).bind ?_
    rintro stage l _ ⟨hl, hstage, _⟩
    refine (h.parseStages hl (List.cons_ne_nil _ _)
      (List.forall_mem_singleton.mpr hstage)).bind ?_
    rintro stages m _ ⟨hm, hne, hstages⟩
    have hnode := fits_stages first.line m.nextTicket stages hne hstages
    refine leads_pure ⟨hm, ?_⟩
    split
    · exact ⟨.plain hnode.shape hnode.sound rfl, rfl⟩
    · exact hnode.imp fun _ => Shape.isPipeline_of_isStages
  refine .ite (fun _ => ?_) fun _ => hrest ⟨hj, hfirst⟩
  exact (h.commandToken hj.held).bind fun tk k _ hk => hrest hk

theorem parseStages_succ {acc : List Node} (hi : Held A fresh i) (hne : acc ≠ [])
    (hacc : ∀ n ∈ acc, Node.Fits A Shape.isCommand i.nextTicket n) :
    Leads (Built A fresh fun t ns => ns ≠ [] ∧ ∀ n ∈ ns, Node.Fits A Shape.isCommand t n)
      (Script.parseStages (n + 1) acc) i := by
  unfold Script.parseStages
  refine (h.nextToken hi).bind ?_
  rintro tk j hij ⟨hj, htk⟩
  split
  · refine (h.skipNewlines hj.held).bind fun _ k hjk hk => ?_
    refine (h.commandToken hk).bind ?_
    rintro tk l hkl ⟨hl, htk⟩
    refine (h.parseCommandAt hl htk).bind ?_
    rintro stage m hlm ⟨hm, hstage, _⟩
    have him := Nat.le_trans hij (Nat.le_trans hjk (Nat.le_trans hkl hlm))
    refine h.parseStages hm (List.cons_ne_nil _ _) (List.forall_mem_cons.mpr ⟨hstage, ?_⟩)
    exact fun n hn => (hacc n hn).le him
  · refine (hj.leads_pushToken htk).bind ?_
    rintro _ k hjk ⟨hk, _⟩
    refine leads_pure ⟨hk, ?_, ?_⟩
    · exact fun hnil => hne (List.reverse_eq_nil_iff.mp hnil)
    · exact fun n hn => (hacc n (List.mem_reverse.mp hn)).le (Nat.le_trans hij hjk)

/-! ## Simple commands -/

theorem parseRedirect_succ {fd : Option Nat} {op : RedirectOp} (hi : Clear A fresh i) :
    Leads (Found A fresh fun t r => Redirect.Sound A t r)
      (Script.parseRedirect (n + 1) fd op) i := by
  unfold Script.parseRedirect
  refine (h.nextToken hi.held).bind ?_
  rintro tk j _ ⟨hj, htk⟩
  split
  · rename_i w hw
    have hword : op.isHereDoc = false → Leads (Found A fresh fun t r => Redirect.Sound A t r)
        (pure (.word (fd.getD op.defaultFd) op w)) j :=
      fun hop => leads_pure ⟨hj, htk.word w hw, trivial, hop.symm⟩
    have hdoc : ∀ strip, op.isHereDoc = true →
        Leads (Found A fresh fun t r => Redirect.Sound A t r) (do
          let ticket ← requestHereDoc w.unquoted strip w.isQuoted
          return .hereDoc (fd.getD op.defaultFd) op (.pending ticket)) j := by
      intro strip hop
      refine ⟨Nat.le_succ _, ⟨{ hj with known := ?_ }, ?_⟩⟩
      · intro hf k hk
        show k ∈ (j.pending ++ [_]).map HereDocRequest.ticket ∨ _
        rw [List.map_append, List.mem_append]
        rcases Nat.lt_succ_iff_lt_or_eq.mp hk with hk | rfl
        · exact (hj.known hf k hk).imp .inl id
        · exact .inl (.inr List.mem_cons_self)
      · exact ⟨trivial, Nat.lt_succ_self _, hop.symm⟩
    cases op with
    | hereDoc => exact hdoc _ rfl
    | hereDocStrip => exact hdoc _ rfl
    | _ => exact hword rfl
  · exact leads_unexpected hj.wellFormed

theorem parseRedirects_succ {acc : List Redirect} (hi : Held A fresh i)
    (hacc : ∀ r ∈ acc, Redirect.Sound A i.nextTicket r) :
    Leads (Built A fresh fun t rs => ∀ r ∈ rs, Redirect.Sound A t r)
      (Script.parseRedirects (n + 1) acc) i := by
  unfold Script.parseRedirects
  refine (h.nextToken hi).bind ?_
  rintro tk j hij ⟨hj, htk⟩
  split
  · refine (h.parseRedirect hj).bind ?_
    rintro r k hjk ⟨hk, hr⟩
    refine h.parseRedirects hk.held (List.forall_mem_cons.mpr ⟨hr, ?_⟩)
    exact fun r hr => (hacc r hr).le (Nat.le_trans hij hjk)
  · refine (hj.leads_pushToken htk).bind ?_
    rintro _ k hjk ⟨hk, _⟩
    refine leads_pure ⟨hk, ?_⟩
    exact fun r hr => (hacc r (List.mem_reverse.mp hr)).le (Nat.le_trans hij hjk)

theorem closeCompound_succ {line : Nat} {body : Node} (hi : Held A fresh i)
    (hbody : body.Sound A i.nextTicket) (hshape : body.shape = .compound) :
    Leads (Built A fresh (Node.Fits A Shape.isBody))
      (Script.closeCompound (n + 1) line body) i := by
  unfold Script.closeCompound
  refine (h.parseRedirects hi (List.forall_mem_nil _)).bind ?_
  rintro rs j hij ⟨hj, hrs⟩
  have hbody := hbody.le hij
  split
  · exact leads_pure ⟨hj, hbody, by rw [hshape]; rfl⟩
  · rename_i hne
    refine leads_pure ⟨hj, .redirecting ⟨hshape, ?_⟩ ⟨hbody, ?_⟩ hrs, rfl⟩
    · exact hne
    · exact Redirect.everyOf_iff.mpr fun r hr => (hrs r hr).every

theorem parseSimple_succ {line : Nat} {as ws : List Word} {rs : List Redirect} {tk : Token}
    (hi : Clear A fresh i) (htk : tk.InHand A i) (hsofar : SimpleSoFar A i.nextTicket as ws rs)
    (hne : tk.InSimple ∨ as ≠ [] ∨ ws ≠ [] ∨ rs ≠ []) :
    Leads (Built A fresh (Node.Fits A Shape.isCommand))
      (Script.parseSimple (n + 1) line as ws rs tk) i := by
  unfold Script.parseSimple
  dsimp only
  -- the next token, with the token in hand added to the command
  have hgoOn : ∀ {as ws rs j}, Held A fresh j → SimpleSoFar A j.nextTicket as ws rs →
      (as ≠ [] ∨ ws ≠ [] ∨ rs ≠ []) →
      Leads (Built A fresh (Node.Fits A Shape.isCommand)) (do
        let tk ← Script.nextToken n
        if ← takeAliasBlank then
          let tk ← Script.expandAlias n tk
          Script.parseSimple n line as ws rs tk
        else Script.parseSimple n line as ws rs tk) j := by
    intro as ws rs j hj hsofar hne
    refine (h.nextToken hj).bind ?_
    rintro tk k hjk ⟨hk, htk⟩
    have hblank : Leads (fun _ l => Drawn A fresh tk l) takeAliasBlank k :=
      Steady.leads hk.wellFormed fun _ _ _ hdocs => ⟨hk.of_docs hdocs, htk.of_docs hdocs⟩
    refine hblank.bind ?_
    rintro blank l hkl ⟨hl, htk⟩
    have hjl := Nat.le_trans hjk hkl
    refine .ite (fun _ => ?_) fun _ => h.parseSimple hl htk (hsofar.le hjl) (.inr hne)
    refine (h.expandAlias hl htk).bind ?_
    rintro tk m hlm ⟨hm, htk⟩
    exact h.parseSimple hm htk (hsofar.le (Nat.le_trans hjl hlm)) (.inr hne)
  split
  · refine (h.parseRedirect hi).bind ?_
    rintro r j hij ⟨hj, hr⟩
    refine hgoOn hj.held ?_ (.inr (.inr (List.cons_ne_nil _ _)))
    have hsofar := hsofar.le hij
    exact { hsofar with redirects := List.forall_mem_cons.mpr ⟨hr, hsofar.redirects⟩ }
  · rename_i w hw
    have hword := htk.word w hw
    refine .ite (fun hassign => ?_) fun _ => .ite (fun hfirst => ?_) fun _ => ?_
    · rw [Bool.and_eq_true] at hassign
      have hassigns := Word.assigns_of_isAssignment hassign.2
      refine hgoOn hi.held ?_ (.inl (List.cons_ne_nil _ _))
      exact { hsofar with assigns := List.forall_mem_cons.mpr ⟨⟨hword, hassigns⟩, hsofar.assigns⟩ }
    · refine (h.peekToken hi.held).bind ?_
      rintro tk' j hij ⟨hj, _⟩
      refine .ite (fun _ => h.parseFunction hj) fun _ => ?_
      refine hgoOn hj ?_ (.inr (.inl (List.cons_ne_nil _ _)))
      exact { hsofar.le hij with argv := List.forall_mem_singleton.mpr (hword.le hij) }
    · refine hgoOn hi.held ?_ (.inr (.inl (List.cons_ne_nil _ _)))
      exact { hsofar with argv := List.forall_mem_cons.mpr ⟨hword, hsofar.argv⟩ }
  · rename_i hredirect hword
    refine (hi.leads_pushToken htk).bind ?_
    rintro _ j hij ⟨hj, _⟩
    refine leads_pure ⟨hj, ?_, rfl⟩
    have hsofar := hsofar.le hij
    refine .redirecting ⟨?_, fun w hw => (hsofar.assigns w (List.mem_reverse.mp hw)).2⟩
      ⟨Word.everyOf_iff.mpr fun w hw => (hsofar.assigns w (List.mem_reverse.mp hw)).1,
        Word.everyOf_iff.mpr fun w hw => hsofar.argv w (List.mem_reverse.mp hw),
        Redirect.everyOf_iff.mpr fun r hr => (hsofar.redirects r (List.mem_reverse.mp hr)).every⟩
      fun r hr => hsofar.redirects r (List.mem_reverse.mp hr)
    simp only [ne_eq, List.reverse_eq_nil_iff]
    refine hne.resolve_left ?_
    rintro (⟨v, hv⟩ | ⟨fd, op, hr⟩)
    · exact hword v hv
    · exact hredirect fd op hr

/-! ## Compound commands -/

theorem parseCommandAt_succ {tk : Token} (hi : Clear A fresh i) (htk : tk.InHand A i) :
    Leads (Built A fresh fun t n => Node.Fits A Shape.isCommand t n ∧
      (tk.StartsCompound → n.shape.isBody = true)) (Script.parseCommandAt (n + 1) tk) i := by
  have hclose : ∀ {body j}, Held A fresh j → Node.Fits A (· == .compound) j.nextTicket body →
      Leads (Built A fresh fun t n => Node.Fits A Shape.isCommand t n ∧
        (tk.StartsCompound → n.shape.isBody = true)) (Script.closeCompound n tk.line body) j := by
    intro body j hj hbody
    refine (h.closeCompound hj hbody.sound (beq_iff_eq.mp hbody.shape)).mono ?_
    rintro _ _ ⟨hk, hnode⟩
    exact ⟨hk, hnode.imp fun _ => Shape.isCommand_of_isBody, fun _ => hnode.shape⟩
  have hbuilt : ∀ {r : Reader Node}, Leads (Built A fresh (Node.Fits A (· == .compound))) r i →
      Leads (Built A fresh fun t n => Node.Fits A Shape.isCommand t n ∧
        (tk.StartsCompound → n.shape.isBody = true)) (do
          let body ← r
          Script.closeCompound n tk.line body) i := by
    intro r hr
    refine hr.bind ?_
    rintro body j _ ⟨hj, hbody⟩
    exact hclose hj hbody
  have hsimple : tk.StartsSimple → Leads (Built A fresh fun t n =>
      Node.Fits A Shape.isCommand t n ∧ (tk.StartsCompound → n.shape.isBody = true))
      (Script.parseSimple n tk.line [] [] [] tk) i := by
    intro hstarts
    have hsofar : SimpleSoFar A i.nextTicket [] [] [] :=
      ⟨List.forall_mem_nil _, List.forall_mem_nil _, List.forall_mem_nil _⟩
    refine (h.parseSimple hi htk hsofar (.inl hstarts.inSimple)).mono ?_
    rintro _ _ ⟨hk, hnode⟩
    exact ⟨hk, hnode, fun h => absurd h hstarts.not_startsCompound⟩
  unfold Script.parseCommandAt
  dsimp only
  split
  · refine (h.parseInner hi.held).bind ?_
    rintro body j _ ⟨hj, hbody⟩
    refine (h.nextToken hj).bind ?_
    rintro tk' k hjk ⟨hk, _⟩
    refine .ite (fun _ => hk.wellFormed) fun _ => ?_
    refine (h.parseRedirects hk.held (List.forall_mem_nil _)).bind ?_
    rintro rs l hkl ⟨hl, hrs⟩
    refine leads_pure ⟨hl, ⟨.redirecting trivial ⟨hbody.le (Nat.le_trans hjk hkl), ?_⟩ hrs, rfl⟩,
      fun _ => rfl⟩
    exact Redirect.everyOf_iff.mpr fun r hr => (hrs r hr).every
  · rename_i fd op hop
    exact hsimple (.inl ⟨fd, op, hop⟩)
  · rename_i w hw
    split
    · rename_i hnone
      exact hsimple (.inr ⟨w, hw, fun kw hkw => by simp [hnone] at hkw⟩)
    · rename_i kw hkw
      refine .ite (fun _ => hbuilt (h.parseIf hi.held)) fun hif => ?_
      refine .ite (fun _ => hbuilt (h.parseLoop hi.held)) fun hwhile => ?_
      refine .ite (fun _ => hbuilt (h.parseLoop hi.held)) fun huntil => ?_
      refine .ite (fun _ => hbuilt (h.parseFor hi.held)) fun hfor => ?_
      refine .ite (fun _ => hbuilt (h.parseCase hi.held)) fun hcase => ?_
      refine .ite (fun _ => ?_) fun hbrace => ?_
      · refine (h.parseInner hi.held).bind ?_
        rintro body j _ ⟨hj, hbody⟩
        refine (h.expectKeyword hj).bind fun _ k hjk hk => ?_
        exact hclose hk.held ⟨.plain trivial (hbody.le hjk) rfl, rfl⟩
      · refine .ite (fun _ => leads_unexpected hi.wellFormed) fun henders => ?_
        refine hsimple (.inr ⟨w, hw, fun kw' hkw' => ?_⟩)
        obtain rfl := Option.some.inj (hkw.symm.trans hkw')
        refine ⟨?_, fun hmem => henders (List.contains_iff_mem.mpr hmem)⟩
        simp only [compoundStarters, List.mem_cons, List.not_mem_nil, or_false, not_or]
        exact ⟨hbrace, hif, hwhile, huntil, hfor, hcase⟩
  · exact leads_unexpected hi.wellFormed

theorem parseFunction_succ {name : Word} {line : Nat} (hi : Held A fresh i) :
    Leads (Built A fresh (Node.Fits A Shape.isCommand))
      (Script.parseFunction (n + 1) name line) i := by
  unfold Script.parseFunction
  refine (h.nextToken hi).bind ?_
  rintro _ j _ ⟨hj, _⟩
  refine (h.nextToken hj.held).bind ?_
  rintro tk k _ ⟨hk, _⟩
  refine .ite (fun _ => hk.wellFormed) fun _ => ?_
  split
  · exact leads_failAt hk.wellFormed
  · rename_i fname hfname
    refine (h.skipNewlines hk.held).bind fun _ l _ hl => ?_
    refine (h.commandToken hl).bind ?_
    rintro tk m _ ⟨hm, htk⟩
    refine .ite (fun hstarts => ?_) fun _ => leads_unexpected hm.wellFormed
    refine (h.parseCommandAt hm htk).bind ?_
    rintro body o _ ⟨ho, hbody, hshape⟩
    have hname : Text.isName fname = true := (Option.filter_eq_some_iff.mp hfname).2
    refine leads_pure ⟨ho, .plain ⟨hname, ?_⟩ hbody.sound rfl, rfl⟩
    exact hshape (Token.startsCompound_of_tests hstarts)

theorem parseIf_succ {line : Nat} (hi : Held A fresh i) :
    Leads (Built A fresh (Node.Fits A (· == .compound))) (Script.parseIf (n + 1) line) i := by
  unfold Script.parseIf
  refine (h.parseInner hi).bind ?_
  rintro cond j _ ⟨hj, hcond⟩
  refine (h.expectKeyword hj).bind fun _ k hjk hk => ?_
  refine (h.parseInner hk.held).bind ?_
  rintro body l hkl ⟨hl, hbody⟩
  refine (h.nextToken hl).bind ?_
  rintro tk m hlm ⟨hm, _⟩
  have hcond := hcond.le (Nat.le_trans hjk (Nat.le_trans hkl hlm))
  have hbody := hbody.le hlm
  refine .ite (fun _ => ?_) fun _ => .ite (fun _ => ?_) fun _ => .ite (fun _ => ?_) fun _ => ?_
  · refine (h.parseIf hm.held).bind ?_
    rintro rest o hmo ⟨ho, hrest⟩
    refine leads_pure ⟨ho, ?_⟩
    exact ⟨.plain trivial ⟨hcond.le hmo, hbody.le hmo, hrest.sound⟩ rfl, rfl⟩
  · refine (h.parseInner hm.held).bind ?_
    rintro rest o hmo ⟨ho, hrest⟩
    refine (h.expectKeyword ho).bind fun _ p hop hp => leads_pure ⟨hp.held, ?_⟩
    have hmp := Nat.le_trans hmo hop
    exact ⟨.plain trivial ⟨hcond.le hmp, hbody.le hmp, hrest.le hop⟩ rfl, rfl⟩
  · exact leads_pure ⟨hm.held, .plain trivial ⟨hcond, hbody⟩ rfl, rfl⟩
  · exact leads_unexpected hm.wellFormed

theorem parseLoop_succ {isWhile : Bool} {line : Nat} (hi : Held A fresh i) :
    Leads (Built A fresh (Node.Fits A (· == .compound)))
      (Script.parseLoop (n + 1) isWhile line) i := by
  unfold Script.parseLoop
  refine (h.parseInner hi).bind ?_
  rintro cond j _ ⟨hj, hcond⟩
  refine (h.expectKeyword hj).bind fun _ k hjk hk => ?_
  refine (h.parseInner hk.held).bind ?_
  rintro body l hkl ⟨hl, hbody⟩
  refine (h.expectKeyword hl).bind fun _ m hlm hm => leads_pure ⟨hm.held, ?_⟩
  have hcond := hcond.le (Nat.le_trans hjk (Nat.le_trans hkl hlm))
  cases isWhile with
  | true => exact ⟨.plain trivial ⟨hcond, hbody.le hlm⟩ rfl, rfl⟩
  | false => exact ⟨.plain trivial ⟨hcond, hbody.le hlm⟩ rfl, rfl⟩

theorem parseFor_succ {line : Nat} (hi : Held A fresh i) :
    Leads (Built A fresh (Node.Fits A (· == .compound))) (Script.parseFor (n + 1) line) i := by
  unfold Script.parseFor
  refine (h.nextToken hi).bind ?_
  rintro tk j _ ⟨hj, _⟩
  split
  · exact leads_failAt hj.wellFormed
  · rename_i var _
    have hrest : ∀ {items : Option (List Word)} {l}, Held A fresh l →
        (∀ ws, items = some ws → ∀ w ∈ ws, Word.Sound A l.nextTicket w) →
        Leads (Built A fresh (Node.Fits A (· == .compound))) (do
          Script.skipNewlines n
          Script.expectKeyword "do" n
          let body ← Script.parseInner n
          Script.expectKeyword "done" n
          return Node.mk (.forIn var items body) line) l := by
      intro items l hl hitems
      refine (h.skipNewlines hl).bind fun _ m hlm hm => ?_
      refine (h.expectKeyword hm).bind fun _ o hmo ho => ?_
      refine (h.parseInner ho.held).bind ?_
      rintro body p hop ⟨hp, hbody⟩
      refine (h.expectKeyword hp).bind fun _ q hpq hq => leads_pure ⟨hq.held, ?_, rfl⟩
      have hlq := Nat.le_trans hlm (Nat.le_trans hmo (Nat.le_trans hop hpq))
      cases items with
      | none => exact .plain trivial (hbody.le hpq) rfl
      | some ws =>
          have hws := Word.everyOf_iff.mpr fun w hw => (hitems ws rfl w hw).le hlq
          exact .plain trivial ⟨hws, hbody.le hpq⟩ rfl
    refine (h.skipNewlines hj.held).bind fun _ k _ hk => ?_
    refine (h.nextToken hk).bind ?_
    rintro tk' l _ ⟨hl, htk'⟩
    refine .ite (fun _ => ?_) fun _ => ?_
    · refine (h.parseItems hl.held (List.forall_mem_nil _)).bind ?_
      rintro items m _ ⟨hm, hitems⟩
      exact hrest hm fun _ h => Option.some.inj h ▸ hitems
    · split
      · exact hrest hl.held fun _ h => absurd h.symm (Option.some_ne_none _)
      · refine (hl.leads_pushToken htk').bind ?_
        rintro _ m _ ⟨hm, _⟩
        exact hrest hm fun _ h => absurd h.symm (Option.some_ne_none _)

theorem parseItems_succ {acc : List Word} (hi : Held A fresh i)
    (hacc : ∀ w ∈ acc, Word.Sound A i.nextTicket w) :
    Leads (Built A fresh fun t ws => ∀ w ∈ ws, Word.Sound A t w)
      (Script.parseItems (n + 1) acc) i := by
  unfold Script.parseItems
  refine (h.nextToken hi).bind ?_
  rintro tk j hij ⟨hj, htk⟩
  have hacc : ∀ w ∈ acc, Word.Sound A j.nextTicket w := fun w hw => (hacc w hw).le hij
  have hdone : ∀ w ∈ acc.reverse, Word.Sound A j.nextTicket w :=
    fun w hw => hacc w (List.mem_reverse.mp hw)
  split
  · rename_i w hw
    exact h.parseItems hj.held (List.forall_mem_cons.mpr ⟨htk.word w hw, hacc⟩)
  · exact leads_pure ⟨hj.held, hdone⟩
  · exact leads_pure ⟨hj.held, hdone⟩
  · exact leads_unexpected hj.wellFormed

theorem parseCase_succ {line : Nat} (hi : Held A fresh i) :
    Leads (Built A fresh (Node.Fits A (· == .compound))) (Script.parseCase (n + 1) line) i := by
  unfold Script.parseCase
  refine (h.nextToken hi).bind ?_
  rintro tk j _ ⟨hj, htk⟩
  split
  · rename_i subject hsubject
    refine (h.skipNewlines hj.held).bind fun _ k hjk hk => ?_
    refine (h.expectKeyword hk).bind fun _ l hkl hl => ?_
    refine (h.parseArms hl.held (List.forall_mem_nil _)).bind ?_
    rintro arms m hlm ⟨hm, harms⟩
    refine leads_pure ⟨hm, .plain (fun ps body hmem => ?_) ⟨?_, ?_⟩ rfl, rfl⟩
    · exact (harms _ hmem).patterns ps body rfl
    · exact (htk.word subject hsubject).le (Nat.le_trans hjk (Nat.le_trans hkl hlm))
    · exact CaseArm.everyOf_iff.mpr fun a ha => (harms a ha).sound
  · exact leads_unexpected hj.wellFormed

theorem parseArms_succ {acc : List CaseArm} (hi : Held A fresh i)
    (hacc : ∀ a ∈ acc, CaseArm.Fits A i.nextTicket a) :
    Leads (Built A fresh fun t as => ∀ a ∈ as, CaseArm.Fits A t a)
      (Script.parseArms (n + 1) acc) i := by
  rw [parseArms_eq]
  refine (h.skipNewlines hi).bind fun _ j hij hj => ?_
  refine (h.nextToken hj).bind ?_
  rintro tk k hjk ⟨hk, htk⟩
  have hik := Nat.le_trans hij hjk
  have hle : ∀ {l : Input}, i.nextTicket ≤ l.nextTicket →
      ∀ a ∈ acc, CaseArm.Fits A l.nextTicket a := fun hil a ha => (hacc a ha).le hil
  refine .ite (fun _ => ?_) fun _ => ?_
  · exact leads_pure ⟨hk.held, fun a ha => hle hik a (List.mem_reverse.mp ha)⟩
  have hnext : ∀ {arm l}, Held A fresh l → i.nextTicket ≤ l.nextTicket →
      CaseArm.Fits A l.nextTicket arm →
      Leads (Built A fresh fun t as => ∀ a ∈ as, CaseArm.Fits A t a)
        (continueArms n (arm :: acc)) l := by
    intro arm l hl hil harm
    refine (h.nextToken hl).bind ?_
    rintro tk m hlm ⟨hm, _⟩
    have hall : ∀ a ∈ arm :: acc, CaseArm.Fits A m.nextTicket a :=
      List.forall_mem_cons.mpr ⟨harm.le hlm, hle (Nat.le_trans hil hlm)⟩
    refine .ite (fun _ => ?_) fun _ => ?_
    · exact leads_pure ⟨hm.held, fun a ha => hall a (List.mem_reverse.mp ha)⟩
    · split
      · exact h.parseArms hm.held hall
      · exact leads_unexpected hm.wellFormed
  have harm : ∀ {tk l}, Drawn A fresh tk l → i.nextTicket ≤ l.nextTicket →
      Leads (Built A fresh fun t as => ∀ a ∈ as, CaseArm.Fits A t a) (parseArmFrom n acc tk) l := by
    rintro tk l ⟨hl, htk⟩ hil
    refine (h.parsePatterns hl htk (List.forall_mem_nil _)).bind ?_
    rintro patterns m hlm ⟨hm, hne, hpatterns⟩
    refine (h.skipNewlines hm).bind fun _ o hmo ho => ?_
    refine (h.peekToken ho).bind ?_
    rintro peeked p hop ⟨hp, _⟩
    have hmp := Nat.le_trans hmo hop
    have hip := Nat.le_trans hil (Nat.le_trans hlm hmp)
    have hword : ∀ {t}, m.nextTicket ≤ t → Word.EveryOf (Node.SoundAt A t) false patterns :=
      fun hmt => Word.everyOf_iff.mpr fun w hw => (hpatterns w hw).le hmt
    have hne : ∀ {body} ps body', CaseArm.mk patterns body = .mk ps body' → ps ≠ [] :=
      fun _ _ heq => (CaseArm.mk.inj heq).1 ▸ hne
    have hempty : CaseArm.Fits A p.nextTicket (.mk patterns none) := ⟨hword hmp, hne⟩
    split
    · exact hnext hp hip hempty
    · refine .ite (fun _ => hnext hp hip hempty) fun _ => ?_
      refine (h.parseInner hp).bind ?_
      rintro body q hpq ⟨hq, hbody⟩
      have hfull : CaseArm.Fits A q.nextTicket (.mk patterns (some body)) :=
        ⟨⟨hword (Nat.le_trans hmp hpq), hbody⟩, hne⟩
      exact hnext hq (Nat.le_trans hip hpq) hfull
  refine .ite (fun _ => ?_) fun _ => harm ⟨hk, htk⟩ hik
  exact (h.nextToken hk.held).bind fun tk' l hkl hl => harm hl (Nat.le_trans hik hkl)

theorem parsePatterns_succ {acc : List Word} {tk : Token} (hi : Clear A fresh i)
    (htk : tk.InHand A i) (hacc : ∀ w ∈ acc, Word.Sound A i.nextTicket w) :
    Leads (Built A fresh fun t ws => ws ≠ [] ∧ ∀ w ∈ ws, Word.Sound A t w)
      (Script.parsePatterns (n + 1) acc tk) i := by
  unfold Script.parsePatterns
  split
  · rename_i w hw
    refine (h.nextToken hi.held).bind ?_
    rintro separator j hij ⟨hj, _⟩
    have hall : ∀ v ∈ w :: acc, Word.Sound A j.nextTicket v := fun v hv =>
      (List.forall_mem_cons.mpr ⟨htk.word w hw, hacc⟩ v hv).le hij
    split
    · refine (h.nextToken hj.held).bind ?_
      rintro tk' k hjk ⟨hk, htk'⟩
      exact h.parsePatterns hk htk' fun v hv => (hall v hv).le hjk
    · refine leads_pure ⟨hj.held, ?_, fun v hv => hall v (List.mem_reverse.mp hv)⟩
      exact fun hnil => List.cons_ne_nil _ _ (List.reverse_eq_nil_iff.mp hnil)
    · exact leads_unexpected hj.wellFormed
  · exact leads_unexpected hi.wellFormed

theorem succ : TreesSound A (n + 1) where
  readParts := h.readParts_succ
  readDoubleQuoted := h.readDoubleQuoted_succ
  readDollar := h.readDollar_succ
  readBracedParam := h.readBracedParam_succ
  readArithmetic := h.readArithmetic_succ
  readBackQuoted := h.readBackQuoted_succ
  readHereDocs := h.readHereDocs_succ
  readPending := h.readPending_succ
  nextToken := h.nextToken_succ
  peekToken := h.peekToken_succ
  expectKeyword := h.expectKeyword_succ
  skipNewlines := h.skipNewlines_succ
  expandAlias := h.expandAlias_succ
  commandToken := h.commandToken_succ
  parseTop := h.parseTop_succ
  parseAllFrom := h.parseAllFrom_succ
  parseSubstitution := h.parseSubstitution_succ
  parseInner := h.parseInner_succ
  parseList := h.parseList_succ
  parseAndOr := h.parseAndOr_succ
  parseAndOrRest := h.parseAndOrRest_succ
  parsePipeline := h.parsePipeline_succ
  parseStages := h.parseStages_succ
  parseCommandAt := h.parseCommandAt_succ
  closeCompound := h.closeCompound_succ
  parseSimple := h.parseSimple_succ
  parseFunction := h.parseFunction_succ
  parseRedirect := h.parseRedirect_succ
  parseRedirects := h.parseRedirects_succ
  parseIf := h.parseIf_succ
  parseLoop := h.parseLoop_succ
  parseFor := h.parseFor_succ
  parseItems := h.parseItems_succ
  parseCase := h.parseCase_succ
  parseArms := h.parseArms_succ
  parsePatterns := h.parsePatterns_succ

end TreesSound

/-- All trees that are read are sound. -/
theorem treesSound (A : Table Text) (n : Nat) : TreesSound A n := by
  induction n with
  | zero => exact .zero A
  | succ n ih => exact ih.succ

end CommandShell.Script
