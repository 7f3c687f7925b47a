import CommandShell.Proofs.Trees.Orderly

/-!
# Words and tokens of sound trees

Words hold commands, and commands are made of words, so that one statement says of all functions
that read them that the trees they give are sound, and where these may stand (`TreesSound`). Here
its part about words and tokens is passed from `n` steps to `n + 1`.
-/

namespace CommandShell.Script

open Reader

variable {α β : Type} {A : Table Text} {fresh : Prop} {i j : Input} {n : Nat}

/-- No token is in hand, and the value may stand in the tree. -/
def Found (A : Table Text) (fresh : Prop) (S : Nat → α → Prop) (a : α) (j : Input) : Prop :=
  Clear A fresh j ∧ S j.nextTicket a

/-- A token may have been put back, and the value may stand in the tree. -/
def Built (A : Table Text) (fresh : Prop) (S : Nat → α → Prop) (a : α) (j : Input) : Prop :=
  Held A fresh j ∧ S j.nextTicket a

/-- The token was taken, and is in hand. -/
def Drawn (A : Table Text) (fresh : Prop) (tk : Token) (j : Input) : Prop :=
  Clear A fresh j ∧ tk.InHand A j

/-- The node is sound, and of a kind that may stand there. -/
structure Node.Fits (A : Table Text) (s : Shape → Bool) (t : Nat) (n : Node) : Prop where
  sound : n.Sound A t
  shape : s n.shape = true

/-- The arm is sound and has a pattern. -/
structure CaseArm.Fits (A : Table Text) (t : Nat) (a : CaseArm) : Prop where
  sound : a.Sound A t
  patterns : ∀ ps body, a = .mk ps body → ps ≠ []

/-- What was read of a simple command so far. -/
structure SimpleSoFar (A : Table Text) (t : Nat) (as ws : List Word) (rs : List Redirect) :
    Prop where
  assigns : ∀ w ∈ as, w.Sound A t ∧ w.Assigns
  argv : ∀ w ∈ ws, w.Sound A t
  redirects : ∀ r ∈ rs, r.Sound A t

/-- All trees that are read with `n` steps are sound. -/
structure TreesSound (A : Table Text) (n : Nat) : Prop where
  readParts : ∀ {fresh ctx start depth ps i}, Clear A fresh i →
    (∀ p ∈ ps, p.Sound A i.nextTicket) →
    Leads (Found A fresh fun t ps => ∀ p ∈ ps, p.Sound A t) (readParts ctx start n depth ps) i
  readDoubleQuoted : ∀ {fresh start ps i}, Clear A fresh i →
    (∀ p ∈ ps, p.Sound A i.nextTicket) →
    Leads (Found A fresh fun t ps => ∀ p ∈ ps, p.Sound A t) (readDoubleQuoted start n ps) i
  readDollar : ∀ {fresh q i}, Clear A fresh i →
    Leads (Found A fresh fun t p? => ∀ p ∈ p?, p.Sound A t) (readDollar n q) i
  readBracedParam : ∀ {fresh q i}, Clear A fresh i →
    Leads (Found A fresh fun t p => p.Sound A t) (readBracedParam n q) i
  readArithmetic : ∀ {fresh start depth ps i}, Clear A fresh i →
    (∀ p ∈ ps, p.Sound A i.nextTicket) →
    Leads (Found A fresh fun t ps => ∀ p ∈ ps, p.Sound A t) (readArithmetic start n depth ps) i
  readBackQuoted : ∀ {fresh q start i}, Clear A fresh i →
    Leads (Found A fresh fun t p => p.Sound A t) (readBackQuoted n q start) i
  readHereDocs : ∀ {fresh reqs i}, Owing A fresh reqs i →
    Leads (fun _ j => Clear A fresh j ∧ j.pending = []) (readHereDocs n reqs) i
  readPending : ∀ {fresh i}, Clear A fresh i →
    Leads (fun _ j => Clear A fresh j ∧ j.pending = []) (readPending n) i
  nextToken : ∀ {fresh i}, Held A fresh i →
    Leads (Drawn A fresh) (nextToken n) i
  peekToken : ∀ {fresh i}, Held A fresh i →
    Leads (fun tk j => Held A fresh j ∧ j.pushback = some tk) (peekToken n) i
  expectKeyword : ∀ {fresh kw i}, Held A fresh i →
    Leads (fun _ j => Clear A fresh j) (expectKeyword kw n) i
  skipNewlines : ∀ {fresh i}, Held A fresh i → Leads (fun _ j => Held A fresh j) (skipNewlines n) i
  expandAlias : ∀ {fresh tk i}, Clear A fresh i → tk.InHand A i →
    Leads (Drawn A fresh) (expandAlias n tk) i
  commandToken : ∀ {fresh i}, Held A fresh i →
    Leads (Drawn A fresh) (commandToken n) i
  parseTop : ∀ {fresh i}, Held A fresh i →
    Leads (fun p j => (Held A fresh j ∧ j.AtLineEnd) ∧ ∀ n, p = .command n →
      n.Every (fun _ m => m.WellFormed) false ∧ (fresh → n.Sound A 0))
      (parseTop n) i
  parseAllFrom : ∀ {acc i}, Held A True i → (∀ n ∈ acc, n.Sound A 0) →
    Leads (fun ns _ => ∀ n ∈ ns, n.Sound A 0) (parseAllFrom n acc) i
  parseSubstitution : ∀ {fresh i}, Clear A fresh i →
    Leads (Found A fresh fun t n? => ∀ n ∈ n?, n.Sound A t) (parseSubstitution n) i
  parseInner : ∀ {fresh i}, Held A fresh i →
    Leads (Built A fresh fun t n => n.Sound A t) (parseInner n) i
  parseList : ∀ {fresh top acc i}, Held A fresh i → (∀ n ∈ acc, n.Sound A i.nextTicket) →
    Leads (fun n j => Built A fresh (fun t n => n.Sound A t) n j ∧ (top = true → j.AtLineEnd))
      (parseList top n acc) i
  parseAndOr : ∀ {fresh i}, Held A fresh i →
    Leads (Built A fresh (Node.Fits A Shape.isAndOr)) (parseAndOr n) i
  parseAndOrRest : ∀ {fresh left i}, Held A fresh i →
    Node.Fits A Shape.isAndOr i.nextTicket left →
    Leads (Built A fresh (Node.Fits A Shape.isAndOr)) (parseAndOrRest n left) i
  parsePipeline : ∀ {fresh i}, Held A fresh i →
    Leads (Built A fresh (Node.Fits A Shape.isPipeline)) (parsePipeline n) i
  parseStages : ∀ {fresh acc i}, Held A fresh i → acc ≠ [] →
    (∀ n ∈ acc, Node.Fits A Shape.isCommand i.nextTicket n) →
    Leads (Built A fresh fun t ns => ns ≠ [] ∧ ∀ n ∈ ns, Node.Fits A Shape.isCommand t n)
      (parseStages n acc) i
  parseCommandAt : ∀ {fresh tk i}, Clear A fresh i → tk.InHand A i →
    Leads (Built A fresh fun t n => Node.Fits A Shape.isCommand t n ∧
      (tk.StartsCompound → n.shape.isBody = true)) (parseCommandAt n tk) i
  closeCompound : ∀ {fresh line body i}, Held A fresh i → body.Sound A i.nextTicket →
    body.shape = .compound →
    Leads (Built A fresh (Node.Fits A Shape.isBody)) (closeCompound n line body) i
  parseSimple : ∀ {fresh line as ws rs tk i}, Clear A fresh i → Token.InHand A i tk →
    SimpleSoFar A i.nextTicket as ws rs → (tk.InSimple ∨ as ≠ [] ∨ ws ≠ [] ∨ rs ≠ []) →
    Leads (Built A fresh (Node.Fits A Shape.isCommand)) (parseSimple n line as ws rs tk) i
  parseFunction : ∀ {fresh name line i}, Held A fresh i →
    Leads (Built A fresh (Node.Fits A Shape.isCommand)) (parseFunction n name line) i
  parseRedirect : ∀ {fresh fd op i}, Clear A fresh i →
    Leads (Found A fresh fun t r => r.Sound A t) (parseRedirect n fd op) i
  parseRedirects : ∀ {fresh acc i}, Held A fresh i → (∀ r ∈ acc, r.Sound A i.nextTicket) →
    Leads (Built A fresh fun t rs => ∀ r ∈ rs, r.Sound A t) (parseRedirects n acc) i
  parseIf : ∀ {fresh line i}, Held A fresh i →
    Leads (Built A fresh (Node.Fits A (· == .compound))) (parseIf n line) i
  parseLoop : ∀ {fresh isWhile line i}, Held A fresh i →
    Leads (Built A fresh (Node.Fits A (· == .compound))) (parseLoop n isWhile line) i
  parseFor : ∀ {fresh line i}, Held A fresh i →
    Leads (Built A fresh (Node.Fits A (· == .compound))) (parseFor n line) i
  parseItems : ∀ {fresh acc i}, Held A fresh i → (∀ w ∈ acc, w.Sound A i.nextTicket) →
    Leads (Built A fresh fun t ws => ∀ w ∈ ws, w.Sound A t) (parseItems n acc) i
  parseCase : ∀ {fresh line i}, Held A fresh i →
    Leads (Built A fresh (Node.Fits A (· == .compound))) (parseCase n line) i
  parseArms : ∀ {fresh acc i}, Held A fresh i → (∀ a ∈ acc, CaseArm.Fits A i.nextTicket a) →
    Leads (Built A fresh fun t as => ∀ a ∈ as, CaseArm.Fits A t a) (parseArms n acc) i
  parsePatterns : ∀ {fresh acc tk i}, Clear A fresh i → Token.InHand A i tk →
    (∀ w ∈ acc, w.Sound A i.nextTicket) →
    Leads (Built A fresh fun t ws => ws ≠ [] ∧ ∀ w ∈ ws, w.Sound A t) (parsePatterns n acc tk) i

/-! ## Parts -/

namespace PartsSoFar

variable {P : Bool → Node → Prop} {d : Bool} {ps : PartsSoFar}

theorem literal_every (h : ∀ p ∈ ps, p.Every P d) (c : Char) : ∀ p ∈ ps.literal c, p.Every P d := by
  unfold literal
  split
  · exact List.forall_mem_cons.mpr ⟨trivial, (List.forall_mem_cons.mp h).2⟩
  · exact List.forall_mem_cons.mpr ⟨trivial, h⟩

theorem escaped_every (h : ∀ p ∈ ps, p.Every P d) (c : Char) : ∀ p ∈ ps.escaped c, p.Every P d := by
  unfold escaped
  split
  · exact List.forall_mem_cons.mpr ⟨trivial, (List.forall_mem_cons.mp h).2⟩
  · exact List.forall_mem_cons.mpr ⟨trivial, h⟩

theorem sealed_every (h : ∀ p ∈ ps, p.Every P d) : ∀ p ∈ ps.sealed, p.Every P d := by
  intro p hp
  obtain ⟨p', hp', rfl⟩ := List.mem_map.mp hp
  have hevery := h p' (List.mem_reverse.mp hp')
  split
  · trivial
  · trivial
  · exact hevery

end PartsSoFar

/-- What holds of commands in a row holds of all commands in their list, if it holds of lists. -/
theorem Node.every_ofList {P : Bool → Node → Prop} {d : Bool} {ns : List Node}
    (hP : ∀ left right : Node, P d (.mk (.list left right) left.line))
    (hns : ∀ n ∈ ns, n.Every P d) : ∀ n ∈ Node.ofList ns, n.Every P d := by
  intro node hnode
  cases ns with
  | nil => exact nomatch hnode
  | cons first rest =>
      obtain rfl := Option.some.inj hnode
      obtain ⟨hfirst, hrest⟩ := List.forall_mem_cons.mp hns
      clear hns hnode
      induction rest generalizing first with
      | nil => exact hfirst
      | cons second rest ih =>
          obtain ⟨hsecond, hrest⟩ := List.forall_mem_cons.mp hrest
          exact ih _ ⟨hP first second, hfirst, hsecond⟩ hrest

theorem Word.sound_mk {t : Nat} {text : Text} {ps : List Part} {line : Nat}
    (h : ∀ p ∈ ps, Part.Sound A t p) : (Word.mk text ps line).Sound A t :=
  Part.everyOf_iff.mpr h

namespace TreesSound

theorem zero (A : Table Text) : TreesSound A 0 := by
  constructor
  case readHereDocs => exact fun h => leads_outOfSteps h.clear.wellFormed
  all_goals intros
  all_goals first
    | exact leads_outOfSteps (Clear.toOrderly ‹_›).wellFormed
    | exact leads_outOfSteps (Held.toOrderly ‹_›).wellFormed

variable (h : TreesSound A n)
include h

theorem readParts_succ {ctx : WordContext} {start depth : Nat} {ps : PartsSoFar}
    (hi : Clear A fresh i) (hps : ∀ p ∈ ps, Part.Sound A i.nextTicket p) :
    Leads (Found A fresh fun t ps => ∀ p ∈ ps, Part.Sound A t p)
      (Script.readParts ctx start (n + 1) depth ps) i := by
  have hle : ∀ {l : Input}, i.nextTicket ≤ l.nextTicket → ∀ p ∈ ps, Part.Sound A l.nextTicket p :=
    fun hil p hp => (hps p hp).le hil
  -- the rest of the word, with one more part or with one more character
  have hpart : ∀ {l depth' p}, Clear A fresh l → i.nextTicket ≤ l.nextTicket →
      Part.Sound A l.nextTicket p →
      Leads (Found A fresh fun t ps => ∀ p ∈ ps, Part.Sound A t p)
        (Script.readParts ctx start n depth' (p :: ps)) l :=
    fun hl hil hp => h.readParts hl (List.forall_mem_cons.mpr ⟨hp, hle hil⟩)
  have hliteral : ∀ {l depth' c}, Clear A fresh l → i.nextTicket ≤ l.nextTicket →
      Leads (Found A fresh fun t ps => ∀ p ∈ ps, Part.Sound A t p)
        (Script.readParts ctx start n depth' (ps.literal c)) l :=
    fun hl hil => h.readParts hl (PartsSoFar.literal_every (hle hil) _)
  unfold Script.readParts
  refine (Clear.leads hi).bind fun c j hij hj => ?_
  cases c with
  | none =>
      refine .ite (fun _ => leads_unterminated hj.wellFormed) fun _ => ?_
      exact leads_pure ⟨hj, PartsSoFar.sealed_every (hle hij)⟩
  | some c =>
      refine .ite (fun _ => leads_pure ⟨hj, PartsSoFar.sealed_every (hle hij)⟩) fun _ => ?_
      refine (Clear.leads hj).bind fun _ l hjl hl => ?_
      have hil := Nat.le_trans hij hjl
      refine .ite (fun _ => ?_) fun _ => ?_
      · cases depth with
        | zero => exact leads_pure ⟨hl, PartsSoFar.sealed_every (hle hil)⟩
        | succ depth => exact hliteral hl hil
      refine .ite (fun _ => hliteral hl hil) fun _ => ?_
      refine .ite (fun _ => ?_) fun _ => ?_
      · refine (Clear.leads hl).bind fun d m hlm hm => ?_
        have him := Nat.le_trans hil hlm
        split
        · exact h.readParts hm (hle him)
        · refine .ite (fun _ => ?_) fun _ => ?_
          · exact h.readParts hm (PartsSoFar.escaped_every (hle him) _)
          · exact h.readParts hm (PartsSoFar.literal_every
              (PartsSoFar.literal_every (hle him) _) _)
        · exact hliteral hm him
      refine .ite (fun _ => ?_) fun _ => ?_
      · exact (Clear.leads hl).bind fun t m hlm hm => hpart hm (Nat.le_trans hil hlm) trivial
      refine .ite (fun _ => ?_) fun _ => ?_
      · refine (h.readDoubleQuoted hl (List.forall_mem_nil _)).bind ?_
        rintro qs m hlm ⟨hm, hqs⟩
        exact hpart hm (Nat.le_trans hil hlm) (Part.everyOf_iff.mpr hqs)
      refine .ite (fun _ => ?_) fun _ => ?_
      · refine (h.readDollar hl).bind ?_
        rintro p m hlm ⟨hm, hp⟩
        have him := Nat.le_trans hil hlm
        cases p with
        | some p => exact hpart hm him (hp p rfl)
        | none => exact hliteral hm him
      refine .ite (fun _ => ?_) fun _ => hliteral hl hil
      refine (h.readBackQuoted hl).bind ?_
      rintro p m hlm ⟨hm, hp⟩
      exact hpart hm (Nat.le_trans hil hlm) hp

theorem readDoubleQuoted_succ {start : Nat} {ps : PartsSoFar} (hi : Clear A fresh i)
    (hps : ∀ p ∈ ps, Part.Sound A i.nextTicket p) :
    Leads (Found A fresh fun t ps => ∀ p ∈ ps, Part.Sound A t p)
      (Script.readDoubleQuoted start (n + 1) ps) i := by
  have hle : ∀ {l : Input}, i.nextTicket ≤ l.nextTicket → ∀ p ∈ ps, Part.Sound A l.nextTicket p :=
    fun hil p hp => (hps p hp).le hil
  have hliteral : ∀ {l c}, Clear A fresh l → i.nextTicket ≤ l.nextTicket →
      Leads (Found A fresh fun t ps => ∀ p ∈ ps, Part.Sound A t p)
        (Script.readDoubleQuoted start n (ps.literal c)) l :=
    fun hl hil => h.readDoubleQuoted hl (PartsSoFar.literal_every (hle hil) _)
  unfold Script.readDoubleQuoted
  refine (Clear.leads hi).bind fun c j hij hj => ?_
  split
  · exact leads_unterminated hj.wellFormed
  · exact leads_pure ⟨hj, PartsSoFar.sealed_every (hle hij)⟩
  · refine (Clear.leads hj).bind fun d l hjl hl => ?_
    have hil := Nat.le_trans hij hjl
    split
    · exact h.readDoubleQuoted hl (hle hil)
    · refine .ite (fun _ => hliteral hl hil) fun _ => ?_
      exact h.readDoubleQuoted hl (PartsSoFar.literal_every
        (PartsSoFar.literal_every (hle hil) _) _)
    · exact leads_unterminated hl.wellFormed
  · refine (h.readDollar hj).bind ?_
    rintro p l hjl ⟨hl, hp⟩
    have hil := Nat.le_trans hij hjl
    cases p with
    | some p => exact h.readDoubleQuoted hl (List.forall_mem_cons.mpr ⟨hp p rfl, hle hil⟩)
    | none => exact hliteral hl hil
  · refine (h.readBackQuoted hj).bind ?_
    rintro p l hjl ⟨hl, hp⟩
    have hil := Nat.le_trans hij hjl
    exact h.readDoubleQuoted hl (List.forall_mem_cons.mpr ⟨hp, hle hil⟩)
  · exact hliteral hj hij

theorem readDollar_succ {q : Bool} (hi : Clear A fresh i) :
    Leads (Found A fresh fun t p? => ∀ p ∈ p?, Part.Sound A t p)
      (Script.readDollar (n + 1) q) i := by
  have hsome : ∀ {l : Input} {p : Part}, Clear A fresh l → p.Sound A l.nextTicket →
      Leads (Found A fresh fun t p? => ∀ p ∈ p?, Part.Sound A t p) (pure (some p)) l :=
    fun hl hp => leads_pure ⟨hl, fun _ h => Option.some.inj h ▸ hp⟩
  have hnone : ∀ {l : Input}, Clear A fresh l →
      Leads (Found A fresh fun t p? => ∀ p ∈ p?, Part.Sound A t p) (pure none) l :=
    fun hl => leads_pure ⟨hl, fun _ h => nomatch h⟩
  unfold Script.readDollar
  refine (Clear.leads hi).bind fun c j hij hj => ?_
  cases c with
  | none => exact hnone hj
  | some c =>
      refine .ite (fun _ => ?_) fun _ => ?_
      · refine (Clear.leads hj).bind fun _ l _ hl => ?_
        refine (h.readBracedParam hl).bind ?_
        rintro p m _ ⟨hm, hp⟩
        exact hsome hm hp
      refine .ite (fun _ => ?_) fun _ => ?_
      · refine (Clear.leads hj).bind fun _ l _ hl => ?_
        refine (Clear.leads hl).bind fun d m _ hm => ?_
        refine .ite (fun _ => ?_) fun _ => ?_
        · refine (Clear.leads hm).bind fun _ o _ ho => (Clear.leads ho).bind fun _ p _ hp => ?_
          refine (h.readArithmetic hp (List.forall_mem_nil _)).bind ?_
          rintro ps q _ ⟨hq, hps⟩
          exact hsome hq (Part.everyOf_iff.mpr hps)
        · refine (h.parseSubstitution hm).bind ?_
          rintro body o _ ⟨ho, hbody⟩
          cases body with
          | none => exact hsome ho trivial
          | some body => exact hsome ho (hbody body rfl)
      refine .ite (fun _ => ?_) fun _ => ?_
      · exact (Clear.leads hj).bind fun t l _ hl => hsome hl trivial
      refine .ite (fun _ => ?_) fun _ => hnone hj
      exact (Clear.leads hj).bind fun _ l _ hl => hsome hl trivial

/-- What follows `${`, from the first character of the name on. -/
theorem readParamRest_leads {q isLength : Bool} {first : Char} (hi : Clear A fresh i) :
    Leads (Found A fresh fun t p => Part.Sound A t p)
      (Suffices.readParamRest n q isLength first) i := by
  have hbad : ∀ {f : PUnit → Reader Part} {l : Input}, Clear A fresh l →
      Leads (Found A fresh fun t p => Part.Sound A t p) (badSubstitution >>= f) l :=
    fun hl => hl.wellFormed
  -- from the operator on
  have hop : ∀ {name : Text} {colon : Bool} {c l}, Clear A fresh l →
      Leads (Found A fresh fun t p => Part.Sound A t p) (do
        let op ← readParamOp c
        let arg ← Script.readParts (.paramArg q) (← line) n 0 []
        return Part.param name op colon arg q) l := by
    intro name colon c l hl
    refine (Clear.leads hl).bind fun op m _ hm => (Clear.leads hm).bind fun _ o _ ho => ?_
    refine (h.readParts ho (List.forall_mem_nil _)).bind ?_
    rintro arg p _ ⟨hp, harg⟩
    exact leads_pure ⟨hp, Part.everyOf_iff.mpr harg⟩
  refine (Clear.leads hi).bind fun name j _ hj => (Clear.leads hj).bind fun c l _ hl => ?_
  refine .ite (fun _ => leads_pure ⟨hl, trivial⟩) fun _ => .ite (fun _ => hbad hl) fun _ => ?_
  refine .ite (fun _ => ?_) fun _ => .ite (fun _ => hbad hl) fun _ => hop hl
  refine (Clear.leads hl).bind fun d m _ hm => ?_
  exact .ite (fun _ => hbad hm) fun _ => hop hm

theorem readBracedParam_succ {q : Bool} (hi : Clear A fresh i) :
    Leads (Found A fresh fun t p => Part.Sound A t p) (Script.readBracedParam (n + 1) q) i := by
  unfold Script.readBracedParam
  refine (Clear.leads hi).bind fun first j _ hj => ?_
  refine .ite (fun _ => ?_) fun _ => h.readParamRest_leads hj
  refine (Clear.leads hj).bind fun c l _ hl => ?_
  refine .ite (fun _ => ?_) fun _ => h.readParamRest_leads hl
  exact (Clear.leads hl).bind fun d m _ hm => h.readParamRest_leads hm

theorem readArithmetic_succ {start depth : Nat} {ps : PartsSoFar} (hi : Clear A fresh i)
    (hps : ∀ p ∈ ps, Part.Sound A i.nextTicket p) :
    Leads (Found A fresh fun t ps => ∀ p ∈ ps, Part.Sound A t p)
      (Script.readArithmetic start (n + 1) depth ps) i := by
  have hle : ∀ {l : Input}, i.nextTicket ≤ l.nextTicket → ∀ p ∈ ps, Part.Sound A l.nextTicket p :=
    fun hil p hp => (hps p hp).le hil
  have hpart : ∀ {l depth' p}, Clear A fresh l → i.nextTicket ≤ l.nextTicket →
      Part.Sound A l.nextTicket p →
      Leads (Found A fresh fun t ps => ∀ p ∈ ps, Part.Sound A t p)
        (Script.readArithmetic start n depth' (p :: ps)) l :=
    fun hl hil hp => h.readArithmetic hl (List.forall_mem_cons.mpr ⟨hp, hle hil⟩)
  have hliteral : ∀ {l depth' c}, Clear A fresh l → i.nextTicket ≤ l.nextTicket →
      Leads (Found A fresh fun t ps => ∀ p ∈ ps, Part.Sound A t p)
        (Script.readArithmetic start n depth' (ps.literal c)) l :=
    fun hl hil => h.readArithmetic hl (PartsSoFar.literal_every (hle hil) _)
  unfold Script.readArithmetic
  refine (Clear.leads hi).bind fun c j hij hj => ?_
  split
  · exact leads_unterminated hj.wellFormed
  · exact hliteral hj hij
  · cases depth with
    | succ depth => exact hliteral hj hij
    | zero =>
        refine (Clear.leads hj).bind fun d l hjl hl => ?_
        refine .ite (fun _ => ?_) fun _ => leads_fail hl.wellFormed
        exact leads_pure ⟨hl, PartsSoFar.sealed_every (hle (Nat.le_trans hij hjl))⟩
  · refine (h.readDollar hj).bind ?_
    rintro p l hjl ⟨hl, hp⟩
    have hil := Nat.le_trans hij hjl
    cases p with
    | some p => exact hpart hl hil (hp p rfl)
    | none => exact hliteral hl hil
  · refine (h.readBackQuoted hj).bind ?_
    rintro p l hjl ⟨hl, hp⟩
    exact hpart hl (Nat.le_trans hij hjl) hp
  · refine (Clear.leads hj).bind fun d l hjl hl => ?_
    have hil := Nat.le_trans hij hjl
    split
    · exact h.readArithmetic hl (hle hil)
    · exact h.readArithmetic hl (hle hil)
    · exact h.readArithmetic hl (PartsSoFar.escaped_every (hle hil) _)
  · exact (Clear.leads hj).bind fun t l hjl hl => hpart hl (Nat.le_trans hij hjl) trivial
  · refine (h.readDoubleQuoted hj (List.forall_mem_nil _)).bind ?_
    rintro qs l hjl ⟨hl, hqs⟩
    exact hpart hl (Nat.le_trans hij hjl) (Part.everyOf_iff.mpr hqs)
  · exact hliteral hj hij

omit h in
/-- Commands in a row are sound together. -/
theorem sound_ofList {t : Nat} {ns : List Node} (hns : ∀ n ∈ ns, Node.Sound A t n) :
    ∀ n ∈ Node.ofList ns, Node.Sound A t n := by
  apply Node.every_ofList _ hns
  intro left right
  have hnone : ∀ r, r ∉ (Node.mk (.list left right) left.line).redirects :=
    fun _ => List.not_mem_nil
  exact ⟨⟨trivial, fun r hr => absurd hr (hnone r)⟩, fun _ r hr => absurd hr (hnone r)⟩

theorem readBackQuoted_succ {q : Bool} {start : Nat} (hi : Clear A fresh i) :
    Leads (Found A fresh fun t p => Part.Sound A t p)
      (Script.readBackQuoted (n + 1) q start) i := by
  unfold Script.readBackQuoted
  refine meets_line.mpr (meets_get.mpr ?_)
  refine (Clear.leads hi).bind fun t j _ hj => meets_get.mpr ?_
  have hsub := (nested_clear hj.aliases i.inUse t i.line).held
  have hscript := leads_withInput hj.wellFormed (h.parseAllFrom hsub (List.forall_mem_nil _))
  refine hscript.bind ?_
  rintro a k _ ⟨⟨_, hnodes⟩, hk⟩
  refine leads_pure ⟨hj.of_docs hk, ?_⟩
  cases hlist : Node.ofList a.1 with
  | none => exact trivial
  | some node => exact (sound_ofList hnodes node hlist).le (Nat.zero_le _)

omit h in
/-- A body that was read by itself. -/
theorem isBody_of_read {within : List Text} {expanded : List AliasUse} {raw : Text}
    {start : Nat} {ps : List Part} (hj : Clear A True j)
    (hps : ∀ p ∈ ps, Part.Sound A j.nextTicket p)
    (hread : (Script.readParts .hereDoc start n 0 []).on
      { Input.ofText raw start A with within, expanded } = (.ok ps, j)) :
    (Word.mk raw (Part.fillAll j.bodies ps) start).IsBody A where
  wellFormed := Part.EveryOf.fill (hj.carries _ true) (Part.everyOf_iff.mpr hps)
  settles := by
    intro hleave hdocs
    have hpending : Part.fillAll j.bodies ps = [.singleQuoted raw] ∨ j.pending = [] :=
      hleave.imp id fun hleave => hleave within expanded n ps j hread
    rcases hpending with hquoted | hnone
    · show Part.EveryOf _ _ (Part.fillAll j.bodies ps)
      rw [hquoted]
      exact ⟨trivial, trivial⟩
    · have hcomplete := hj.complete trivial hnone
      have hsound : (Word.mk raw (Part.fillAll j.bodies ps) start).Sound A 0 :=
        Part.EveryOf.fill hcomplete.carries (Part.everyOf_iff.mpr hps)
      have hleaves : (Word.mk raw (Part.fillAll j.bodies ps) start).Every (DocsLeave A) false :=
        Word.Every.elsewhere hdocs
      exact Word.Every.elsewhere (Word.Every.filled hsound hleaves)

omit h in
/-- A body of plain text. -/
theorem isBody_singleQuoted (raw : Text) (start : Nat) :
    (Word.mk raw [.singleQuoted raw] start).IsBody A :=
  ⟨⟨trivial, trivial⟩, fun _ _ => ⟨trivial, trivial⟩⟩

theorem readHereDocs_succ {reqs : List HereDocRequest} (hi : Owing A fresh reqs i) :
    Leads (fun _ j => Clear A fresh j ∧ j.pending = []) (Script.readHereDocs (n + 1) reqs) i := by
  cases reqs with
  | nil => exact leads_pure hi.done
  | cons req reqs =>
      unfold Script.readHereDocs
      refine meets_line.mpr (meets_get.mpr ?_)
      have hlines : Leads (fun _ j => Owing A fresh (req :: reqs) j)
          (readHereDocLines req n []) i :=
        Steady.leads hi.wellFormed fun _ _ _ hdocs => hi.of_docs hdocs
      refine hlines.bind fun raw j _ hj => meets_get.mpr ?_
      refine .ite (fun _ => ?_) fun _ => ?_
      · exact h.readHereDocs (hj.body (isBody_singleQuoted raw i.line))
      have hsub := nested_clear hj.aliases i.inUse raw i.line
      have hparts : Leads _ (Script.readParts .hereDoc i.line n 0 []) _ :=
        h.readParts hsub (List.forall_mem_nil _)
      refine (leads_withInput hj.wellFormed hparts).bind ?_
      rintro ⟨ps, sub⟩ k - ⟨⟨hread, hsub', hps⟩, hk⟩
      have hrun : (Script.readParts .hereDoc i.line n 0 []).on
          { Input.ofText raw i.line A with within := i.inUse, expanded := j.expanded }
          = (.ok ps, sub) := by
        rw [← hj.aliases]
        exact hread
      exact h.readHereDocs ((hj.of_docs hk).body (isBody_of_read hsub' hps hrun))

theorem readPending_succ (hi : Clear A fresh i) :
    Leads (fun _ j => Clear A fresh j ∧ j.pending = []) (Script.readPending (n + 1)) i := by
  unfold Script.readPending
  exact meets_get.mpr (h.readHereDocs (i := { i with pending := [] }) ⟨hi.of_docs rfl, rfl⟩)

/-! ## Tokens -/

omit h in
/-- A token that was put back is in hand again. -/
theorem nextToken_held {tk : Token} (hi : Held A fresh i) (hp : i.pushback = some tk) :
    Leads (fun tk' j => tk' = tk ∧ Drawn A fresh tk j) (Script.nextToken n) i := by
  cases n with
  | zero => exact leads_outOfSteps hi.wellFormed
  | succ n =>
      unfold Leads Meets
      rw [Suffices.nextToken_pushback hp]
      have htk := hi.hand tk hp
      exact ⟨Nat.le_refl _, rfl, ⟨{ hi.toOrderly with }, rfl⟩, htk.word, htk.drained⟩

theorem nextToken_succ (hi : Held A fresh i) :
    Leads (Drawn A fresh) (Script.nextToken (n + 1)) i := by
  cases hp : i.pushback with
  | some tk =>
      refine (nextToken_held hi hp).mono ?_
      rintro _ j ⟨rfl, hj⟩
      exact hj
  | none =>
      have hi : Clear A fresh i := ⟨hi.toOrderly, hp⟩
      have hoperator : ∀ {j : Input} {r : Reader TokenKind} {line} [Steady r], Clear A fresh j →
          Gives TokenKind.IsOperator r →
          Leads (Drawn A fresh) (do return ⟨← r, line⟩) j := by
        intro j r line _ hj hr
        refine (hj.leads_giving hr).bind ?_
        rintro k l _ ⟨hl, hk⟩
        exact leads_pure ⟨hl, Token.inHand_of_isOperator hk⟩
      have hredirect : ∀ fd, Gives TokenKind.IsOperator (readRedirectOp fd) :=
        fun fd => gives_readRedirectOp fun _ => trivial
      unfold Script.nextToken
      refine meets_get.mpr ?_
      rw [hp]
      refine (Clear.leads hi).bind fun _ j _ hj => meets_line.mpr ?_
      refine (Clear.leads hj).bind fun c k hjk hk => ?_
      split
      · refine (h.readPending hk).bind ?_
        rintro _ l _ ⟨hl, hnone⟩
        exact leads_pure ⟨hl, ⟨fun _ h => (nomatch h), fun _ => hnone⟩⟩
      · refine (Clear.leads hk).bind fun _ l _ hl => ?_
        refine (h.readPending hl).bind ?_
        rintro _ m _ ⟨hm, hnone⟩
        exact leads_pure ⟨hm, ⟨fun _ h => (nomatch h), fun _ => hnone⟩⟩
      · exact hoperator hk (gives_readOperator _ trivial trivial)
      · exact hoperator hk (gives_readOperator _ trivial trivial)
      · exact hoperator hk (gives_readOperator _ trivial trivial)
      · exact (Clear.leads hk).bind fun _ l _ hl =>
          leads_pure ⟨hl, Token.inHand_of_isOperator trivial⟩
      · exact (Clear.leads hk).bind fun _ l _ hl =>
          leads_pure ⟨hl, Token.inHand_of_isOperator trivial⟩
      · exact hoperator hk (hredirect none)
      · exact hoperator hk (hredirect none)
      · refine (Clear.leads hk).bind fun _ l _ hl => ?_
        refine (h.readParts hl (List.forall_mem_nil _)).bind ?_
        rintro ps m _ ⟨hm, hps⟩
        refine (Clear.leads hm).bind fun t o hmo ho => ?_
        have hword : ∀ {q : Input}, Clear A fresh q → o.nextTicket ≤ q.nextTicket →
            Leads (Drawn A fresh)
              (pure ⟨.word (.mk t ps j.line), j.line⟩ : Reader Token) q := by
          intro q hq hoq
          refine leads_pure ⟨hq, ⟨fun w hw => ?_, fun hk => ?_⟩⟩
          · obtain rfl := TokenKind.word.inj hw
            exact Word.sound_mk fun p hp => (hps p hp).le (Nat.le_trans hmo hoq)
          · exact hk.elim (fun h => nomatch h) fun h => nomatch h
        dsimp only
        split
        · refine (Clear.leads ho).bind fun d q hoq hq => ?_
          split
          · exact hoperator hq (hredirect _)
          · exact hoperator hq (hredirect _)
          · exact hword hq hoq
        · exact hword ho (Nat.le_refl _)

theorem peekToken_succ (hi : Held A fresh i) :
    Leads (fun tk j => Held A fresh j ∧ j.pushback = some tk) (Script.peekToken (n + 1)) i := by
  unfold Script.peekToken
  refine (h.nextToken hi).bind ?_
  rintro tk j _ ⟨hj, htk⟩
  exact (hj.leads_pushToken htk).bind fun _ k _ hk => leads_pure hk

theorem expectKeyword_succ {kw : Text} (hi : Held A fresh i) :
    Leads (fun _ j => Clear A fresh j) (Script.expectKeyword kw (n + 1)) i := by
  unfold Script.expectKeyword
  refine (h.nextToken hi).bind ?_
  rintro tk j _ ⟨hj, _⟩
  exact .ite (fun _ => leads_pure hj) fun _ => leads_unexpected hj.wellFormed

theorem skipNewlines_succ (hi : Held A fresh i) :
    Leads (fun _ j => Held A fresh j) (Script.skipNewlines (n + 1)) i := by
  unfold Script.skipNewlines
  refine (h.peekToken hi).bind ?_
  rintro tk j _ ⟨hj, _⟩
  refine .ite (fun _ => ?_) fun _ => leads_pure hj
  refine (h.nextToken hj).bind ?_
  rintro _ k _ ⟨hk, _⟩
  exact h.skipNewlines hk.held

theorem expandAlias_succ {tk : Token} (hi : Clear A fresh i) (htk : tk.InHand A i) :
    Leads (Drawn A fresh) (Script.expandAlias (n + 1) tk) i := by
  unfold Script.expandAlias
  cases tk.literal?.filter fun name => !keywords.contains name with
  | none => exact leads_pure ⟨hi, htk⟩
  | some name =>
      have hlook : Leads (fun _ j => Clear A fresh j ∧ tk.InHand A j) (aliasText? name) i :=
        Steady.leads hi.wellFormed fun _ _ _ hdocs => ⟨hi.of_docs hdocs, htk.of_docs hdocs⟩
      refine hlook.bind ?_
      rintro text j _ ⟨hj, htk⟩
      cases text with
      | none => exact leads_pure ⟨hj, htk⟩
      | some text =>
          refine (Clear.leads hj).bind fun _ k _ hk => ?_
          refine (h.nextToken hk.held).bind ?_
          rintro tk' l _ ⟨hl, htk'⟩
          exact h.expandAlias hl htk'

theorem commandToken_succ (hi : Held A fresh i) :
    Leads (Drawn A fresh) (Script.commandToken (n + 1)) i := by
  have hblank : Leads (fun _ j => Held A fresh j) takeAliasBlank i :=
    Steady.leads hi.wellFormed fun _ _ _ hdocs => hi.of_docs hdocs
  unfold Script.commandToken
  refine hblank.bind fun _ j _ hj => ?_
  refine (h.nextToken hj).bind ?_
  rintro tk k _ ⟨hk, htk⟩
  exact h.expandAlias hk htk

end TreesSound

end CommandShell.Script
