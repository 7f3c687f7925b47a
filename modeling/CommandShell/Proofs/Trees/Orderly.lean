import CommandShell.Proofs.Reading.Commands
import CommandShell.Proofs.Trees.Documents

/-!
# Here-documents while a script is read

Which here-documents are still to be read changes with whole tokens only: what reads characters
leaves them alone (`Steady`). Between tokens the input is in order (`Orderly`): every ticket that
was given out is waited for, or its body was read. Then no token is in hand (`Clear`), or one is
whose words may stand in the tree (`Held`).

After a failure the rest of the line is dropped, and its here-documents with it. Only as long as
that did not happen, the input is fresh, all tickets are known. The bodies are well-formed in any
case.
-/

namespace CommandShell.Script

open Reader

variable {α β : Type} {A : Table Text} {fresh : Prop} {i j : Input}

/-! ## Readers of characters -/

/-- What taking characters does not change: the token that was put back, the here-documents that
wait, those that were read, the next ticket, and the aliases. -/
def Input.docs (i : Input) : Option Token × List HereDocRequest × Bodies × Nat × Table Text :=
  (i.pushback, i.pending, i.bodies, i.nextTicket, i.aliases)

/-- A reader that takes characters only. -/
class Steady (r : Reader α) : Prop where
  docs : ∀ i, (r.on i).2.docs = i.docs

instance steady_pure (a : α) : Steady (pure a : Reader α) := ⟨fun _ => rfl⟩

instance steady_get : Steady (get : Reader Input) := ⟨fun _ => rfl⟩

instance steady_fail (f : Fault) : Steady (fail f : Reader α) := ⟨fun _ => rfl⟩

instance steady_failAt (line : Nat) (f : Fault) : Steady (failAt line f : Reader α) :=
  ⟨fun _ => rfl⟩

instance steady_unterminated (what : Text) (line : Nat) :
    Steady (unterminated what line : Reader α) := ⟨fun _ => rfl⟩

instance steady_badSubstitution : Steady (badSubstitution : Reader α) := ⟨fun _ => rfl⟩

instance steady_outOfSteps : Steady (outOfSteps : Reader α) := ⟨fun _ => rfl⟩

instance steady_unexpected (tk : Token) (expecting : Option Text) :
    Steady (unexpected tk expecting : Reader α) := ⟨fun _ => rfl⟩

instance steady_bind {x : Reader α} {f : α → Reader β} [hx : Steady x] [hf : ∀ a, Steady (f a)] :
    Steady (x >>= f) := by
  constructor
  intro i
  have h := hx.docs i
  rw [Reader.on_bind]
  generalize x.on i = outcome at h
  obtain ⟨r, j⟩ := outcome
  cases r with
  | ok a => exact ((hf a).docs j).trans h
  | error e => exact h

instance steady_ite {c : Prop} [Decidable c] {x y : Reader α} [hx : Steady x] [hy : Steady y] :
    Steady (if c then x else y) := by
  split
  · exact hx
  · exact hy

/-- A reader that looks at the input and may change it. -/
theorem Steady.of_get {f : Input → Reader α} (h : ∀ i, ((f i).on i).2.docs = i.docs) :
    Steady (get >>= f) := ⟨h⟩

instance steady_line : Steady line := ⟨fun _ => rfl⟩
instance steady_note (c : Char) : Steady (note c) := ⟨fun _ => rfl⟩
instance steady_putBack (c : Char) : Steady (putBack c) := ⟨fun _ => rfl⟩
instance steady_startCapture : Steady startCapture := ⟨fun _ => rfl⟩
instance steady_takeAliasBlank : Steady takeAliasBlank := ⟨fun _ => rfl⟩
instance steady_pushAlias (name text : Text) : Steady (pushAlias name text) := ⟨fun _ => rfl⟩

instance steady_aliasText? (name : Text) : Steady (aliasText? name) := by
  refine Steady.of_get fun i => ?_
  split
  · rfl
  · rfl

instance steady_endCapture : Steady endCapture := by
  refine Steady.of_get fun i => ?_
  split
  · rfl
  · rfl

instance steady_fillLine : Steady fillLine := by
  refine Steady.of_get fun i => ?_
  split
  · rfl
  · show ((match i.queue with
      | l :: ls => set { i with
          current := l, queue := ls, primary := false
          shown := if i.verbose then l :: i.shown else i.shown }
      | [] => if i.closed then set { i with atEnd := true, primary := false }
        else throw .needLine : Reader Unit).on i).2.docs = _
    split
    · rfl
    · split
      · rfl
      · rfl

instance steady_fill : Steady fill := ⟨fun i => steady_fillLine.docs (settled i)⟩

instance steady_peek : Steady peek := by
  constructor
  intro i
  cases hu : i.unread with
  | cons c r => rw [peek_on_unread hu]
  | nil =>
      rw [peek_on_filled hu]
      exact Steady.docs i

instance steady_takeFront : Steady takeFront := by
  refine Steady.of_get fun i => ?_
  split
  · split
    · rfl
    · rfl
  · split
    · rfl
    · rfl

instance steady_next : Steady next := by
  constructor
  intro i
  cases hu : i.unread with
  | cons c r =>
      rw [next_on_unread hu]
      rfl
  | nil =>
      rw [next_on_filled hu]
      exact Steady.docs i

instance steady_nextOfParam : Steady nextOfParam := by
  refine @steady_bind _ _ next _ _ fun c => ?_
  split <;> infer_instance

instance steady_takeWhile (p : Char → Bool) (n : Nat) (acc : Text) :
    Steady (takeWhile p n acc) := by
  induction n generalizing acc with
  | zero => exact steady_outOfSteps
  | succ n ih =>
      refine @steady_bind _ _ peek _ _ fun c => ?_
      split <;> infer_instance

instance steady_skipComment (n : Nat) : Steady (skipComment n) := by
  induction n with
  | zero => exact steady_outOfSteps
  | succ n ih =>
      refine @steady_bind _ _ peek _ _ fun c => ?_
      split <;> infer_instance

instance steady_skipBlanks (n : Nat) : Steady (skipBlanks n) := by
  induction n with
  | zero => exact steady_outOfSteps
  | succ n ih =>
      refine @steady_bind _ _ peek _ _ fun c => ?_
      split <;> infer_instance

instance steady_readSingleQuoted (start n : Nat) (acc : Text) :
    Steady (readSingleQuoted start n acc) := by
  induction n generalizing acc with
  | zero => exact steady_outOfSteps
  | succ n ih =>
      refine @steady_bind _ _ next _ _ fun c => ?_
      split <;> infer_instance

instance steady_readBackQuotedText (inQuotes : Bool) (start n : Nat) (acc : Text) :
    Steady (readBackQuotedText inQuotes start n acc) := by
  induction n generalizing acc with
  | zero => exact steady_outOfSteps
  | succ n ih =>
      refine @steady_bind _ _ next _ _ fun c => ?_
      split
      · infer_instance
      · refine @steady_bind _ _ next _ _ fun d => ?_
        split <;> infer_instance
      · infer_instance
      · infer_instance

instance steady_readRawLine (n : Nat) (acc : Text) : Steady (readRawLine n acc) := by
  induction n generalizing acc with
  | zero => exact steady_outOfSteps
  | succ n ih =>
      refine @steady_bind _ _ next _ _ fun c => ?_
      split <;> infer_instance

instance steady_readHereDocLines (req : HereDocRequest) (n : Nat) (acc : List Text) :
    Steady (readHereDocLines req n acc) := by
  induction n generalizing acc with
  | zero => exact steady_outOfSteps
  | succ n ih =>
      refine @steady_bind _ _ (readRawLine n []) _ _ fun l => ?_
      split <;> infer_instance

instance steady_readRedirectOp (fd : Option Nat) : Steady (readRedirectOp fd) := by
  refine @steady_bind _ _ next _ _ fun c => ?_
  split
  · refine @steady_bind _ _ peek _ _ fun c => ?_
    split <;> infer_instance
  · refine @steady_bind _ _ peek _ _ fun c => ?_
    split <;> infer_instance
  · infer_instance

instance steady_readOperator (second : Char) (one two : TokenKind) :
    Steady (readOperator second one two) := by
  unfold readOperator
  infer_instance

instance steady_readParamOp (c : Char) : Steady (readParamOp c) := by
  unfold readParamOp
  split <;> infer_instance

instance steady_readParamName (n : Nat) (first : Char) : Steady (readParamName n first) := by
  unfold readParamName
  infer_instance

/-! ## Between tokens -/

/-- The bodies that were read are well-formed. -/
def Input.WellFormed (i : Input) : Prop :=
  ∀ b ∈ i.bodies, b.2.Every (fun _ n => n.WellFormed) true

/-- Every ticket that was given out is waited for, or its body was read. -/
structure Orderly (A : Table Text) (fresh : Prop) (i : Input) : Prop where
  aliases : i.aliases = A
  wellFormed : i.WellFormed
  settled : fresh → ∀ b ∈ i.bodies, b.2.Settles A
  known : fresh → ∀ k < i.nextTicket,
    k ∈ i.pending.map HereDocRequest.ticket ∨ k ∈ i.bodies.map Prod.fst

/-- No token is in hand. -/
structure Clear (A : Table Text) (fresh : Prop) (i : Input) : Prop extends Orderly A fresh i where
  pushback : i.pushback = none

/-- The word in a token may stand in the tree. At the end of a line nothing is waited for. -/
structure Token.InHand (A : Table Text) (i : Input) (tk : Token) : Prop where
  word : ∀ w, tk.kind = .word w → w.Sound A i.nextTicket
  drained : tk.kind = .newline ∨ tk.kind = .endOfInput → i.pending = []

/-- The token is neither a word nor the end of a line. -/
def TokenKind.IsOperator : TokenKind → Prop
  | .word _ | .newline | .endOfInput => False
  | _ => True

theorem Token.inHand_of_isOperator {tk : Token} (h : tk.kind.IsOperator) : tk.InHand A i where
  word w hw := (congrArg TokenKind.IsOperator hw ▸ h : TokenKind.IsOperator (.word w)).elim
  drained hk := by
    rcases hk with hk | hk
    · exact (congrArg TokenKind.IsOperator hk ▸ h : TokenKind.IsOperator .newline).elim
    · exact (congrArg TokenKind.IsOperator hk ▸ h : TokenKind.IsOperator .endOfInput).elim

/-- A token may have been put back. -/
structure Held (A : Table Text) (fresh : Prop) (i : Input) : Prop extends Orderly A fresh i where
  hand : ∀ tk, i.pushback = some tk → tk.InHand A i

theorem Orderly.of_docs (h : Orderly A fresh i) (hdocs : j.docs = i.docs) : Orderly A fresh j := by
  obtain ⟨-, hpending, hbodies, hticket, haliases⟩ := by simpa [Input.docs] using hdocs
  refine ⟨haliases.trans h.aliases, ?_, ?_, ?_⟩
  · unfold Input.WellFormed
    rw [hbodies]
    exact h.wellFormed
  · rw [hbodies]
    exact h.settled
  · rw [hticket, hpending, hbodies]
    exact h.known

/-- A command line was read to its end. -/
structure Input.AtLineEnd (i : Input) : Prop where
  pending : i.pending = []
  pushback : ∀ tk, i.pushback = some tk → tk.kind = .endOfInput

/-- The bodies are all there when no here-document is waited for. -/
theorem Orderly.complete (h : Orderly A fresh i) (hf : fresh) (hnone : i.pending = []) :
    i.bodies.Complete A i.nextTicket where
  isBody b hb := ⟨h.wellFormed b hb, h.settled hf b hb⟩
  known k hk := by
    refine (h.known hf k hk).resolve_left fun hwaits => ?_
    rw [hnone] at hwaits
    exact nomatch hwaits

/-- A condition that the bodies do not matter for holds of the tree with the bodies filled in. -/
theorem Orderly.carries (h : Orderly A fresh i) (t : Nat) (d : Bool) :
    Carries i.bodies (Node.SoundAt A t) (fun _ n => n.WellFormed) false d where
  fill _ hn := hn.wellFormed.fill _
  inDoc _ hn := hn.wellFormed
  bodies := h.wellFormed

theorem Clear.of_docs (h : Clear A fresh i) (hdocs : j.docs = i.docs) : Clear A fresh j :=
  ⟨h.toOrderly.of_docs hdocs, (congrArg Prod.fst hdocs).trans h.pushback⟩

theorem Clear.held (h : Clear A fresh i) : Held A fresh i :=
  ⟨h.toOrderly, fun _ htk => nomatch h.pushback.symm.trans htk⟩

theorem Token.InHand.of_docs {tk : Token} (h : tk.InHand A i) (hdocs : j.docs = i.docs) :
    tk.InHand A j := by
  obtain ⟨-, hpending, -, hticket, -⟩ := by simpa [Input.docs] using hdocs
  exact ⟨hticket ▸ h.word, hpending ▸ h.drained⟩

theorem Held.of_docs (h : Held A fresh i) (hdocs : j.docs = i.docs) : Held A fresh j := by
  refine ⟨h.toOrderly.of_docs hdocs, fun tk htk => ?_⟩
  exact (h.hand tk ((congrArg Prod.fst hdocs).symm.trans htk)).of_docs hdocs

theorem Clear.atLineEnd (h : Clear A fresh i) {tk : Token} (htk : tk.InHand A i)
    (hk : tk.kind = .newline ∨ tk.kind = .endOfInput) : i.AtLineEnd :=
  ⟨htk.drained hk, fun _ hp => nomatch h.pushback.symm.trans hp⟩

theorem Held.atLineEnd (h : Held A fresh i) {tk : Token} (hp : i.pushback = some tk)
    (hend : tk.kind = .endOfInput) : i.AtLineEnd := by
  refine ⟨(h.hand tk hp).drained (.inr hend), fun tk' htk' => ?_⟩
  obtain rfl := Option.some.inj (hp.symm.trans htk')
  exact hend

/-- An input of its own is fresh. -/
theorem nested_clear (h : i.aliases = A) (within : List Text) (t : Text) (line : Nat) :
    Clear A True (i.nested within t line) where
  aliases := h
  wellFormed _ hb := nomatch hb
  settled _ _ hb := nomatch hb
  known _ _ hk := absurd hk (Nat.not_lt_zero _)
  pushback := rfl

/-- The bodies of some here-documents are being read. -/
structure Owing (A : Table Text) (fresh : Prop) (reqs : List HereDocRequest) (i : Input) :
    Prop where
  clear : Clear A fresh { i with pending := reqs }
  pending : i.pending = []

theorem Owing.aliases {reqs : List HereDocRequest} (h : Owing A fresh reqs i) : i.aliases = A :=
  h.clear.aliases

theorem Owing.wellFormed {reqs : List HereDocRequest} (h : Owing A fresh reqs i) : i.WellFormed :=
  h.clear.wellFormed

theorem Owing.of_docs {reqs : List HereDocRequest} (h : Owing A fresh reqs i)
    (hdocs : j.docs = i.docs) : Owing A fresh reqs j := by
  refine ⟨h.clear.of_docs ?_, (congrArg (fun d => d.2.1) hdocs).trans h.pending⟩
  exact congrArg (fun d => (d.1, reqs, d.2.2)) hdocs

/-- Nothing is left to be read. -/
theorem Owing.done (h : Owing A fresh [] i) : Clear A fresh i ∧ i.pending = [] := by
  have hsame : { i with pending := [] } = i := by rw [← h.pending]
  exact ⟨hsame ▸ h.clear, h.pending⟩

/-- The next body was read. -/
theorem Owing.body {req : HereDocRequest} {reqs : List HereDocRequest} {w : Word}
    (h : Owing A fresh (req :: reqs) i) (hw : w.IsBody A) :
    Owing A fresh reqs { i with bodies := (req.ticket, w) :: i.bodies } where
  clear := {
    aliases := h.clear.aliases
    wellFormed := List.forall_mem_cons.mpr ⟨hw.wellFormed, h.clear.wellFormed⟩
    settled := fun hf => List.forall_mem_cons.mpr ⟨hw.settles, h.clear.settled hf⟩
    known := by
      intro hf k hk
      rcases h.clear.known hf k hk with hwaits | hread
      · rcases List.mem_cons.mp hwaits with rfl | hwaits
        · exact .inr List.mem_cons_self
        · exact .inl hwaits
      · exact .inr (List.mem_cons_of_mem _ hread)
    pushback := h.clear.pushback }
  pending := h.pending

/-! ## Steps -/

/-- Values satisfy `Q` with the input that is left, where more tickets may have been given out. The
bodies are well-formed even after a failure. -/
abbrev Leads (Q : α → Input → Prop) (r : Reader α) (i : Input) : Prop :=
  Meets (fun _ j => j.WellFormed) (fun a j => i.nextTicket ≤ j.nextTicket ∧ Q a j) r i

section

variable {P Q : α → Input → Prop} {r : Reader α}

theorem leads_pure {a : α} (h : Q a i) : Leads Q (pure a) i := ⟨Nat.le_refl _, h⟩

theorem Leads.bind {Q : β → Input → Prop} {f : α → Reader β} (hr : Leads P r i)
    (hf : ∀ a j, i.nextTicket ≤ j.nextTicket → P a j → Leads Q (f a) j) :
    Leads Q (r >>= f) i :=
  Meets.bind hr fun a j ⟨hij, ha⟩ =>
    (hf a j hij ha).mono fun _ _ ⟨hjk, hb⟩ => ⟨Nat.le_trans hij hjk, hb⟩

theorem Leads.mono (h : Leads P r i) (hQ : ∀ a j, P a j → Q a j) : Leads Q r i :=
  Meets.mono h fun a j ⟨hij, ha⟩ => ⟨hij, hQ a j ha⟩

theorem Steady.leads [hr : Steady r] (hi : i.WellFormed)
    (hQ : ∀ a j, r.on i = (.ok a, j) → j.docs = i.docs → Q a j) : Leads Q r i := by
  have hdocs := hr.docs i
  unfold Leads Meets
  generalize ho : r.on i = outcome at hdocs
  obtain ⟨o, j⟩ := outcome
  have hsame : j.docs = i.docs := hdocs
  cases o with
  | ok a =>
      have hticket : j.nextTicket = i.nextTicket := congrArg (fun d => d.2.2.2.1) hsame
      exact ⟨Nat.le_of_eq hticket.symm, hQ a j ho hsame⟩
  | error e =>
      have hbodies : j.bodies = i.bodies := congrArg (fun d => d.2.2.1) hsame
      show j.WellFormed
      unfold Input.WellFormed
      rw [hbodies]
      exact hi

/-- Characters are taken. -/
theorem Clear.leads [Steady r] (hi : Clear A fresh i) : Leads (fun _ j => Clear A fresh j) r i :=
  Steady.leads hi.wellFormed fun _ _ _ hdocs => hi.of_docs hdocs

theorem leads_fail {f : Fault} (hi : i.WellFormed) : Leads Q (fail f) i := hi

theorem leads_failAt {line : Nat} {f : Fault} (hi : i.WellFormed) : Leads Q (failAt line f) i := hi

theorem leads_unterminated {what : Text} {line : Nat} (hi : i.WellFormed) :
    Leads Q (unterminated what line) i := hi

theorem leads_unexpected {tk : Token} {expecting : Option Text} (hi : i.WellFormed) :
    Leads Q (unexpected tk expecting) i := hi

theorem leads_outOfSteps (hi : i.WellFormed) : Leads Q outOfSteps i := hi

/-- A script of its own is read. -/
theorem leads_withInput {sub : Input} (hi : i.WellFormed) (hr : Leads P r sub) :
    Leads (fun a j => (r.on sub = (.ok a.1, a.2) ∧ P a.1 a.2) ∧ j.docs = i.docs)
      (withInput sub r) i := by
  unfold Leads Meets at hr ⊢
  rw [Reader.on_withInput]
  generalize ho : r.on sub = outcome at hr
  obtain ⟨o, j⟩ := outcome
  cases o with
  | ok a => exact ⟨Nat.le_refl _, ⟨rfl, hr.2⟩, rfl⟩
  | error e => exact hi

theorem Clear.leads_pushToken {tk : Token} (hi : Clear A fresh i) (htk : tk.InHand A i) :
    Leads (fun _ j => Held A fresh j ∧ j.pushback = some tk) (pushToken tk) i := by
  refine ⟨Nat.le_refl _, ⟨{ hi.toOrderly with }, ?_⟩, rfl⟩
  rintro _ ⟨⟩
  exact ⟨htk.word, htk.drained⟩

end

/-! ## Operators -/

/-- All values of the reader satisfy `P`. -/
def Gives (P : α → Prop) (r : Reader α) : Prop :=
  ∀ i, Meets (fun _ _ => True) (fun a _ => P a) r i

section

variable {P : α → Prop}

theorem gives_pure {a : α} (h : P a) : Gives P (pure a) := fun _ => h

theorem gives_fail (f : Fault) : Gives P (fail f) := fun _ => trivial

/-- The last reader of a sequence gives its value. -/
theorem Gives.after {x : Reader β} {f : β → Reader α} (h : ∀ b, Gives P (f b)) :
    Gives P (x >>= f) := by
  intro i
  unfold Meets
  rw [Reader.on_bind]
  generalize x.on i = outcome
  obtain ⟨r, j⟩ := outcome
  cases r with
  | ok b => exact h b j
  | error e => trivial

theorem Gives.ite {c : Prop} [Decidable c] {x y : Reader α} (hx : Gives P x) (hy : Gives P y) :
    Gives P (if c then x else y) := by
  split
  · exact hx
  · exact hy

theorem Clear.leads_giving {r : Reader α} [Steady r] (hi : Clear A fresh i) (hr : Gives P r) :
    Leads (fun a j => Clear A fresh j ∧ P a) r i :=
  Steady.leads hi.wellFormed fun _ _ ho hdocs => ⟨hi.of_docs hdocs, (hr i).value ho⟩

end

theorem gives_readOperator {P : TokenKind → Prop} (second : Char) {one two : TokenKind}
    (hone : P one) (htwo : P two) : Gives P (readOperator second one two) :=
  .after fun _ => .after fun _ => .ite (.after fun _ => gives_pure htwo) (gives_pure hone)

theorem gives_readRedirectOp {P : TokenKind → Prop} {fd : Option Nat}
    (hP : ∀ op, P (.redirect fd op)) : Gives P (readRedirectOp fd) := by
  have hdone : ∀ op, Gives P (pure (.redirect fd op)) := fun op => gives_pure (hP op)
  refine .after fun c => ?_
  split
  · refine .after fun d => ?_
    split
    · exact .after fun _ => .after fun _ => .ite (.after fun _ => hdone _) (hdone _)
    · exact .after fun _ => hdone _
    · exact .after fun _ => hdone _
    · exact hdone _
  · refine .after fun d => ?_
    split
    · exact .after fun _ => hdone _
    · exact .after fun _ => hdone _
    · exact .after fun _ => hdone _
    · exact hdone _
  · exact gives_fail _

end CommandShell.Script
