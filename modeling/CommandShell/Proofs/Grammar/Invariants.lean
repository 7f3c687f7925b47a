import CommandShell.Proofs.Grammar.Stream
import CommandShell.Proofs.WordTexts

/-!
# Invariants of reading by tokens

What reads commands takes text by whole tokens, one after the other, and puts back the last one at
most. So what holds of an input between tokens and is kept when a token is read (`Kept`) holds again
after any phrase (`PhrasesKeep`), with at most the token that was read last put back. A token in hand
is always the one that was read last (`InHand`).
-/

namespace CommandShell.Script

open Reader

variable {R : Input → Prop} {α β : Type} {n : Nat} {tk : Token} {i j : Input}

/-- A property of inputs between tokens that is kept when a token is read. No token that is read
starts a here-document. -/
structure Kept (R : Input → Prop) : Prop where
  between : ∀ {i}, R i → BetweenTokens i
  read : ∀ {i tk j}, R i → readToken.on i = (.ok tk, j) → R j
  noHereDoc : ∀ {i tk j}, R i → readToken.on i = (.ok tk, j) →
    ∀ fd op, tk.kind = .redirect fd op → op.isHereDoc = false

/-- The token was read last. -/
structure InHand (R : Input → Prop) (tk : Token) (i : Input) : Prop where
  holds : R i
  last : ∃ k, R k ∧ readToken.on k = (.ok tk, i)

/-- All tokens that were read are used up, or the last one was put back. -/
inductive Tidy (R : Input → Prop) : Input → Prop
  | used {i : Input} (h : R i) : Tidy R i
  | pushed {tk : Token} {i : Input} (h : InHand R tk i) : Tidy R { i with pushback := some tk }

/-- If the reader comes to a value, all tokens are used up then, or the last one was put back. -/
def EndsTidy (R : Input → Prop) (r : Reader α) (i : Input) : Prop :=
  Meets (fun _ _ => True) (fun _ j => Tidy R j) r i

/-- If the reader comes to a token, that is the one that was read last. -/
def Hands (R : Input → Prop) (r : Reader Token) (i : Input) : Prop :=
  Meets (fun _ _ => True) (fun tk j => InHand R tk j) r i

theorem InHand.tidy (h : InHand R tk i) : Tidy R i := .used h.holds

theorem InHand.noHereDoc (hR : Kept R) (h : InHand R tk i) {fd : Option Nat} {op : RedirectOp}
    (hop : tk.kind = .redirect fd op) : op.isHereDoc = false := by
  obtain ⟨k, hk, hread⟩ := h.last
  exact hR.noHereDoc hk hread fd op hop

theorem Tidy.sane (hR : Kept R) (h : Tidy R i) : Sane .empty i := by
  cases h with
  | used h => exact (hR.between h).lexing.toSane
  | pushed h => exact { (hR.between h.holds).lexing.toSane with }

/-! ## Taking tokens -/

/-- The token that was put back is taken again. -/
theorem InHand.meets_again (hR : Kept R) (h : InHand R tk i) (n : Nat) :
    Meets (fun _ _ => True) (fun tk' j => tk' = tk ∧ j = i) (nextToken n)
      { i with pushback := some tk } := by
  cases n with
  | zero => trivial
  | succ n =>
      unfold Meets
      rw [Suffices.nextToken_pushback rfl]
      refine ⟨rfl, ?_⟩
      show { i with pushback := none } = i
      rw [← (hR.between h.holds).lexing.pushback]

theorem hands_nextToken (hR : Kept R) (n : Nat) (h : Tidy R i) : Hands R (nextToken n) i := by
  cases h with
  | used h =>
      unfold Hands Meets
      cases hon : (nextToken n).on i with
      | mk o j =>
          cases o with
          | error e => trivial
          | ok tk =>
              have hread := (hR.between h).readToken_of_steps hon
              exact ⟨hR.read h hread, i, h, hread⟩
  | pushed h => exact (h.meets_again hR n).mono fun _ _ ⟨htk, hj⟩ => htk ▸ hj ▸ h

theorem hands_expandAlias (hR : Kept R) (n : Nat) (h : InHand R tk i) :
    Hands R (expandAlias n tk) i := by
  cases n with
  | zero => trivial
  | succ n =>
      unfold Hands Meets
      rw [expandAlias_on (h.tidy.sane hR)]
      exact h

/-- A token is read and used. -/
theorem EndsTidy.draw (hR : Kept R) {n : Nat} {f : Token → Reader β} (h : Tidy R i)
    (hf : ∀ tk j, InHand R tk j → EndsTidy R (f tk) j) : EndsTidy R (nextToken n >>= f) i :=
  Meets.bind (hands_nextToken hR n h) hf

theorem hands_commandToken (hR : Kept R) (n : Nat) (h : Tidy R i) :
    Hands R (commandToken n) i := by
  cases n with
  | zero => trivial
  | succ n =>
      unfold Hands Meets
      rw [commandToken_on (h.sane hR)]
      exact Meets.bind (hands_nextToken hR n h) fun tk j hj => hands_expandAlias hR n hj

/-- A token is read where a command may start, and used. -/
theorem EndsTidy.drawCommand (hR : Kept R) {n : Nat} {f : Token → Reader β} (h : Tidy R i)
    (hf : ∀ tk j, InHand R tk j → EndsTidy R (f tk) j) : EndsTidy R (commandToken n >>= f) i :=
  Meets.bind (hands_commandToken hR n h) hf

theorem EndsTidy.bind {x : Reader α} {f : α → Reader β} (hx : EndsTidy R x i)
    (hf : ∀ a j, Tidy R j → EndsTidy R (f a) j) : EndsTidy R (x >>= f) i := Meets.bind hx hf

theorem EndsTidy.ite {c : Prop} [Decidable c] {x y : Reader α} (hx : EndsTidy R x i)
    (hy : EndsTidy R y i) : EndsTidy R (if c then x else y) i :=
  Meets.ite (fun _ => hx) fun _ => hy

/-- The token in hand is put back. -/
theorem InHand.tidy_push {f : Unit → Reader β} (h : InHand R tk i)
    (hf : ∀ j, Tidy R j → EndsTidy R (f ()) j) : EndsTidy R (pushToken tk >>= f) i :=
  hf _ (.pushed h)

/-- Whether an alias ended in a blank is asked for. -/
theorem InHand.tidy_takeAliasBlank (hR : Kept R) {f : Bool → Reader β} (h : InHand R tk i)
    (hf : EndsTidy R (f false) i) : EndsTidy R (takeAliasBlank >>= f) i := by
  unfold EndsTidy Meets at hf ⊢
  rw [Reader.on_bind, (h.tidy.sane hR).takeAliasBlank_on]
  exact hf

/-- The token that is looked at was read last, and is put back. -/
theorem peekToken_inHand (hR : Kept R) (n : Nat) (h : Tidy R i) :
    Meets (fun _ _ => True) (fun tk j => ∃ k, InHand R tk k ∧ j = { k with pushback := some tk })
      (peekToken n) i := by
  cases n with
  | zero => trivial
  | succ n => exact Meets.bind (hands_nextToken hR n h) fun tk j hj => ⟨j, hj, rfl⟩

theorem tidy_peekToken (hR : Kept R) (n : Nat) (h : Tidy R i) : EndsTidy R (peekToken n) i :=
  (peekToken_inHand hR n h).mono fun _ _ ⟨_, hk, hj⟩ => hj ▸ .pushed hk

theorem tidy_skipNewlines (hR : Kept R) (n : Nat) (h : Tidy R i) :
    EndsTidy R (skipNewlines n) i := by
  induction n generalizing i with
  | zero => trivial
  | succ n ih =>
      unfold skipNewlines
      refine (tidy_peekToken hR n h).bind fun tk j hj => .ite ?_ hj
      exact .draw hR hj fun _ k hk => ih hk.tidy

theorem tidy_expectKeyword (hR : Kept R) (kw : Text) (n : Nat) (h : Tidy R i) :
    EndsTidy R (expectKeyword kw n) i := by
  cases n with
  | zero => trivial
  | succ n => exact .draw hR h fun tk j hj => .ite hj.tidy trivial

/-! ## Phrases -/

/-- With `n` steps, what reads a phrase leaves no token in hand but one that it put back. -/
structure PhrasesKeep (R : Input → Prop) (n : Nat) : Prop where
  parseInner : ∀ {i}, Tidy R i → EndsTidy R (parseInner n) i
  parseList : ∀ {top acc i}, Tidy R i → EndsTidy R (parseList top n acc) i
  parseAndOr : ∀ {i}, Tidy R i → EndsTidy R (parseAndOr n) i
  parseAndOrRest : ∀ {left i}, Tidy R i → EndsTidy R (parseAndOrRest n left) i
  parsePipeline : ∀ {i}, Tidy R i → EndsTidy R (parsePipeline n) i
  parseStages : ∀ {acc i}, Tidy R i → EndsTidy R (parseStages n acc) i
  parseCommandAt : ∀ {tk i}, InHand R tk i → EndsTidy R (parseCommandAt n tk) i
  closeCompound : ∀ {line body i}, Tidy R i → EndsTidy R (closeCompound n line body) i
  parseSimple : ∀ {line assigns argv redirects tk i}, InHand R tk i →
    EndsTidy R (parseSimple n line assigns argv redirects tk) i
  parseFunction : ∀ {name line i}, Tidy R i → EndsTidy R (parseFunction n name line) i
  parseRedirect : ∀ {fd op i}, op.isHereDoc = false → Tidy R i →
    EndsTidy R (parseRedirect n fd op) i
  parseRedirects : ∀ {acc i}, Tidy R i → EndsTidy R (parseRedirects n acc) i
  parseIf : ∀ {line i}, Tidy R i → EndsTidy R (parseIf n line) i
  parseLoop : ∀ {isWhile line i}, Tidy R i → EndsTidy R (parseLoop n isWhile line) i
  parseFor : ∀ {line i}, Tidy R i → EndsTidy R (parseFor n line) i
  parseItems : ∀ {acc i}, Tidy R i → EndsTidy R (parseItems n acc) i
  parseCase : ∀ {line i}, Tidy R i → EndsTidy R (parseCase n line) i
  parseArms : ∀ {acc i}, Tidy R i → EndsTidy R (parseArms n acc) i
  parsePatterns : ∀ {acc tk i}, InHand R tk i → EndsTidy R (parsePatterns n acc tk) i

namespace PhrasesKeep

theorem zero : PhrasesKeep R 0 := by
  constructor <;> intros <;> trivial

theorem parseInner_succ (h : PhrasesKeep R n) (hR : Kept R) (hi : Tidy R i) :
    EndsTidy R (Script.parseInner (n + 1)) i :=
  (tidy_skipNewlines hR n hi).bind fun _ _ hj => h.parseList hj

theorem tidy_closeList {acc : List Node} (hi : Tidy R i) : EndsTidy R (closeList acc) i := by
  unfold closeList
  split
  · exact hi
  · trivial

theorem tidy_continueList (h : PhrasesKeep R n) (hR : Kept R) {top : Bool} {acc : List Node}
    (hi : Tidy R i) : EndsTidy R (continueList n top acc) i := by
  refine .ite ?_ ?_
  · refine (tidy_peekToken hR n hi).bind fun tk j hj => ?_
    split
    · exact .draw hR hj fun _ k hk => tidy_closeList hk.tidy
    · exact tidy_closeList hj
    · exact h.parseList hj
  · refine (tidy_skipNewlines hR n hi).bind fun _ j hj => ?_
    exact (tidy_peekToken hR n hj).bind fun _ k hk => .ite (tidy_closeList hk) (h.parseList hk)

theorem parseList_succ (h : PhrasesKeep R n) (hR : Kept R) {top : Bool} {acc : List Node}
    (hi : Tidy R i) : EndsTidy R (Script.parseList top (n + 1) acc) i := by
  rw [parseList_eq]
  refine (h.parseAndOr hi).bind fun node j hj => .draw hR hj fun tk k hk => ?_
  split
  · exact h.tidy_continueList hR hk.tidy
  · exact h.tidy_continueList hR hk.tidy
  · exact .ite (tidy_closeList hk.tidy) (h.tidy_continueList hR hk.tidy)
  · exact hk.tidy_push fun l hl => tidy_closeList hl
  · exact .ite trivial (hk.tidy_push fun l hl => tidy_closeList hl)

theorem parseAndOr_succ (h : PhrasesKeep R n) (hi : Tidy R i) :
    EndsTidy R (Script.parseAndOr (n + 1)) i :=
  (h.parsePipeline hi).bind fun _ _ hj => h.parseAndOrRest hj

theorem parseAndOrRest_succ (h : PhrasesKeep R n) (hR : Kept R) {left : Node} (hi : Tidy R i) :
    EndsTidy R (Script.parseAndOrRest (n + 1) left) i := by
  unfold Script.parseAndOrRest
  refine .draw hR hi fun tk j hj => ?_
  have hright : ∀ f : Node → Node, EndsTidy R (do
      Script.skipNewlines n
      let right ← Script.parsePipeline n
      Script.parseAndOrRest n (f right)) j := fun f =>
    (tidy_skipNewlines hR n hj.tidy).bind fun _ k hk =>
      (h.parsePipeline hk).bind fun _ l hl => h.parseAndOrRest hl
  split
  · exact hright _
  · exact hright _
  · exact hj.tidy_push fun k hk => hk

theorem tidy_stages (h : PhrasesKeep R n) {negated : Bool} {line : Nat} (hi : InHand R tk i) :
    EndsTidy R (parsePipelineFrom n negated line tk) i :=
  (h.parseCommandAt hi).bind fun _ _ hj => (h.parseStages hj).bind fun _ _ hk => hk

theorem parsePipeline_succ (h : PhrasesKeep R n) (hR : Kept R) (hi : Tidy R i) :
    EndsTidy R (Script.parsePipeline (n + 1)) i := by
  rw [parsePipeline_eq]
  refine .drawCommand hR hi fun first j hj => .ite ?_ (h.tidy_stages hj)
  exact .drawCommand hR hj.tidy fun tk k hk => h.tidy_stages hk

theorem parseStages_succ (h : PhrasesKeep R n) (hR : Kept R) {acc : List Node} (hi : Tidy R i) :
    EndsTidy R (Script.parseStages (n + 1) acc) i := by
  unfold Script.parseStages
  refine .draw hR hi fun tk j hj => ?_
  split
  · refine (tidy_skipNewlines hR n hj.tidy).bind fun _ k hk => ?_
    refine .drawCommand hR hk fun tk l hl => ?_
    exact (h.parseCommandAt hl).bind fun _ m hm => h.parseStages hm
  · exact hj.tidy_push fun k hk => hk

theorem parseCommandAt_succ (h : PhrasesKeep R n) (hR : Kept R) (hi : InHand R tk i) :
    EndsTidy R (Script.parseCommandAt (n + 1) tk) i := by
  have hclose : ∀ {r : Reader Node}, EndsTidy R r i →
      EndsTidy R (r >>= fun body => Script.closeCompound n tk.line body) i :=
    fun hr => hr.bind fun _ _ hj => h.closeCompound hj
  unfold Script.parseCommandAt
  split
  · refine (h.parseInner hi.tidy).bind fun body j hj => .draw hR hj fun closer k hk => ?_
    refine .ite trivial ?_
    exact (h.parseRedirects hk.tidy).bind fun _ l hl => hl
  · exact h.parseSimple hi
  · split
    · exact h.parseSimple hi
    · refine .ite (hclose (h.parseIf hi.tidy)) ?_
      refine .ite (hclose (h.parseLoop hi.tidy)) ?_
      refine .ite (hclose (h.parseLoop hi.tidy)) ?_
      refine .ite (hclose (h.parseFor hi.tidy)) ?_
      refine .ite (hclose (h.parseCase hi.tidy)) ?_
      refine .ite ?_ (.ite trivial (h.parseSimple hi))
      refine (h.parseInner hi.tidy).bind fun body j hj => ?_
      exact (tidy_expectKeyword hR _ n hj).bind fun _ k hk => h.closeCompound hk
  · trivial

theorem closeCompound_succ (h : PhrasesKeep R n) {line : Nat} {body : Node} (hi : Tidy R i) :
    EndsTidy R (Script.closeCompound (n + 1) line body) i := by
  refine (h.parseRedirects hi).bind fun redirects j hj => ?_
  split
  · exact hj
  · exact hj

theorem parseSimple_succ (h : PhrasesKeep R n) (hR : Kept R) {line : Nat} {assigns argv : List Word}
    {redirects : List Redirect} (hi : InHand R tk i) :
    EndsTidy R (Script.parseSimple (n + 1) line assigns argv redirects tk) i := by
  have hgoOn : ∀ {assigns argv redirects j}, Tidy R j → EndsTidy R (do
      let tk ← Script.nextToken n
      if ← takeAliasBlank then
        let tk ← Script.expandAlias n tk
        Script.parseSimple n line assigns argv redirects tk
      else Script.parseSimple n line assigns argv redirects tk) j := fun hj =>
    .draw hR hj fun tk k hk => hk.tidy_takeAliasBlank hR (h.parseSimple hk)
  unfold Script.parseSimple
  split
  · rename_i fd op hop
    refine (h.parseRedirect (hi.noHereDoc hR hop) hi.tidy).bind fun r j hj => hgoOn hj
  · refine .ite (hgoOn hi.tidy) (.ite ?_ (hgoOn hi.tidy))
    refine (tidy_peekToken hR n hi.tidy).bind fun opener j hj => ?_
    exact .ite (h.parseFunction hj) (hgoOn hj)
  · exact hi.tidy_push fun j hj => hj

theorem parseFunction_succ (h : PhrasesKeep R n) (hR : Kept R) {name : Word} {line : Nat}
    (hi : Tidy R i) : EndsTidy R (Script.parseFunction (n + 1) name line) i := by
  unfold Script.parseFunction
  refine .draw hR hi fun opener j hj => .draw hR hj.tidy fun closer k hk => .ite trivial ?_
  split
  · trivial
  · refine (tidy_skipNewlines hR n hk.tidy).bind fun _ l hl => ?_
    refine .drawCommand hR hl fun tk m hm => .ite ?_ trivial
    exact (h.parseCommandAt hm).bind fun _ p hp => hp

theorem parseRedirect_succ (hR : Kept R) {fd : Option Nat} {op : RedirectOp}
    (hop : op.isHereDoc = false) (hi : Tidy R i) :
    EndsTidy R (Script.parseRedirect (n + 1) fd op) i := by
  unfold Script.parseRedirect
  refine .draw hR hi fun tk j hj => ?_
  split
  · split
    · exact absurd hop (by simp [RedirectOp.isHereDoc])
    · exact absurd hop (by simp [RedirectOp.isHereDoc])
    · exact hj.tidy
  · trivial

theorem parseRedirects_succ (h : PhrasesKeep R n) (hR : Kept R) {acc : List Redirect}
    (hi : Tidy R i) : EndsTidy R (Script.parseRedirects (n + 1) acc) i := by
  unfold Script.parseRedirects
  refine .draw hR hi fun tk j hj => ?_
  split
  · rename_i fd op hop
    exact (h.parseRedirect (hj.noHereDoc hR hop) hj.tidy).bind fun r k hk => h.parseRedirects hk
  · exact hj.tidy_push fun k hk => hk

/-- A list and the keyword after it. -/
theorem tidy_closed (h : PhrasesKeep R n) (hR : Kept R) (kw : Text) {f : Node → Reader β}
    (hi : Tidy R i) (hf : ∀ node j, Tidy R j → EndsTidy R (f node) j) :
    EndsTidy R (do
      let node ← Script.parseInner n
      Script.expectKeyword kw n
      f node) i :=
  (h.parseInner hi).bind fun node _ hj =>
    (tidy_expectKeyword hR kw n hj).bind fun _ k hk => hf node k hk

theorem parseIf_succ (h : PhrasesKeep R n) (hR : Kept R) {line : Nat} (hi : Tidy R i) :
    EndsTidy R (Script.parseIf (n + 1) line) i := by
  unfold Script.parseIf
  refine h.tidy_closed hR _ hi fun cond j hj => (h.parseInner hj).bind fun body k hk => ?_
  refine .draw hR hk fun tk l hl => .ite ?_ (.ite ?_ (.ite hl.tidy trivial))
  · exact (h.parseIf hl.tidy).bind fun _ m hm => hm
  · exact h.tidy_closed hR _ hl.tidy fun _ m hm => hm

theorem parseLoop_succ (h : PhrasesKeep R n) (hR : Kept R) {isWhile : Bool} {line : Nat}
    (hi : Tidy R i) : EndsTidy R (Script.parseLoop (n + 1) isWhile line) i :=
  h.tidy_closed hR _ hi fun _ _ hj => h.tidy_closed hR _ hj fun _ _ hk => hk

theorem parseFor_succ (h : PhrasesKeep R n) (hR : Kept R) {line : Nat} (hi : Tidy R i) :
    EndsTidy R (Script.parseFor (n + 1) line) i := by
  unfold Script.parseFor
  refine .draw hR hi fun name _ hj => ?_
  split
  · trivial
  · have hbody : ∀ {items : Option (List Word)} {k : Input} {var : Text}, Tidy R k → EndsTidy R (do
        Script.skipNewlines n
        Script.expectKeyword "do" n
        let body ← Script.parseInner n
        Script.expectKeyword "done" n
        return .mk (.forIn var items body) line : Reader Node) k := fun hk =>
      (tidy_skipNewlines hR n hk).bind fun _ _ hl => (tidy_expectKeyword hR _ n hl).bind
        fun _ _ hm => h.tidy_closed hR _ hm fun _ _ hp => hp
    refine (tidy_skipNewlines hR n hj.tidy).bind fun _ k hk => .draw hR hk fun tk l hl => ?_
    refine .ite ((h.parseItems hl.tidy).bind fun _ m hm => hbody hm) ?_
    split
    · exact hbody hl.tidy
    · exact hl.tidy_push fun m hm => hbody hm

theorem parseItems_succ (h : PhrasesKeep R n) (hR : Kept R) {acc : List Word} (hi : Tidy R i) :
    EndsTidy R (Script.parseItems (n + 1) acc) i := by
  unfold Script.parseItems
  refine .draw hR hi fun tk j hj => ?_
  split
  · exact h.parseItems hj.tidy
  · exact hj.tidy
  · exact hj.tidy
  · trivial

theorem parseCase_succ (h : PhrasesKeep R n) (hR : Kept R) {line : Nat} (hi : Tidy R i) :
    EndsTidy R (Script.parseCase (n + 1) line) i := by
  unfold Script.parseCase
  refine .draw hR hi fun tk j hj => ?_
  split
  · refine (tidy_skipNewlines hR n hj.tidy).bind fun _ k hk => ?_
    refine (tidy_expectKeyword hR _ n hk).bind fun _ l hl => ?_
    exact (h.parseArms hl).bind fun _ m hm => hm
  · trivial

theorem tidy_continueArms (h : PhrasesKeep R n) (hR : Kept R) {acc : List CaseArm}
    (hi : Tidy R i) : EndsTidy R (continueArms n acc) i := by
  unfold continueArms
  refine .draw hR hi fun tk j hj => .ite hj.tidy ?_
  split
  · exact h.parseArms hj.tidy
  · trivial

theorem tidy_arm (h : PhrasesKeep R n) (hR : Kept R) {acc : List CaseArm} (hi : InHand R tk i) :
    EndsTidy R (parseArmFrom n acc tk) i := by
  unfold parseArmFrom
  refine (h.parsePatterns hi).bind fun patterns j hj => ?_
  refine (tidy_skipNewlines hR n hj).bind fun _ k hk => ?_
  refine (tidy_peekToken hR n hk).bind fun peeked l hl => ?_
  split
  · exact h.tidy_continueArms hR hl
  · refine .ite (h.tidy_continueArms hR hl) ?_
    exact (h.parseInner hl).bind fun _ m hm => h.tidy_continueArms hR hm

theorem parseArms_succ (h : PhrasesKeep R n) (hR : Kept R) {acc : List CaseArm} (hi : Tidy R i) :
    EndsTidy R (Script.parseArms (n + 1) acc) i := by
  rw [parseArms_eq]
  refine (tidy_skipNewlines hR n hi).bind fun _ j hj => .draw hR hj fun tk k hk => ?_
  refine .ite hk.tidy (.ite ?_ (h.tidy_arm hR hk))
  exact .draw hR hk.tidy fun tk l hl => h.tidy_arm hR hl

theorem parsePatterns_succ (h : PhrasesKeep R n) (hR : Kept R) {acc : List Word}
    (hi : InHand R tk i) : EndsTidy R (Script.parsePatterns (n + 1) acc tk) i := by
  unfold Script.parsePatterns
  split
  · refine .draw hR hi.tidy fun separator j hj => ?_
    split
    · exact .draw hR hj.tidy fun tk k hk => h.parsePatterns hk
    · exact hj.tidy
    · trivial
  · trivial

theorem succ (h : PhrasesKeep R n) (hR : Kept R) : PhrasesKeep R (n + 1) where
  parseInner := h.parseInner_succ hR
  parseList := h.parseList_succ hR
  parseAndOr := h.parseAndOr_succ
  parseAndOrRest := h.parseAndOrRest_succ hR
  parsePipeline := h.parsePipeline_succ hR
  parseStages := h.parseStages_succ hR
  parseCommandAt := h.parseCommandAt_succ hR
  closeCompound := h.closeCompound_succ
  parseSimple := h.parseSimple_succ hR
  parseFunction := h.parseFunction_succ hR
  parseRedirect := parseRedirect_succ hR
  parseRedirects := h.parseRedirects_succ hR
  parseIf := h.parseIf_succ hR
  parseLoop := h.parseLoop_succ hR
  parseFor := h.parseFor_succ hR
  parseItems := h.parseItems_succ hR
  parseCase := h.parseCase_succ hR
  parseArms := h.parseArms_succ hR
  parsePatterns := h.parsePatterns_succ hR

end PhrasesKeep

/-- What is kept when a token is read holds after every phrase. -/
theorem phrasesKeep (hR : Kept R) (n : Nat) : PhrasesKeep R n := by
  induction n with
  | zero => exact .zero
  | succ n ih => exact ih.succ hR

/-- The parenthesis that ends a substitution is the last token that is read for it. -/
theorem parseSubstitution_closer (hR : Kept R) (n : Nat) (h : Tidy R i) :
    Meets (fun _ _ => True) (fun _ j => ∃ tk, InHand R tk j ∧ tk.kind = .rightParen)
      (parseSubstitution n) i := by
  cases n with
  | zero => trivial
  | succ n =>
      unfold parseSubstitution
      refine Meets.bind (tidy_skipNewlines hR n h) fun _ j hj => ?_
      refine Meets.bind (peekToken_inHand hR n hj) ?_
      rintro tk _ ⟨k, hk, rfl⟩
      refine .ite (fun hclose => ?_) fun _ => ?_
      · refine Meets.bind (hk.meets_again hR n) ?_
        rintro _ _ ⟨rfl, rfl⟩
        exact ⟨_, hk, Token.kind_of_isRightParen hclose⟩
      · refine Meets.bind ((phrasesKeep hR n).parseInner (.pushed hk)) fun node l hl => ?_
        refine Meets.bind (hands_nextToken hR n hl) fun closer m hm => ?_
        exact .ite (fun hclose => ⟨closer, hm, Token.kind_of_isRightParen hclose⟩) fun _ => trivial

end CommandShell.Script
