import Mathlib
import CommandShell.Execution.Evaluate
import CommandShell.Proofs.Lockstep
import CommandShell.Proofs.WordTexts

/-!
# Operands inside and outside double quotes

The word after the operator of `${name#word}` is lexed where the parameter stands, so a parameter inside
double quotes has another word than one outside them: a single quotation mark stands for itself, a
backslash quotes only the characters that it quotes between double quotes, a backslash before a double
quote goes away in a back-quoted command, and a parameter of the word inserts quoted text. `Part.IsNeutral`
and `Unescaped` leave these four out. What is left is quoted by double quotes, or by a backslash before one
of those characters, and `operand_read_alike` says that it is read alike in both places and that the
parameter stands for the same text there.

`Agrees` relates the reader inside double quotes with the one outside. It goes from part to part with the
text that each of them takes; that no part is dropped on the way (`KeepsNeutral`) tells that a character
which does not belong to a neutral part was not read.
-/

namespace CommandShell.Script

open Reader

variable {α β : Type} {n start depth : Nat} {i j k : Input} {c : Char}

/-! ## Values that readers give -/

/-- Every value that the reader gives satisfies `P`. -/
def Values (P : α → Prop) (r : Reader α) : Prop := ∀ i a j, r.on i = (.ok a, j) → P a

namespace Values

variable {P Q : α → Prop} {x : Reader α} {f : β → Reader α} {b : Reader β}

theorem after {R : β → Prop} (hb : Values R b) (hf : ∀ v, R v → Values P (f v)) : Values P (b >>= f) := by
  intro i a j h
  rw [Reader.on_bind] at h
  cases hon : b.on i with
  | mk o k =>
      rw [hon] at h
      cases o with
      | ok v => exact hf v (hb i v k hon) k a j h
      | error e => cases h

theorem bind (hf : ∀ v, Values P (f v)) : Values P (b >>= f) :=
  after (fun _ _ _ _ => trivial) fun v (_ : True) => hf v

protected theorem pure {a : α} (h : P a) : Values P (pure a) := by
  rintro i b j hj
  cases hj
  exact h

protected theorem throw (e : Halt) : Values P (throw e) := by
  intro i a j h
  cases h

theorem ite {p : Prop} [Decidable p] {y : Reader α} (hx : Values P x) (hy : Values P y) :
    Values P (if p then x else y) := by
  split
  · exact hx
  · exact hy

theorem mono (h : Values P x) (hPQ : ∀ a, P a → Q a) : Values Q x :=
  fun i a j hj => hPQ a (h i a j hj)

end Values

/-! ## Readers that agree -/

/-- What the reader takes of an input without aliases stands at its start. -/
def Forward (x : Reader α) : Prop :=
  ∀ i a j, Excerpt 0 [] i i → x.on i = (.ok a, j) →
    Excerpt 0 [] j j ∧ ∃ taken, i.ahead = taken ++ j.ahead

theorem Mirrors.forward {f : α → α} {x : Reader α} (h : Mirrors 0 f x x) : Forward x := by
  intro i a j hi hj
  have hstep := h.self hi hj
  obtain ⟨taken, htaken, -⟩ := hstep.taken
  exact ⟨hstep.toExcerpt, taken, htaken.ahead⟩

theorem Forward.bind {x : Reader α} {f : α → Reader β} (hx : Forward x) (hf : ∀ a, Forward (f a)) :
    Forward (x >>= f) := by
  intro i b j hi hj
  rw [Reader.on_bind] at hj
  cases hon : x.on i with
  | mk o k =>
      rw [hon] at hj
      cases o with
      | error e => cases hj
      | ok a =>
          obtain ⟨hk, t, ht⟩ := hx i a k hi hon
          obtain ⟨hexcerpt, u, hu⟩ := hf a k b j hk hj
          exact ⟨hexcerpt, t ++ u, by rw [ht, hu, List.append_assoc]⟩

theorem Excerpt.self_peek_on (hi : Excerpt 0 [] i i) :
    ∃ j, peek.on i = (.ok i.ahead.head?, j) ∧ Excerpt 0 [] j j ∧ Same i j := by
  obtain ⟨j, j', hj, hj', hexcerpt, hsame, -⟩ := hi.peek_on
  obtain rfl : j = j' := congrArg Prod.snd (hj.symm.trans hj')
  exact ⟨j, hj, hexcerpt, hsame⟩

theorem forward_peek : Forward peek := by
  intro i a j hi hj
  obtain ⟨m, hm, hexcerpt, hsame⟩ := hi.self_peek_on
  obtain rfl : m = j := congrArg Prod.snd (hm.symm.trans hj)
  exact ⟨hexcerpt, [], hsame.ahead.symm⟩

/-- When the first reader gives a value that satisfies `P`, and has taken a text that satisfies `U`, the
second one gives `f` of the value and leaves the same input. -/
structure Agrees (U : Text → Prop) (P : α → Prop) (f : α → α) (x y : Reader α) : Prop where
  forward : Forward x
  same : ∀ i a j taken, Excerpt 0 [] i i → x.on i = (.ok a, j) → i.ahead = taken ++ j.ahead → U taken →
    P a → y.on i = (.ok (f a), j)

namespace Agrees

variable {U U₁ U₂ : Text → Prop} {P : α → Prop} {Q : β → Prop} {f : α → α} {x y : Reader α}

theorem refl (h : Forward x) : Agrees U P (fun a => a) x x :=
  ⟨h, fun _ _ _ _ _ hj _ _ _ => hj⟩

theorem of_never (h : Forward x) (hP : Values (fun a => ¬ P a) x) : Agrees U P f x y :=
  ⟨h, fun i a j _ _ hj _ _ ha => absurd ha (hP i a j hj)⟩

theorem of_no_text (h : Forward x) (hU : ∀ t, ¬ U t) : Agrees U P f x y :=
  ⟨h, fun _ _ _ taken _ _ _ hu _ => absurd hu (hU taken)⟩

theorem mono (h : Agrees U₁ P f x y) (hU : ∀ t, U t → U₁ t) : Agrees U P f x y :=
  ⟨h.forward, fun i a j taken hi hj ht hu => h.same i a j taken hi hj ht (hU taken hu)⟩

/-- One reader after another: what they take is one text after another. -/
theorem bind {g : β → β} {b b' : Reader β} {k k' : β → Reader α} (hb : Agrees U₁ Q g b b')
    (hQ : ∀ v, Values (fun a => P a → Q v) (k v)) (hk : ∀ v, Agrees U₂ P f (k v) (k' (g v)))
    (hU : ∀ t u, U (t ++ u) → U₁ t ∧ U₂ u) : Agrees U P f (b >>= k) (b' >>= k') := by
  refine ⟨hb.forward.bind fun v => (hk v).forward, fun i a j taken hi hj htaken hu ha => ?_⟩
  rw [Reader.on_bind] at hj ⊢
  cases hon : b.on i with
  | mk o m =>
      rw [hon] at hj
      cases o with
      | error e => cases hj
      | ok v =>
          obtain ⟨hm, t, ht⟩ := hb.forward i v m hi hon
          obtain ⟨-, u, hu'⟩ := (hk v).forward m a j hm hj
          -- what is taken splits where the first reader stopped
          have hsplit : taken = t ++ u := by
            rw [ht, hu', ← List.append_assoc] at htaken
            exact (List.append_cancel_right htaken).symm
          obtain ⟨htU, huU⟩ := hU t u (hsplit ▸ hu)
          rw [hb.same i v m t hi hon ht htU (hQ v m a j hj ha)]
          exact (hk v).same m a j u hm hj hu' huU ha

/-- The same reader goes first. -/
theorem after {b : Reader β} {k k' : β → Reader α} (hb : Forward b) (hk : ∀ v, Agrees U₂ P f (k v) (k' v))
    (hU : ∀ t u, U (t ++ u) → U₂ u) : Agrees U P f (b >>= k) (b >>= k') :=
  have hfirst : Agrees (fun _ => True) (fun _ => True) (fun v => v) b b := refl hb
  hfirst.bind (fun _ _ _ _ _ _ => trivial) hk fun t u h => ⟨trivial, hU t u h⟩

protected theorem pure {a b : α} (h : b = f a) : Agrees U P f (pure a) (pure b) := by
  refine ⟨Mirrors.forward (.pure (f := fun a => a) rfl), fun i v j _ _ hj _ _ _ => ?_⟩
  cases hj
  rw [h]
  rfl

protected theorem throw (e e' : Halt) : Agrees U P f (throw e) (throw e') :=
  ⟨Mirrors.forward (.throw (f := fun a => a) e e), fun _ _ _ _ _ hj _ _ _ => nomatch hj⟩

/-- A reader that agrees after one more character was taken. -/
theorem same_cons (h : Agrees (fun t => U (c :: t)) P f x y) {a : α} {taken : Text} (hk : Excerpt 0 [] k k)
    (hahead : i.ahead = c :: k.ahead) (hj : x.on k = (.ok a, j)) (htaken : i.ahead = taken ++ j.ahead)
    (hu : U taken) (ha : P a) : y.on k = (.ok (f a), j) := by
  obtain ⟨-, u, hrest⟩ := h.forward k a j hk hj
  have hsplit : taken = c :: u := by
    rw [hahead, hrest, ← List.cons_append] at htaken
    exact (List.append_cancel_right htaken).symm
  exact h.same k a j u hk hj hrest (hsplit ▸ hu) ha

/-- The next character goes before what is taken after it. -/
theorem next {k k' : Option Char → Reader α} (hnone : Agrees U P f (k none) (k' none))
    (hsome : ∀ c, Agrees (fun t => U (c :: t)) P f (k (some c)) (k' (some c))) :
    Agrees U P f (Reader.next >>= k) (Reader.next >>= k') := by
  have hk : ∀ c, Forward (k c) := by
    intro c
    cases c with
    | none => exact hnone.forward
    | some c => exact (hsome c).forward
  refine ⟨Mirrors.next.forward.bind hk, fun i a j taken hi hj htaken hu ha => ?_⟩
  rw [Reader.on_bind] at hj ⊢
  cases hahead : i.ahead with
  | nil =>
      obtain ⟨m, hm, -, hsame⟩ := hi.long.next_on_nil hahead
      rw [hm] at hj ⊢
      have hexcerpt := (Mirrors.next.forward i _ m hi hm).1
      exact hnone.same m a j taken hexcerpt hj (hsame.ahead.trans htaken) hu ha
  | cons c r =>
      obtain ⟨m, hm, -, hr, -⟩ := hi.long.next_on_cons hahead
      rw [hm] at hj ⊢
      have hexcerpt := (Mirrors.next.forward i _ m hi hm).1
      exact (hsome c).same_cons hexcerpt (hr.symm ▸ hahead) hj htaken hu ha

/-- A character that was looked at is taken. -/
theorem peekNext {k k' : Char → Reader α} {e e' : Reader α} (hnone : Agrees U P f e e')
    (hsome : ∀ c, Agrees (fun t => U (c :: t)) P f (k c) (k' c)) :
    Agrees U P f
      (do
        match ← peek with
        | none => e
        | some c =>
          let _ ← Reader.next
          k c)
      (do
        match ← peek with
        | none => e'
        | some c =>
          let _ ← Reader.next
          k' c) := by
  refine ⟨forward_peek.bind fun c => ?_, fun i a j taken hi hj htaken hu ha => ?_⟩
  · cases c with
    | none => exact hnone.forward
    | some c => exact Mirrors.next.forward.bind fun _ => (hsome c).forward
  · obtain ⟨m, hm, hexcerpt, hsame⟩ := hi.self_peek_on
    rw [Reader.on_bind, hm] at hj ⊢
    cases hahead : i.ahead with
    | nil =>
        rw [hahead] at hj
        exact hnone.same m a j taken hexcerpt hj (hsame.ahead.trans htaken) hu ha
    | cons c r =>
        rw [hahead] at hj
        obtain ⟨l, hl, -, hr, -⟩ := hexcerpt.long.next_on_cons (hsame.ahead.trans hahead)
        -- the character is still there for `next`
        change (Reader.next >>= fun _ => k c).on m = _ at hj
        change (Reader.next >>= fun _ => k' c).on m = _
        rw [Reader.on_bind, hl] at hj ⊢
        have hnext := (Mirrors.next.forward m _ l hexcerpt hl).1
        exact (hsome c).same_cons hnext (hr.symm ▸ hahead) hj htaken hu ha

/-- No alias is being read. -/
theorem aliasesInUse {k k' : List Text → Reader α} (hk : Agrees U P f (k []) (k' [])) :
    Agrees U P f (Script.aliasesInUse >>= k) (Script.aliasesInUse >>= k') := by
  refine ⟨fun i a j hi hj => ?_, fun i a j taken hi hj htaken hu ha => ?_⟩
  · rw [aliasesInUse_on k hi.long.lined] at hj
    exact hk.forward i a j hi hj
  · rw [aliasesInUse_on k hi.long.lined] at hj
    rw [aliasesInUse_on k' hi.long.lined]
    exact hk.same i a j taken hi hj htaken hu ha

theorem ite {p : Prop} [Decidable p] {x' y' : Reader α} (hx : p → Agrees U P f x y)
    (hx' : ¬ p → Agrees U P f x' y') : Agrees U P f (if p then x else x') (if p then y else y') := by
  split
  · exact hx ‹p›
  · exact hx' ‹¬ p›

end Agrees

/-! ## Neutral parts -/

/-- The part is one that is read alike inside double quotes and outside: no quotation mark and no
backslash stands for itself in it, and it is no parameter. -/
def Part.IsNeutral : Part → Prop
  | .literal t => '\'' ∉ t ∧ '\\' ∉ t
  | .param .. => False
  | _ => True

/-- All parts are neutral. -/
def AllNeutral (ps : List Part) : Prop := ∀ p ∈ ps, p.IsNeutral

namespace AllNeutral

variable {ps : PartsSoFar}

theorem of_cons {p : Part} (h : AllNeutral (p :: ps)) : AllNeutral ps :=
  fun q hq => h q (List.mem_cons_of_mem p hq)

theorem of_literal (h : AllNeutral (ps.literal c)) : AllNeutral ps ∧ c ≠ '\'' ∧ c ≠ '\\' := by
  unfold PartsSoFar.literal at h
  split at h
  · obtain ⟨hquote, hslash⟩ := h _ List.mem_cons_self
    refine ⟨fun p hp => ?_, fun hc => hquote (hc ▸ List.mem_cons_self),
      fun hc => hslash (hc ▸ List.mem_cons_self)⟩
    rcases List.mem_cons.mp hp with rfl | hp
    · exact ⟨fun hmem => hquote (List.mem_cons_of_mem c hmem),
        fun hmem => hslash (List.mem_cons_of_mem c hmem)⟩
    · exact h p (List.mem_cons_of_mem _ hp)
  · obtain ⟨hquote, hslash⟩ := h _ List.mem_cons_self
    exact ⟨h.of_cons, fun hc => hquote (hc ▸ List.mem_cons_self),
      fun hc => hslash (hc ▸ List.mem_cons_self)⟩

theorem of_escaped (h : AllNeutral (ps.escaped c)) : AllNeutral ps := by
  unfold PartsSoFar.escaped at h
  split at h
  · intro p hp
    rcases List.mem_cons.mp hp with rfl | hp
    · trivial
    · exact h p (List.mem_cons_of_mem _ hp)
  · exact h.of_cons

theorem of_sealed (h : AllNeutral ps.sealed) : AllNeutral ps := by
  intro p hp
  have hsealed := h _ (List.mem_map_of_mem (List.mem_reverse.mpr hp))
  cases p with
  | literal t =>
      obtain ⟨hquote, hslash⟩ := hsealed
      exact ⟨fun hmem => hquote (List.mem_reverse.mpr hmem), fun hmem => hslash (List.mem_reverse.mpr hmem)⟩
  | escaped t => trivial
  | singleQuoted t => trivial
  | doubleQuoted ps => trivial
  | param name op colon arg q => exact hsealed
  | command body => trivial
  | arithmetic ps => trivial

end AllNeutral

/-- What was read stays in what is given. -/
abbrev KeepsNeutral (ps : PartsSoFar) (r : Reader (List Part)) : Prop :=
  Values (fun parts => AllNeutral parts → AllNeutral ps) r

theorem readPartFrom_keepsNeutral {ctx : WordContext} (ps : PartsSoFar) (c : Char)
    (h : ∀ depth ps, KeepsNeutral ps (readParts ctx start n depth ps)) :
    KeepsNeutral ps (readPartFrom ctx start n depth ps c) := by
  have hcons : ∀ depth p, KeepsNeutral ps (readParts ctx start n depth (p :: ps)) := fun depth p =>
    (h depth (p :: ps)).mono fun _ hkeeps hparts => (hkeeps hparts).of_cons
  have hliteral : ∀ depth c, KeepsNeutral ps (readParts ctx start n depth (ps.literal c)) := fun depth c =>
    (h depth _).mono fun _ hkeeps hparts => (hkeeps hparts).of_literal.1
  unfold readPartFrom
  refine .ite ?_ (.ite (hliteral _ _) (.ite ?_ (.ite ?_ (.ite ?_ (.ite ?_ (.ite ?_ (hliteral _ _)))))))
  · cases depth with
    | zero => exact .pure fun hparts => hparts.of_sealed
    | succ depth => exact hliteral _ _
  · refine .bind fun d => ?_
    split
    · exact h _ _
    · refine .ite ((h _ _).mono fun _ hkeeps hparts => (hkeeps hparts).of_escaped) ?_
      exact (h _ _).mono fun _ hkeeps hparts => (hkeeps hparts).of_literal.1.of_literal.1
    · exact hliteral _ _
  · exact .bind fun t => hcons _ _
  · exact .bind fun inner => hcons _ _
  · refine .bind fun p => ?_
    cases p with
    | none => exact hliteral _ _
    | some p => exact hcons _ _
  · exact .bind fun p => hcons _ _

theorem readParts_keepsNeutral (ctx : WordContext) (start n depth : Nat) (ps : PartsSoFar) :
    KeepsNeutral ps (readParts ctx start n depth ps) := by
  induction n generalizing depth ps with
  | zero => exact .throw _
  | succ n ih =>
      rw [readParts_eq]
      refine .bind fun c => ?_
      have hdone : KeepsNeutral ps (pure ps.sealed) := .pure fun hparts => hparts.of_sealed
      cases c with
      | none => exact .ite (.throw _) hdone
      | some c => exact .ite hdone (.bind fun _ => readPartFrom_keepsNeutral ps c ih)

theorem readBracedParam_param (n : Nat) (q : Bool) :
    Values (fun p => ¬ p.IsNeutral) (readBracedParam n q) := by
  cases n with
  | zero => exact .throw _
  | succ n =>
      have hparam : ∀ name op colon arg, Values (fun p => ¬ Part.IsNeutral p)
          (pure (.param name op colon arg q)) := fun _ _ _ _ => .pure id
      have hbad : ∀ {f : PUnit → Reader Part}, Values (fun p => ¬ p.IsNeutral) (badSubstitution >>= f) :=
        .throw _
      have hop : ∀ (name : Text) (colon : Bool) (c : Char), Values (fun p => ¬ p.IsNeutral) (do
          let op ← readParamOp c
          let arg ← readParts (.paramArg q) (← line) n 0 []
          return Part.param name op colon arg q) := fun name colon c =>
        .bind fun op => .bind fun l => .bind fun arg => hparam _ _ _ _
      have hrest : ∀ isLength first, Values (fun p => ¬ p.IsNeutral)
          (Suffices.readParamRest n q isLength first) := fun isLength first =>
        .bind fun name => .bind fun c => .ite (hparam _ _ _ _) (.ite hbad
          (.ite (.bind fun d => .ite hbad (hop _ _ _)) (.ite hbad (hop _ _ _))))
      refine .bind fun first => .ite (.bind fun c => ?_) (hrest _ _)
      exact .ite (.bind fun d => hrest _ _) (hrest _ _)

/-- A neutral part after a `$`, and a `$` that stands for itself, are read alike. -/
theorem agrees_readDollar (n : Nat) {U : Text → Prop} :
    Agrees U (fun r => ∀ p ∈ r, p.IsNeutral) (fun r => r) (readDollar n true) (readDollar n false) := by
  refine ⟨((readersMirror 0 n).readDollar true).forward, fun i r j taken _ hj _ _ hr => ?_⟩
  cases n with
  | zero => cases hj
  | succ n =>
      -- whatever follows the dollar, a parameter is not neutral, and the other cases ask for no quotes
      have hnever : ∀ {x : Reader (Option Part)} {k : Input},
          Values (fun r => ∃ p ∈ r, ¬ p.IsNeutral) x → x.on k ≠ (.ok r, j) := by
        intro x k hx hk
        obtain ⟨p, hp, hne⟩ := hx k r j hk
        exact hne (hr p hp)
      unfold readDollar at hj ⊢
      rw [Reader.on_bind] at hj ⊢
      cases hpeek : peek.on i with
      | mk o k =>
          rw [hpeek] at hj
          cases o with
          | error e => exact hj
          | ok c =>
              cases c with
              | none => exact hj
              | some c =>
                  dsimp only at hj ⊢
                  split_ifs at hj ⊢ with hbrace hparen hname hparam
                  · refine absurd hj (hnever (.bind fun _ => ?_))
                    exact (readBracedParam_param n true).after fun p hp => .pure ⟨p, rfl, hp⟩
                  · exact hj
                  · exact absurd hj (hnever (.bind fun name => .pure ⟨_, rfl, id⟩))
                  · exact absurd hj (hnever (.bind fun _ => .pure ⟨_, rfl, id⟩))
                  · exact hj

/-! ## Back-quotes -/

/-- A text in which no backslash stands before a double quote. -/
def NoEscapedQuote (t : Text) : Prop := ¬ ['\\', '"'] <:+: t

theorem NoEscapedQuote.of_append {t u : Text} (h : NoEscapedQuote (t ++ u)) :
    NoEscapedQuote t ∧ NoEscapedQuote u :=
  ⟨fun ht => h (ht.trans (List.prefix_append t u).isInfix),
    fun hu => h (hu.trans (List.suffix_append t u).isInfix)⟩

theorem NoEscapedQuote.tail {t : Text} (h : NoEscapedQuote (c :: t)) : NoEscapedQuote t :=
  (NoEscapedQuote.of_append (t := [c]) h).2

/-- Only a backslash before a double quote makes a difference in a back-quoted command. -/
theorem agrees_readBackQuotedText (start n : Nat) (acc : Text) :
    Agrees NoEscapedQuote (fun _ => True) (fun t => t) (readBackQuotedText true start n acc)
      (readBackQuotedText false start n acc) := by
  induction n generalizing acc with
  | zero => exact .throw _ _
  | succ n ih =>
      unfold readBackQuotedText
      refine .next (.throw _ _) fun c => ?_
      have hone : ∀ acc, Agrees (fun t => NoEscapedQuote (c :: t)) (fun _ => True) (fun t => t)
          (readBackQuotedText true start n acc) (readBackQuotedText false start n acc) := fun acc =>
        (ih acc).mono fun t ht => ht.tail
      split
      · exact .pure rfl
      · rename_i hc
        refine .next (.throw _ _) fun d => ?_
        have htwo : ∀ acc, Agrees (fun t => NoEscapedQuote (c :: d :: t)) (fun _ => True) (fun t => t)
            (readBackQuotedText true start n acc) (readBackQuotedText false start n acc) := fun acc =>
          (ih acc).mono fun t ht => ht.tail.tail
        split
        · exact htwo _
        · rename_i hd
          obtain rfl := Option.some.inj hc
          obtain rfl := Option.some.inj hd
          by_cases hquote : d = '"'
          -- only inside double quotes does the backslash go away
          · have hno : ∀ t, ¬ NoEscapedQuote ('\\' :: d :: t) := fun t h => h ⟨[], t, by simp [hquote]⟩
            exact .of_no_text (Agrees.ite (fun _ => htwo _) fun _ => htwo _).forward hno
          · simp only [hquote, Bool.true_and, Bool.false_and, decide_false, Bool.or_false]
            exact .ite (fun _ => htwo _) fun _ => htwo _
        · exact .throw _ _
      · exact hone _
      · exact .throw _ _

theorem agrees_readBackQuoted (start n : Nat) :
    Agrees NoEscapedQuote (fun _ => True) (fun p => p) (readBackQuoted n true start)
      (readBackQuoted n false start) := by
  cases n with
  | zero => exact .throw _ _
  | succ n =>
      rw [ReadersObey.readBackQuoted_eq, ReadersObey.readBackQuoted_eq]
      refine .after Mirrors.line.forward (fun l => .aliasesInUse ?_) fun t u h => h.of_append.2
      refine (agrees_readBackQuotedText start n []).bind (fun _ _ _ _ _ _ => trivial) (fun t => .refl ?_)
        fun t u h => h.of_append
      have hnested := Mirrors.nested (f := Node.downAll 0) (g := fun p => p)
        (h := fun nodes _ => Part.command (Node.ofList nodes))
        (k := fun nodes _ => Part.command (Node.ofList nodes)) ((readersMirror 0 n).parseAllFrom [])
        (fun nodes _ _ _ => by rw [Node.downAll_zero]) t l
      exact hnested.forward

/-! ## Parts -/

/-- A text without back-quotes, or without a backslash before a double quote. -/
def Unescaped (t : Text) : Prop := '\x60' ∉ t ∨ NoEscapedQuote t

theorem Unescaped.of_append {t u : Text} (h : Unescaped (t ++ u)) : Unescaped t ∧ Unescaped u := by
  rcases h with h | h
  · exact ⟨Or.inl fun hmem => h (List.mem_append_left u hmem),
      Or.inl fun hmem => h (List.mem_append_right t hmem)⟩
  · exact ⟨Or.inr h.of_append.1, Or.inr h.of_append.2⟩

theorem agrees_readPartFrom
    (h : ∀ depth ps, Agrees Unescaped AllNeutral (fun parts => parts)
      (readParts (.paramArg true) start n depth ps) (readParts (.paramArg false) start n depth ps))
    (depth : Nat) (ps : PartsSoFar) (c : Char) :
    Agrees (fun t => Unescaped (c :: t)) AllNeutral (fun parts => parts)
      (readPartFrom (.paramArg true) start n depth ps c)
      (readPartFrom (.paramArg false) start n depth ps c) := by
  have hm := readersMirror 0 n
  have hparts : ∀ (s : Text) depth ps, Agrees (fun t => Unescaped (s ++ t)) AllNeutral (fun parts => parts)
      (readParts (.paramArg true) start n depth ps) (readParts (.paramArg false) start n depth ps) :=
    fun s depth ps => (h depth ps).mono fun t ht => ht.of_append.2
  have hafter : ∀ t u, Unescaped (c :: (t ++ u)) → Unescaped u := fun t u ht =>
    (Unescaped.of_append (t := c :: t) ht).2
  -- what was read stays, so that a character which is not neutral is no case
  have hkeeps := readParts_keepsNeutral (.paramArg true) start n
  have hnever : ∀ {ps : PartsSoFar}, ¬ AllNeutral ps → Values (fun parts => ¬ AllNeutral parts)
      (readParts (.paramArg true) start n depth ps) := fun {ps} hps =>
    (hkeeps depth ps).mono fun parts hparts hneutral => hps (hparts hneutral)
  unfold readPartFrom
  simp only [WordContext.isParamArg, WordContext.inQuotes, WordContext.isHereDoc, Bool.true_and,
    Bool.not_true, Bool.not_false, Bool.and_false, Bool.and_true, decide_eq_true_eq, Bool.false_or,
    Bool.true_or, Bool.false_eq_true, ↓reduceIte]
  refine .ite (fun _ => ?_) fun _ => .ite (fun _ => hparts [c] _ _) fun _ => .ite (fun _ => ?_) fun _ => ?_
  · cases depth with
    | zero => exact .pure rfl
    | succ depth => exact hparts [c] _ _
  · refine .next (hparts [c] _ _) fun d => ?_
    split
    · exact hparts [c, d] _ _
    · split
      · exact hparts [c, d] _ _
      · exact .of_never (h _ _).forward (hnever fun hps => hps.of_literal.1.of_literal.2.2 rfl)
    · rename_i hd
      cases hd
  · by_cases hquote : c = '\''
    · subst hquote
      rw [if_neg (by decide), if_neg (by decide), if_neg (by decide)]
      exact .of_never (h _ _).forward (hnever fun hps => hps.of_literal.2.1 rfl)
    · rw [if_neg hquote]
      refine .ite (fun _ => ?_) fun _ => .ite (fun _ => ?_) fun _ => .ite (fun hback => ?_) fun _ =>
        hparts [c] _ _
      · exact .after (hm.readDoubleQuoted start start rfl).forward (fun inner => h _ _) hafter
      · refine (agrees_readDollar n).bind (fun r => ?_) (fun r => ?_) fun t u ht => ⟨trivial, hafter t u ht⟩
        · cases r with
          | none => simp [Values]
          | some p =>
              refine (hkeeps depth (p :: ps)).mono fun parts hparts hneutral q hq => ?_
              cases hq
              exact hparts hneutral _ List.mem_cons_self
        · cases r with
          | none => exact h _ _
          | some p => exact h _ _
      · refine (agrees_readBackQuoted start n).bind (fun _ _ _ _ _ _ => trivial) (fun p => h _ _) ?_
        intro t u ht
        refine ⟨?_, hafter t u ht⟩
        rcases ht with hno | hno
        · exact absurd (hback ▸ List.mem_cons_self) hno
        · exact hno.tail.of_append.1

/-- An operand whose parts are neutral is read alike inside double quotes and outside. -/
theorem agrees_readParts (start n depth : Nat) (ps : PartsSoFar) :
    Agrees Unescaped AllNeutral (fun parts => parts) (readParts (.paramArg true) start n depth ps)
      (readParts (.paramArg false) start n depth ps) := by
  induction n generalizing depth ps with
  | zero => exact .throw _ _
  | succ n ih =>
      rw [readParts_eq, readParts_eq]
      exact .peekNext (.throw _ _) fun c => agrees_readPartFrom ih depth ps c

/-- The word after the operator of a parameter. -/
def Part.argument : Part → List Part
  | .param _ _ _ arg _ => arg
  | _ => []

/-- A parameter as it is outside double quotes. -/
def Part.asUnquoted : Part → Part
  | .param name op colon arg _ => .param name op colon arg false
  | p => p

/-- A parameter whose operand is neutral is read alike inside double quotes and outside. -/
theorem agrees_readBracedParam (n : Nat) :
    Agrees Unescaped (fun p => AllNeutral p.argument) Part.asUnquoted (readBracedParam n true)
      (readBracedParam n false) := by
  cases n with
  | zero => exact .throw _ _
  | succ n =>
      have hafter : ∀ t u, Unescaped (t ++ u) → Unescaped u := fun t u ht => ht.of_append.2
      have hbad : ∀ {k k' : PUnit → Reader Part}, Agrees Unescaped (fun p => AllNeutral p.argument)
          Part.asUnquoted (badSubstitution >>= k) (badSubstitution >>= k') := .throw _ _
      have hop : ∀ (name : Text) (colon : Bool) (c : Char), Agrees Unescaped
          (fun p => AllNeutral p.argument) Part.asUnquoted
          (do
            let op ← readParamOp c
            let arg ← readParts (.paramArg true) (← line) n 0 []
            return Part.param name op colon arg true)
          (do
            let op ← readParamOp c
            let arg ← readParts (.paramArg false) (← line) n 0 []
            return Part.param name op colon arg false) := by
        intro name colon c
        refine .after (Mirrors.readParamOp c).forward (fun op => .after Mirrors.line.forward (fun l => ?_) hafter)
          hafter
        have hdone : ∀ arg, Agrees (fun _ => True) (fun p => AllNeutral p.argument) Part.asUnquoted
            (pure (.param name op colon arg true)) (pure (.param name op colon arg false)) := fun arg =>
          .pure rfl
        exact (agrees_readParts l n 0 []).bind (fun arg => .pure id) hdone fun t u ht =>
          ⟨ht.of_append.1, trivial⟩
      have hrest : ∀ isLength first, Agrees Unescaped (fun p => AllNeutral p.argument) Part.asUnquoted
          (Suffices.readParamRest n true isLength first)
          (Suffices.readParamRest n false isLength first) := by
        intro isLength first
        refine .after (Mirrors.readParamName n first).forward (fun name =>
          .after Mirrors.nextOfParam.forward (fun c => ?_) hafter) hafter
        refine .ite (fun _ => .pure rfl) fun _ => .ite (fun _ => hbad) fun _ =>
          .ite (fun _ => ?_) fun _ => .ite (fun _ => hbad) fun _ => hop _ _ _
        exact .after Mirrors.nextOfParam.forward
          (fun d => .ite (fun _ => hbad) fun _ => hop _ _ _) hafter
      refine .after Mirrors.nextOfParam.forward (fun first => .ite (fun _ => ?_) fun _ => hrest _ _) hafter
      refine .after forward_peek (fun c => .ite (fun _ => ?_) fun _ => hrest _ _) hafter
      exact .after Mirrors.nextOfParam.forward (fun d => hrest _ _) hafter

end CommandShell.Script

namespace CommandShell.Expansion

open Script (Part ParamOp Input Excerpt Unescaped AllNeutral readBracedParam)
open Shell

variable {ev : Evaluator}

/-- Inside double quotes a parameter stands for the text that it is given in an assignment. -/
theorem wordText_doubleQuoted (text name : Text) (op : ParamOp) (colon first : Bool) (arg : List Part)
    (line : Nat) : wordText ev (.mk text [.doubleQuoted [.param name op colon arg true]] line) =
      assignedValue ev first [] [.param name op colon arg false] := by
  have hjoined : ∀ inside : List Piece, Piece.joined
      (if hasAt [.param name op colon arg true] = true then inside else .quoted [] :: inside) =
        Piece.joined inside := by
    intro inside
    split
    · rfl
    · rfl
  simp [wordText, wordPieces, Script.Word.parts, wordTilde, pieces, partPieces, assignedValue, quotedText,
    hjoined]

/-- An operand with neutral parts is the same operand outside double quotes, and a parameter with it stands
for the same text inside them and in an assignment. -/
theorem operand_read_alike {n : Nat} {i j : Input} {taken name : Text} {op : ParamOp} {colon : Bool}
    {arg : List Part} (hi : Excerpt 0 [] i i)
    (hread : (readBracedParam n true).on i = (.ok (.param name op colon arg true), j))
    (htaken : i.ahead = taken ++ j.ahead) (htext : Unescaped taken) (harg : AllNeutral arg) :
    (readBracedParam n false).on i = (.ok (.param name op colon arg false), j) ∧
      ∀ ev text line first, wordText ev (.mk text [.doubleQuoted [.param name op colon arg true]] line) =
        assignedValue ev first [] [.param name op colon arg false] :=
  ⟨(Script.agrees_readBracedParam n).same i _ j taken hi hread htaken htext harg,
    fun _ text line first => wordText_doubleQuoted text name op colon first arg line⟩

/-- A shell with a value for `v` and one for `w`. -/
def withValues (v w : Text) : Shell :=
  { «variables» := { bindings := ⟨[("v", { value := some v }), ("w", { value := some w })]⟩ } }

/-- A star in double quotes and a brace after a backslash. -/
theorem operand_read_alike_quotes : ∃ arg j, arg = [.doubleQuoted [.literal "*"], .escaped "\x7d"] ∧
    (readBracedParam 8 true).on (.ofText "v#\"*\"\\\x7d\x7d") =
      (.ok (.param "v" .trimPrefix false arg true), j) ∧
    (readBracedParam 8 false).on (.ofText "v#\"*\"\\\x7d\x7d") =
      (.ok (.param "v" .trimPrefix false arg false), j) ∧
    wordText (evaluatorOf 0) (.mk [] [.doubleQuoted [.param "v" .trimPrefix false arg true]] 1) =
      assignedValue (evaluatorOf 0) true [] [.param "v" .trimPrefix false arg false] := by
  obtain ⟨j, hread, hj⟩ : ∃ j, (readBracedParam 8 true).on (.ofText "v#\"*\"\\\x7d\x7d") =
      (.ok (.param "v" .trimPrefix false [.doubleQuoted [.literal "*"], .escaped "\x7d"] true), j) ∧
        j.ahead = [] := by
    cases hon : (readBracedParam 8 true).on (.ofText "v#\"*\"\\\x7d\x7d") with
    | mk o j =>
        have ho : o = .ok (.param "v" .trimPrefix false [.doubleQuoted [.literal "*"], .escaped "\x7d"] true) :=
          (congrArg Prod.fst hon).symm.trans (by cbv)
        exact ⟨j, by rw [ho], (congrArg (fun r => r.2.ahead) hon).symm.trans (by cbv)⟩
  have htaken : (Input.ofText "v#\"*\"\\\x7d\x7d").ahead = "v#\"*\"\\\x7d\x7d".toList ++ j.ahead := by
    rw [hj, Input.ahead_ofText, List.append_nil]
  have hneutral : AllNeutral [.doubleQuoted [.literal "*"], .escaped "\x7d"] := by
    simp [AllNeutral, Part.IsNeutral]
  obtain ⟨hbare, htexts⟩ := operand_read_alike (Script.betweenTokens_ofText _ 1).excerpt hread htaken
    (Or.inl (by decide)) hneutral
  exact ⟨_, j, rfl, hread, hbare, htexts (evaluatorOf 0) [] 1 true⟩

/-- What follows `${` gives the same text inside double quotes and in an assignment, if both read it as a
parameter. -/
def SameText (i : Input) : Prop :=
  ∀ n name op colon arg arg' j j',
    (readBracedParam n true).on i = (.ok (.param name op colon arg true), j) →
      (readBracedParam n false).on i = (.ok (.param name op colon arg' false), j') →
        ∀ ev text line first, wordText ev (.mk text [.doubleQuoted [.param name op colon arg true]] line) =
          assignedValue ev first [] [.param name op colon arg' false]

/-- A single quotation mark inside double quotes stands for itself, so does a backslash before a star, and
the special characters of a value that is inserted there are quoted. -/
theorem not_sameText : ¬ SameText (.ofText "v#'*'\x7d") ∧ ¬ SameText (.ofText "v#\\*\x7d") ∧
    ¬ SameText (.ofText "v##$w\x7d") := by
  have hdiffers : ∀ {i n name op colon arg arg' x y},
      ((readBracedParam n true).on i).1 = .ok (.param name op colon arg true) →
      ((readBracedParam n false).on i).1 = .ok (.param name op colon arg' false) →
      (wordText (evaluatorOf 0) (.mk [] [.doubleQuoted [.param name op colon arg true]] 1)).startedIn
        (withValues "*x" "*") = .done (.ok x, withValues "*x" "*") →
      (assignedValue (evaluatorOf 0) true [] [.param name op colon arg' false]).startedIn
        (withValues "*x" "*") = .done (.ok y, withValues "*x" "*") → x ≠ y → ¬ SameText i := by
    intro i n name op colon arg arg' x y hquoted hbare hx hy hne h
    have heq := h n name op colon arg arg' _ _ (Prod.ext hquoted rfl) (Prod.ext hbare rfl)
      (evaluatorOf 0) [] 1 true
    rw [heq, hy] at hx
    simp_all
  refine ⟨?_, ?_, ?_⟩
  · exact hdiffers (n := 8) (x := "*x".toList) (y := "x".toList) (by cbv) (by cbv) (by cbv) (by cbv) (by decide)
  · exact hdiffers (n := 8) (x := "*x".toList) (y := "x".toList) (by cbv) (by cbv) (by cbv) (by cbv) (by decide)
  · exact hdiffers (n := 8) (x := "x".toList) (y := []) (by cbv) (by cbv) (by cbv) (by cbv) (by decide)

end CommandShell.Expansion
