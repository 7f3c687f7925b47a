import CommandShell.Proofs.Reading.Oncoming
import CommandShell.Proofs.WordTexts

/-!
# Portions of the body of a here-document

The body of a here-document is read by the reader of words, in which most characters stand for
themselves there. `Portions` cuts the text that comes into single characters, escapes and expansions, as
it comes, and the reader reads it portion by portion (`readParts_cutInto`).

Put together again the portions are the text (`Portions.flatMap_source`), but for one thing: an expansion
may end in the text of an alias, and then what is left of that comes before the rest. Without aliases
this does not happen (`Portions.left_eq_nil`).
-/

namespace CommandShell.Script

open Reader

variable {α : Type} {start n depth line : Nat} {c : Char} {p : Part} {ps : PartsSoFar} {i j k : Input}

/-! ## Portions of a body -/

/-- The characters that mean something in the body of a here-document. -/
def isHereDocSpecial (c : Char) : Bool := c = '$' || c = '\x60' || c = '\\'

/-- The characters that go with a `$` before them. -/
def opensExpansion (c : Char) : Bool :=
  c = '\x7b' || c = '(' || Text.isNameStart c || Text.isDigit c || isSpecialParam c

/-- An expansion is read: one that starts with `$`, or a command in back-quotes. -/
inductive Expands (start : Nat) (i : Input) (p : Part) (k : Input) : Prop
  | dollar {n : Nat} {j : Input} (hj : next.on i = (.ok (some '$'), j))
      (hk : (readDollar n true).on j = (.ok (some p), k))
  | backQuote {n : Nat} {j : Input} (hj : next.on i = (.ok (some '\x60'), j))
      (hk : (readBackQuoted n true start).on j = (.ok p, k))

/-- A part that is expanded. -/
def Part.IsExpansion : Part → Prop
  | .param .. | .command _ | .arithmetic _ => True
  | _ => False

/-- A portion of the body of a here-document. -/
inductive Portion where
  /-- A character that stands for itself. -/
  | plain (c : Char)
  /-- A character after a backslash. -/
  | escaped (c : Char)
  /-- A backslash at the end of a line, with the newline. -/
  | joined
  /-- An expansion: what was written for it, what was put in the place of that, and its part. -/
  | expansion (source left : Text) (p : Part)

namespace Portion

/-- The text of the body. -/
def source : Portion → Text
  | plain c => [c]
  | escaped c => ['\\', c]
  | joined => ['\\', '\n']
  | expansion s _ _ => s

/-- The text that was put in the place of the portion. -/
def left : Portion → Text
  | expansion _ l _ => l
  | _ => []

/-- The part that the portion becomes, with those before it. -/
def addTo (ps : PartsSoFar) : Portion → PartsSoFar
  | plain c => ps.literal c
  | escaped c => ps.escaped c
  | joined => ps
  | expansion _ _ p => p :: ps

/-- What is expanded is the part of an expansion. -/
def IsRead : Portion → Prop
  | expansion _ _ p => p.IsExpansion
  | _ => True

end Portion

/-- The portions of the text that comes. An expansion is what was taken for it, if what follows is an end
of the text. Otherwise it has ended in the text of an alias. Then all that is left in front of the lines
comes in the place of what was taken, and is cut like the rest. -/
inductive Portions (start : Nat) : Input → List Portion → Prop
  | done {i : Input} (h : i.oncoming = []) : Portions start i []
  | plain {i j : Input} {c : Char} {xs : List Portion} (hj : next.on i = (.ok (some c), j))
      (hc : isHereDocSpecial c = false) (rest : Portions start j xs) :
      Portions start i (.plain c :: xs)
  | dollar {i j : Input} {xs : List Portion} (hj : next.on i = (.ok (some '$'), j))
      (hnone : ∀ c ∈ j.oncoming.head?, opensExpansion c = false) (rest : Portions start j xs) :
      Portions start i (.plain '$' :: xs)
  | backslash {i j : Input} {xs : List Portion} (hj : next.on i = (.ok (some '\\'), j))
      (hnone : ∀ c ∈ j.oncoming.head?, isHereDocSpecial c = false ∧ c ≠ '\n')
      (rest : Portions start j xs) : Portions start i (.plain '\\' :: xs)
  | escaped {i j k : Input} {c : Char} {xs : List Portion} (hj : next.on i = (.ok (some '\\'), j))
      (hk : next.on j = (.ok (some c), k)) (hc : isHereDocSpecial c = true)
      (rest : Portions start k xs) : Portions start i (.escaped c :: xs)
  | joined {i j k : Input} {xs : List Portion} (hj : next.on i = (.ok (some '\\'), j))
      (hk : next.on j = (.ok (some '\n'), k)) (rest : Portions start k xs) :
      Portions start i (.joined :: xs)
  | expansion {i k : Input} {p : Part} {s l r : Text} {xs : List Portion} (h : Expands start i p k)
      (hs : i.oncoming = s ++ r) (hl : k.oncoming = l ++ r)
      (hleft : l ≠ [] → l = k.held ∧ ¬ k.oncoming <:+ i.oncoming) (rest : Portions start k xs) :
      Portions start i (.expansion s l p :: xs)

/-! ## Reading the portions -/

theorem Expands.leavesEnd (h : Expands start i p k) (hi : Coherent i) :
    Coherent k ∧ k.left <:+ i.left := by
  cases h with
  | @dollar n j hj hk =>
      obtain ⟨-, hcoherent, hleft⟩ := (leavesEnd_next.shows hi).value hj
      have hend := ((readersObey endLaw n).readDollar true).holds
      obtain ⟨-, hcoherent', hleft'⟩ := (LeavesEnd.shows hend hcoherent).value hk
      exact ⟨hcoherent', hleft'.trans hleft⟩
  | @backQuote n j hj hk =>
      obtain ⟨-, hcoherent, hleft⟩ := (leavesEnd_next.shows hi).value hj
      have hend := ((readersObey endLaw n).readBackQuoted true start).holds
      obtain ⟨-, hcoherent', hleft'⟩ := (LeavesEnd.shows hend hcoherent).value hk
      exact ⟨hcoherent', hleft'.trans hleft⟩

theorem Expands.portions {xs : List Portion} (h : Expands start i p k) (hi : Coherent i)
    (rest : Portions start k xs) : ∃ s l, Portions start i (.expansion s l p :: xs) := by
  by_cases hsuffix : k.oncoming <:+ i.oncoming
  · obtain ⟨s, hs⟩ := hsuffix
    exact ⟨s, [], .expansion h hs.symm rfl (fun hne => absurd rfl hne) rest⟩
  · have hleft : k.left <:+ i.oncoming :=
      (h.leavesEnd hi).2.trans (List.suffix_append i.held i.left)
    obtain ⟨s, hs⟩ := hleft
    exact ⟨s, k.held, .expansion h hs.symm rfl (fun _ => ⟨rfl, hsuffix⟩) rest⟩

/-- What was looked at is still what comes. -/
theorem Portions.of_next {xs : List Portion} (h : Portions start j xs)
    (hnext : next.on j = next.on i) (hon : j.oncoming = i.oncoming) : Portions start i xs := by
  have hexpands : ∀ {p k}, Expands start j p k → Expands start i p k := by
    intro p k h
    cases h with
    | dollar hj hk => exact .dollar (hnext ▸ hj) hk
    | backQuote hj hk => exact .backQuote (hnext ▸ hj) hk
  cases h with
  | done h => exact .done (hon ▸ h)
  | plain hj hc rest => exact .plain (hnext ▸ hj) hc rest
  | dollar hj hnone rest => exact .dollar (hnext ▸ hj) hnone rest
  | backslash hj hnone rest => exact .backslash (hnext ▸ hj) hnone rest
  | escaped hj hk hc rest => exact .escaped (hnext ▸ hj) hk hc rest
  | joined hj hk rest => exact .joined (hnext ▸ hj) hk rest
  | expansion h hs hl hleft rest => exact .expansion (hexpands h) (hon ▸ hs) hl (hon ▸ hleft) rest

theorem readPartFrom_hereDoc (c : Char) :
    readPartFrom .hereDoc start n depth ps c = (
      if c = '\\' then do
        match ← next with
        | some '\n' => readParts .hereDoc start n depth ps
        | some d =>
          if isHereDocSpecial d then readParts .hereDoc start n depth (ps.escaped d)
          else readParts .hereDoc start n depth ((ps.literal '\\').literal d)
        | none => readParts .hereDoc start n depth (ps.literal '\\')
      else if c = '$' then do
        match ← readDollar n true with
        | some p => readParts .hereDoc start n depth (p :: ps)
        | none => readParts .hereDoc start n depth (ps.literal '$')
      else if c = '\x60' then do
        let p ← readBackQuoted n true start
        readParts .hereDoc start n depth (p :: ps)
      else readParts .hereDoc start n depth (ps.literal c)) := by
  have hread := readPartFrom.eq_def .hereDoc start n depth ps c
  simp only [WordContext.inQuotes, WordContext.isParamArg, WordContext.isHereDoc, Bool.false_and,
    Bool.and_false, Bool.not_true, Bool.false_or, Bool.or_false, Bool.false_eq_true,
    Bool.or_eq_true, decide_eq_true_eq, if_false] at hread
  simp only [isHereDocSpecial, Bool.or_eq_true, decide_eq_true_eq]
  exact hread

theorem gives_readBracedParam (n : Nat) (q : Bool) : Gives Part.IsExpansion (readBracedParam n q) := by
  cases n with
  | zero => exact fun _ => trivial
  | succ n =>
      unfold readBracedParam
      repeat' first
        | exact gives_pure trivial
        | refine .after fun _ => ?_
        | refine .ite ?_ ?_

/-- What is read for a `$` is expanded. -/
theorem gives_readDollar (n : Nat) (q : Bool) :
    Gives (fun o => ∀ p ∈ o, p.IsExpansion) (readDollar n q) := by
  have hsome : ∀ {p : Part}, p.IsExpansion → ∀ q ∈ some p, q.IsExpansion := by
    rintro p hp _ ⟨rfl⟩
    exact hp
  cases n with
  | zero => exact fun _ => trivial
  | succ n =>
      unfold readDollar
      refine .after fun c => ?_
      split
      · exact gives_pure nofun
      refine .ite ?_ (.ite ?_ (.ite ?_ (.ite ?_ (gives_pure nofun))))
      · refine .after fun _ i => (gives_readBracedParam n q i).bind fun p j hp => ?_
        exact hsome hp
      · refine .after fun _ => .after fun _ => .ite ?_ ?_
        · exact .after fun _ => .after fun _ => .after fun _ => gives_pure (hsome trivial)
        · exact .after fun _ => gives_pure (hsome trivial)
      · exact .after fun _ => gives_pure (hsome trivial)
      · exact .after fun _ => gives_pure (hsome trivial)

/-- A `$` that stands for itself is followed by nothing that goes with it, and nothing is taken. -/
theorem readDollar_none (hi : Coherent i) {n : Nat} {q : Bool}
    (hj : (readDollar n q).on i = (.ok none, j)) :
    (∀ c ∈ i.oncoming.head?, opensExpansion c = false) ∧ next.on j = next.on i ∧
      j.oncoming = i.oncoming := by
  have hshows : Shows (fun o j => o = none → (∀ c ∈ i.oncoming.head?, opensExpansion c = false) ∧
      next.on j = next.on i ∧ j.oncoming = i.oncoming) (readDollar n q) i := by
    cases n with
    | zero => trivial
    | succ n =>
        have hsome : ∀ {Q : Input → Prop} {r : Reader (Option Part)}, Gives (fun o => o ≠ none) r →
            ∀ k, Shows (fun o j => o = none → Q j) r k :=
          fun hr k => (hr k).mono fun _ _ hne h => absurd h hne
        unfold readDollar
        refine hi.peek.shows_value.bind ?_
        rintro _ k ⟨-, rfl, -, -, hon, hnext⟩
        cases hhead : i.oncoming.head? with
        | none => exact fun _ => ⟨by rintro _ ⟨⟩, hnext, hon⟩
        | some c =>
            dsimp only
            refine .ite (fun _ => hsome ?_ k) fun hbrace => .ite (fun _ => hsome ?_ k) fun hparen =>
              .ite (fun _ => hsome ?_ k) fun hname => .ite (fun _ => hsome ?_ k) fun hparam => ?_
            · exact .after fun _ => .after fun _ => gives_pure (Option.some_ne_none _)
            · refine .after fun _ => .after fun _ => .ite ?_ ?_
              · exact .after fun _ => .after fun _ => .after fun _ => gives_pure (Option.some_ne_none _)
              · exact .after fun _ => gives_pure (Option.some_ne_none _)
            · exact .after fun _ => gives_pure (Option.some_ne_none _)
            · exact .after fun _ => gives_pure (Option.some_ne_none _)
            · refine fun _ => ⟨?_, hnext, hon⟩
              rintro _ ⟨rfl⟩
              simpa [opensExpansion, hbrace, hparen, hname] using hparam
  exact hshows.value hj rfl

theorem Portions.eq_nil {xs : List Portion} (h : Portions start i xs) (hi : Coherent i)
    (hend : i.oncoming = []) : xs = [] := by
  have hnot : ∀ {c j}, next.on i ≠ (.ok (some c), j) := by
    intro c j hj
    have hc := (hi.next.value hj).1
    rw [hend] at hc
    exact absurd hc (Option.some_ne_none c)
  have hnone : ∀ {p k}, ¬ Expands start i p k := by
    intro p k h
    cases h with
    | dollar hj hk => exact hnot hj
    | backQuote hj hk => exact hnot hj
  cases h with
  | done h => rfl
  | plain hj hc rest => exact absurd hj hnot
  | dollar hj hnone rest => exact absurd hj hnot
  | backslash hj hnone rest => exact absurd hj hnot
  | escaped hj hk hc rest => exact absurd hj hnot
  | joined hj hk rest => exact absurd hj hnot
  | expansion h hs hl hleft rest => exact absurd h hnone

/-- The parts are those of the portions of what comes, after those read so far. -/
def CutInto (start : Nat) (ps : PartsSoFar) (i : Input) (parts : List Part) : Prop :=
  ∃ xs, Portions start i xs ∧ parts = PartsSoFar.sealed (xs.foldl Portion.addTo ps)

theorem CutInto.cons {x : Portion} {parts : List Part} (h : CutInto start (x.addTo ps) j parts)
    (hx : ∀ xs, Portions start j xs → Portions start i (x :: xs)) : CutInto start ps i parts := by
  obtain ⟨xs, hxs, hparts⟩ := h
  exact ⟨x :: xs, hx xs hxs, hparts⟩

theorem CutInto.expansion {parts : List Part} (h : CutInto start (p :: ps) k parts) (hi : Coherent i)
    (hp : Expands start i p k) : CutInto start ps i parts := by
  obtain ⟨xs, hxs, hparts⟩ := h
  obtain ⟨s, l, hx⟩ := hp.portions hi hxs
  exact ⟨.expansion s l p :: xs, hx, hparts⟩

theorem CutInto.of_next {parts : List Part} (h : CutInto start ps j parts)
    (hnext : next.on j = next.on i) (hon : j.oncoming = i.oncoming) : CutInto start ps i parts := by
  obtain ⟨xs, hxs, hparts⟩ := h
  exact ⟨xs, hxs.of_next hnext hon, hparts⟩

/-- With some number of steps, what is read are portions. -/
def Cuts (start n depth : Nat) : Prop :=
  ∀ i, Coherent i → ∀ ps,
    Shows (fun parts _ => CutInto start ps i parts) (readParts .hereDoc start n depth ps) i

namespace Cuts

variable {x : Portion}

/-- One portion comes first. -/
theorem after (h : Cuts start n depth) (hj : Coherent j)
    (hx : ∀ xs, Portions start j xs → Portions start i (x :: xs)) :
    Shows (fun parts _ => CutInto start ps i parts)
      (readParts .hereDoc start n depth (x.addTo ps)) j :=
  (h j hj _).mono fun _ _ hcut => hcut.cons hx

theorem backslash (h : Cuts start n depth) (hj : next.on i = (.ok (some '\\'), j))
    (hcoherent : Coherent j) (ps : PartsSoFar) :
    Shows (fun parts _ => CutInto start ps i parts) (do
      match ← next with
      | some '\n' => readParts .hereDoc start n depth ps
      | some d =>
        if isHereDocSpecial d then readParts .hereDoc start n depth (ps.escaped d)
        else readParts .hereDoc start n depth ((ps.literal '\\').literal d)
      | none => readParts .hereDoc start n depth (ps.literal '\\')) j := by
  refine hcoherent.next.shows_value.bind ?_
  rintro _ k ⟨hk, rfl, hkc, -, hon⟩
  split
  · rename_i hd
    exact h.after hkc fun xs hxs => .joined hj (hd ▸ hk) hxs
  · rename_i d hnewline hd
    rw [hd] at hk
    refine .ite (fun hspecial => ?_) fun hspecial => ?_
    · exact h.after hkc fun xs hxs => .escaped hj hk hspecial hxs
    · -- the backslash stands for itself, and so does what comes after it
      have hd' : isHereDocSpecial d = false := Bool.not_eq_true _ ▸ hspecial
      have hnone : ∀ c ∈ j.oncoming.head?, isHereDocSpecial c = false ∧ c ≠ '\n' := by
        rw [hd]
        rintro _ ⟨rfl⟩
        exact ⟨hd', hnewline⟩
      refine (h k hkc _).mono fun parts _ hcut => ?_
      have hplain : CutInto start (ps.literal '\\') j parts :=
        hcut.cons (x := .plain d) fun xs hxs => .plain hk hd' hxs
      exact hplain.cons (x := .plain '\\') fun xs hxs => .backslash hj hnone hxs
  · rename_i hd
    have hend : j.oncoming = [] := List.head?_eq_none_iff.mp hd
    have hnone : ∀ c ∈ j.oncoming.head?, isHereDocSpecial c = false ∧ c ≠ '\n' := by
      rw [hd]
      rintro _ ⟨⟩
    refine (h k hkc _).mono fun parts _ hcut => ?_
    obtain ⟨xs, hxs, hparts⟩ := hcut
    obtain rfl : xs = [] := hxs.eq_nil hkc (by rw [hon, hend]; rfl)
    exact ⟨[.plain '\\'], .backslash hj hnone (.done hend), hparts⟩

theorem dollar (h : Cuts start n depth) (hi : Coherent i) (hj : next.on i = (.ok (some '$'), j))
    (hcoherent : Coherent j) (ps : PartsSoFar) :
    Shows (fun parts _ => CutInto start ps i parts) (do
      match ← readDollar n true with
      | some p => readParts .hereDoc start n depth (p :: ps)
      | none => readParts .hereDoc start n depth (ps.literal '$')) j := by
  have hend := ((readersObey endLaw n).readDollar true).holds
  refine (LeavesEnd.shows hend hcoherent).bind ?_
  rintro o k ⟨hk, hkc, -⟩
  cases o with
  | some p => exact (h k hkc _).mono fun _ _ hcut => hcut.expansion hi (.dollar hj hk)
  | none =>
      obtain ⟨hnone, hnext, hon⟩ := readDollar_none hcoherent hk
      exact h.after hkc fun xs hxs => .dollar hj hnone (hxs.of_next hnext hon)

theorem backQuote (h : Cuts start n depth) (hi : Coherent i)
    (hj : next.on i = (.ok (some '\x60'), j)) (hcoherent : Coherent j) (ps : PartsSoFar) :
    Shows (fun parts _ => CutInto start ps i parts) (do
      let p ← readBackQuoted n true start
      readParts .hereDoc start n depth (p :: ps)) j := by
  have hend := ((readersObey endLaw n).readBackQuoted true start).holds
  refine (LeavesEnd.shows hend hcoherent).bind ?_
  rintro p k ⟨hk, hkc, -⟩
  exact (h k hkc _).mono fun _ _ hcut => hcut.expansion hi (.backQuote hj hk)

theorem succ (h : Cuts start n depth) : Cuts start (n + 1) depth := by
  intro i hi ps
  rw [readParts_eq]
  refine hi.peek.shows_value.bind ?_
  rintro _ j ⟨-, rfl, hj, -, hon, hnext⟩
  refine Meets.mono (Q := fun parts _ => CutInto start ps j parts) ?_
    fun _ _ hcut => hcut.of_next hnext hon
  rw [← hon]
  cases hhead : j.oncoming.head? with
  | none => exact ⟨[], .done (List.head?_eq_none_iff.mp hhead), rfl⟩
  | some c =>
      dsimp only
      rw [if_neg (by simp)]
      refine hj.next.shows_value.bind ?_
      rintro _ k ⟨hk, rfl, hkc, -, -⟩
      rw [hhead] at hk
      rw [readPartFrom_hereDoc]
      refine .ite ?_ fun hslash => .ite ?_ fun hdollar => .ite ?_ fun hquote => ?_
      · rintro rfl
        exact h.backslash hk hkc ps
      · rintro rfl
        exact h.dollar hj hk hkc ps
      · rintro rfl
        exact h.backQuote hj hk hkc ps
      · refine h.after hkc fun xs hxs => .plain hk ?_ hxs
        simp [isHereDocSpecial, hslash, hdollar, hquote]

end Cuts

/-- The body of a here-document is read portion by portion. -/
theorem readParts_cutInto (start n depth : Nat) : Cuts start n depth := by
  induction n with
  | zero => exact fun i hi ps => trivial
  | succ n ih => exact ih.succ

/-! ## What the portions are -/

/-- Nothing of the body is lost, and nothing comes twice. -/
theorem Portions.flatMap_source {xs : List Portion} (h : Portions start i xs) (hi : Coherent i)
    (hleft : ∀ x ∈ xs, x.left = []) : xs.flatMap Portion.source = i.oncoming := by
  induction h with
  | done h => exact h.symm
  | plain hj hc rest ih | dollar hj hnone rest ih | backslash hj hnone rest ih =>
      obtain ⟨hcoherent, hon⟩ := hi.of_next hj
      rw [List.flatMap_cons, ih hcoherent (List.forall_mem_cons.mp hleft).2, hon]
      rfl
  | escaped hj hk hc rest ih | joined hj hk rest ih =>
      obtain ⟨hcoherent, hon⟩ := hi.of_next hj
      obtain ⟨hcoherent', hon'⟩ := hcoherent.of_next hk
      rw [List.flatMap_cons, ih hcoherent' (List.forall_mem_cons.mp hleft).2, hon, hon']
      rfl
  | expansion h hs hl hheld rest ih =>
      obtain ⟨hnil, hrest⟩ := List.forall_mem_cons.mp hleft
      obtain rfl : _ = [] := hnil
      rw [List.flatMap_cons, ih (h.leavesEnd hi).1 hrest, hl, hs]
      rfl

theorem Expands.takes (h : Expands start i p k) (hi : Excerpt 0 [] i i) :
    Excerpt 0 [] k k ∧ k.oncoming <:+ i.oncoming := by
  obtain ⟨hk, hsuffix⟩ : Excerpt 0 [] k k ∧ k.ahead <:+ i.ahead := by
    cases h with
    | @dollar n j hj hk =>
        have hnext := Mirrors.next.self hi hj
        have hstep := hnext.trans (((readersMirror 0 n).readDollar true).self hnext.toExcerpt hk)
        obtain ⟨taken, htaken, -⟩ := hstep.taken
        exact ⟨hstep.toExcerpt, taken, htaken.ahead.symm⟩
    | @backQuote n j hj hk =>
        have hnext := Mirrors.next.self hi hj
        have hstep := hnext.trans
          (((readersMirror 0 n).readBackQuoted true start start).self hnext.toExcerpt hk)
        obtain ⟨taken, htaken, -⟩ := hstep.taken
        exact ⟨hstep.toExcerpt, taken, htaken.ahead.symm⟩
  rw [hk.oncoming, hi.oncoming]
  exact ⟨hk, hsuffix⟩

/-- Without aliases nothing is put in the place of an expansion. -/
theorem Portions.left_eq_nil {xs : List Portion} (h : Portions start i xs) (hi : Excerpt 0 [] i i) :
    ∀ x ∈ xs, x.left = [] := by
  induction h with
  | done h => exact nofun
  | plain hj hc rest ih | dollar hj hnone rest ih | backslash hj hnone rest ih =>
      have hnext := Mirrors.next.self hi hj
      exact List.forall_mem_cons.mpr ⟨rfl, ih hnext.toExcerpt⟩
  | escaped hj hk hc rest ih | joined hj hk rest ih =>
      have hnext := Mirrors.next.self hi hj
      have hnext' := Mirrors.next.self hnext.toExcerpt hk
      exact List.forall_mem_cons.mpr ⟨rfl, ih hnext'.toExcerpt⟩
  | expansion h hs hl hheld rest ih =>
      obtain ⟨hk, hsuffix⟩ := h.takes hi
      refine List.forall_mem_cons.mpr ⟨?_, ih hk⟩
      by_contra hne
      exact (hheld hne).2 hsuffix

/-- A body without special characters consists of characters that stand for themselves. -/
theorem Portions.eq_map_plain {xs : List Portion} (h : Portions start i xs) (hi : Coherent i)
    (hplain : ∀ c ∈ i.oncoming, isHereDocSpecial c = false) : xs = i.oncoming.map .plain := by
  have hnot : ∀ {i j : Input} {c : Char}, Coherent i → (∀ c ∈ i.oncoming, isHereDocSpecial c = false) →
      next.on i = (.ok (some c), j) → isHereDocSpecial c = false := by
    intro i j c hi hplain hj
    rw [(hi.of_next hj).2] at hplain
    exact hplain c List.mem_cons_self
  induction h with
  | done h => rw [h]; rfl
  | plain hj hc rest ih =>
      obtain ⟨hcoherent, hon⟩ := hi.of_next hj
      rw [hon] at hplain ⊢
      rw [ih hcoherent (List.forall_mem_cons.mp hplain).2]
      rfl
  | dollar hj hnone rest ih => exact absurd (hnot hi hplain hj) (by decide)
  | backslash hj hnone rest ih => exact absurd (hnot hi hplain hj) (by decide)
  | escaped hj hk hc rest ih => exact absurd (hnot hi hplain hj) (by decide)
  | joined hj hk rest ih => exact absurd (hnot hi hplain hj) (by decide)
  | expansion h hs hl hheld rest ih =>
      cases h with
      | dollar hj hk => exact absurd (hnot hi hplain hj) (by decide)
      | backQuote hj hk => exact absurd (hnot hi hplain hj) (by decide)

theorem Expands.isExpansion (h : Expands start i p k) : p.IsExpansion := by
  cases h with
  | @dollar n j hj hk => exact (gives_readDollar n true j).value hk p rfl
  | @backQuote n j hj hk =>
      have hgives : Gives Part.IsExpansion (readBackQuoted n true start) := by
        cases n with
        | zero => exact fun _ => trivial
        | succ n =>
            exact .after fun _ => .after fun _ => .after fun _ => .after fun _ => .after fun _ =>
              gives_pure trivial
      exact (hgives j).value hk

theorem Portions.isRead {xs : List Portion} (h : Portions start i xs) : ∀ x ∈ xs, x.IsRead := by
  induction h with
  | done h => exact nofun
  | expansion h hs hl hheld rest ih => exact List.forall_mem_cons.mpr ⟨h.isExpansion, ih⟩
  | _ => exact List.forall_mem_cons.mpr ⟨trivial, by assumption⟩

/-! ## Bodies without special characters -/

/-- A body without special characters is read. -/
theorem readParts_plain (start : Nat) (hi : Coherent i) (hclosed : i.closed = true)
    (hplain : ∀ c ∈ i.oncoming, isHereDocSpecial c = false) {n : Nat} (hn : i.oncoming.length < n)
    (depth : Nat) (ps : PartsSoFar) :
    ∃ parts j, (readParts .hereDoc start n depth ps).on i = (.ok parts, j) := by
  induction n generalizing i ps with
  | zero => exact absurd hn (Nat.not_lt_zero _)
  | succ n ih =>
      obtain ⟨o, j, hj, rfl, hcoherent, hbeside, hon, -⟩ := hi.peek.sure (by simp [hclosed])
      rw [readParts_eq, Reader.on_bind, hj]
      cases ht : i.oncoming with
      | nil => exact ⟨_, _, rfl⟩
      | cons c t =>
          rw [ht] at hplain hn hon
          obtain ⟨hc, hplain⟩ := List.forall_mem_cons.mp hplain
          obtain ⟨k, hk, hkc, hkbeside, rfl⟩ := hcoherent.next_on_cons hon
          obtain ⟨⟨hdollar, hquote⟩, hslash⟩ := by simpa [isHereDocSpecial] using hc
          dsimp only [List.head?_cons]
          rw [if_neg (by simp), Reader.on_bind, hk]
          dsimp only
          rw [readPartFrom_hereDoc, if_neg hslash, if_neg hdollar, if_neg hquote]
          have hkclosed := (hbeside.trans hkbeside).closed.trans hclosed
          exact ih hkc hkclosed hplain (Nat.lt_of_succ_lt_succ hn) _

end CommandShell.Script
