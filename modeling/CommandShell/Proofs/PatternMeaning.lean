import Mathlib.Data.List.Infix
import Mathlib.Data.List.TakeWhile
import CommandShell.Pattern

/-!
# What patterns mean

The meaning of a pattern is given by `Pattern.Means`, a relation between its characters, quoted or
live, and a text: a live `*` stands for any run of characters, a live `?` for any character, a live
bracket for a character of its set, and everything else for itself, a `[` without its `]` too.

`compile?` and the matcher that runs the result agree with this on tidy patterns, in which each `[` has
its `]` and no two stars stand side by side, except as the last component of a path
(`accepts_iff_means`). On other patterns they do not (`not_accepts_iff_means`): one bracket that is not
closed, or stars side by side that are no component, and the pattern matches nothing but itself
(`accepts_malformed`).
-/

namespace CommandShell

/-- A character of a pattern, and whether it was quoted. -/
structure Glyph where
  char : Char
  quoted : Bool := false
  deriving DecidableEq, Repr

/-- A character that was not quoted. -/
abbrev Glyph.live (c : Char) : Glyph := ⟨c, false⟩

/-- The character in the text of a pattern: a special one that was quoted stands in a bracket of its
own. -/
def Glyph.written (g : Glyph) : Text := if g.quoted then Pattern.escape [g.char] else [g.char]

namespace Pattern

open Glyph (live)

/-! ## Meaning -/

/-- The set of a bracket and what follows the bracket, from the text after its opening. The first
character belongs to the set whatever it is; the next live `]` closes the bracket. -/
def bracketSet? : List Glyph → Option (List Glyph × List Glyph)
  | [] => none
  | g :: r =>
    if live ']' ∈ r then
      some (g :: r.takeWhile (· ≠ live ']'), (r.dropWhile (· ≠ live ']')).drop 1)
    else none

/-- Whether a bracket is negated, its set, and what follows it; none if it is not closed. -/
def bracket? (q : List Glyph) : Option (Bool × List Glyph × List Glyph) :=
  if q.head? = some (live '!') then (bracketSet? q.tail).map (true, ·)
  else (bracketSet? q).map (false, ·)

/-- The character is in a set of characters and ranges. -/
def InSet (c : Char) : List Glyph → Prop
  | a :: ⟨'-', false⟩ :: b :: r => (a.char ≤ c ∧ c ≤ b.char) ∨ InSet c r
  | a :: r => c = a.char ∨ InSet c r
  | [] => False

/-- The character `g` stands for itself before `p`. -/
def StandsForItself (g : Glyph) (p : List Glyph) : Prop :=
  g.quoted = true ∨ g.char ≠ '*' ∧ g.char ≠ '?' ∧ (g.char = '[' → bracket? p = none)

/-- The pattern matches the text. -/
inductive Means : List Glyph → Text → Prop
  | nothing : Means [] []
  | anyRun {p : List Glyph} {t : Text} (s : Text) : Means p t → Means (live '*' :: p) (s ++ t)
  | anyChar {p : List Glyph} {t : Text} (c : Char) : Means p t → Means (live '?' :: p) (c :: t)
  | bracket {q set p : List Glyph} {negated : Bool} {t : Text} {c : Char} :
    bracket? q = some (negated, set, p) → (InSet c set ↔ negated = false) → Means p t →
      Means (live '[' :: q) (c :: t)
  | itself {g : Glyph} {p : List Glyph} {t : Text} :
    StandsForItself g p → Means p t → Means (g :: p) (g.char :: t)

section

variable {g : Glyph} {p q r : List Glyph} {t : Text}

theorem means_nil : Means [] t ↔ t = [] := by
  constructor
  · intro h
    cases h
    rfl
  · rintro rfl
    exact .nothing

/-- A star stands for what is before some end of the text. -/
theorem means_star : Means (live '*' :: p) t ↔ ∃ s, s <:+ t ∧ Means p s := by
  constructor
  · intro h
    cases h with
    | anyRun s h => exact ⟨_, List.suffix_append s _, h⟩
    | itself hg h => simp [StandsForItself] at hg
  · rintro ⟨s, ⟨u, rfl⟩, h⟩
    exact .anyRun u h

theorem means_question : Means (live '?' :: p) t ↔ ∃ c u, t = c :: u ∧ Means p u := by
  constructor
  · intro h
    cases h with
    | anyChar c h => exact ⟨c, _, rfl, h⟩
    | itself hg h => simp [StandsForItself] at hg
  · rintro ⟨c, u, rfl, h⟩
    exact .anyChar c h

theorem means_bracket {set : List Glyph} {negated : Bool} (hq : bracket? q = some (negated, set, p)) :
    Means (live '[' :: q) t ↔ ∃ c u, t = c :: u ∧ (InSet c set ↔ negated = false) ∧ Means p u := by
  constructor
  · intro h
    cases h with
    | bracket hq' hc h =>
        obtain ⟨rfl, rfl, rfl⟩ : _ ∧ _ ∧ _ := by simpa [hq] using hq'
        exact ⟨_, _, rfl, hc, h⟩
    | itself hg h => simp [StandsForItself, hq] at hg
  · rintro ⟨c, u, rfl, hc, h⟩
    exact .bracket hq hc h

theorem means_itself (hg : g.quoted = true ∨ g.char ≠ '*' ∧ g.char ≠ '?' ∧ g.char ≠ '[') :
    Means (g :: p) t ↔ ∃ u, t = g.char :: u ∧ Means p u := by
  constructor
  · intro h
    cases h with
    | anyRun s h => simp at hg
    | anyChar c h => simp at hg
    | bracket hq hc h => simp at hg
    | itself hg h => exact ⟨_, rfl, h⟩
  · rintro ⟨u, rfl, h⟩
    refine .itself ?_ h
    rcases hg with hg | ⟨h1, h2, h3⟩
    · exact Or.inl hg
    · exact Or.inr ⟨h1, h2, fun h => absurd h h3⟩

end

/-! ## Matching -/

/-- The elements match the texts that the pattern means, and give up only where no end of the text
is among these. -/
structure Realizes (ps : List PatternItem) (p : List Glyph) : Prop where
  hit : ∀ b t, run anywhere ps b t = .hit ↔ Means p t
  short : ∀ b t, run anywhere ps b t = .short → ∀ s, s <:+ t → ¬ Means p s

section

variable {ps : List PatternItem} {p q : List Glyph} {t : Text}

theorem realizes_nil : Realizes [] [] := by
  constructor
  · intro b t
    rw [means_nil]
    cases t <;> simp [run]
  · intro b t h
    cases t <;> simp [run] at h

theorem run_anyRun_nil (b : Bool) : run anywhere (.anyRun :: ps) b [] = run anywhere ps b [] := by
  simp only [run, sweep]
  cases run anywhere ps b [] <;> rfl

/-- A star that does not match here matches at least one character. -/
theorem run_anyRun_cons (b : Bool) (c : Char) (t : Text) :
    run anywhere (.anyRun :: ps) b (c :: t) =
      match run anywhere ps b (c :: t) with
      | .miss => run anywhere (.anyRun :: ps) (c == '/') t
      | found => found := by
  rw [run, run]
  cases run anywhere ps b (c :: t) with
  | hit => rfl
  | short => rfl
  | miss => simp [sweep, anywhere]

theorem Realizes.star (h : Realizes ps p) : Realizes (.anyRun :: ps) (live '*' :: p) := by
  -- the ends of the text are tried from the longest on, and the last try runs out of text only
  -- where no end matches
  have hends : ∀ b t, (run anywhere (.anyRun :: ps) b t = .hit ↔ ∃ s, s <:+ t ∧ Means p s) ∧
      (run anywhere (.anyRun :: ps) b t = .short → ∀ s, s <:+ t → ¬ Means p s) := by
    intro b t
    induction t generalizing b with
    | nil =>
        rw [run_anyRun_nil, h.hit]
        refine ⟨⟨fun hp => ⟨[], List.suffix_rfl, hp⟩, ?_⟩, h.short b []⟩
        rintro ⟨s, hs, hp⟩
        rwa [List.suffix_nil.mp hs] at hp
    | cons c t ih =>
        rw [run_anyRun_cons]
        cases hrun : run anywhere ps b (c :: t) with
        | hit => exact ⟨iff_of_true rfl ⟨_, List.suffix_rfl, (h.hit b _).mp hrun⟩, nofun⟩
        | short =>
            have hnone := h.short b _ hrun
            exact ⟨iff_of_false nofun fun ⟨s, hs, hp⟩ => hnone s hs hp, fun _ => hnone⟩
        | miss =>
            have hnot : ¬ Means p (c :: t) := fun hp => by
              rw [(h.hit b _).mpr hp] at hrun
              cases hrun
            obtain ⟨hhit, hshort⟩ := ih (c == '/')
            constructor
            · refine hhit.trans ⟨fun ⟨s, hs, hp⟩ => ⟨s, hs.trans (List.suffix_cons c t), hp⟩, ?_⟩
              rintro ⟨s, hs, hp⟩
              rcases List.suffix_cons_iff.mp hs with rfl | hs
              · exact absurd hp hnot
              · exact ⟨s, hs, hp⟩
            · intro hrest s hs
              rcases List.suffix_cons_iff.mp hs with rfl | hs
              · exact hnot
              · exact hshort hrest s hs
  constructor
  · intro b t
    rw [means_star]
    exact (hends b t).1
  · intro b t hrun s hs hmeans
    obtain ⟨u, hu, hp⟩ := means_star.mp hmeans
    exact (hends b t).2 hrun u (hu.trans hs) hp

theorem run_anyDirs (b : Bool) (t : Text) : run anywhere [.anyDirs] b t = .hit := by
  have hsweep : ∀ b t, sweep anywhere true (run anywhere []) b t = .hit := by
    intro b t
    induction t generalizing b with
    | nil => rfl
    | cons c t ih =>
        rw [sweep, if_neg (by simp [anywhere])]
        split
        · exact ih false
        · rw [if_neg (by simp)]
          cases t with
          | nil => rfl
          | cons d t => exact ih _
  cases t with
  | nil => rfl
  | cons c t => exact hsweep b (c :: t)

/-- Any directories at the end, and any name in them, are any text. -/
theorem realizes_stars : Realizes [.anyDirs] [live '*', live '*'] := by
  constructor
  · intro b t
    have hmeans : Means [live '*', live '*'] (t ++ []) := .anyRun t (.anyRun [] .nothing)
    rw [List.append_nil] at hmeans
    exact iff_of_true (run_anyDirs b t) hmeans
  · intro b t h
    rw [run_anyDirs] at h
    cases h

theorem run_one_nil {rules : MatchRules} {item : PatternItem}
    (hone : item ≠ .anyRun ∧ item ≠ .anyDirs) (b : Bool) :
    run rules (item :: ps) b [] = .short := by
  cases item with
  | anyRun => exact absurd rfl hone.1
  | anyDirs => exact absurd rfl hone.2
  | char c => rfl
  | anyChar => rfl
  | oneOf set => rfl
  | noneOf set => rfl

theorem run_one_cons {rules : MatchRules} {item : PatternItem}
    (hone : item ≠ .anyRun ∧ item ≠ .anyDirs) (b : Bool) (c : Char) (t : Text) :
    run rules (item :: ps) b (c :: t) =
      if PatternItem.accepts rules b c item then run rules ps (c == '/') t else .miss := by
  cases item with
  | anyRun => exact absurd rfl hone.1
  | anyDirs => exact absurd rfl hone.2
  | char c => rfl
  | anyChar => rfl
  | oneOf set => rfl
  | noneOf set => rfl

theorem Realizes.one {item : PatternItem} {accepted : Char → Prop} (h : Realizes ps p)
    (hone : item ≠ .anyRun ∧ item ≠ .anyDirs)
    (hitem : ∀ b c, PatternItem.accepts anywhere b c item = true ↔ accepted c)
    (hmeans : ∀ t, Means q t ↔ ∃ c u, t = c :: u ∧ accepted c ∧ Means p u) :
    Realizes (item :: ps) q := by
  constructor
  · intro b t
    rw [hmeans]
    cases t with
    | nil => simp [run_one_nil hone]
    | cons c t =>
        rw [run_one_cons hone]
        by_cases hc : accepted c
        · rw [if_pos ((hitem b c).mpr hc), h.hit]
          simp [hc]
        · rw [if_neg (mt (hitem b c).mp hc)]
          simp [hc]
  · intro b t hrun s hs hmeans'
    obtain ⟨d, u, rfl, -, hu⟩ := (hmeans s).mp hmeans'
    cases t with
    | nil => simp at hs
    | cons c t =>
        rw [run_one_cons hone] at hrun
        split at hrun
        · -- the rest of the end is an end of the rest
          have hsuffix : u <:+ t := by
            rcases List.suffix_cons_iff.mp hs with heq | hs
            · exact (List.cons.inj heq).2 ▸ List.suffix_rfl
            · exact (List.suffix_cons d u).trans hs
          exact h.short _ t hrun u hsuffix hu
        · cases hrun

end

/-! ## Compiling -/

/-- The text of a pattern. -/
def written (p : List Glyph) : Text := p.flatMap Glyph.written

/-- No quoted character of the set of a bracket means something where it stands. -/
structure PlainSet (negated : Bool) (set : List Glyph) : Prop where
  /-- None is special everywhere. -/
  special : ∀ g ∈ set, g.quoted = true → isSpecial g.char = false
  /-- None makes a range of its neighbours. -/
  dash : ⟨'-', true⟩ ∉ set.tail.dropLast
  /-- None negates the bracket. -/
  mark : negated = false → set.head? ≠ some ⟨'!', true⟩

/-- Whether a component of a path starts after the character. -/
def atStart : Option Char → Bool
  | none => true
  | some c => c == '/'

theorem atStart_eq (prev : Option Char) : (prev = none || prev = some '/') = atStart prev := by
  cases prev with
  | none => rfl
  | some c => simp [atStart, Bool.beq_eq_decide_eq]

/-- Each live `[` has its `]`, with no quoted character between them that means something there, and
two live stars stand side by side only as the last component. The flag tells whether a component
starts here. -/
inductive Tidy : Bool → List Glyph → Prop
  | nil {start : Bool} : Tidy start []
  | star {start : Bool} {p : List Glyph} :
    p.head? ≠ some (live '*') → Tidy false p → Tidy start (live '*' :: p)
  | stars : Tidy true [live '*', live '*']
  | question {start : Bool} {p : List Glyph} : Tidy false p → Tidy start (live '?' :: p)
  | bracket {start : Bool} {q set p : List Glyph} {negated : Bool} :
    bracket? q = some (negated, set, p) → PlainSet negated set → Tidy false p →
      Tidy start (live '[' :: q)
  | itself {start : Bool} {g : Glyph} {p : List Glyph} :
    g.quoted = true ∨ g.char ≠ '*' ∧ g.char ≠ '?' ∧ g.char ≠ '[' → Tidy (g.char == '/') p →
      Tidy start (g :: p)

section

variable {done : List PatternItem} {prev : Option Char} {c : Char} {s r : Text}

theorem compileFrom_question : compileFrom done prev ('?' :: r) =
    compileFrom (.anyChar :: done) (some '?') r := by
  rw [compileFrom]

/-- A star that no other one follows stands for any run. -/
theorem compileFrom_star (hr : r.head? ≠ some '*') : compileFrom done prev ('*' :: r) =
    compileFrom (.anyRun :: done) (some '*') r := by
  rw [compileFrom]
  all_goals
    intros
    subst r
    exact hr rfl

/-- Two stars that are the last component stand for any directories. -/
theorem compileFrom_stars (hprev : atStart prev = true) (hdone : done.head? ≠ some .anyDirs) :
    compileFrom done prev ['*', '*'] = some (done.reverse ++ [.anyDirs]) := by
  have hadd : compileFrom.addDirs done = .anyDirs :: done := by
    simp [compileFrom.addDirs, hdone]
  rw [compileFrom, if_pos ((atStart_eq prev).trans hprev), hadd, List.reverse_cons]

theorem compileFrom_itself (hc : c ≠ '*' ∧ c ≠ '?' ∧ c ≠ '[') :
    compileFrom done prev (c :: r) = compileFrom (.char c :: done) (some c) r := by
  obtain ⟨hstar, hquestion, hbracket⟩ := hc
  rw [compileFrom]
  all_goals
    intros
    contradiction

theorem takeWhile_closing (hs : ']' ∉ s) : (s ++ ']' :: r).takeWhile (· ≠ ']') = s := by
  have hall : ∀ c ∈ s, decide (c ≠ ']') = true := fun c hc =>
    decide_eq_true fun h => hs (h ▸ hc)
  rw [List.takeWhile_append_of_pos hall, List.takeWhile_cons_of_neg (by decide), List.append_nil]

theorem dropWhile_closing (hs : ']' ∉ s) : ((s ++ ']' :: r).dropWhile (· ≠ ']')).drop 1 = r := by
  have hall : ∀ c ∈ s, decide (c ≠ ']') = true := fun c hc =>
    decide_eq_true fun h => hs (h ▸ hc)
  rw [List.dropWhile_append_of_pos hall, List.dropWhile_cons_of_neg (by decide)]
  rfl

theorem compileFrom_bracket (hc : c ≠ '!') (hs : ']' ∉ s) :
    compileFrom done prev ('[' :: c :: (s ++ ']' :: r)) =
      compileFrom (.oneOf (members (c :: s)) :: done) (some ']') r := by
  have hclosed : (s ++ ']' :: r).contains ']' = true := by simp
  rw [compileFrom, if_pos hclosed, takeWhile_closing hs, dropWhile_closing hs]
  all_goals
    intros
    contradiction

theorem compileFrom_negated (hs : ']' ∉ s) :
    compileFrom done prev ('[' :: '!' :: c :: (s ++ ']' :: r)) =
      compileFrom (.noneOf (members (c :: s)) :: done) (some ']') r := by
  have hclosed : (s ++ ']' :: r).contains ']' = true := by simp
  rw [compileFrom, if_pos hclosed, takeWhile_closing hs, dropWhile_closing hs]

end

section

variable {p q set : List Glyph} {negated : Bool}

theorem bracketSet?_eq_some (hq : bracketSet? q = some (set, p)) : ∃ g s,
    set = g :: s ∧ live ']' ∉ s ∧ q = g :: s ++ live ']' :: p := by
  cases q with
  | nil => cases hq
  | cons g r =>
      rw [bracketSet?] at hq
      split_ifs at hq with hmem
      obtain ⟨rfl, rfl⟩ := Prod.mk.inj (Option.some.inj hq)
      refine ⟨g, _, rfl, fun h => by simpa using List.mem_takeWhile_imp h, ?_⟩
      have hparts := List.takeWhile_append_dropWhile (p := (· ≠ live ']')) (l := r)
      cases hrest : r.dropWhile (· ≠ live ']') with
      | nil => simpa using List.dropWhile_eq_nil_iff.mp hrest _ hmem
      | cons x xs =>
          have hx : x = live ']' := by
            have hhead := List.head?_dropWhile_not (· ≠ live ']') r
            rw [hrest] at hhead
            simpa using hhead
          rw [hrest, hx] at hparts
          exact congrArg (g :: ·) hparts.symm

/-- The parts of a bracket that is closed. -/
theorem bracket?_eq_some (hq : bracket? q = some (negated, set, p)) : ∃ g s, set = g :: s ∧
    live ']' ∉ s ∧ q = (if negated then [live '!'] else []) ++ (g :: s ++ live ']' :: p) ∧
      (negated = false → g ≠ live '!') := by
  unfold bracket? at hq
  split at hq
  next hhead =>
    obtain ⟨⟨set, p⟩, hset, heq⟩ := Option.map_eq_some_iff.mp hq
    obtain ⟨rfl, rfl, rfl⟩ : _ ∧ _ ∧ _ := by simpa using heq
    obtain ⟨g, s, rfl, hs, htail⟩ := bracketSet?_eq_some hset
    obtain ⟨q, rfl⟩ := List.head?_eq_some_iff.mp hhead
    exact ⟨g, s, rfl, hs, congrArg (live '!' :: ·) htail, nofun⟩
  next hhead =>
    obtain ⟨⟨set, p⟩, hset, heq⟩ := Option.map_eq_some_iff.mp hq
    obtain ⟨rfl, rfl, rfl⟩ : _ ∧ _ ∧ _ := by simpa using heq
    obtain ⟨g, s, rfl, hs, rfl⟩ := bracketSet?_eq_some hset
    refine ⟨g, s, rfl, hs, rfl, ?_⟩
    rintro - rfl
    exact hhead rfl

theorem any_members (hdash : ⟨'-', true⟩ ∉ set.tail.dropLast) (c : Char) :
    (members (set.map Glyph.char)).any (·.has c) = true ↔ InSet c set := by
  fun_induction InSet c set with
  | case1 a b r ih =>
      have hr := ih fun hmem => hdash <| by
        rw [← List.tail_dropLast] at hmem
        cases r with
        | nil => simp at hmem
        | cons x r => simp [List.mem_of_mem_tail hmem]
      rw [← hr]
      simp [members, CharRange.has]
  | case2 a r hrange ih =>
      have hr := ih fun hmem => hdash <| by
        rw [← List.tail_dropLast] at hmem
        exact List.mem_of_mem_tail hmem
      have hmembers : members ((a :: r).map Glyph.char) =
          .single a.char :: members (r.map Glyph.char) := by
        rw [List.map_cons, members]
        intro b r' hr'
        obtain ⟨⟨d, quoted⟩, r, rfl, rfl, hb⟩ := List.map_eq_cons_iff.mp hr'
        obtain ⟨e, r, rfl, -, -⟩ := List.map_eq_cons_iff.mp hb
        cases quoted with
        | true => exact hdash (by simp)
        | false => exact hrange e r rfl
      rw [hmembers, ← hr]
      simp [CharRange.has]
  | case3 => simp [members]

/-- A character of a plain set stands for itself in the text. -/
theorem PlainSet.written_eq (hset : PlainSet negated set) {g : Glyph} (hg : g ∈ set) :
    g.written = [g.char] := by
  unfold Glyph.written
  split
  next hquoted => simp [escape, hset.special g hg hquoted]
  next => rfl

theorem PlainSet.written_append (hset : PlainSet negated set) {s : List Glyph} (hs : s ⊆ set)
    (r : List Glyph) : written (s ++ r) = s.map Glyph.char ++ written r := by
  induction s with
  | nil => rfl
  | cons g s ih =>
      have hg := hset.written_eq (hs List.mem_cons_self)
      have hrest := ih fun x hx => hs (List.mem_cons_of_mem g hx)
      unfold written at hrest ⊢
      rw [List.cons_append, List.flatMap_cons, hg, hrest]
      rfl

/-- Only a live `]` closes a bracket. -/
theorem PlainSet.not_mem_map (hset : PlainSet negated set) {s : List Glyph} (hs : s ⊆ set)
    (hclosing : live ']' ∉ s) : ']' ∉ s.map Glyph.char := by
  intro hmem
  obtain ⟨g, hg, hchar⟩ := List.mem_map.mp hmem
  cases hquoted : g.quoted with
  | true =>
      have hplain := hset.special g (hs hg) hquoted
      rw [hchar] at hplain
      cases hplain
  | false =>
      obtain rfl : g = live ']' := by
        cases g
        simp_all
      exact hclosing hg

theorem head?_written (hp : p.head? ≠ some (live '*')) : (written p).head? ≠ some '*' := by
  cases p with
  | nil => nofun
  | cons g p =>
      obtain ⟨c, quoted⟩ := g
      rw [written, List.flatMap_cons, Glyph.written]
      cases quoted with
      | true =>
          by_cases hc : isSpecial c
          · simp [escape, hc]
          · have hne : c ≠ '*' := by
              rintro rfl
              exact hc rfl
            simp [escape, hc, hne]
      | false => simpa using hp

/-- A tidy pattern is compiled to elements that match what it means. -/
theorem compileFrom_written {start : Bool} (h : Tidy start p) : ∃ ps, Realizes ps p ∧
    ∀ done prev, (start = true → atStart prev = true) → done.head? ≠ some .anyDirs →
      compileFrom done prev (written p) = some (done.reverse ++ ps) := by
  induction h with
  | nil =>
      refine ⟨[], realizes_nil, fun done prev _ _ => ?_⟩
      rw [List.append_nil]
      exact compileFrom.eq_1 _ _
  | star hp h ih =>
      obtain ⟨ps, hps, hcompile⟩ := ih
      refine ⟨.anyRun :: ps, hps.star, fun done prev _ _ => ?_⟩
      show compileFrom done prev ('*' :: written _) = _
      rw [compileFrom_star (head?_written hp), hcompile _ _ (by simp) (by simp)]
      simp
  | stars =>
      exact ⟨[.anyDirs], realizes_stars, fun done prev hprev hdone =>
        compileFrom_stars (hprev rfl) hdone⟩
  | question h ih =>
      obtain ⟨ps, hps, hcompile⟩ := ih
      refine ⟨.anyChar :: ps, ?_, fun done prev _ _ => ?_⟩
      · have haccepts : ∀ b c, PatternItem.accepts anywhere b c .anyChar = true ↔ True := by
          simp [PatternItem.accepts, PatternItem.accepts.wild, anywhere]
        exact hps.one (by simp) haccepts fun t => by simp [means_question]
      · show compileFrom done prev ('?' :: written _) = _
        rw [compileFrom_question, hcompile _ _ (by simp) (by simp)]
        simp
  | @bracket _ q set p negated hq hset h ih =>
      obtain ⟨ps, hps, hcompile⟩ := ih
      -- the set is written as it is, and the first `]` in the text is the one that closes it
      have hmembers := any_members hset.dash
      obtain ⟨g, s, rfl, hclosing, hbracket, hfirst⟩ := bracket?_eq_some hq
      have hs : s ⊆ g :: s := List.subset_cons_self g s
      have hclosing' := hset.not_mem_map hs hclosing
      have hwritten : written (g :: s ++ live ']' :: p) =
          g.char :: (s.map Glyph.char ++ ']' :: written p) := by
        rw [hset.written_append (List.Subset.refl _)]
        rfl
      cases negated with
      | true =>
          refine ⟨.noneOf (members ((g :: s).map Glyph.char)) :: ps,
            hps.one (by simp) ?_ fun t => means_bracket hq, fun done prev _ _ => ?_⟩
          · intro b c
            rw [← hmembers c]
            simp [PatternItem.accepts, PatternItem.accepts.wild, anywhere]
          · have hopen : written (live '[' :: q) = '[' :: '!' :: written (g :: s ++ live ']' :: p) := by
              rw [hbracket]
              rfl
            rw [hopen, hwritten, compileFrom_negated hclosing',
              hcompile _ _ (by simp) (by simp)]
            simp
      | false =>
          refine ⟨.oneOf (members ((g :: s).map Glyph.char)) :: ps,
            hps.one (by simp) ?_ fun t => means_bracket hq, fun done prev _ _ => ?_⟩
          · intro b c
            rw [← hmembers c]
            simp [PatternItem.accepts, PatternItem.accepts.wild, anywhere]
          · have hopen : written (live '[' :: q) = '[' :: written (g :: s ++ live ']' :: p) := by
              rw [hbracket]
              rfl
            have hne : g.char ≠ '!' := by
              intro hchar
              obtain ⟨c, quoted⟩ := g
              subst hchar
              cases quoted with
              | true => exact hset.mark rfl rfl
              | false => exact hfirst rfl rfl
            rw [hopen, hwritten, compileFrom_bracket hne hclosing',
              hcompile _ _ (by simp) (by simp)]
            simp
  | @itself _ g p hg h ih =>
      obtain ⟨ps, hps, hcompile⟩ := ih
      have hmeans : ∀ t, Means (g :: p) t ↔ ∃ c u, t = c :: u ∧ c = g.char ∧ Means p u := by
        intro t
        rw [means_itself hg]
        simp
      -- a special character that was quoted is a bracket of one member
      by_cases hescaped : g.quoted = true ∧ isSpecial g.char = true
      · refine ⟨.oneOf [.single g.char] :: ps, hps.one (by simp) ?_ hmeans, fun done prev _ _ => ?_⟩
        · intro b c
          simp [PatternItem.accepts, PatternItem.accepts.wild, anywhere, CharRange.has]
        · have hwritten : written (g :: p) = '[' :: g.char :: ([] ++ ']' :: written p) := by
            simp [written, Glyph.written, escape, hescaped]
          have hne : g.char ≠ '!' := by
            intro hc
            rw [hc] at hescaped
            exact absurd hescaped.2 (by decide)
          have hstart : (g.char == '/') = true → atStart (some ']') = true := by
            intro hc
            rw [beq_iff_eq.mp hc] at hescaped
            exact absurd hescaped.2 (by decide)
          rw [hwritten, compileFrom_bracket hne (List.not_mem_nil), hcompile _ _ hstart (by simp)]
          simp [members]
      · refine ⟨.char g.char :: ps, hps.one (by simp) ?_ hmeans, fun done prev _ _ => ?_⟩
        · intro b c
          simp [PatternItem.accepts]
        · have hwritten : written (g :: p) = g.char :: written p := by
            cases hquoted : g.quoted <;> simp_all [written, Glyph.written, escape]
          have hc : g.char ≠ '*' ∧ g.char ≠ '?' ∧ g.char ≠ '[' := by
            rcases hg with hquoted | hlive
            · have hplain : ¬ isSpecial g.char = true := fun h => hescaped ⟨hquoted, h⟩
              refine ⟨?_, ?_, ?_⟩ <;>
                · intro hc
                  rw [hc] at hplain
                  exact hplain rfl
            · exact hlive
          rw [hwritten, compileFrom_itself hc, hcompile _ _ id (by simp)]
          simp

theorem compile_written (h : Tidy true p) : ∃ ps, Realizes ps p ∧ compile? (written p) = some ps := by
  obtain ⟨ps, hps, hcompile⟩ := compileFrom_written h
  exact ⟨ps, hps, hcompile [] none (fun _ => rfl) (by simp)⟩

theorem accepts_written (h : Tidy true p) (t : Text) : accepts (written p) t = true ↔ Means p t := by
  obtain ⟨ps, hps, hsome⟩ := compile_written h
  rw [accepts, hsome]
  show (run anywhere ps true t == .hit) = true ↔ _
  rw [beq_iff_eq, hps.hit]

end

/-! ## Patterns without quotation -/

section

variable {p t : Text}

theorem written_live (p : Text) : written (p.map live) = p := by
  induction p with
  | nil => rfl
  | cons c p ih =>
      rw [List.map_cons, written, List.flatMap_cons, ← written, ih]
      rfl

/-- Some `[` has no `]`, or live stars that stand side by side are not two that are a component of a
path. The flag tells whether a component starts here. -/
inductive Malformed : Bool → List Glyph → Prop
  | unclosed {start : Bool} {q : List Glyph} : bracket? q = none → Malformed start (live '[' :: q)
  | stars {start : Bool} {p : List Glyph} : ¬ (start = true ∧ ∀ g ∈ p.head?, g = live '/') →
    Malformed start (live '*' :: live '*' :: p)
  | bracket {start : Bool} {q set p : List Glyph} {negated : Bool} :
    bracket? q = some (negated, set, p) → Malformed false p → Malformed start (live '[' :: q)
  | itself {start : Bool} {g : Glyph} {p : List Glyph} : g ≠ live '[' → Malformed (g.char == '/') p →
    Malformed start (g :: p)

theorem bracketSet?_live (c : Char) {r : Text} (hr : r.contains ']' = true) :
    ∃ set, bracketSet? ((c :: r).map live) =
      some (set, ((r.dropWhile (· ≠ ']')).drop 1).map live) := by
  have hmem : live ']' ∈ r.map live := List.mem_map_of_mem (List.contains_iff_mem.mp hr)
  have hclosing : (fun g => decide (g ≠ live ']')) ∘ live = fun c => decide (c ≠ ']') := by
    funext c
    simp
  have hset : bracketSet? ((c :: r).map live) = some (live c :: (r.map live).takeWhile (· ≠ live ']'),
      ((r.map live).dropWhile (· ≠ live ']')).drop 1) := if_pos hmem
  rw [List.dropWhile_map, hclosing, ← List.map_drop] at hset
  exact ⟨_, hset⟩

/-- A bracket that is closed, and what follows it. -/
theorem bracket?_live {c : Char} (hc : c ≠ '!') {r : Text} (hr : r.contains ']' = true) :
    ∃ set, bracket? ((c :: r).map live) =
      some (false, set, ((r.dropWhile (· ≠ ']')).drop 1).map live) := by
  obtain ⟨set, hset⟩ := bracketSet?_live c hr
  refine ⟨set, ?_⟩
  rw [bracket?, if_neg, hset]
  · rfl
  · simpa using hc

theorem bracket?_live_negated (c : Char) {r : Text} (hr : r.contains ']' = true) :
    ∃ set, bracket? (('!' :: c :: r).map live) =
      some (true, set, ((r.dropWhile (· ≠ ']')).drop 1).map live) := by
  obtain ⟨set, hset⟩ := bracketSet?_live c hr
  exact ⟨set, congrArg (Option.map (true, ·)) hset⟩

section

variable {start : Bool} {g : Glyph} {q : List Glyph}

/-- What follows a `[` that is closed is malformed if the whole is. -/
theorem Malformed.afterBracket {r set : List Glyph} {negated : Bool}
    (h : Malformed start (live '[' :: q)) (hq : bracket? q = some (negated, set, r)) :
    Malformed false r := by
  cases h with
  | unclosed hnone => simp [hq] at hnone
  | bracket hq' h =>
      obtain ⟨-, -, rfl⟩ : _ ∧ _ ∧ _ := by simpa [hq] using hq'
      exact h
  | itself hg h => exact absurd rfl hg

/-- What follows any other character is malformed if the whole is, and stars side by side at the start
are a component. -/
theorem Malformed.tail (h : Malformed start (g :: q)) (hg : g ≠ live '[')
    (hstars : ∀ r, g :: q = live '*' :: live '*' :: r → start = true ∧ ∀ g ∈ r.head?, g = live '/') :
    Malformed (g.char == '/') q := by
  cases h with
  | unclosed => exact absurd rfl hg
  | stars hnot => exact absurd (hstars _ rfl) hnot
  | bracket => exact absurd rfl hg
  | itself _ h => exact h

/-- What follows two stars that are a component is malformed if the whole is. -/
theorem Malformed.afterStars (h : Malformed start (live '*' :: live '*' :: q)) (hstart : start = true)
    (hq : ∀ g ∈ q.head?, g = live '/') : Malformed false q := by
  have hone : Malformed false (live '*' :: q) := h.tail (by decide) fun r hr => by
    obtain rfl : q = r := (List.cons.inj (List.cons.inj hr).2).2
    exact ⟨hstart, hq⟩
  refine hone.tail (by decide) fun r hr => ?_
  rw [(List.cons.inj hr).2] at hq
  exact absurd (hq _ rfl) (by decide)

end

/-- A malformed pattern is not compiled. -/
theorem compileFrom_malformed (done : List PatternItem) (prev : Option Char)
    (h : Malformed (atStart prev) (p.map live)) : compileFrom done prev p = none := by
  -- what the compiler goes past is no fault, so the fault is in the rest
  fun_induction compileFrom done prev p with
  | case1 => cases h
  | case2 done prev r ih => exact ih (h.tail (by decide) (by simp))
  | case3 => rfl
  | case4 done prev r hprev ih =>
      have hrest := h.afterStars ((atStart_eq prev).symm.trans hprev) (by simp)
      exact ih (hrest.tail (by decide) (by simp))
  | case5 => rfl
  | case6 done prev hprev =>
      cases h.afterStars ((atStart_eq prev).symm.trans hprev) nofun
  | case7 => rfl
  | case8 => rfl
  | case9 done prev r _ _ _ hr ih =>
      refine ih (h.tail (by decide) fun q hq => ?_)
      cases r with
      | nil => simp at hq
      | cons c r =>
          have hc : c = '*' := by simpa using (List.cons.inj (List.cons.inj hq).2).1
          exact absurd (by rw [hc]) (hr r)
  | case10 done prev c r hr ih =>
      obtain ⟨set, hq⟩ := bracket?_live_negated c hr
      exact ih (h.afterBracket hq)
  | case11 => rfl
  | case12 => rfl
  | case13 done prev c r _ hc hr ih =>
      obtain ⟨set, hq⟩ := bracket?_live hc hr
      exact ih (h.afterBracket hq)
  | case14 => rfl
  | case15 => rfl
  | case16 done prev c r _ _ _ _ _ hstar _ _ hbracket hlast ih =>
      have hne : c ≠ '[' := by
        rintro rfl
        cases r with
        | nil => exact hlast rfl rfl
        | cons d r => exact hbracket d r rfl rfl
      refine ih (h.tail (by simpa using hne) fun q hq => ?_)
      exact absurd (by simpa using (List.cons.inj hq).1) hstar

theorem accepts_malformed (h : Malformed true (p.map live)) (t : Text) :
    accepts p t = true ↔ t = p := by
  rw [accepts, compile?, compileFrom_malformed [] none h]
  exact beq_iff_eq.trans eq_comm

/-- A tidy pattern matches the texts that it means, and a malformed one matches nothing but itself. -/
theorem accepts_iff_means (p : Text) :
    (Tidy true (p.map live) → ∀ t, accepts p t = true ↔ Means (p.map live) t) ∧
      (Malformed true (p.map live) → ∀ t, accepts p t = true ↔ t = p) := by
  refine ⟨fun h t => ?_, accepts_malformed⟩
  have hwritten := accepts_written h t
  rwa [written_live] at hwritten

/-- A negated bracket that holds a `]` and a range, between wildcards; and a bracket that is not
closed, after a star. -/
theorem accepts_iff_means_brackets :
    (Tidy true ("*[!]a-c]?".toList.map live) ∧ Means ("*[!]a-c]?".toList.map live) ".b/d*" ∧
        ¬ Means ("*[!]a-c]?".toList.map live) ".]x") ∧
      Malformed true ("*[a".toList.map live) ∧ accepts "*[a" "*[a" = true ∧ accepts "*[a" "x[a" = false := by
  have htidy : Tidy true ("*[!]a-c]?".toList.map live) := by
    refine .star (by decide) ?_
    exact .bracket (by decide : bracket? _ = some (true, "]a-c".toList.map live, [live '?']))
      ⟨by decide, by decide, nofun⟩ (.question .nil)
  have hmalformed : Malformed true ("*[a".toList.map live) :=
    .itself (by decide) (.unclosed (by decide))
  have hmeans := (accepts_iff_means "*[!]a-c]?").1 htidy
  have hitself := (accepts_iff_means "*[a").2 hmalformed
  refine ⟨⟨htidy, (hmeans _).mp (by cbv), fun h => ?_⟩, hmalformed, (hitself _).mpr rfl, ?_⟩
  · have haccepts : accepts "*[!]a-c]?" ".]x" = false := by cbv
    rw [(hmeans _).mpr h] at haccepts
    cases haccepts
  · exact Bool.eq_false_iff.mpr fun h => absurd ((hitself _).mp h) (by decide)

/-- Two stars before a `/` stand for nothing as well, other stars side by side and a bracket that is
not closed turn the whole pattern into plain text. -/
theorem not_accepts_iff_means :
    ¬ (∀ t, accepts "**/a" t = true ↔ Means ("**/a".toList.map live) t) ∧
      ¬ (∀ t, accepts "a**" t = true ↔ Means ("a**".toList.map live) t) ∧
        ¬ ∀ t, accepts "[*" t = true ↔ Means ("[*".toList.map live) t := by
  refine ⟨fun h => ?_, fun h => ?_, fun h => ?_⟩
  · have hmeans := (h "a").mp (by cbv)
    obtain ⟨s, hs, hmeans⟩ := means_star.mp hmeans
    obtain ⟨r, hr, hmeans⟩ := means_star.mp hmeans
    obtain ⟨u, rfl, -⟩ := (means_itself (Or.inr (by decide))).mp hmeans
    exact absurd ((hr.trans hs).subset List.mem_cons_self) (by decide)
  · have hmeans : Means ("a**".toList.map live) "ab" :=
      .itself (Or.inr (by decide)) (.anyRun "b".toList (.anyRun [] .nothing))
    have haccepts : accepts "a**" "ab" = false := by cbv
    rw [(h "ab").mpr hmeans] at haccepts
    cases haccepts
  · have hmeans : Means ("[*".toList.map live) "[b" :=
      .itself (Or.inr ⟨by decide, by decide, fun _ => by decide⟩) (.anyRun "b".toList .nothing)
    have haccepts : accepts "[*" "[b" = false := by cbv
    rw [(h "[b").mpr hmeans] at haccepts
    cases haccepts

end

end Pattern

end CommandShell
