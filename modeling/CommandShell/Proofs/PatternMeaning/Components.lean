import CommandShell.Proofs.PatternMeaning

/-!
# Components of a path

A component of a path is matched against a name by rules of its own: a dot at the start of the name is
matched by a dot at the start of the component only. `Pattern.Fits` says this by means of
`Pattern.Means`, and the matcher agrees with it (`compile_fits`) on components without two stars side
by side, unless they start with a star and a dot: there the star stands for nothing, and the dot after
it matches the one that starts the name.
-/

namespace CommandShell.Pattern

open Glyph (live)

/-- A component of a path accepts a name: it means the name, and starts with a dot if the name does. -/
def Fits (component name : Text) : Prop :=
  Means (component.map live) name ∧ (name.head? = some '.' → component.head? = some '.')

/-! ## Rules that make no difference -/

/-- A text without `/`, and without a dot where a component starts. -/
structure Ordinary (afterSlash : Bool) (t : Text) : Prop where
  slash : '/' ∉ t
  dot : afterSlash = true → t.head? ≠ some '.'

section

variable {ps : List PatternItem} {b dirs : Bool} {c : Char} {t u : Text}

theorem Ordinary.head (h : Ordinary b (c :: t)) : (c == '/') = false ∧ (b && c == '.') = false := by
  have hslash : c ≠ '/' := fun hc => h.slash (hc ▸ List.mem_cons_self)
  have hdot : b = true → c ≠ '.' := fun hb hc => h.dot hb (congrArg some hc)
  simpa using ⟨hslash, hdot⟩

theorem Ordinary.tail (h : Ordinary b (c :: t)) : Ordinary false t :=
  ⟨fun hmem => h.slash (List.mem_cons_of_mem c hmem), nofun⟩

theorem sweep_pathname {next next' : Bool → Text → Outcome}
    (hnext : ∀ b t, Ordinary b t → next b t = next' b t) (h : Ordinary b t) :
    sweep pathname dirs next b t = sweep anywhere dirs next' b t := by
  induction t generalizing b with
  | nil => exact hnext b [] h
  | cons c t ih =>
      obtain ⟨hslash, hdot⟩ := h.head
      have hrest := ih h.tail
      unfold pathname anywhere at hrest ⊢
      rw [sweep, sweep]
      simp [hslash, hdot, hnext false t h.tail, hrest]

theorem accepts_pathname (h : Ordinary b (c :: t)) (item : PatternItem) :
    PatternItem.accepts pathname b c item = PatternItem.accepts anywhere b c item := by
  obtain ⟨hslash, hdot⟩ := h.head
  cases item <;> simp [PatternItem.accepts, PatternItem.accepts.wild, pathname, anywhere, hslash, hdot]

/-- On ordinary texts it does not matter that wildcards match neither `/` nor a leading dot. -/
theorem run_pathname (h : Ordinary b t) : run pathname ps b t = run anywhere ps b t := by
  induction ps generalizing b t with
  | nil => cases t <;> rfl
  | cons item ps ih =>
      have hsweep : ∀ dirs, sweep pathname dirs (run pathname ps) b t =
          sweep anywhere dirs (run anywhere ps) b t := fun dirs =>
        sweep_pathname (fun _ _ h => ih h) h
      by_cases hrun : item = .anyRun
      · rw [hrun, run, run, ih h, hsweep]
      by_cases hdirs : item = .anyDirs
      · rw [hdirs, run, run, ih h, hsweep]
      have hone := And.intro hrun hdirs
      cases t with
      | nil => rw [run_one_nil hone, run_one_nil hone]
      | cons c t =>
          rw [run_one_cons hone, run_one_cons hone, accepts_pathname h, h.head.1, ih h.tail]

/-! ## A dot at the start -/

/-- An element for one character matches the dot only if it is that dot. -/
theorem run_pathname_one {item : PatternItem} (hone : item ≠ .anyRun ∧ item ≠ .anyDirs)
    (hdot : item ≠ .char '.') : run pathname (item :: ps) true ('.' :: u) = .miss := by
  rw [run_one_cons hone, if_neg]
  cases item with
  | char d =>
      have hd : '.' ≠ d := fun h => hdot (h ▸ rfl)
      simpa [PatternItem.accepts] using hd
  | _ => simp [PatternItem.accepts, PatternItem.accepts.wild, pathname]

theorem run_pathname_dot (hu : '/' ∉ u) :
    run pathname (.char '.' :: ps) true ('.' :: u) = run anywhere (.char '.' :: ps) true ('.' :: u) := by
  have hrest : Ordinary false u := ⟨hu, nofun⟩
  rw [run_one_cons (by simp), run_one_cons (by simp)]
  exact if_congr (by simp [PatternItem.accepts]) (run_pathname hrest) rfl

/-- A star stands for nothing before the dot. -/
theorem run_pathname_star :
    run pathname (.anyRun :: ps) true ('.' :: u) = run pathname ps true ('.' :: u) := by
  rw [run]
  cases run pathname ps true ('.' :: u) <;> rfl

end

/-! ## Compiled components -/

section

variable {done items : List PatternItem} {prev : Option Char} {c : Char} {r component name : Text}

/-- The compiler adds to what is done. -/
theorem compileFrom_extends (h : compileFrom done prev r = some items) : done.reverse <+: items := by
  have hadd : ∀ done, done.reverse <+: (compileFrom.addDirs done).reverse := by
    intro done
    unfold compileFrom.addDirs
    split
    · exact List.prefix_rfl
    · simp
  fun_induction compileFrom done prev r with
  | case1 => exact Option.some.inj h ▸ List.prefix_rfl
  | case3 => cases h
  | case4 done prev r hprev ih => exact (hadd done).trans (ih h)
  | case5 => cases h
  | case6 done prev hprev => exact Option.some.inj h ▸ hadd done
  | case7 => cases h
  | case8 => cases h
  | case11 => cases h
  | case12 => cases h
  | case14 => cases h
  | case15 => cases h
  | _ =>
      -- the other cases go on with one more element done
      rename_i ih
      exact (by simp : _ <+: _).trans (ih h)

/-- The first element of a pattern that does not start with a star stands for one character, and is a
dot only if the pattern starts with one. -/
theorem compileFrom_opens (hc : c ≠ '*') (h : compileFrom done prev (c :: r) = some items) :
    ∃ item rest, items = done.reverse ++ item :: rest ∧ (item ≠ .anyRun ∧ item ≠ .anyDirs) ∧
      (item = .char '.' ↔ c = '.') := by
  have hadded : ∀ {done : List PatternItem} {item prev r}, compileFrom (item :: done) prev r = some items →
      ∃ rest, items = done.reverse ++ item :: rest := by
    intro done item prev r h
    obtain ⟨rest, rfl⟩ := compileFrom_extends h
    exact ⟨rest, by simp⟩
  generalize ht : c :: r = t at h
  fun_induction compileFrom done prev t with
  | case1 => cases ht
  | case2 | case10 | case13 | case16 =>
      obtain ⟨rest, hrest⟩ := hadded h
      cases ht
      exact ⟨_, rest, hrest, by simp⟩
  | case11 | case12 | case14 | case15 => cases h
  | case3 | case4 | case5 | case6 | case7 | case8 | case9 =>
      cases ht
      exact absurd rfl hc

/-- A component that is compiled is tidy, unless two stars stand side by side. -/
theorem tidy_of_compileFrom (h : compileFrom done prev r = some items) (hstars : ¬ ['*', '*'] <:+: r)
    (start : Bool) : Tidy start (r.map live) := by
  have hlive : ∀ {t : Text} {negated set p}, bracket? (t.map live) = some (negated, set, p) →
      PlainSet negated set := by
    intro t negated set p hbracket
    obtain ⟨g, s, rfl, -, hparts, -⟩ := bracket?_eq_some hbracket
    have hunquoted : ∀ x ∈ g :: s, x.quoted = false := by
      intro x hx
      have hmem : x ∈ t.map live := by
        rw [hparts]
        exact List.mem_append_right _ (List.mem_append_left _ hx)
      obtain ⟨c, -, rfl⟩ := List.mem_map.mp hmem
      rfl
    refine ⟨fun x hx hquoted => ?_, fun hmem => ?_, fun _ hhead => ?_⟩
    · rw [hunquoted x hx] at hquoted
      cases hquoted
    · have hdash := hunquoted _ (List.mem_of_mem_tail (List.mem_of_mem_dropLast hmem))
      cases hdash
    · have hmark := hunquoted _ (List.mem_of_mem_head? hhead)
      cases hmark
  have hafter : ∀ {s t : Text}, ¬ ['*', '*'] <:+: t → s <:+ t → ¬ ['*', '*'] <:+: s :=
    fun hnot hs h => hnot (h.trans hs.isInfix)
  have hclosing : ∀ {t : Text}, (t.dropWhile (· ≠ ']')).drop 1 <:+ t := fun {t} =>
    (List.drop_suffix 1 _).trans (List.dropWhile_suffix _)
  fun_induction compileFrom done prev r generalizing start with
  | case1 => exact .nil
  | case2 done prev r ih => exact .question (ih h (hafter hstars (List.suffix_cons _ _)) false)
  | case3 | case5 | case7 | case8 | case11 | case12 | case14 | case15 => cases h
  | case4 | case6 => exact absurd ⟨[], _, rfl⟩ hstars
  | case9 done prev r _ _ _ hr ih =>
      refine .star (fun hhead => ?_) (ih h (hafter hstars (List.suffix_cons _ _)) false)
      have hstar : r.head? = some '*' := by simpa using hhead
      obtain ⟨tail, rfl⟩ := List.head?_eq_some_iff.mp hstar
      exact hr tail rfl
  | case10 done prev c r hr ih =>
      obtain ⟨set, hq⟩ := bracket?_live_negated c hr
      refine .bracket hq (hlive hq) (ih h (hafter hstars (hclosing.trans ?_)) false)
      exact ⟨['[', '!', c], rfl⟩
  | case13 done prev c r _ hc hr ih =>
      obtain ⟨set, hq⟩ := bracket?_live hc hr
      refine .bracket hq (hlive hq) (ih h (hafter hstars (hclosing.trans ?_)) false)
      exact ⟨['[', c], rfl⟩
  | case16 done prev c r hquestion _ _ _ _ hstar _ _ hbracket hlast ih =>
      have hne : c ≠ '[' := by
        rintro rfl
        cases r with
        | nil => exact hlast rfl rfl
        | cons d r => exact hbracket d r rfl rfl
      exact .itself (Or.inr ⟨hstar, hquestion, hne⟩) (ih h (hafter hstars (List.suffix_cons _ _)) _)

/-- Nothing but a dot at the start of a component, or after a star there, matches a leading dot. -/
theorem run_compiled_dot (hitems : compile? component = some items) (hstars : ¬ ['*', '*'] <:+: component)
    (hdot : ¬ ['*', '.'] <+: component) (hhead : component.head? ≠ some '.') (u : Text) :
    run pathname items true ('.' :: u) = .miss := by
  unfold compile? at hitems
  cases component with
  | nil =>
      rw [compileFrom] at hitems
      cases hitems
      rfl
  | cons c r =>
      by_cases hc : c = '*'
      · subst hc
        cases r with
        | nil =>
            rw [compileFrom_star (by simp), compileFrom] at hitems
            cases hitems
            rfl
        | cons d r =>
            have hd : d ≠ '*' := fun h => hstars ⟨[], r, by rw [h]; rfl⟩
            have hd' : d ≠ '.' := fun h => hdot ⟨r, by rw [h]; rfl⟩
            rw [compileFrom_star (by simpa using hd)] at hitems
            obtain ⟨item, rest, rfl, hone, hitem⟩ := compileFrom_opens hd hitems
            exact run_pathname_star.trans (run_pathname_one hone fun h => hd' (hitem.mp h))
      · obtain ⟨item, rest, rfl, hone, hitem⟩ := compileFrom_opens hc hitems
        exact run_pathname_one hone fun h => hhead (congrArg some (hitem.mp h))

/-- A component accepts the names that fit it. -/
theorem compile_fits (hitems : compile? component = some items) (hstars : ¬ ['*', '*'] <:+: component)
    (hdot : ¬ ['*', '.'] <+: component) (hname : '/' ∉ name) :
    matchesWith pathname items name = true ↔ Fits component name := by
  obtain ⟨ps, hps, hsome⟩ := compile_written (tidy_of_compileFrom hitems hstars true)
  rw [written_live] at hsome
  obtain rfl : items = ps := Option.some.inj (hitems.symm.trans hsome)
  have hmeans : run anywhere items true name = .hit ↔ Means (component.map live) name := hps.hit true name
  rw [matchesWith, beq_iff_eq]
  -- without a leading dot the rules of components make no difference
  by_cases hleading : name.head? = some '.'
  · obtain ⟨u, rfl⟩ := List.head?_eq_some_iff.mp hleading
    by_cases hcomponent : component.head? = some '.'
    · obtain ⟨r, rfl⟩ := List.head?_eq_some_iff.mp hcomponent
      obtain ⟨item, rest, rfl, -, hitem⟩ := compileFrom_opens (by decide) hitems
      have hu : '/' ∉ u := fun h => hname (List.mem_cons_of_mem '.' h)
      rw [List.reverse_nil, List.nil_append, hitem.mpr rfl] at hmeans ⊢
      rw [run_pathname_dot hu, hmeans]
      exact ⟨fun h => ⟨h, fun _ => rfl⟩, And.left⟩
    · rw [run_compiled_dot hitems hstars hdot hcomponent]
      exact iff_of_false (by simp) fun h => hcomponent (h.2 rfl)
  · have hordinary : Ordinary true name := ⟨hname, fun _ => hleading⟩
    rw [run_pathname hordinary, hmeans]
    exact ⟨fun h => ⟨h, fun hdot => absurd hdot hleading⟩, And.left⟩

end

end CommandShell.Pattern
