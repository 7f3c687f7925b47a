import CommandShell.Proofs.Reading.Weight

/-!
# Reading characters

What the operations on single characters do to the weight of an input, and to what is known of it.
-/

namespace CommandShell.Script

open Reader

variable {A : Table Text} {α β : Type}

/-- No alias was expanded inside its own text. -/
def Proper (uses : List AliasUse) : Prop := ∀ u ∈ uses, u.name ∉ u.within

/-- What is known of an input all the time. -/
structure Sane (A : Table Text) (i : Input) : Prop where
  aliases : i.aliases = A
  spent : ∀ f ∈ i.frames, f.spent = true → f.rest = []
  plain : ∀ f ∈ i.frames, Plain f.rest
  unread : ∀ c ∈ i.unread, c = '\\'
  lines : [] ∉ i.queue
  within : i.within = []
  proper : Proper i.expanded
  /-- Without aliases none is being read or was just read. -/
  quiet : A.toList = [] → i.frames = [] ∧ i.aliasBlank = false

/-- What is known of an input while a token is read. -/
structure Lexing (A : Table Text) (i : Input) : Prop extends Sane A i where
  pushback : i.pushback = none

/-- Failures that are no lack of steps. -/
def Halts (e : Halt) (j : Input) : Prop := e ≠ .outOfSteps ∧ Proper j.expanded

/-- Nothing but the lines is being read. -/
def Bare (i : Input) : Prop := i.frames = [] ∧ i.unread = []

/-- A reader that ends, with what its values satisfy. -/
abbrev Ends (Q : α → Input → Prop) (r : Reader α) (i : Input) : Prop := Meets Halts Q r i

/-- The input that is left weighs less. -/
structure Spends (A : Table Text) (i : Input) (k : Nat) (j : Input) : Prop extends Lexing A j where
  weight : j.weight + k ≤ i.weight

theorem Spends.trans {i j l : Input} {k m : Nat} (h : Spends A i k j) (h' : Spends A j m l) :
    Spends A i (k + m) l :=
  ⟨h'.toLexing, by have := h.weight; have := h'.weight; omega⟩

theorem Spends.le {i j : Input} {k m : Nat} (h : Spends A i k j) (hm : m ≤ k) : Spends A i m j :=
  ⟨h.toLexing, by have := h.weight; omega⟩

/-! ## Inputs for scripts of their own -/

theorem Lexing.logged {i : Input} (hi : Lexing A i) {uses : List AliasUse} (h : Proper uses) :
    Spends A i 0 { i with expanded := uses } :=
  ⟨{ hi with proper := h }, Nat.le_refl _⟩

/-- The lines stand in no alias. -/
theorem Bare.inUse {i : Input} (hb : Bare i) (hi : Sane A i) : i.inUse = [] := by
  unfold Input.inUse
  rw [hb.1, hi.within]
  rfl

theorem Sane.nested {i : Input} (hi : Sane A i) (t : Text) (line : Nat) :
    Lexing A (i.nested [] t line) where
  aliases := hi.aliases
  spent _ h := nomatch h
  plain _ h := nomatch h
  unread _ h := nomatch h
  lines := nil_notMem_lines t
  within := rfl
  proper := hi.proper
  quiet _ := ⟨rfl, rfl⟩
  pushback := rfl

theorem Sane.nested_weight {i : Input} (hi : Sane A i) (t : Text) (line : Nat) :
    (i.nested [] t line).weight = t.length * level A [] := by
  show 0 * _ + 0 + (0 + t.lines.flatten.length) * level i.aliases [] + 0 + 0 = _
  rw [lines_flatten, hi.aliases, Nat.zero_add]
  omega

/-- A reader on an input of its own leaves its trace. -/
theorem withInput_ends {P : α → Input → Prop} {r : Reader α} {i sub : Input}
    (hr : Ends P r sub) :
    Ends (fun a j => P a.1 a.2 ∧ j = { i with expanded := a.2.expanded }) (withInput sub r) i := by
  unfold Ends Meets at hr ⊢
  rw [Reader.on_withInput]
  generalize r.on sub = outcome at hr
  obtain ⟨r, j⟩ := outcome
  cases r with
  | ok a => exact ⟨hr, rfl⟩
  | error e => exact hr

/-! ## Looking at the next character -/

/-- The input with the next character made available, if no line is needed for it. -/
def settled (i : Input) : Input :=
  let d := Input.dropSpent i.aliasBlank i.frames
  { i with frames := d.1, aliasBlank := d.2 }

theorem settled_frames (i : Input) : (settled i).frames = live i.frames := dropSpent_fst _ _

/-- What is known after the next character was made available: the aliases read to the end are gone,
and the next line may have been taken. -/
structure Filled (A : Table Text) (i j : Input) : Prop extends Lexing A j where
  frames_eq : j.frames = live i.frames
  unread_eq : j.unread = i.unread
  text_eq : j.current.length + j.queue.flatten.length = i.current.length + i.queue.flatten.length
  pending_eq : j.pending = i.pending
  /-- Nothing is left when no character is. -/
  ended : j.frames = [] → j.current = [] → j.atEnd = true

theorem Filled.lvl {i j : Input} (h : Filled A i j) (hi : Lexing A i) : j.lvl = i.lvl := by
  unfold Input.lvl
  rw [h.aliases, hi.aliases, h.frames_eq, live_live]

theorem Filled.weight {i j : Input} (h : Filled A i j) (hi : Lexing A i) :
    j.weight = i.weight := by
  unfold Input.weight
  rw [h.lvl hi, h.aliases, hi.aliases, h.frames_eq, framesWeight_live, h.unread_eq, h.text_eq,
    h.pushback, hi.pushback, h.pending_eq]

theorem Filled.bare {i j : Input} (h : Filled A i j) (hi : Bare i) : Bare j := by
  refine ⟨?_, h.unread_eq.trans hi.2⟩
  rw [h.frames_eq, hi.1]
  rfl

theorem lexing_settled {i : Input} (hi : Lexing A i) : Lexing A (settled i) where
  aliases := hi.aliases
  spent f hf := hi.spent f (live_subset _ (settled_frames i ▸ hf))
  plain f hf := hi.plain f (live_subset _ (settled_frames i ▸ hf))
  unread := hi.unread
  lines := hi.lines
  within := hi.within
  proper := hi.proper
  quiet h := by
    obtain ⟨hf, hb⟩ := hi.quiet h
    simp [settled, hf, hb, Input.dropSpent]
  pushback := hi.pushback

theorem fill_ends {i : Input} (hi : Lexing A i) : Ends (fun _ j => Filled A i j) fill i := by
  have hs := lexing_settled hi
  have hframes := settled_frames i
  show Ends _ fillLine (settled i)
  unfold fillLine
  show Ends _ (if !(settled i).frames.isEmpty || !i.current.isEmpty || i.atEnd then return
    else _) (settled i)
  split
  · rename_i hready
    refine ⟨hs, hframes, rfl, rfl, rfl, fun hf hc => ?_⟩
    have hc' : i.current = [] := hc
    show i.atEnd = true
    simpa [hf, hc'] using hready
  · rename_i hempty
    simp only [Bool.or_eq_true, Bool.not_eq_true', not_or, Bool.not_eq_false,
      List.isEmpty_iff] at hempty
    obtain ⟨⟨hf, hc⟩, -⟩ := hempty
    split
    · rename_i l ls hq
      have hq : i.queue = l :: ls := hq
      have hmem : l ∈ i.queue := hq ▸ List.mem_cons_self
      refine ⟨{ hs with lines := fun h => hi.lines (hq ▸ List.mem_cons_of_mem _ h) }, hframes,
        rfl, ?_, rfl, fun _ hl => ?_⟩
      · simp [hc, hq]
      · exact absurd (hl ▸ hmem) hi.lines
    · split
      · refine ⟨{ hs with }, hframes, rfl, ?_, rfl, fun _ _ => rfl⟩
        rfl
      · exact ⟨by simp [Halt.outOfSteps], hi.proper⟩

/-- The character that is read next, once it is available. -/
def front (i : Input) : Option Char :=
  match i.unread, i.frames with
  | c :: _, _ => some c
  | [], f :: _ => some (f.rest.headD ' ')
  | [], [] => i.current.head?

theorem bare_of_front {i : Input} (h : front i = none) : Bare i := by
  unfold front at h
  split at h
  · contradiction
  · contradiction
  · rename_i hu hf
    exact ⟨hf, hu⟩

/-- The next character is available. -/
structure Ready (A : Table Text) (i : Input) : Prop extends Lexing A i where
  live_eq : i.unread = [] → live i.frames = i.frames
  ended : i.unread = [] → i.frames = [] → i.current = [] → i.atEnd = true

theorem Filled.ready {i j : Input} (h : Filled A i j) : Ready A j where
  toLexing := h.toLexing
  live_eq _ := by rw [h.frames_eq, live_live]
  ended _ := h.ended

/-- Making the next character available once more changes nothing. -/
theorem Ready.fill_on {i : Input} (h : Ready A i) (hu : i.unread = []) :
    fill.on i = (.ok (), i) := by
  have hsettled : settled i = i := by
    unfold settled
    rw [← h.live_eq hu, dropSpent_live, h.live_eq hu]
  have hready : (!i.frames.isEmpty || !i.current.isEmpty || i.atEnd) = true := by
    cases hf : i.frames with
    | cons f fs => rfl
    | nil =>
        cases hc : i.current with
        | cons c r => rfl
        | nil => rw [h.ended hu hf hc]; rfl
  show fillLine.on (settled i) = _
  rw [hsettled]
  show (if (!i.frames.isEmpty || !i.current.isEmpty || i.atEnd) = true then return else _ :
    Reader Unit).on i = _
  rw [if_pos hready]
  rfl

/-- What is looked at: a character put back, or one that is made available. -/
theorem peek_on_unread {i : Input} {c : Char} {r : Text} (h : i.unread = c :: r) :
    peek.on i = (.ok (some c), i) := by
  rw [peek, Reader.on_get, h]
  rfl

theorem peek_on_filled {i : Input} (h : i.unread = []) :
    peek.on i = (do
      fill
      let j ← get
      return match j.frames with
        | f :: _ => some (f.rest.headD ' ')
        | [] => j.current.head?).on i := by
  rw [peek, Reader.on_get, h]
  refine congrArg (fun k => (fill >>= fun _ => get >>= k).on i) (funext fun j => ?_)
  cases j.frames with
  | nil => rfl
  | cons f fs => rfl

theorem front_of_unread {j : Input} (h : j.unread = []) :
    front j = match j.frames with
      | f :: _ => some (f.rest.headD ' ')
      | [] => j.current.head? := by
  unfold front
  rw [h]
  cases j.frames with
  | nil => rfl
  | cons f fs => rfl

theorem Ready.peek_on {i : Input} (h : Ready A i) : peek.on i = (.ok (front i), i) := by
  cases hu : i.unread with
  | cons c r =>
      rw [peek_on_unread hu, front, hu]
  | nil =>
      rw [peek_on_filled hu, Reader.on_bind, h.fill_on hu, front_of_unread hu]
      rfl

/-- What is known after the next character was looked at. -/
structure Peeked (A : Table Text) (i : Input) (c : Option Char) (j : Input) : Prop
    extends Ready A j where
  front_eq : c = front j
  weight : j.weight = i.weight
  lvl : j.lvl = i.lvl
  bare : Bare i → Bare j
  stays : Ready A i → c = front i

theorem peek_ends {i : Input} (hi : Lexing A i) : Ends (Peeked A i) peek i := by
  unfold Ends Meets
  cases hu : i.unread with
  | cons c r =>
      rw [peek_on_unread hu]
      have hne : i.unread ≠ [] := by simp [hu]
      have hfront : some c = front i := by rw [front, hu]
      exact ⟨⟨hi, fun h => absurd h hne, fun h => absurd h hne⟩, hfront, rfl, rfl, id,
        fun _ => hfront⟩
  | nil =>
      by_cases hready : Ready A i
      · rw [hready.peek_on]
        exact ⟨hready, rfl, rfl, rfl, id, fun _ => rfl⟩
      · rw [peek_on_filled hu]
        refine (fill_ends hi).bind fun _ j hj => ?_
        have hfront := front_of_unread (hj.unread_eq.trans hu)
        exact ⟨hj.ready, hfront.symm, hj.weight hi, hj.lvl hi, hj.bare, fun h => absurd h hready⟩

/-! ## Taking the next character -/

/-- What is known after a character was taken, or the end of the input was met. -/
structure Took (A : Table Text) (i : Input) (c : Option Char) (j : Input) : Prop
    extends Lexing A j where
  weight : j.weight + c.elim 0 (fun _ => i.lvl) ≤ i.weight
  /-- Only the blank after the text of an alias leaves that text. -/
  lvl : c ≠ some ' ' → j.lvl = i.lvl
  bare : Bare i → Bare j
  /-- Back-quotes and newlines stand in no alias, and neither does the end of the input. -/
  outside : c = none ∨ c = some '\x60' ∨ c = some '\n' → Bare j

/-- Takes the character that is available. -/
def takeFront : Reader (Option Char) := do
  let i ← get
  match i.frames with
  | f :: fs =>
    match f.rest with
    | c :: r =>
      set { i with frames := { f with rest := r } :: fs }
      note c
      return some c
    | [] =>
      set { i with frames := { f with spent := true } :: fs }
      note ' '
      return some ' '
  | [] =>
    match i.current with
    | c :: r =>
      set { i with current := r }
      note c
      return some c
    | [] => return none

theorem next_on_unread {i : Input} {c : Char} {r : Text} (h : i.unread = c :: r) :
    next.on i = (do
      set { i with unread := r }
      note c
      return some c).on i := by
  rw [next, Reader.on_get, h]

theorem next_on_filled {i : Input} (h : i.unread = []) :
    next.on i = (do
      fill
      takeFront).on i := by
  rw [next, Reader.on_get, h]
  rfl

/-- The input with a character noted as read. -/
def noted (c : Char) (i : Input) : Input :=
  { i with
    line := if c = '\n' then i.line + 1 else i.line
    captures := i.captures.map (c :: ·) }

theorem Took.noted {i j : Input} {c : Option Char} (h : Took A i c j) (d : Char) :
    Took A i c (noted d j) := { h with }

section

variable {i : Input} {f : AliasFrame} {fs : List AliasFrame} {c : Char} {r : Text}

theorem takeFront_on_end (hf : i.frames = []) (hc : i.current = []) :
    takeFront.on i = (.ok none, i) := by
  cases i
  cases hf
  cases hc
  rfl

theorem takeFront_on_line (hf : i.frames = []) (hc : i.current = c :: r) :
    takeFront.on i = (.ok (some c), noted c { i with current := r }) := by
  cases i
  cases hf
  cases hc
  rfl

theorem takeFront_on_alias (hf : i.frames = f :: fs) (hr : f.rest = c :: r) :
    takeFront.on i
      = (.ok (some c), noted c { i with frames := { f with rest := r } :: fs }) := by
  cases i
  cases f
  cases hf
  cases hr
  rfl

theorem takeFront_on_blank (hf : i.frames = f :: fs) (hr : f.rest = []) :
    takeFront.on i
      = (.ok (some ' '), noted ' ' { i with frames := { f with spent := true } :: fs }) := by
  cases i
  cases f
  cases hf
  cases hr
  rfl

end

/-- What an input weighs when nothing is put back. -/
theorem Lexing.weight_eq {i : Input} (hi : Lexing A i) (hu : i.unread = []) :
    i.weight = framesWeight A i.frames
      + (i.current.length + i.queue.flatten.length) * level A [] + i.pending.length := by
  unfold Input.weight
  rw [hu, hi.pushback, hi.aliases]
  simp

/-- A character of the text of an alias is taken, or the blank after it. -/
theorem took_frame {i : Input} (hi : Ready A i) (hu : i.unread = []) {f g : AliasFrame}
    {fs : List AliasFrame} (hf : i.frames = f :: fs) (hname : g.name = f.name)
    (hsize : g.size + 1 = f.size) (hspent : g.spent = true → g.rest = []) (hplain : Plain g.rest)
    {c : Char} (hc : c ≠ '\x60' ∧ c ≠ '\n') (hlive : c ≠ ' ' → g.spent = false) :
    Took A i (some c) { i with frames := g :: fs } := by
  have hlvl : i.lvl = level A (f :: fs) := by
    unfold Input.lvl
    rw [hi.live_eq hu, hi.aliases, hf]
  have hold : ∀ {h : AliasFrame}, h ∈ fs → h ∈ i.frames :=
    fun hh => hf ▸ List.mem_cons_of_mem _ hh
  have hj : Lexing A { i with frames := g :: fs } :=
    { hi with
      spent := by
        intro h hh
        rcases List.mem_cons.mp hh with rfl | hh
        · exact hspent
        · exact hi.spent h (hold hh)
      plain := by
        intro h hh
        rcases List.mem_cons.mp hh with rfl | hh
        · exact hplain
        · exact hi.plain h (hold hh)
      quiet := fun h => absurd (hi.quiet h).1 (by simp [hf]) }
  refine ⟨hj, ?_, fun hne => ?_, fun h => absurd h.1 (by simp [hf]),
    fun h => ?_⟩
  · rw [hj.weight_eq hu, hi.weight_eq hu, hlvl, hf]
    simp only [framesWeight, level_congr hname, ← hsize, Option.elim, Nat.add_mul]
    omega
  · have hopen := hlive fun h => hne (congrArg some h)
    rw [hlvl, ← level_congr hname, ← hi.aliases]
    show level i.aliases (live (g :: fs)) = _
    rw [live, if_neg (by simp [hopen])]
  · rcases h with h | h | h
    · contradiction
    · exact absurd (Option.some.inj h) hc.1
    · exact absurd (Option.some.inj h) hc.2

theorem takeFront_ends {i : Input} (hi : Ready A i) (hu : i.unread = []) :
    Ends (fun c j => c = front i ∧ Took A i c j) takeFront i := by
  rw [front_of_unread hu]
  unfold Ends Meets
  cases hf : i.frames with
  | nil =>
      have hlvl : i.lvl = level A [] := by
        unfold Input.lvl
        rw [hi.live_eq hu, hi.aliases, hf]
      cases hc : i.current with
      | nil =>
          rw [takeFront_on_end hf hc]
          exact ⟨rfl, hi.toLexing, Nat.le_refl _, fun _ => rfl, id, fun _ => ⟨hf, hu⟩⟩
      | cons c r =>
          rw [takeFront_on_line hf hc]
          have hj : Lexing A { i with current := r } := { hi with }
          have hbare : Bare { i with current := r } := ⟨hf, hu⟩
          have htook : Took A i (some c) { i with current := r } := by
            refine ⟨hj, ?_, fun _ => rfl, fun _ => hbare, fun _ => hbare⟩
            rw [hj.weight_eq hu, hi.weight_eq hu, hlvl, hc]
            simp only [Option.elim, List.length_cons, Nat.add_mul]
            omega
          exact ⟨rfl, htook.noted c⟩
  | cons f fs =>
      have hmem : f ∈ i.frames := hf ▸ List.mem_cons_self
      have hplain := hi.plain f hmem
      cases hr : f.rest with
      | cons c r =>
          rw [takeFront_on_alias hf hr]
          have hspent : f.spent = false :=
            Bool.eq_false_iff.mpr fun h => absurd (hi.spent f hmem h) (by simp [hr])
          rw [hr] at hplain
          have hsize : { f with rest := r }.size + 1 = f.size := by
            simp only [AliasFrame.size, hr, hspent, List.length_cons]
            omega
          have htook := took_frame hi hu (g := { f with rest := r }) hf rfl hsize
            (by simp [hspent])
            (fun d hd => hplain d (List.mem_cons_of_mem _ hd)) (hplain c List.mem_cons_self)
            (fun _ => hspent)
          exact ⟨by simp [hr], htook.noted c⟩
      | nil =>
          rw [takeFront_on_blank hf hr]
          -- a frame that is available and has no text left still has its blank
          have hspent : f.spent = false := by
            refine Bool.eq_false_iff.mpr fun hs => ?_
            have hlive := hi.live_eq hu
            rw [hf, live, if_pos (by simp [hr, hs])] at hlive
            have hle := (live_sublist fs).length_le
            rw [hlive] at hle
            exact Nat.not_succ_le_self _ hle
          have hsize : { f with spent := true }.size + 1 = f.size := by
            simp [AliasFrame.size, hr, hspent]
          have htook := took_frame hi hu (g := { f with spent := true }) hf rfl hsize
            (fun _ => hr) hplain ⟨by decide, by decide⟩ (fun h => absurd rfl h)
          exact ⟨by simp [hr], htook.noted ' '⟩

/-- What is known of a character that is taken after the input was filled holds for the input. -/
theorem Filled.took {i j l : Input} {c : Option Char} (h : Filled A i j) (hi : Lexing A i)
    (ht : Took A j c l) : Took A i c l where
  toLexing := ht.toLexing
  weight := by rw [← h.weight hi, ← h.lvl hi]; exact ht.weight
  lvl hc := (ht.lvl hc).trans (h.lvl hi)
  bare hb := ht.bare (h.bare hb)
  outside := ht.outside

/-- A character that was put back is taken again. -/
theorem took_unread {i : Input} (hi : Lexing A i) {c : Char} {r : Text}
    (hu : i.unread = c :: r) : Took A i (some c) { i with unread := r } where
  toLexing := { hi with unread := fun d hd => hi.unread d (hu ▸ List.mem_cons_of_mem _ hd) }
  weight := by
    have hlvl : { i with unread := r }.lvl = i.lvl := rfl
    simp only [Input.weight, hlvl, hu, List.length_cons, Nat.add_mul, Option.elim]
    omega
  lvl _ := rfl
  bare h := absurd h.2 (by simp [hu])
  outside h := by
    have hc : c = '\\' := hi.unread c (hu ▸ List.mem_cons_self)
    subst hc
    simp at h

theorem next_ends {i : Input} (hi : Lexing A i) : Ends (Took A i) next i := by
  cases hu : i.unread with
  | cons c r =>
      unfold Ends Meets
      rw [next_on_unread hu]
      exact (took_unread hi hu).noted c
  | nil =>
      unfold Ends Meets
      rw [next_on_filled hu]
      refine (fill_ends hi).bind fun _ j hj => ?_
      exact (takeFront_ends hj.ready (hj.unread_eq.trans hu)).mono fun c l h => hj.took hi h.2

theorem Ready.next_ends {i : Input} (hi : Ready A i) :
    Ends (fun c j => c = front i ∧ Took A i c j) next i := by
  cases hu : i.unread with
  | cons c r =>
      unfold Ends Meets
      rw [next_on_unread hu]
      exact ⟨by rw [front, hu], (took_unread hi.toLexing hu).noted c⟩
  | nil =>
      unfold Ends Meets
      rw [next_on_filled hu]
      refine meets_bind.mpr ?_
      unfold Meets
      rw [hi.fill_on hu]
      exact takeFront_ends hi hu

theorem Took.le {i j : Input} {c : Option Char} (h : Took A i c j) : j.weight ≤ i.weight :=
  Nat.le_trans (Nat.le_add_right _ _) h.weight

theorem Took.lt {i j : Input} {c : Char} (h : Took A i (some c) j) :
    j.weight + i.lvl ≤ i.weight := h.weight

theorem Took.kept {i j : Input} {c : Option Char} (h : Took A i c j) : Spends A i 0 j :=
  ⟨h.toLexing, h.le⟩

theorem Took.spends {i j : Input} {c : Char} (h : Took A i (some c) j) : Spends A i 1 j :=
  ⟨h.toLexing, by have := h.lt; have := i.lvl_pos; omega⟩

/-- The character that was looked at is taken. -/
theorem Peeked.next_ends {i j : Input} {c : Option Char} (h : Peeked A i c j) :
    Ends (fun d l => d = c ∧ Took A i c l) next j := by
  refine h.toReady.next_ends.mono ?_
  rintro d l ⟨hd, ht⟩
  obtain rfl := hd.trans h.front_eq.symm
  exact ⟨rfl, ht.toLexing, by rw [← h.weight, ← h.lvl]; exact ht.weight,
    fun hc => (ht.lvl hc).trans h.lvl, fun hb => ht.bare (h.bare hb), ht.outside⟩

/-- Looking once more shows the same. -/
theorem Peeked.peek_again {i j : Input} {c : Option Char} (h : Peeked A i c j) :
    Ends (fun d k => c = d ∧ j = k) peek j := by
  unfold Ends Meets
  rw [h.toReady.peek_on]
  exact ⟨h.front_eq, rfl⟩

theorem Peeked.spends {i j : Input} {c : Option Char} (h : Peeked A i c j) : Spends A i 0 j :=
  ⟨h.toLexing, Nat.le_of_eq h.weight⟩

/-- A backslash is put back. -/
theorem putBack_ends {i : Input} (hi : Lexing A i) :
    Ends (fun _ j => Ready A j ∧ front j = some '\\' ∧ j.weight = i.weight + i.lvl)
      (putBack '\\') i := by
  refine ⟨⟨?_, fun h => (nomatch h), fun h => (nomatch h)⟩, rfl, ?_⟩
  · refine { hi with unread := fun c hc => ?_ }
    rcases List.mem_cons.mp hc with rfl | hc
    · rfl
    · exact hi.unread c hc
  · show ('\\' :: i.unread).length * i.lvl + _ + _ + i.pushback.elim 0 (Token.weight i.lvl) + _ = _
    simp only [Input.weight, List.length_cons, Nat.add_mul]
    omega

/-! ## Small readers -/

/-- What follows a part of the reading, with what it spent. -/
theorem Spends.ends {i j : Input} {k m l : Nat} {r : Reader α} (h : Spends A i k j)
    (hr : Ends (fun _ => Spends A j m) r j) (hl : l ≤ k + m) : Ends (fun _ => Spends A i l) r j :=
  hr.mono fun _ _ hm => (h.trans hm).le hl

theorem unterminated_ends {Q : α → Input → Prop} {what : Text} {line : Nat} {i : Input}
    (hi : Sane A i) : Ends Q (unterminated what line) i :=
  ⟨fun h => (nomatch h), hi.proper⟩

theorem fail_ends {Q : α → Input → Prop} {f : Fault} {i : Input} (hi : Sane A i)
    (hf : f ≠ .internal "reader did not finish") : Ends Q (fail f) i :=
  ⟨fun h => hf (by injection h with h; injection h), hi.proper⟩

theorem takeWhile_ends {p : Char → Bool} {n : Nat} {acc : Text} {i : Input} (hi : Lexing A i)
    (hn : 20 * i.weight + 1 ≤ n) : Ends (fun _ => Spends A i 0) (takeWhile p n acc) i := by
  induction n generalizing acc i with
  | zero => omega
  | succ n ih =>
      unfold takeWhile
      refine (peek_ends hi).bind fun c j hj => ?_
      cases c with
      | none => exact hj.spends
      | some c =>
          refine .ite (fun _ => ?_) fun _ => hj.spends
          refine hj.next_ends.bind ?_
          rintro _ l ⟨_, hl⟩
          have hw := hl.spends.weight
          exact hl.spends.ends (ih hl.toLexing (by omega)) (by omega)

theorem skipComment_ends {n : Nat} {i : Input} (hi : Lexing A i) (hn : 20 * i.weight + 1 ≤ n) :
    Ends (fun _ => Spends A i 0) (skipComment n) i := by
  induction n generalizing i with
  | zero => omega
  | succ n ih =>
      unfold skipComment
      refine (peek_ends hi).bind fun c j hj => ?_
      cases c with
      | none => exact hj.spends
      | some c =>
          refine .ite (fun _ => hj.spends) fun _ => ?_
          refine hj.next_ends.bind ?_
          rintro _ l ⟨_, hl⟩
          have hw := hl.spends.weight
          exact hl.spends.ends (ih hl.toLexing (by omega)) (by omega)

/-- A comment takes at least its first character. -/
theorem Peeked.skipComment_ends {n : Nat} {i j : Input} {c : Char} (hj : Peeked A i (some c) j)
    (hc : c ≠ '\n') (hn : 20 * i.weight + 1 ≤ n) :
    Ends (fun _ => Spends A i 1) (skipComment n) j := by
  cases n with
  | zero => omega
  | succ n =>
      unfold skipComment
      refine hj.peek_again.bind ?_
      rintro d k ⟨hd, hk⟩
      subst hd hk
      refine .ite (fun h => absurd h hc) fun _ => ?_
      refine hj.next_ends.bind ?_
      rintro _ l ⟨_, hl⟩
      have hw := hl.spends.weight
      exact hl.spends.ends (Script.skipComment_ends hl.toLexing (by omega)) (by omega)

/-- What is known where a token starts. -/
structure AtToken (A : Table Text) (i j : Input) : Prop extends Ready A j where
  weight : j.weight ≤ i.weight
  front_ne : front j ≠ some ' ' ∧ front j ≠ some '\t'

theorem skipBlanks_ends {n : Nat} {i : Input} (hi : Lexing A i) (hn : 20 * i.weight + 2 ≤ n) :
    Ends (fun _ => AtToken A i) (skipBlanks n) i := by
  induction n generalizing i with
  | zero => omega
  | succ n ih =>
      -- the blanks, the comment or the continuation were not for nothing
      have hagain : ∀ {l}, Spends A i 1 l → Ends (fun _ => AtToken A i) (skipBlanks n) l := by
        intro l hl
        have hw := hl.weight
        refine (ih hl.toLexing (by omega)).mono fun _ m hm => ?_
        exact ⟨hm.toReady, by have := hm.weight; omega, hm.front_ne⟩
      unfold skipBlanks
      refine (peek_ends hi).bind fun c j hj => ?_
      split
      · refine hj.next_ends.bind ?_
        rintro _ l ⟨_, hl⟩
        exact hagain hl.spends
      · refine hj.next_ends.bind ?_
        rintro _ l ⟨_, hl⟩
        exact hagain hl.spends
      · exact (hj.skipComment_ends (by decide) (by omega)).bind fun _ l hl => hagain hl
      · refine hj.next_ends.bind ?_
        rintro _ l ⟨_, hl⟩
        refine (peek_ends hl.toLexing).bind fun d m hm => ?_
        refine .ite (fun hd => ?_) fun _ => ?_
        · subst hd
          refine hm.next_ends.bind ?_
          rintro _ o ⟨_, ho⟩
          exact hagain ((hl.spends.trans ho.spends).le (by omega))
        · refine (putBack_ends hm.toLexing).mono ?_
          rintro _ o ⟨ho, hfront, hw⟩
          have hlt := hl.lt
          have hlvl := hl.lvl (by decide)
          refine ⟨ho, ?_, by rw [hfront]; decide, by rw [hfront]; decide⟩
          rw [hw, hm.weight, hm.lvl, hlvl]
          exact hlt
      · rename_i hblank htab _ _
        have hfront := hj.front_eq
        exact ⟨hj.toReady, Nat.le_of_eq hj.weight, fun h => hblank (hfront.trans h),
          fun h => htab (hfront.trans h)⟩

theorem readSingleQuoted_ends {start n : Nat} {acc : Text} {i : Input} (hi : Lexing A i)
    (hn : 20 * i.weight + 1 ≤ n) :
    Ends (fun _ => Spends A i 0) (readSingleQuoted start n acc) i := by
  induction n generalizing acc i with
  | zero => omega
  | succ n ih =>
      unfold readSingleQuoted
      refine (next_ends hi).bind fun c j hj => ?_
      split
      · exact hj.spends.le (by omega)
      · have hw := hj.spends.weight
        exact hj.spends.ends (ih hj.toLexing (by omega)) (by omega)
      · exact unterminated_ends hj.toSane

/-! ## Raw text -/

theorem Bare.lvl {i : Input} (hb : Bare i) (hi : Sane A i) : i.lvl = level A [] := by
  unfold Input.lvl
  rw [hb.1, hi.aliases]
  rfl

/-- Text that was taken from the lines, with what it weighs on its own. -/
structure Raw (A : Table Text) (i : Input) (k : Nat) (acc t : Text) (j : Input) : Prop
    extends Lexing A j where
  bare : Bare j
  weight : j.weight + t.length * level A [] + k ≤ i.weight + acc.length * level A []

/-- Characters that were taken stand for themselves in the text, or for less. -/
theorem Raw.after {i j l : Input} {acc acc' t : Text} {k m : Nat} (h : Raw A j m acc' t l)
    (hw : j.weight + k * level A [] ≤ i.weight) (hacc : acc'.length ≤ acc.length + k) :
    Raw A i m acc t l := by
  refine ⟨h.toLexing, h.bare, ?_⟩
  have hlen := Nat.mul_le_mul_right (level A []) hacc
  have hweight := h.weight
  rw [Nat.add_mul] at hlen
  omega

theorem readBackQuotedText_ends {q : Bool} {start n : Nat} {acc : Text} {i : Input}
    (hi : Lexing A i) (hb : Bare i) (hn : 20 * i.weight + 1 ≤ n) :
    Ends (Raw A i 1 acc) (readBackQuotedText q start n acc) i := by
  induction n generalizing acc i with
  | zero => omega
  | succ n ih =>
      have hpos := level_pos A []
      have hlvl := hb.lvl hi.toSane
      have hagain : ∀ {l acc' k}, Spends A i 1 l → Bare l →
          l.weight + k * level A [] ≤ i.weight → acc'.length ≤ acc.length + k →
          Ends (Raw A i 1 acc) (readBackQuotedText q start n acc') l := by
        intro l acc' k hl hbl hk hacc
        have hw := hl.weight
        exact (ih hl.toLexing hbl (by omega)).mono fun t m hm => hm.after hk hacc
      unfold readBackQuotedText
      refine (next_ends hi).bind fun c j hj => ?_
      have hbj := hj.bare hb
      split
      · have hlt := hj.spends.weight
        refine ⟨hj.toLexing, hbj, ?_⟩
        rw [List.length_reverse]
        omega
      · have hlt := hj.lt
        refine (next_ends hj.toLexing).bind fun d l hl => ?_
        have hbl := hl.bare hbj
        have hlvl' := hbj.lvl hj.toSane
        split
        · exact hagain (k := 0) ((hj.spends.trans hl.spends).le (by omega)) hbl
            (by have := hl.le; omega) (Nat.le_refl _)
        · rename_i c _
          have hlt' := hl.lt
          have hspends := (hj.spends.trans hl.spends).le (Nat.le_succ 1)
          refine .ite (fun _ => ?_) fun _ => ?_
          · exact hagain (k := 2) hspends hbl (by omega) (by simp)
          · exact hagain (k := 2) hspends hbl (by omega) (by simp)
        · exact unterminated_ends hl.toSane
      · have hlt := hj.lt
        exact hagain (k := 1) hj.spends hbj (by omega) (by simp)
      · exact unterminated_ends hj.toSane

/-- A line is not empty, and the end of the input stays the end. -/
theorem readRawLine_ends {n : Nat} {acc : Text} {i : Input} (hi : Lexing A i) (hb : Bare i)
    (hn : 20 * i.weight + 1 ≤ n) :
    Ends (fun t j => Lexing A j ∧ Bare j ∧ j.weight ≤ i.weight ∧
      ∀ l ∈ t, l ≠ [] ∧ Raw A i 0 acc l j) (readRawLine n acc) i := by
  induction n generalizing acc i with
  | zero => omega
  | succ n ih =>
      have hpos := level_pos A []
      have hlvl := hb.lvl hi.toSane
      unfold readRawLine
      refine (next_ends hi).bind fun c j hj => ?_
      have hbj := hj.bare hb
      split
      · have hend : Raw A j 0 ('\n' :: acc) ('\n' :: acc).reverse j := ⟨hj.toLexing, hbj, by simp⟩
        refine ⟨hj.toLexing, hbj, hj.le, fun l hl => ?_⟩
        obtain rfl := Option.some.inj hl
        have hlt := hj.lt
        exact ⟨by simp, hend.after (k := 1) (by omega) (by simp)⟩
      · rename_i c _
        have hw := hj.spends.weight
        refine (@ih (c :: acc) j hj.toLexing hbj (by omega)).mono fun t m hm => ?_
        obtain ⟨hm, hbm, hle, hline⟩ := hm
        refine ⟨hm, hbm, by omega, fun l hl => ⟨(hline l hl).1, ?_⟩⟩
        have hlt := hj.lt
        exact (hline l hl).2.after (k := 1) (by omega) (by simp)
      · refine ⟨hj.toLexing, hbj, hj.le, fun l hl => ?_⟩
        have hend : Raw A j 0 acc acc.reverse j := ⟨hj.toLexing, hbj, by simp⟩
        split at hl
        · exact nomatch hl
        · rename_i hne
          obtain rfl := Option.some.inj hl
          refine ⟨by simpa using hne, hend.after (k := 0) (by have := hj.le; omega) (by simp)⟩

theorem readHereDocLines_ends {req : HereDocRequest} {n : Nat} {acc : List Text} {i : Input}
    (hi : Lexing A i) (hb : Bare i) (hn : 20 * i.weight + 2 ≤ n) :
    Ends (fun t j => Raw A i 0 acc.flatten t j) (readHereDocLines req n acc) i := by
  induction n generalizing acc i with
  | zero => omega
  | succ n ih =>
      have hpos := level_pos A []
      unfold readHereDocLines
      refine (readRawLine_ends hi hb (by omega)).bind ?_
      rintro l j ⟨hj, hbj, hle, hline⟩
      have hend : Raw A i 0 acc.flatten acc.reverse.flatten j := ⟨hj, hbj, by simp; omega⟩
      cases l with
      | none => exact hend
      | some l =>
          obtain ⟨hne, hraw⟩ := hline l rfl
          have hweight := hraw.weight
          have hlen : 1 ≤ l.length := List.length_pos_iff.mpr hne
          have hlow : level A [] ≤ l.length * level A [] := Nat.le_mul_of_pos_left _ hlen
          have hshort : (if req.stripTabs then l.dropWhile (· == '\t') else l).length
              ≤ l.length := by
            split
            · exact (List.dropWhile_sublist _).length_le
            · exact Nat.le_refl _
          refine .ite (fun _ => hend) fun _ => ?_
          refine (ih hj hbj ?_).mono fun t m hm => hm.after (k := l.length) ?_ ?_
          · simp only [List.length_nil] at hweight
            omega
          · simpa using hweight
          · rw [List.flatten_cons, List.length_append]
            omega

/-! ## Operators -/

/-- A character may follow. -/
theorem optional_ends {d : Char} {i : Input} {x y : Reader α} {Q : α → Input → Prop}
    (hi : Lexing A i) (hx : ∀ j, Spends A i 1 j → Ends Q x j)
    (hy : ∀ j, Spends A i 0 j → Ends Q y j) :
    Ends Q (do if (← peek) = some d then let _ ← next; x else y) i := by
  refine (peek_ends hi).bind fun c j hj => ?_
  refine .ite (fun hc => ?_) fun _ => hy j hj.spends
  subst hc
  refine hj.next_ends.bind ?_
  rintro _ l ⟨_, hl⟩
  exact hx l hl.spends

theorem readOperator_ends {second : Char} {one two : TokenKind} {i j : Input} {c : Char}
    (hj : Peeked A i (some c) j) :
    Ends (fun k l => Spends A i 1 l ∧ (k = one ∨ k = two)) (readOperator second one two) j := by
  unfold readOperator
  refine hj.next_ends.bind ?_
  rintro _ k ⟨_, hk⟩
  refine optional_ends hk.toLexing (fun l hl => ?_) fun l hl => ?_
  · exact ⟨(hk.spends.trans hl).le (by omega), .inr rfl⟩
  · exact ⟨hk.spends.trans hl, .inl rfl⟩

theorem readRedirectOp_ends {fd : Option Nat} {i : Input} (hi : Lexing A i) :
    Ends (fun k j => Spends A i 1 j ∧ ∃ op, k = .redirect fd op) (readRedirectOp fd) i := by
  unfold readRedirectOp
  refine (next_ends hi).bind fun c j hj => ?_
  have hdone : ∀ {c k l} op, Took A i (some c) j → Spends A j k l →
      Spends A i 1 l ∧ ∃ op', TokenKind.redirect fd op = .redirect fd op' :=
    fun op hj hl => ⟨(hj.spends.trans hl).le (by omega), op, rfl⟩
  dsimp only
  split
  · refine (peek_ends hj.toLexing).bind fun c l hl => ?_
    split
    · refine hl.next_ends.bind ?_
      rintro _ m ⟨_, hm⟩
      refine optional_ends hm.toLexing (fun o ho => ?_) fun o ho => ?_
      · exact hdone _ hj (hm.spends.trans ho)
      · exact hdone _ hj (hm.spends.trans ho)
    · refine hl.next_ends.bind ?_
      rintro _ m ⟨_, hm⟩
      exact hdone _ hj hm.spends
    · refine hl.next_ends.bind ?_
      rintro _ m ⟨_, hm⟩
      exact hdone _ hj hm.spends
    · exact hdone _ hj hl.spends
  · refine (peek_ends hj.toLexing).bind fun c l hl => ?_
    split
    · refine hl.next_ends.bind ?_
      rintro _ m ⟨_, hm⟩
      exact hdone _ hj hm.spends
    · refine hl.next_ends.bind ?_
      rintro _ m ⟨_, hm⟩
      exact hdone _ hj hm.spends
    · refine hl.next_ends.bind ?_
      rintro _ m ⟨_, hm⟩
      exact hdone _ hj hm.spends
    · exact hdone _ hj hl.spends
  · have hfail : Ends (fun _ _ => False)
        (fail (.internal "redirection operator expected") : Reader RedirectOp) j :=
      fail_ends hj.toSane (by decide)
    exact hfail.bind fun _ _ h => h.elim

theorem nextOfParam_ends {i : Input} (hi : Lexing A i) :
    Ends (fun _ => Spends A i 1) nextOfParam i := by
  unfold nextOfParam
  refine (next_ends hi).bind fun c j hj => ?_
  cases c with
  | some c => exact hj.spends
  | none => exact fail_ends hj.toSane (by decide)

theorem readParamOp_ends {c : Char} {i : Input} (hi : Lexing A i) :
    Ends (fun _ => Spends A i 0) (readParamOp c) i := by
  unfold readParamOp
  have hdone : Spends A i 0 i := ⟨hi, Nat.le_refl _⟩
  split
  · exact hdone
  · exact hdone
  · exact hdone
  · exact hdone
  · refine optional_ends hi (fun l hl => ?_) fun l hl => ?_
    · exact hl.le (Nat.zero_le 1)
    · exact hl
  · refine optional_ends hi (fun l hl => ?_) fun l hl => ?_
    · exact hl.le (Nat.zero_le 1)
    · exact hl
  · exact fail_ends hi.toSane (by decide)

theorem readParamName_ends {n : Nat} {first : Char} {i : Input} (hi : Lexing A i)
    (hn : 20 * i.weight + 1 ≤ n) : Ends (fun _ => Spends A i 0) (readParamName n first) i := by
  unfold readParamName
  have hdone : Spends A i 0 i := ⟨hi, Nat.le_refl _⟩
  refine .ite (fun _ => (takeWhile_ends hi hn).bind fun _ j hj => hj) fun _ => ?_
  refine .ite (fun _ => (takeWhile_ends hi hn).bind fun _ j hj => hj) fun _ => ?_
  exact .ite (fun _ => hdone) fun _ => fail_ends hi.toSane (by decide)

end CommandShell.Script
