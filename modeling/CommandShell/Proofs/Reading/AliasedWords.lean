import CommandShell.Proofs.Reading.Excerpts.Tokens
import CommandShell.Proofs.Reading.Locality
import CommandShell.Proofs.Reading.VerbatimLines
import Mathlib.Data.List.TakeWhile

/-!
# Plain words in the texts of aliases

While aliases are expanded the reader stands in several texts at once: the innermost alias is read
first, then what is left of those around it, then the command line. A `Spot` says what is left of each,
and `At` that an input is there. The texts are plain words with blanks between them (`PlainWords`), so
that a word never runs from one text into the next.

A token is the next word of the innermost text (`passes_word`). A text of which only blanks are left is
gone as soon as a token is read (`At.obtains_leaving`), and with it the mark says whether that text
ended in a blank.
-/

namespace CommandShell.Script

open Reader

variable {α β : Type} {A : Table Text} {rest t u w : Text} {n : Nat} {i j : Input}

/-! ## Plain words -/

/-- The characters that separate words and mean nothing else. -/
def isBlank (c : Char) : Bool := c == ' ' || c == '\t'

/-- The characters that stand for themselves wherever they stand in a word. -/
def isWordChar (c : Char) : Bool := !isWordBreak c && !("\\'\"$\x60" : Text).contains c

/-- The words of a text: what stands between its blanks. -/
def wordsOf (t : Text) : List Text := (t.splitOnP isBlank).filter fun w => !w.isEmpty

/-- The text is words of characters that stand for themselves, with blanks between them, and none of
the words starts a comment. -/
structure PlainWords (t : Text) : Prop where
  chars : ∀ c ∈ t, isBlank c = true ∨ isWordChar c = true
  uncommented : ∀ w ∈ wordsOf t, w.head? ≠ some '#'

/-- A text of plain words is told by its characters and the first ones of its words. -/
theorem plainWords_iff : PlainWords t ↔ (t.all fun c => isBlank c || isWordChar c) = true ∧
    ((wordsOf t).all fun w => w.head? != some '#') = true := by
  simp only [List.all_eq_true, Bool.or_eq_true, bne_iff_ne]
  exact ⟨fun h => ⟨h.chars, h.uncommented⟩, fun h => ⟨h.1, h.2⟩⟩

instance (t : Text) : Decidable (PlainWords t) := decidable_of_iff' _ plainWords_iff

/-- `w` is the first word of the text, and `u` is what comes after it. -/
structure FirstWord (t w u : Text) : Prop where
  split : ∃ gap, t = gap ++ (w ++ u) ∧ ∀ c ∈ gap, isBlank c = true
  ne_nil : w ≠ []
  unbroken : ∀ c ∈ w, isBlank c = false
  ends : ∀ c ∈ u.head?, isBlank c = true

@[simp]
theorem wordsOf_nil : wordsOf [] = [] := rfl

theorem wordsOf_cons_blank {c : Char} (h : isBlank c = true) (t : Text) :
    wordsOf (c :: t) = wordsOf t := by
  unfold wordsOf
  rw [List.splitOnP_cons_eq_if_modifyHead, if_pos h]
  rfl

theorem wordsOf_gap {gap : Text} (h : ∀ c ∈ gap, isBlank c = true) (t : Text) :
    wordsOf (gap ++ t) = wordsOf t := by
  induction gap with
  | nil => rfl
  | cons c gap ih =>
      rw [List.cons_append, wordsOf_cons_blank (h c List.mem_cons_self)]
      exact ih fun d hd => h d (List.mem_cons_of_mem c hd)

theorem FirstWord.wordsOf (h : FirstWord t w u) : wordsOf t = w :: wordsOf u := by
  obtain ⟨gap, rfl, hgap⟩ := h.split
  have hw : (!w.isEmpty) = true := by simpa using h.ne_nil
  rw [wordsOf_gap hgap]
  cases u with
  | nil =>
      unfold Script.wordsOf
      rw [List.append_nil, List.splitOnP_eq_singleton h.unbroken, List.filter_cons, if_pos hw]
      rfl
  | cons c u =>
      have hc := h.ends c rfl
      rw [wordsOf_cons_blank hc]
      unfold Script.wordsOf
      rw [List.splitOnP_append_cons_of_forall_mem h.unbroken c hc, List.filter_cons, if_pos hw]

/-- A text that is not all blanks has a first word. -/
theorem exists_firstWord (h : ∃ c ∈ t, isBlank c = false) : ∃ w u, FirstWord t w u := by
  have hgap := List.takeWhile_append_dropWhile (p := isBlank) (l := t)
  have hword := List.takeWhile_append_dropWhile (p := fun c => !isBlank c) (l := t.dropWhile isBlank)
  refine ⟨(t.dropWhile isBlank).takeWhile fun c => !isBlank c,
    (t.dropWhile isBlank).dropWhile fun c => !isBlank c,
    ⟨t.takeWhile isBlank, by rw [hword, hgap], fun c hc => List.mem_takeWhile_imp hc⟩, ?_,
    fun c hc => by simpa using List.mem_takeWhile_imp hc, ?_⟩
  · obtain ⟨d, hd, hnot⟩ := h
    have hrest : t.dropWhile isBlank ≠ [] := fun hnil =>
      absurd (List.dropWhile_eq_nil_iff.mp hnil d hd) (by simp [hnot])
    obtain ⟨c, r, hr⟩ := List.exists_cons_of_ne_nil hrest
    have hc : isBlank c = false := by
      have hhead := List.head?_dropWhile_not isBlank t
      rw [hr] at hhead
      simpa using hhead
    rw [hr, List.takeWhile_cons, if_pos (by simp [hc])]
    exact List.cons_ne_nil _ _
  · rintro c hc
    have hhead := List.head?_dropWhile_not (fun c => !isBlank c) (t.dropWhile isBlank)
    rw [Option.mem_def.mp hc] at hhead
    simpa using hhead

theorem wordsOf_eq_nil_iff : wordsOf t = [] ↔ ∀ c ∈ t, isBlank c = true := by
  constructor
  · intro h c hc
    by_contra hnot
    obtain ⟨w, u, hw⟩ := exists_firstWord ⟨c, hc, Bool.eq_false_iff.mpr hnot⟩
    exact absurd (hw.wordsOf.symm.trans h) (List.cons_ne_nil _ _)
  · intro h
    rw [← List.append_nil t, wordsOf_gap h]
    rfl

theorem exists_of_wordsOf {ws : List Text} (h : wordsOf t = w :: ws) :
    ∃ u, FirstWord t w u ∧ wordsOf u = ws := by
  have hsome : ∃ c ∈ t, isBlank c = false := by
    by_contra hnone
    have hblank : ∀ c ∈ t, isBlank c = true := by simpa using hnone
    exact absurd (h.symm.trans (wordsOf_eq_nil_iff.mpr hblank)) (List.cons_ne_nil _ _)
  obtain ⟨w', u, hw⟩ := exists_firstWord hsome
  obtain ⟨rfl, hu⟩ := List.cons.inj (hw.wordsOf.symm.trans h)
  exact ⟨u, hw, hu⟩

theorem PlainWords.of_firstWord (h : PlainWords t) (hw : FirstWord t w u) :
    (∀ c ∈ w, isWordChar c = true) ∧ w.head? ≠ some '#' ∧ PlainWords u := by
  obtain ⟨gap, ht, -⟩ := hw.split
  have hwords := hw.wordsOf
  refine ⟨fun c hc => ?_, h.uncommented w (hwords ▸ List.mem_cons_self), fun c hc => ?_, fun v hv => ?_⟩
  · refine (h.chars c ?_).resolve_left (by simp [hw.unbroken c hc])
    rw [ht]
    exact List.mem_append_right _ (List.mem_append_left _ hc)
  · refine h.chars c ?_
    rw [ht]
    exact List.mem_append_right _ (List.mem_append_right _ hc)
  · exact h.uncommented v (hwords ▸ List.mem_cons_of_mem w hv)

theorem wordChar_tests {c : Char} (hc : isWordChar c = true) :
    isWordBreak c = false ∧ c ≠ '\\' ∧ c ≠ '\'' ∧ c ≠ '"' ∧ c ≠ '$' ∧ c ≠ '\x60' := by
  obtain ⟨hbreak, hquote⟩ := Bool.and_eq_true_iff.mp hc
  refine ⟨by simpa using hbreak, ?_⟩
  simpa using hquote

/-! ## Where the reader is -/

/-- What is left to read: of the texts of the aliases that are being expanded, innermost first, and of
the command line. The mark says whether an alias that ends in a blank was just read to its end. -/
structure Spot where
  frames : List AliasFrame
  line : Text
  blank : Bool

namespace Spot

/-- What is left of the text that is read first. -/
def ahead (s : Spot) : Text :=
  match s.frames with
  | f :: _ => f.rest
  | [] => s.line

/-- The same place with another text left of the one that is read first. -/
def moved (s : Spot) (u : Text) : Spot :=
  match s.frames with
  | f :: fs => { s with frames := { f with rest := u } :: fs }
  | [] => { s with line := u }

/-- The same place with the mark set as given. -/
def marked (s : Spot) (b : Bool) : Spot := { s with blank := b }

/-- What is read after the text that is read first: the blank after an alias, or what comes after the
command line. -/
def follow (s : Spot) (rest : Text) : Text :=
  match s.frames with
  | _ :: _ => [' ']
  | [] => rest

/-- The aliases that are being expanded. -/
def names (s : Spot) : List Text := s.frames.map (·.name)

/-- Plain words are left of every text. -/
structure Plain (s : Spot) : Prop where
  frames : ∀ f ∈ s.frames, PlainWords f.rest
  line : PlainWords s.line

variable {s : Spot}

theorem moved_ahead (s : Spot) : s.moved s.ahead = s := by
  obtain ⟨_ | ⟨f, fs⟩, line, blank⟩ := s <;> rfl

@[simp]
theorem ahead_moved (s : Spot) (u : Text) : (s.moved u).ahead = u := by
  obtain ⟨_ | ⟨f, fs⟩, line, blank⟩ := s <;> rfl

@[simp]
theorem moved_moved (s : Spot) (u v : Text) : (s.moved u).moved v = s.moved v := by
  obtain ⟨_ | ⟨f, fs⟩, line, blank⟩ := s <;> rfl

@[simp]
theorem follow_moved (s : Spot) (u rest : Text) : (s.moved u).follow rest = s.follow rest := by
  obtain ⟨_ | ⟨f, fs⟩, line, blank⟩ := s <;> rfl

@[simp]
theorem names_moved (s : Spot) (u : Text) : (s.moved u).names = s.names := by
  obtain ⟨_ | ⟨f, fs⟩, line, blank⟩ := s <;> rfl

@[simp]
theorem blank_moved (s : Spot) (u : Text) : (s.moved u).blank = s.blank := by
  obtain ⟨_ | ⟨f, fs⟩, line, blank⟩ := s <;> rfl

@[simp]
theorem moved_marked (s : Spot) (b : Bool) (u : Text) :
    (s.marked b).moved u = (s.moved u).marked b := by
  obtain ⟨_ | ⟨f, fs⟩, line, blank⟩ := s <;> rfl

@[simp]
theorem ahead_marked (s : Spot) (b : Bool) : (s.marked b).ahead = s.ahead := rfl

@[simp]
theorem names_marked (s : Spot) (b : Bool) : (s.marked b).names = s.names := rfl

@[simp]
theorem blank_marked (s : Spot) (b : Bool) : (s.marked b).blank = b := rfl

@[simp]
theorem marked_marked (s : Spot) (b c : Bool) : (s.marked b).marked c = s.marked c := rfl

theorem Plain.ahead (h : s.Plain) : PlainWords s.ahead := by
  obtain ⟨_ | ⟨f, fs⟩, line, blank⟩ := s
  · exact h.line
  · exact h.frames f List.mem_cons_self

theorem Plain.moved (h : s.Plain) (hu : PlainWords u) : (s.moved u).Plain := by
  obtain ⟨_ | ⟨f, fs⟩, line, blank⟩ := s
  · exact ⟨h.frames, hu⟩
  · refine ⟨fun g hg => ?_, h.line⟩
    rcases List.mem_cons.mp hg with rfl | hg
    · exact hu
    · exact h.frames g (List.mem_cons_of_mem f hg)

theorem Plain.marked (h : s.Plain) (b : Bool) : (s.marked b).Plain := ⟨h.frames, h.line⟩

end Spot

/-- The input is at the spot, `rest` comes after the command line, and nothing else is in the way. -/
structure At (A : Table Text) (rest : Text) (s : Spot) (i : Input) : Prop where
  frames : i.frames = s.frames
  unspent : ∀ f ∈ s.frames, f.spent = false
  text : i.current ++ i.queue.flatten = s.line ++ rest
  blank : i.aliasBlank = s.blank
  aliases : i.aliases = A
  lines : [] ∉ i.queue
  ended : i.atEnd = true → s.line ++ rest = []
  closed : i.closed = true
  unread : i.unread = []
  pushback : i.pushback = none
  pending : i.pending = []
  bodies : i.bodies = []

theorem at_ofText (A : Table Text) (t rest : Text) (line : Nat) :
    At A rest ⟨[], t, false⟩ (.ofText (t ++ rest) line A) where
  frames := rfl
  unspent _ h := nomatch h
  text := (ahead_ofText A (t ++ rest) line).text
  blank := rfl
  aliases := rfl
  lines := nil_notMem_lines _
  ended h := nomatch h
  closed := rfl
  unread := rfl
  pushback := rfl
  pending := rfl
  bodies := rfl

/-! ## Characters -/

variable {s s' : Spot}

theorem dropSpent_unspent {fs : List AliasFrame} (h : ∀ f ∈ fs, f.spent = false) (b : Bool) :
    Input.dropSpent b fs = (fs, b) := by
  cases fs with
  | nil => rfl
  | cons f fs => simp [Input.dropSpent, h f List.mem_cons_self]

theorem At.settled (h : At A rest s i) : settled i = i := by
  unfold Script.settled
  rw [dropSpent_unspent (h.frames ▸ h.unspent)]

theorem At.fill (h : At A rest s i) : ∃ j, Reader.fill.on i = (.ok (), j) ∧ At A rest s j ∧
    (s.frames = [] → j.current.head? = (s.line ++ rest).head?) := by
  have hfill : Reader.fill.on i = fillLine.on i := by
    show fillLine.on (Script.settled i) = _
    rw [h.settled]
  have htext := h.text
  rw [hfill]
  cases hheld : i.holdsText with
  | true =>
      refine ⟨i, fillLine_on_held hheld, h, fun hnone => ?_⟩
      rw [← htext]
      cases hc : i.current with
      | cons c r => rfl
      | nil =>
          have hend : i.atEnd = true := by simpa [Input.holdsText, h.frames, hnone, hc] using hheld
          rw [← hc, htext, h.ended hend, hc]
  | false =>
      obtain ⟨⟨hframes, hcurrent⟩, hend⟩ : (i.frames = [] ∧ i.current = []) ∧ i.atEnd = false := by
        simpa [Input.holdsText] using hheld
      rw [hcurrent] at htext
      cases hq : i.queue with
      | nil =>
          rw [hq] at htext
          refine ⟨_, fillLine_on_end hheld hq h.closed, { h with ended := fun _ => htext.symm },
            fun _ => ?_⟩
          show i.current.head? = _
          rw [hcurrent, ← htext]
          rfl
      | cons l ls =>
          rw [hq] at htext
          have hl : l ≠ [] := fun hl => h.lines (hq ▸ hl ▸ List.mem_cons_self)
          refine ⟨_, fillLine_on_line hheld hq, { h with
            text := htext
            lines := fun hmem => h.lines (hq ▸ List.mem_cons_of_mem l hmem)
            ended := fun hended => absurd (hend.symm.trans hended) Bool.false_ne_true }, fun _ => ?_⟩
          obtain ⟨c, r, rfl⟩ := List.exists_cons_of_ne_nil hl
          rw [← htext]
          rfl

/-- From the spot the reader gives a value, of which `P` holds, and is at the other spot then. -/
def Passes (A : Table Text) (rest : Text) (r : Reader α) (s : Spot) (P : α → Prop) (s' : Spot) : Prop :=
  ∀ i, At A rest s i → Meets (fun _ _ => False) (fun a j => P a ∧ At A rest s' j) r i

section

variable {P : α → Prop} {Q : β → Prop} {a : α} {s₁ : Spot}

theorem Passes.bind {x : Reader α} {f : α → Reader β} (hx : Passes A rest x s P s₁)
    (hf : ∀ a, P a → Passes A rest (f a) s₁ Q s') : Passes A rest (x >>= f) s Q s' := by
  intro i hi
  apply (hx i hi).bind
  rintro a j ⟨ha, hj⟩
  exact hf a ha j hj

/-- A sequence whose first part gives one value. -/
theorem Passes.next {x : Reader α} {f : α → Reader β} (hx : Passes A rest x s (· = a) s₁)
    (hf : Passes A rest (f a) s₁ Q s') : Passes A rest (x >>= f) s Q s' := by
  apply hx.bind
  rintro _ rfl
  exact hf

theorem Passes.on {r : Reader α} (h : Passes A rest r s P s') (hi : At A rest s i) :
    ∃ a j, r.on i = (.ok a, j) ∧ P a ∧ At A rest s' j := by
  have hi := h i hi
  unfold Meets at hi
  split at hi
  · exact ⟨_, _, ‹_›, hi⟩
  · exact hi.elim

theorem Passes.mono {P' : α → Prop} {r : Reader α} (h : Passes A rest r s P s')
    (hP : ∀ a, P a → P' a) : Passes A rest r s P' s' := fun i hi =>
  (h i hi).mono fun a _ ha => ⟨hP a ha.1, ha.2⟩

theorem passes_pure (ha : P a) : Passes A rest (pure a) s P s := fun _ hi => ⟨ha, hi⟩

theorem Passes.line {f : Nat → Reader β} (hf : ∀ l, Passes A rest (f l) s Q s') :
    Passes A rest (line >>= f) s Q s' := fun i hi => hf i.line i hi

theorem Passes.startCapture {f : Unit → Reader β} (hf : Passes A rest (f ()) s Q s') :
    Passes A rest (startCapture >>= f) s Q s' := fun _ hi => hf _ { hi with }

theorem Passes.endCapture {f : Text → Reader β} (hf : ∀ t, Passes A rest (f t) s Q s') :
    Passes A rest (endCapture >>= f) s Q s' := by
  have hend : Passes A rest Reader.endCapture s (fun _ => True) s := by
    intro i hi
    unfold Reader.endCapture
    refine meets_get.mpr ?_
    split
    · exact ⟨trivial, { hi with }⟩
    · exact ⟨trivial, hi⟩
  exact hend.bind fun t _ => hf t

end

/-- The next character is looked at. -/
theorem passes_peek (s : Spot) :
    Passes A rest peek s (· = (s.ahead ++ s.follow rest).head?) s := by
  intro i hi
  obtain ⟨j, hfill, hj, hhead⟩ := hi.fill
  unfold Meets
  rw [peek_on_filled hi.unread, Reader.on_bind, hfill]
  refine ⟨?_, hj⟩
  rw [hj.frames]
  obtain ⟨_ | ⟨⟨name, _ | ⟨c, r⟩, ends, spent⟩, fs⟩, line, blank⟩ := s
  · exact hhead rfl
  · rfl
  · rfl

/-- A character of the text that is read first is taken. -/
theorem passes_next {c : Char} (h : s.ahead = c :: u) :
    Passes A rest next s (· = some c) (s.moved u) := by
  intro i hi
  obtain ⟨j, hfill, hj, hhead⟩ := hi.fill
  unfold Meets
  rw [next_on_filled hi.unread, Reader.on_bind, hfill]
  obtain ⟨_ | ⟨f, fs⟩, line, blank⟩ := s
  · obtain rfl : line = c :: u := h
    obtain ⟨r, hr⟩ : ∃ r, j.current = c :: r := by
      have hhead := hhead rfl
      cases hc : j.current with
      | nil => simp [hc] at hhead
      | cons d r =>
          obtain rfl : d = c := by simpa [hc] using hhead
          exact ⟨r, rfl⟩
    have htext := hj.text
    rw [hr] at htext
    dsimp only
    rw [takeFront_on_line hj.frames hr]
    exact ⟨rfl, { hj with
      text := (List.cons.inj htext).2
      ended := fun hend => nomatch hj.ended hend }⟩
  · have hf : f.rest = c :: u := h
    dsimp only
    rw [takeFront_on_alias hj.frames hf]
    refine ⟨rfl, { hj with frames := rfl, unspent := fun g hg => ?_ }⟩
    rcases List.mem_cons.mp hg with rfl | hg
    · exact hj.unspent f List.mem_cons_self
    · exact hj.unspent g (List.mem_cons_of_mem f hg)

/-! ## Blanks -/

/-- Blanks before a character that starts a token are skipped. -/
theorem passes_skipBlanks {gap : Text} (hgap : ∀ c ∈ gap, isBlank c = true) (h : s.ahead = gap ++ u)
    (hstart : ∀ c ∈ (u ++ s.follow rest).head?, startsToken c = true) :
    Passes A rest (skipBlanks (n + gap.length + 1)) s (fun _ => True) (s.moved u) := by
  induction gap generalizing s with
  | nil =>
      have hu : s.ahead = u := h
      subst hu
      rw [s.moved_ahead]
      unfold skipBlanks
      apply (passes_peek s).next
      split
      all_goals first
        | exact absurd (hstart _ (by assumption)) (by decide)
        | exact passes_pure trivial
  | cons c gap ih =>
      have hrest := ih (s := s.moved (gap ++ u)) (fun d hd => hgap d (List.mem_cons_of_mem c hd))
        (s.ahead_moved _) (by rwa [s.follow_moved])
      rw [s.moved_moved] at hrest
      unfold skipBlanks
      apply (passes_peek s).next
      have hc := hgap c List.mem_cons_self
      simp only [isBlank, Bool.or_eq_true, beq_iff_eq] at hc
      rw [h]
      rcases hc with rfl | rfl
      · exact (passes_next h).next hrest
      · exact (passes_next h).next hrest

/-- When the blank after its text was taken an alias is gone. -/
theorem skipBlanks_on_spent {f : AliasFrame} {fs : List AliasFrame} (hframes : i.frames = f :: fs)
    (hrest : f.rest = []) (hspent : f.spent = true) (hunread : i.unread = []) :
    (skipBlanks (n + 1)).on i =
      (skipBlanks (n + 1)).on { i with frames := fs, aliasBlank := f.endsBlank } := by
  have hfill : fill.on i = fill.on { i with frames := fs, aliasBlank := f.endsBlank } := by
    have hsettled : settled i = settled { i with frames := fs, aliasBlank := f.endsBlank } := by
      simp [settled, hframes, Input.dropSpent, hrest, hspent]
    show fillLine.on (settled i) = fillLine.on (settled _)
    rw [hsettled]
  have hpeek : peek.on i = peek.on { i with frames := fs, aliasBlank := f.endsBlank } := by
    rw [peek_on_filled hunread, peek_on_filled (i := { i with frames := fs, aliasBlank := f.endsBlank })
      hunread, Reader.on_bind, Reader.on_bind, hfill]
  unfold skipBlanks
  rw [Reader.on_bind, Reader.on_bind, hpeek]

/-- Only blanks are left of the text of an alias: they are skipped, and the alias is gone. -/
theorem At.leaves {f : AliasFrame} {fs : List AliasFrame} {line : Text} {b : Bool}
    (hblank : ∀ c ∈ f.rest, isBlank c = true) (h : At A rest ⟨f :: fs, line, b⟩ i) :
    ∃ j, At A rest ⟨fs, line, f.endsBlank⟩ j ∧
      ∀ n, (skipBlanks (n + 1 + f.rest.length + 1)).on i = (skipBlanks (n + 1)).on j := by
  induction hr : f.rest generalizing f i with
  | nil =>
      obtain ⟨c, k, hpeek, rfl, hk⟩ := (passes_peek _).on h
      obtain ⟨l, hfill, hl, -⟩ := hk.fill
      refine ⟨noted ' ' { l with frames := fs, aliasBlank := f.endsBlank }, { hl with
        frames := rfl
        unspent := fun g hg => h.unspent g (List.mem_cons_of_mem f hg)
        blank := rfl }, fun n => ?_⟩
      have hnext : next.on k = (.ok (some ' '), noted ' ' { l with
          frames := { f with spent := true } :: fs }) := by
        rw [next_on_filled hk.unread, Reader.on_bind, hfill]
        exact takeFront_on_blank hl.frames hr
      have hspent := skipBlanks_on_spent (n := n) (i := noted ' ' { l with
        frames := { f with spent := true } :: fs }) rfl hr rfl hl.unread
      rw [skipBlanks, Reader.on_bind, hpeek]
      simp only [Spot.ahead, Spot.follow, hr, List.nil_append, List.head?_cons]
      rw [Reader.on_bind, hnext]
      exact hspent
  | cons c r ih =>
      have hahead : (⟨f :: fs, line, b⟩ : Spot).ahead = c :: r := hr
      obtain ⟨d, k, hpeek, rfl, hk⟩ := (passes_peek _).on h
      obtain ⟨d, l, hnext, rfl, hl⟩ := (passes_next hahead).on hk
      have hr' : ∀ d ∈ r, isBlank d = true := fun d hd => hblank d (hr ▸ List.mem_cons_of_mem c hd)
      obtain ⟨j, hj, hskip⟩ := ih (f := { f with rest := r }) hr' hl rfl
      refine ⟨j, hj, fun n => ?_⟩
      have hc := hblank c (hr ▸ List.mem_cons_self)
      simp only [isBlank, Bool.or_eq_true, beq_iff_eq] at hc
      have hstep : (skipBlanks (n + 1 + (c :: r).length + 1)).on i =
          (skipBlanks (n + 1 + r.length + 1)).on l := by
        rw [skipBlanks, Reader.on_bind, hpeek, hahead]
        rcases hc with rfl | rfl
        · show (next >>= fun _ => skipBlanks _).on k = _
          rw [Reader.on_bind, hnext]
          rfl
        · show (next >>= fun _ => skipBlanks _).on k = _
          rw [Reader.on_bind, hnext]
          rfl
      rw [hstep]
      exact hskip n

/-! ## Tokens -/

/-- With enough steps the token is read next, and the other input is left. -/
def ReadsNext (tk : Token) (j i : Input) : Prop := ∃ N, ∀ n, N ≤ n → (nextToken n).on i = (.ok tk, j)

section

variable {tk : Token} {P : Token → Prop} {Q : β → Input → Prop}

theorem Passes.readsNext (h : Passes A rest (nextToken n) s P s') (hi : At A rest s i) :
    ∃ tk j, P tk ∧ At A rest s' j ∧ ReadsNext tk j i := by
  obtain ⟨tk, j, hread, htk, hj⟩ := h.on hi
  refine ⟨tk, j, htk, hj, n, fun m hm => ?_⟩
  exact (refines_of_le (fun n => (readersGrow n).nextToken) hm).on_eq hread (by simp)

/-- A token that was put back. -/
theorem readsNext_pushed (hj : j.pushback = none) (tk : Token) :
    ReadsNext tk j { j with pushback := some tk } := by
  have hpushback : { j with pushback := none } = j := by
    rw [← hj]
  refine ⟨1, fun n hn => ?_⟩
  obtain ⟨m, rfl⟩ := Nat.exists_eq_add_of_le' hn
  rw [Suffices.nextToken_pushback rfl]
  show (Except.ok tk, { j with pushback := none }) = _
  rw [hpushback]

theorem ReadsNext.obtains {f : Nat → Token → Reader β} (h : ReadsNext tk j i)
    (hf : Obtains (fun n => f n tk) j Q) : Obtains (fun n => nextToken n >>= f n) i Q := by
  obtain ⟨N, hN⟩ := h
  refine Obtains.bind (P := fun tk' j' => tk' = tk ∧ j' = j) ⟨tk, j, ⟨rfl, rfl⟩, N, hN⟩ ?_
  rintro tk' j' ⟨rfl, rfl⟩
  exact hf

/-- What goes on with the next token does so when the token is read. -/
theorem ReadsNext.of_obtains {f : Nat → Token → Reader β} (h : ReadsNext tk j i)
    (hf : Obtains (fun n => nextToken n >>= f n) i Q) : Obtains (fun n => f n tk) j Q := by
  obtain ⟨N, hN⟩ := h
  obtain ⟨a, k, ha, M, hM⟩ := hf
  refine ⟨a, k, ha, N + M, fun n hn => ?_⟩
  have hread := hM n (by omega)
  rwa [Reader.on_bind, hN n (by omega)] at hread

theorem ReadsNext.obtains_peek {f : Nat → Token → Reader β} (h : ReadsNext tk j i)
    (hf : Obtains (fun n => f n tk) { j with pushback := some tk } Q) :
    Obtains (fun n => peekToken n >>= f n) i Q := by
  have hpeek : Obtains peekToken i fun tk' k => tk' = tk ∧ k = { j with pushback := some tk } := by
    apply Obtains.step
    exact h.obtains (.after rfl (obtains_pure ⟨rfl, rfl⟩))
  apply hpeek.bind
  rintro tk' k ⟨rfl, rfl⟩
  exact hf

end

/-- When only blanks are left of the text of an alias, the next token comes after it. -/
theorem At.obtains_leaving {f : AliasFrame} {fs : List AliasFrame} {line : Text} {b : Bool}
    {g : Nat → Token → Reader β} {Q : β → Input → Prop} (h : At A rest ⟨f :: fs, line, b⟩ i)
    (hblank : ∀ c ∈ f.rest, isBlank c = true) (hg : ∀ j, At A rest ⟨fs, line, f.endsBlank⟩ j →
      Obtains (fun n => nextToken n >>= g n) j Q) : Obtains (fun n => nextToken n >>= g n) i Q := by
  obtain ⟨j, hj, hskip⟩ := h.leaves hblank
  obtain ⟨a, k, ha, N, hN⟩ := hg j hj
  obtain ⟨l, hl⟩ : ∃ l, (skipBlanks (N + 1)).on j = (.ok (), l) := by
    have hread := hN (N + 2) (by omega)
    rw [Reader.on_bind, ReadersObey.nextToken_on_fresh hj.pushback, ReadersObey.freshToken,
      Reader.on_bind] at hread
    cases hl : (skipBlanks (N + 1)).on j with
    | mk o l =>
        rw [hl] at hread
        cases o with
        | error e => exact nomatch hread
        | ok u => exact ⟨l, rfl⟩
  have hmore : ∀ m, N + 1 ≤ m → (skipBlanks m).on j = (.ok (), l) := fun m hm =>
    (refines_of_le (fun n => skipBlanks_grows (n := n)) hm).on_eq hl nofun
  refine ⟨a, k, ha, N + f.rest.length + 3, fun n hn => ?_⟩
  obtain ⟨m, rfl⟩ := Nat.exists_eq_add_of_le' hn
  have hsame : (nextToken (m + (N + f.rest.length + 3))).on i =
      (nextToken (m + (N + f.rest.length + 3))).on j := by
    rw [show m + (N + f.rest.length + 3) = m + N + 1 + f.rest.length + 1 + 1 by omega,
      ReadersObey.nextToken_on_fresh h.pushback, ReadersObey.nextToken_on_fresh hj.pushback,
      ReadersObey.freshToken, Reader.on_bind, Reader.on_bind, hskip, hmore _ (by omega),
      hmore _ (by omega)]
  rw [Reader.on_bind, hsame, ← Reader.on_bind]
  exact hN _ (by omega)

/-- A character that stands for itself is added to the parts. -/
theorem readPartFrom_wordChar {c : Char} (hc : isWordChar c = true) (start depth : Nat)
    (ps : PartsSoFar) :
    readPartFrom .base start n depth ps c = readParts .base start n depth (ps.literal c) := by
  obtain ⟨-, hslash, hquote, hdouble, hdollar, hback⟩ := wordChar_tests hc
  unfold readPartFrom
  simp only [WordContext.isParamArg, WordContext.inQuotes, WordContext.isHereDoc, Bool.false_and,
    Bool.false_eq_true, if_false, Bool.not_false, Bool.and_true, decide_eq_true_eq]
  rw [if_neg hslash, if_neg hquote, if_neg hdouble, if_neg hdollar, if_neg hback]

theorem passes_parts (start : Nat) (ps : PartsSoFar) (hw : ∀ c ∈ w, isWordChar c = true)
    (h : s.ahead = w ++ u) (hends : EndsWord (u ++ s.follow rest)) :
    Passes A rest (readParts .base start (n + w.length + 1) 0 ps) s (· = (ps.plain w).sealed)
      (s.moved u) := by
  induction w generalizing s ps with
  | nil =>
      have hu : s.ahead = u := h
      subst hu
      rw [s.moved_ahead, readParts_eq]
      apply (passes_peek s).next
      cases hhead : (s.ahead ++ s.follow rest).head? with
      | none => exact passes_pure rfl
      | some c =>
          show Passes A rest (if (_ && isWordBreak c) = true then _ else _) _ _ _
          rw [if_pos (by simp [(hends c hhead).1])]
          exact passes_pure rfl
  | cons c w ih =>
      have hc := hw c List.mem_cons_self
      have hrest := ih (s := s.moved (w ++ u)) (ps.literal c)
        (fun d hd => hw d (List.mem_cons_of_mem c hd)) (s.ahead_moved _) (by rwa [s.follow_moved])
      rw [s.moved_moved] at hrest
      rw [readParts_eq]
      apply (passes_peek s).next
      rw [h]
      show Passes A rest (if (_ && isWordBreak c) = true then _ else _) _ _ _
      rw [if_neg (by simp [(wordChar_tests hc).1])]
      apply (passes_next h).next
      rw [readPartFrom_wordChar hc]
      exact hrest

theorem endsWord_follow (hu : ∀ c ∈ u.head?, isBlank c = true) (hrest : AtLineEnd rest) (s : Spot) :
    EndsWord (u ++ s.follow rest) := by
  have hblank : ∀ {c : Char}, isBlank c = true → isWordBreak c = true ∧ c ≠ '<' ∧ c ≠ '>' := by
    intro c hc
    simp only [isBlank, Bool.or_eq_true, beq_iff_eq] at hc
    rcases hc with rfl | rfl <;> decide
  intro c hc
  cases u with
  | cons d u => exact hblank (hu c hc)
  | nil =>
      obtain ⟨_ | ⟨f, fs⟩, line, blank⟩ := s
      · obtain rfl := hrest c hc
        decide
      · obtain rfl : ' ' = c := Option.some.inj hc
        decide

theorem Passes.captured {P : α → Prop} {r : Reader α} (h : Passes A rest r s P s') :
    Passes A rest (captured r) s (fun p => P p.2) s' := by
  apply Passes.startCapture
  apply h.bind
  intro a ha
  apply Passes.endCapture
  exact fun t => passes_pure ha

/-- What a word of characters that stand for themselves is read as. -/
def IsPlainWord (w : Text) (line : Nat) (kind : TokenKind) : Prop :=
  ∃ t, kind = .word (.mk t [.literal w] line)

theorem passes_wordHere (line : Nat) (hw : ∀ c ∈ w, isWordChar c = true) (hne : w ≠ [])
    (h : s.ahead = w ++ u) (hends : EndsWord (u ++ s.follow rest)) :
    Passes A rest (wordHere (n + w.length + 1) line) s (IsPlainWord w line) (s.moved u) := by
  have hliteral : (PartsSoFar.plain [] w).sealed = [.literal w] := by
    rw [plain_eq (by simp)]
    simp [PartsSoFar.sealed, hne]
  have hparts := (passes_parts (A := A) (n := n) line [] hw h hends).captured
  rw [hliteral] at hparts
  unfold wordHere
  apply hparts.bind
  rintro ⟨t, ps⟩ rfl
  dsimp only
  split
  · -- a number of a descriptor stands before a redirection only
    apply (passes_peek _).next
    rw [s.ahead_moved, s.follow_moved]
    split
    · exact absurd rfl (hends '<' ‹_›).2.1
    · exact absurd rfl (hends '>' ‹_›).2.2
    · exact passes_pure ⟨t, rfl⟩
  · exact passes_pure ⟨t, rfl⟩

theorem passes_kindHere (line : Nat) (hw : ∀ c ∈ w, isWordChar c = true) (hne : w ≠ [])
    (h : s.ahead = w ++ u) (hends : EndsWord (u ++ s.follow rest)) :
    Passes A rest (kindHere (n + w.length + 1) line) s (IsPlainWord w line) (s.moved u) := by
  have hword := passes_wordHere (A := A) (n := n) line hw hne h hends
  obtain ⟨c, r, rfl⟩ := List.exists_cons_of_ne_nil hne
  have hbreak := (wordChar_tests (hw c List.mem_cons_self)).1
  have hhead : (s.ahead ++ s.follow rest).head? = some c := by
    rw [h]
    rfl
  unfold kindHere
  apply (passes_peek s).next
  rw [hhead]
  split
  all_goals first
    | -- the first character is no operator
      rename_i heq
      cases heq
      exact absurd hbreak (by decide)
    | skip
  · contradiction
  · exact hword

theorem startsToken_wordChar {c : Char} (hc : isWordChar c = true) (hne : c ≠ '#') :
    startsToken c = true := by
  obtain ⟨hbreak, hslash, -⟩ := wordChar_tests hc
  have hblank : ∀ {d : Char}, isWordBreak d = true → c ≠ d := by
    rintro d hd rfl
    exact absurd (hbreak.symm.trans hd) Bool.false_ne_true
  simp [startsToken, hblank (d := ' ') (by decide), hblank (d := '\t') (by decide), hne, hslash]

/-- A token that is read after blanks. -/
theorem passes_token {gap : Text} {P : Token → Prop} (hgap : ∀ c ∈ gap, isBlank c = true)
    (h : s.ahead = gap ++ u) (hstart : ∀ c ∈ (u ++ s.follow rest).head?, startsToken c = true)
    (hkind : ∀ line, Passes A rest (kindHere (n + gap.length + 1) line) (s.moved u)
      (fun kind => P ⟨kind, line⟩) s') :
    Passes A rest (nextToken (n + gap.length + 1 + 1)) s P s' := by
  intro i hi
  unfold Meets
  rw [ReadersObey.nextToken_on_fresh hi.pushback]
  have hfresh : Passes A rest (ReadersObey.freshToken (n + gap.length + 1)) s P s' := by
    unfold ReadersObey.freshToken
    apply (passes_skipBlanks hgap h hstart).bind
    rintro - -
    rw [tokenHere_eq]
    apply Passes.line
    intro line
    apply (hkind line).bind
    exact fun kind hkind => passes_pure hkind
  exact hfresh i hi

/-- The next word of the text that is read first is the next token. -/
theorem At.readsWord (hi : At A rest s i) (hplain : s.Plain) (hw : FirstWord s.ahead w u)
    (hrest : AtLineEnd rest) : ∃ tk j, tk.HasParts [.literal w] ∧ (s.moved u).Plain ∧
      At A rest (s.moved u) j ∧ ReadsNext tk j i := by
  obtain ⟨hchars, hcomment, hu⟩ := hplain.ahead.of_firstWord hw
  obtain ⟨gap, hahead, hgap⟩ := hw.split
  have hends := endsWord_follow hw.ends hrest s
  have hstart : ∀ c ∈ (w ++ u ++ s.follow rest).head?, startsToken c = true := by
    obtain ⟨c, r, rfl⟩ := List.exists_cons_of_ne_nil hw.ne_nil
    rintro d ⟨rfl⟩
    exact startsToken_wordChar (hchars c List.mem_cons_self) fun hc => hcomment (congrArg some hc)
  suffices h : Passes A rest (nextToken (w.length + gap.length + 1 + 1)) s
      (·.HasParts [.literal w]) (s.moved u) by
    obtain ⟨tk, j, htk, hj, hread⟩ := h.readsNext hi
    exact ⟨tk, j, htk, hplain.moved hu, hj, hread⟩
  refine passes_token hgap hahead hstart fun line => ?_
  have hkind := passes_kindHere (A := A) (n := gap.length) (s := s.moved (w ++ u)) line
    hchars hw.ne_nil (s.ahead_moved _) (by rwa [s.follow_moved])
  rw [s.moved_moved, Nat.add_comm gap.length] at hkind
  exact hkind.mono fun kind ⟨t, hkind⟩ => ⟨t, line, hkind⟩

/-! ## The end of the line -/

/-- No here-document waits. -/
theorem passes_readPending : Passes A rest (readPending (n + 2)) s (fun _ => True) s := by
  intro i hi
  unfold readPending
  show Meets _ _ (readHereDocs (n + 1) i.pending) { i with pending := [] }
  rw [hi.pending]
  exact ⟨trivial, { hi with pending := rfl }⟩

/-- The kinds of tokens that end a line. -/
def TokenKind.EndsLine (kind : TokenKind) : Prop := kind = .newline ∨ kind = .endOfInput

/-- What comes after the line may count as a part of it. -/
theorem At.regroup {v : Text} {b : Bool} (hi : At A (u ++ v) ⟨[], t, b⟩ i) :
    At A v ⟨[], t ++ u, b⟩ i :=
  { hi with
    text := by rw [hi.text, List.append_assoc]
    ended := fun hend => by rw [List.append_assoc]; exact hi.ended hend }

theorem passes_endOfInput {b : Bool} (hblank : ∀ c ∈ t, isBlank c = true) :
    Passes A [] (nextToken (1 + t.length + 1 + 1)) ⟨[], t, b⟩ (·.kind.EndsLine) ⟨[], [], b⟩ := by
  refine passes_token (u := []) hblank (List.append_nil t).symm nofun fun line => ?_
  rw [Nat.add_comm 1]
  unfold kindHere
  apply (passes_peek _).next
  apply passes_readPending.bind
  rintro - -
  exact passes_pure (.inr rfl)

theorem passes_newline {b : Bool} (hblank : ∀ c ∈ t, isBlank c = true) :
    Passes A rest (nextToken (1 + t.length + 1 + 1)) ⟨[], t ++ ['\n'], b⟩ (·.kind.EndsLine)
      ⟨[], [], b⟩ := by
  refine passes_token (u := ['\n']) hblank rfl (by rintro c ⟨rfl⟩; decide) fun line => ?_
  rw [Nat.add_comm 1]
  unfold kindHere
  apply (passes_peek _).next
  apply (passes_next (c := '\n') (u := []) rfl).next
  apply passes_readPending.bind
  rintro - -
  exact passes_pure (.inl rfl)

theorem At.obtains_word {ws : List Text} (hi : At A rest s i) (hplain : s.Plain)
    (hwords : wordsOf s.ahead = w :: ws) (hrest : AtLineEnd rest) :
    Obtains nextToken i fun tk j => tk.isLeftParen = false ∧ j.pushback = none := by
  obtain ⟨u, hw, -⟩ := exists_of_wordsOf hwords
  obtain ⟨tk, j, ⟨t, l, hkind⟩, -, hj, hread⟩ := hi.readsWord hplain hw hrest
  exact ⟨tk, j, ⟨by rw [Token.isLeftParen, hkind], hj.pushback⟩, hread⟩

/-- The next token ends the line. -/
def LineOver (i : Input) : Prop :=
  ∃ tk j, tk.kind.EndsLine ∧ j.pushback = none ∧ j.bodies = [] ∧ ReadsNext tk j i

/-- After the last word the line is over. -/
theorem At.lineOver {b : Bool} (hi : At A rest ⟨[], t, b⟩ i) (hblank : ∀ c ∈ t, isBlank c = true)
    (hrest : AtLineEnd rest) : LineOver i := by
  cases rest with
  | nil =>
      obtain ⟨tk, j, htk, hj, hread⟩ := (passes_endOfInput hblank).readsNext hi
      exact ⟨tk, j, htk, hj.pushback, hj.bodies, hread⟩
  | cons c r =>
      obtain rfl := hrest c rfl
      have hi : At A r ⟨[], t ++ ['\n'], b⟩ i := At.regroup (u := ['\n']) hi
      obtain ⟨tk, j, htk, hj, hread⟩ := (passes_newline hblank).readsNext hi
      exact ⟨tk, j, htk, hj.pushback, hj.bodies, hread⟩

theorem LineOver.pushed {tk : Token} (htk : tk.kind.EndsLine) (hj : j.pushback = none)
    (hbodies : j.bodies = []) : LineOver { j with pushback := some tk } :=
  ⟨tk, j, htk, hj, hbodies, readsNext_pushed hj tk⟩

/-- Among plain words no parenthesis is next. -/
theorem At.obtains_noParen (hi : At A rest s i) (hplain : s.Plain) (hrest : AtLineEnd rest) :
    Obtains nextToken i fun tk j => tk.isLeftParen = false ∧ j.pushback = none := by
  obtain ⟨fs, line, b⟩ := s
  induction fs generalizing i b with
  | nil =>
      cases hwords : wordsOf line with
      | cons w ws => exact hi.obtains_word hplain hwords hrest
      | nil =>
          obtain ⟨tk, j, hkind, hj, -, hread⟩ := hi.lineOver (wordsOf_eq_nil_iff.mp hwords) hrest
          refine ⟨tk, j, ⟨?_, hj⟩, hread⟩
          rcases hkind with h | h <;> rw [Token.isLeftParen, h]
  | cons f fs ih =>
      cases hwords : wordsOf f.rest with
      | cons w ws => exact hi.obtains_word hplain hwords hrest
      | nil =>
          have houter : (⟨fs, line, f.endsBlank⟩ : Spot).Plain :=
            ⟨fun g hg => hplain.frames g (List.mem_cons_of_mem f hg), hplain.line⟩
          have hleaving := hi.obtains_leaving (g := fun _ tk => pure tk)
            (wordsOf_eq_nil_iff.mp hwords) fun j hj => by simpa using ih f.endsBlank hj houter
          simpa using hleaving

end CommandShell.Script
