import CommandShell.Proofs.Reading.Lines
import CommandShell.Proofs.Trees.LineShifts

/-!
# Excerpts

A stretch of a text is read twice: where it stands, and from an input of its own that starts `d` lines
further down. `Excerpt` relates the two inputs. While the reader stays within the stretch it cannot tell
the one from the other, and what it gives differs by the lines only (`Tracks`). The stretch ends
before a character that ends words, or with the text. A reader that looks at what follows must not
make a difference between the two, unless it goes on to take it: then nothing is said any more.

`Mirrors` says of two readers that they track each other on all such inputs. Sequences of readers that
do, do.
-/

namespace CommandShell.Script

open Reader

variable {α β : Type} {d : Nat} {rest taken : Text} {i j k s s' s'' : Input}

/-! ## Inputs without aliases -/

/-- The text that is left, with what was put back. -/
def Input.ahead (i : Input) : Text := i.unread ++ i.left

/-- An input without aliases that ends with its lines. -/
structure Alone (i : Input) : Prop where
  lined : Lined .empty i.left i.line i
  closed : i.closed = true

/-- Beside the current line being filled nothing is changed. -/
structure Same (i j : Input) : Prop where
  unread : j.unread = i.unread
  left : j.left = i.left
  line : j.line = i.line
  captures : j.captures = i.captures
  pushback : j.pushback = i.pushback
  pending : j.pending = i.pending
  bodies : j.bodies = i.bodies
  nextTicket : j.nextTicket = i.nextTicket

theorem Same.ahead (h : Same i j) : j.ahead = i.ahead := by
  rw [Input.ahead, Input.ahead, h.unread, h.left]

theorem Alone.frames (h : Alone i) : i.frames = [] := (h.lined.quiet rfl).1

theorem Alone.of_lined {S : Text} {start : Nat} (h : Lined .empty S start i) (hc : i.closed = true) :
    Alone i := ⟨h.restart, hc⟩

theorem alone_ofText (t : Text) (line : Nat) : Alone (.ofText t line) :=
  .of_lined (lined_ofText .empty t line) rfl

theorem Input.ahead_ofText (t : Text) (line : Nat) : (Input.ofText t line).ahead = t :=
  lines_flatten t

theorem Alone.of_position (h : Alone i) (hsame : j.position = i.position)
    (hblank : i.aliasBlank = false → j.aliasBlank = false) : Alone j := by
  refine .of_lined (h.lined.of_position hsame hblank) ?_
  have hclosed : j.closed = i.closed := congrArg (fun p => p.2.2.2.1) hsame
  exact hclosed.trans h.closed

theorem Input.ahead_of_position (hsame : j.position = i.position) : j.ahead = i.ahead := by
  obtain ⟨-, hcurrent, hqueue, -, -, hunread, -⟩ := by simpa [Input.position] using hsame
  rw [Input.ahead, Input.ahead, Input.left, Input.left, hcurrent, hqueue, hunread]

/-- The next line is the current one, if the current one is used up. -/
theorem Alone.fill_on (h : Alone i) :
    ∃ j, fill.on i = (.ok (), j) ∧ Alone j ∧ Same i j ∧ j.current.head? = i.left.head? := by
  have hframes := h.frames
  have hsettled : settled i = i := by
    cases i
    cases hframes
    rfl
  show ∃ j, fillLine.on (settled i) = _ ∧ _
  rw [hsettled]
  have hkeeps := keepsLines_fillLine i h.lined
  cases hheld : i.holdsText with
  | true =>
      rw [fillLine_on_held hheld]
      refine ⟨i, rfl, h, ⟨rfl, rfl, rfl, rfl, rfl, rfl, rfl, rfl⟩, ?_⟩
      -- an input that has met its end has no line left
      cases hc : i.current with
      | cons c r => simp [Input.left, hc]
      | nil =>
          have hend : i.atEnd = true := by simpa [Input.holdsText, hframes, hc] using hheld
          simp [Input.left, hc, (h.lined.ended hend).2]
  | false =>
      obtain ⟨-, hc, -⟩ := Input.holdsText_eq_false hheld
      cases hq : i.queue with
      | nil =>
          rw [fillLine_on_end hheld hq h.closed] at hkeeps ⊢
          refine ⟨_, rfl, .of_lined hkeeps h.closed, ⟨rfl, rfl, rfl, rfl, rfl, rfl, rfl, rfl⟩, ?_⟩
          simp [Input.left, hc, hq]
      | cons l ls =>
          rw [fillLine_on_line hheld hq] at hkeeps ⊢
          have hleft : (i.withLine l ls).left = i.left := by
            simp [Input.left, Input.withLine, hc, hq]
          refine ⟨_, rfl, .of_lined hkeeps h.closed, ⟨rfl, hleft, rfl, rfl, rfl, rfl, rfl, rfl⟩, ?_⟩
          have hl : l ≠ [] := (h.lined.queue l (hq ▸ List.mem_cons_self)).ne_nil
          obtain ⟨c, r, rfl⟩ := List.exists_cons_of_ne_nil hl
          simp [Input.left, Input.withLine, hc, hq]

/-- The next character, or the end of the text, is looked at. -/
theorem Alone.peek_on (h : Alone i) :
    ∃ j, peek.on i = (.ok i.ahead.head?, j) ∧ Alone j ∧ Same i j := by
  cases hu : i.unread with
  | cons c r =>
      rw [peek_on_unread hu]
      refine ⟨i, ?_, h, ⟨rfl, rfl, rfl, rfl, rfl, rfl, rfl, rfl⟩⟩
      simp [Input.ahead, hu]
  | nil =>
      obtain ⟨j, hj, hclosed, hsame, hhead⟩ := h.fill_on
      rw [peek_on_filled hu, Reader.on_bind, hj]
      refine ⟨j, ?_, hclosed, hsame⟩
      dsimp only
      rw [Reader.on_get, hclosed.frames, Input.ahead, hu, List.nil_append, ← hhead]
      rfl

/-- Nothing is taken at the end of the text. -/
theorem Alone.next_on_nil (h : Alone i) (ht : i.ahead = []) :
    ∃ j, next.on i = (.ok none, j) ∧ Alone j ∧ Same i j := by
  obtain ⟨hu, hleft⟩ := List.append_eq_nil_iff.mp ht
  obtain ⟨j, hj, hclosed, hsame, hhead⟩ := h.fill_on
  rw [next_on_filled hu, Reader.on_bind, hj]
  have hc : j.current = [] := by simpa [hleft] using hhead
  exact ⟨j, takeFront_on_end hclosed.frames hc, hclosed, hsame⟩

/-- The next character is taken. -/
theorem Alone.next_on_cons (h : Alone i) {c : Char} {r : Text} (ht : i.ahead = c :: r) :
    ∃ j, next.on i = (.ok (some c), j) ∧ Alone j ∧ j.ahead = r ∧ (i.unread = [] → j.left = r) ∧
      j.line = (noted c i).line ∧ j.captures = (noted c i).captures ∧ j.pushback = i.pushback ∧
      j.pending = i.pending ∧ j.bodies = i.bodies ∧ j.nextTicket = i.nextTicket := by
  have hkeeps := keepsLines_next i h.lined
  cases hu : i.unread with
  | cons c' r' =>
      rw [Input.ahead, hu, List.cons_append, List.cons.injEq] at ht
      obtain ⟨rfl, rfl⟩ := ht
      rw [next_on_unread hu] at hkeeps ⊢
      exact ⟨_, rfl, .of_lined hkeeps h.closed, rfl, nofun, rfl, rfl, rfl, rfl, rfl, rfl⟩
  | nil =>
      rw [Input.ahead, hu, List.nil_append] at ht
      obtain ⟨j, hj, hclosed, hsame, hhead⟩ := h.fill_on
      obtain ⟨r', hr⟩ : ∃ r', j.current = c :: r' := by
        rw [ht] at hhead
        exact List.head?_eq_some_iff.mp hhead
      rw [next_on_filled hu, Reader.on_bind, hj] at hkeeps ⊢
      dsimp only at hkeeps ⊢
      rw [takeFront_on_line hclosed.frames hr] at hkeeps ⊢
      have hleft : r' ++ j.queue.flatten = r := by
        have hsplit := hsame.left.trans ht
        rw [Input.left, hr] at hsplit
        exact (List.cons.inj hsplit).2
      refine ⟨_, rfl, .of_lined hkeeps hclosed.closed, ?_, fun _ => hleft, ?_, ?_, hsame.pushback,
        hsame.pending, hsame.bodies, hsame.nextTicket⟩
      · show j.unread ++ (r' ++ j.queue.flatten) = r
        rw [hsame.unread, hu, hleft]
        rfl
      · show (if c = '\n' then j.line + 1 else j.line) = _
        rw [hsame.line]
        rfl
      · show j.captures.map _ = _
        rw [hsame.captures]
        rfl

/-! ## Two inputs -/

/-- What was noted beside the text is the same, `d` lines further down. -/
structure Alike (d : Nat) (i s : Input) : Prop where
  pushback : s.pushback = i.pushback.map (Token.down d)
  pending : s.pending = i.pending
  bodies : s.bodies = Bodies.down d i.bodies
  nextTicket : s.nextTicket = i.nextTicket
  /-- No here-document is known where none was asked for. -/
  unasked : i.nextTicket = 0 → i.pending = [] ∧ i.bodies = []

/-- Before `rest` both inputs have the same text, which starts `d` lines further down in the second
one. -/
structure Excerpt (d : Nat) (rest : Text) (i s : Input) : Prop extends Alike d i s where
  long : Alone i
  short : Alone s
  ahead : i.ahead = s.ahead ++ rest
  line : s.line = i.line + d

/-- The text ends, or a character that ends words stands first. -/
def AtBreak (rest : Text) : Prop := ∀ c ∈ rest.head?, isWordBreak c = true

/-- Text was taken. -/
structure Since (i j : Input) (taken : Text) : Prop where
  ahead : i.ahead = taken ++ j.ahead
  captures : j.captures = i.captures.map (taken.reverse ++ ·)
  nextTicket : i.nextTicket ≤ j.nextTicket

/-- Both readers have taken the same text, and what they left is related as before. -/
structure InStep (d : Nat) (rest : Text) (i s j s' : Input) : Prop extends Excerpt d rest j s' where
  taken : ∃ taken, Since i j taken ∧ Since s s' taken

/-- The second reader gives what the first one gives, further down, unless that takes from the rest.
Before the end of the text it fails if the first one does. -/
def Tracks (d : Nat) (f : α → α) (rest : Text) (x y : Reader α) (i s : Input) : Prop :=
  match x.on i with
  | (.ok a, j) => j.left.length < rest.length ∨
      ∃ s', y.on s = (.ok (f a), s') ∧ InStep d rest i s j s'
  | (.error _, _) => rest = [] → ∃ e, (y.on s).1 = .error e

theorem Alike.of_same (h : Excerpt d rest i s) (hi : Same i j) (hs : Same s s') (hj : Alone j)
    (hs' : Alone s') : Excerpt d rest j s' where
  pushback := by rw [hi.pushback, hs.pushback, h.pushback]
  pending := by rw [hi.pending, hs.pending, h.pending]
  bodies := by rw [hi.bodies, hs.bodies, h.bodies]
  nextTicket := by rw [hi.nextTicket, hs.nextTicket, h.nextTicket]
  unasked := by rw [hi.nextTicket, hi.pending, hi.bodies]; exact h.unasked
  long := hj
  short := hs'
  ahead := by rw [hi.ahead, hs.ahead, h.ahead]
  line := by rw [hi.line, hs.line, h.line]

theorem Since.refl (hahead : j.ahead = i.ahead) (hcaptures : j.captures = i.captures)
    (htickets : i.nextTicket ≤ j.nextTicket) : Since i j [] where
  ahead := hahead.symm
  captures := by
    rw [hcaptures]
    exact (List.map_id' _).symm
  nextTicket := htickets

theorem Same.since (h : Same i j) : Since i j [] :=
  .refl h.ahead h.captures (Nat.le_of_eq h.nextTicket.symm)

theorem Since.trans {t u : Text} (h : Since i j t) (h' : Since j k u) : Since i k (t ++ u) where
  ahead := by rw [h.ahead, h'.ahead, List.append_assoc]
  captures := by
    rw [h'.captures, h.captures, List.map_map]
    refine List.map_congr_left fun c _ => ?_
    simp
  nextTicket := Nat.le_trans h.nextTicket h'.nextTicket

theorem InStep.trans (h : InStep d rest i s j s') {k' : Input} (h' : InStep d rest j s' k k') :
    InStep d rest i s k k' := by
  obtain ⟨t, ht, ht'⟩ := h.taken
  obtain ⟨u, hu, hu'⟩ := h'.taken
  exact ⟨h'.toExcerpt, t ++ u, ht.trans hu, ht'.trans hu'⟩

theorem Excerpt.inStep (h : Excerpt d rest i s) : InStep d rest i s i s :=
  ⟨h, [], .refl rfl rfl (Nat.le_refl _), .refl rfl rfl (Nat.le_refl _)⟩

/-- The readers go on as others do that have come the same way. -/
theorem Tracks.after {f : α → α} {x y x' y' : Reader α} (h : Tracks d f rest x y j s')
    (hstep : InStep d rest i s j s') (hx : x'.on i = x.on j) (hy : y'.on s = y.on s') :
    Tracks d f rest x' y' i s := by
  unfold Tracks at h ⊢
  rw [hx, hy]
  generalize x.on j = outcome at h ⊢
  obtain ⟨o, l⟩ := outcome
  cases o with
  | error e => exact h
  | ok b =>
      rcases h with hbeyond | ⟨l', hl', hstep'⟩
      · exact .inl hbeyond
      · exact .inr ⟨l', hl', hstep.trans hstep'⟩

section

variable {f : α → α} {g : β → β} {x y : Reader α} {k k' : α → Reader β}

theorem Tracks.of_ok {a : α} (hx : x.on i = (.ok a, j)) (hy : y.on s = (.ok (f a), s'))
    (h : InStep d rest i s j s') : Tracks d f rest x y i s := by
  unfold Tracks
  rw [hx]
  exact .inr ⟨s', hy, h⟩

/-- What is left only gets shorter. -/
theorem Alone.left_le (h : Alone i) (hx : ∀ S start, KeepsLines .empty S start x) :
    (x.on i).2.left.length ≤ i.left.length := by
  obtain ⟨p, hp, -⟩ := (hx i.left i.line i h.lined).passed
  have hlength := congrArg List.length hp
  rw [List.length_append] at hlength
  omega

theorem Tracks.bind (hi : Alone i) (hkeeps : ∀ S start, KeepsLines .empty S start x)
    (hkeeps' : ∀ a S start, KeepsLines .empty S start (k a)) (hx : Tracks d f rest x y i s)
    (hk : ∀ a j s', x.on i = (.ok a, j) → InStep d rest i s j s' →
      Tracks d g rest (k a) (k' (f a)) j s') :
    Tracks d g rest (x >>= k) (y >>= k') i s := by
  have hlined := hkeeps i.left i.line i hi.lined
  unfold Tracks at hx ⊢
  rw [Reader.on_bind]
  generalize hon : x.on i = outcome at hx hlined
  obtain ⟨o, j⟩ := outcome
  cases o with
  | error e =>
      intro hrest
      obtain ⟨e', he'⟩ := hx hrest
      refine ⟨e', ?_⟩
      rw [Reader.on_bind]
      generalize y.on s = outcome' at he'
      obtain ⟨o', s'⟩ := outcome'
      cases he'
      rfl
  | ok a =>
      dsimp only at hx hlined ⊢
      rcases hx with hbeyond | ⟨s', hs', hstep⟩
      · -- what follows takes still more of the rest
        obtain ⟨p, hp, -⟩ := (hkeeps' a j.left j.line j hlined.restart).passed
        have hshort := congrArg List.length hp
        rw [List.length_append] at hshort
        generalize (k a).on j = outcome' at hshort
        obtain ⟨o', l⟩ := outcome'
        cases o' with
        | ok b => exact .inl (by dsimp only at hshort; omega)
        | error e =>
            rintro rfl
            exact absurd hbeyond (Nat.not_lt_zero _)
      · have hcont := hk a j s' hon hstep
        rw [Reader.on_bind, hs']
        unfold Tracks at hcont
        dsimp only at hcont ⊢
        generalize (k a).on j = outcome' at hcont ⊢
        obtain ⟨o', l⟩ := outcome'
        cases o' with
        | ok b =>
            rcases hcont with hbeyond | ⟨l', hl', hstep'⟩
            · exact .inl hbeyond
            · exact .inr ⟨l', hl', hstep.trans hstep'⟩
        | error e => exact hcont

end

/-! ## Readers that track each other -/

/-- The readers track each other on every excerpt. -/
structure Mirrors (d : Nat) (f : α → α) (x y : Reader α) : Prop where
  keeps : ∀ S start, KeepsLines .empty S start x
  tracks : ∀ rest i s, AtBreak rest → Excerpt d rest i s → Tracks d f rest x y i s

/-- The readers track each other on the excerpts for which `P` holds of the text and of the rest. -/
structure MirrorsAt (P : Text → Text → Prop) (d : Nat) (f : α → α) (x y : Reader α) : Prop where
  keeps : ∀ S start, KeepsLines .empty S start x
  tracks : ∀ rest i s, AtBreak rest → Excerpt d rest i s → P s.ahead rest → Tracks d f rest x y i s

/-- The readers track each other before a character. -/
abbrev MirrorsBefore (c : Char) (d : Nat) (f : α → α) (x y : Reader α) : Prop :=
  MirrorsAt (fun t _ => t.head? = some c) d f x y

/-- The readers track each other at the end of the excerpt, with `b` after it. -/
abbrev MirrorsAtEnd (b : Option Char) (d : Nat) (f : α → α) (x y : Reader α) : Prop :=
  MirrorsAt (fun t rest => t = [] ∧ rest.head? = b) d f x y

namespace Mirrors

variable {f : α → α} {g : β → β} {x y x' y' : Reader α} {k k' : α → Reader β} {a b : α}

theorem on (h : Mirrors d f x y) (P : Text → Text → Prop) : MirrorsAt P d f x y :=
  ⟨h.keeps, fun rest i s hrest hcut _ => h.tracks rest i s hrest hcut⟩

theorem thenTracks (hx : Mirrors d f x y) (hrest : AtBreak rest) (hcut : Excerpt d rest i s)
    (hkeeps : ∀ a S start, KeepsLines .empty S start (k a))
    (hk : ∀ a j s', x.on i = (.ok a, j) → InStep d rest i s j s' →
      Tracks d g rest (k a) (k' (f a)) j s') : Tracks d g rest (x >>= k) (y >>= k') i s :=
  (hx.tracks rest i s hrest hcut).bind hcut.long hx.keeps hkeeps hk

protected theorem bind (hx : Mirrors d f x y) (hk : ∀ a, Mirrors d g (k a) (k' (f a))) :
    Mirrors d g (x >>= k) (y >>= k') where
  keeps S start := (hx.keeps S start).bind fun a => (hk a).keeps S start
  tracks rest _ _ hrest hcut := hx.thenTracks hrest hcut (fun a => (hk a).keeps)
    fun a j s' _ hstep => (hk a).tracks rest j s' hrest hstep.toExcerpt

protected theorem ite {c : Prop} [Decidable c] (hx : Mirrors d f x y) (hx' : Mirrors d f x' y') :
    Mirrors d f (if c then x else x') (if c then y else y') := by
  split
  · exact hx
  · exact hx'

protected theorem pure (h : b = f a) : Mirrors d f (pure a) (pure b) where
  keeps _ _ := keepsLines_aside _
  tracks rest i s _ hcut := by
    subst h
    exact .of_ok rfl rfl hcut.inStep

protected theorem throw (e e' : Halt) : Mirrors d f (throw e) (throw e') where
  keeps _ _ := keepsLines_aside _
  tracks _ _ _ _ _ := fun _ => ⟨e', rfl⟩

end Mirrors

/-! ## Single characters -/

theorem backslash_not_break {c : Char} {r : Text} (hrest : AtBreak (c :: r)) : c ≠ '\\' := by
  rintro rfl
  exact absurd (hrest '\\' rfl) (by decide)

/-- At the end of the excerpt nothing is put back. -/
theorem Excerpt.at_end (h : Excerpt d rest i s) (hrest : AtBreak rest) (hend : s.ahead = []) :
    i.unread = [] ∧ i.left = rest := by
  have hahead : i.unread ++ i.left = rest := by
    have hcut := h.ahead
    rw [hend] at hcut
    exact hcut
  cases hu : i.unread with
  | nil =>
      rw [hu] at hahead
      exact ⟨rfl, hahead⟩
  | cons c r =>
      rw [hu] at hahead
      subst hahead
      exact absurd (h.long.lined.unread c (hu ▸ List.mem_cons_self)) (backslash_not_break hrest)

/-- Both inputs have the next character looked at. -/
theorem Excerpt.peek_on (h : Excerpt d rest i s) :
    ∃ j s', peek.on i = (.ok i.ahead.head?, j) ∧ peek.on s = (.ok s.ahead.head?, s') ∧
      Excerpt d rest j s' ∧ Same i j ∧ Same s s' := by
  obtain ⟨j, hj, hj', hsame⟩ := h.long.peek_on
  obtain ⟨s', hs', hs'', hsame'⟩ := h.short.peek_on
  exact ⟨j, s', hj, hs', Alike.of_same h hsame hsame' hj' hs'', hsame, hsame'⟩

/-- Both inputs have a character of the excerpt taken. -/
theorem Excerpt.next_on (h : Excerpt d rest i s) {c : Char} {r : Text} (hs : s.ahead = c :: r) :
    ∃ j s', next.on i = (.ok (some c), j) ∧ next.on s = (.ok (some c), s') ∧ Excerpt d rest j s' ∧
      s'.ahead = r ∧ Since i j [c] ∧ Since s s' [c] := by
  have hi : i.ahead = c :: (r ++ rest) := by rw [h.ahead, hs, List.cons_append]
  obtain ⟨j, hj, hj', hjahead, -, hjline, hjcaptures, hjp, hjw, hjb, hjt⟩ := h.long.next_on_cons hi
  obtain ⟨s', hs', hs'', hsahead, -, hsline, hscaptures, hsp, hsw, hsb, hst⟩ :=
    h.short.next_on_cons hs
  refine ⟨j, s', hj, hs', ⟨⟨?_, ?_, ?_, ?_, ?_⟩, hj', hs'', ?_, ?_⟩, hsahead, ⟨?_, hjcaptures, ?_⟩,
    ⟨?_, hscaptures, ?_⟩⟩
  · rw [hsp, hjp, h.pushback]
  · rw [hsw, hjw, h.pending]
  · rw [hsb, hjb, h.bodies]
  · rw [hst, hjt, h.nextTicket]
  · rw [hjt, hjw, hjb]
    exact h.unasked
  · rw [hjahead, hsahead]
  · rw [hsline, hjline, noted, noted, h.line]
    dsimp only
    split
    · exact Nat.add_right_comm _ _ _
    · rfl
  · rw [hi, hjahead]
    rfl
  · exact Nat.le_of_eq hjt.symm
  · rw [hs, hsahead]
    rfl
  · exact Nat.le_of_eq hst.symm

/-- A character of the rest is taken. -/
theorem MirrorsAtEnd.next {c : Char} {g : β → β} {k : Option Char → Reader β} {y : Reader β}
    (hk : ∀ a S start, KeepsLines .empty S start (k a)) :
    MirrorsAtEnd (some c) d g (Reader.next >>= k) y where
  keeps S start := keepsLines_next.bind fun a => hk a S start
  tracks rest i s hrest hcut := by
    rintro ⟨hs, hhead⟩
    obtain ⟨hu, hleft⟩ := hcut.at_end hrest hs
    obtain ⟨r, rfl⟩ := List.head?_eq_some_iff.mp hhead
    have hi : i.ahead = c :: r := by rw [hcut.ahead, hs]; rfl
    obtain ⟨j, hj, hj', -, hjleft, -⟩ := hcut.long.next_on_cons hi
    have hle := hj'.left_le (hk (some c))
    unfold Tracks
    rw [Reader.on_bind, hj]
    dsimp only
    generalize (k (some c)).on j = outcome at hle
    obtain ⟨o, l⟩ := outcome
    cases o with
    | error e => exact nofun
    | ok b =>
        left
        rw [hjleft hu] at hle
        exact Nat.lt_succ_of_le hle

section

variable {g : β → β}

/-- A character is looked at, which changes nothing, so that the readers go on side by side. -/
theorem Tracks.peek {k k' : Option Char → Reader β} (hrest : AtBreak rest) (hcut : Excerpt d rest i s)
    (hk : ∀ c, s.ahead.head? = some c → MirrorsBefore c d g (k (some c)) (k' (some c)))
    (hend : s.ahead = [] → MirrorsAtEnd rest.head? d g (k rest.head?) (k' none)) :
    Tracks d g rest (Reader.peek >>= k) (Reader.peek >>= k') i s := by
  obtain ⟨j, s', hj, hs', hcut', hsame, hsame'⟩ := hcut.peek_on
  have hstep : InStep d rest i s j s' := ⟨hcut', [], hsame.since, hsame'.since⟩
  have hon : Tracks d g rest (k i.ahead.head?) (k' s.ahead.head?) j s' := by
    cases hs : s.ahead with
    | cons c r =>
        have hi : i.ahead.head? = some c := by rw [hcut.ahead, hs]; rfl
        rw [hi]
        exact (hk c (congrArg List.head? hs)).tracks rest j s' hrest hcut'
          (by rw [hsame'.ahead, hs]; rfl)
    | nil =>
        have hi : i.ahead.head? = rest.head? := by rw [hcut.ahead, hs]; rfl
        rw [hi]
        exact (hend hs).tracks rest j s' hrest hcut' ⟨hsame'.ahead.trans hs, rfl⟩
  exact hon.after hstep (by rw [Reader.on_bind, hj]) (by rw [Reader.on_bind, hs'])

end

namespace Mirrors

variable {g : β → β}

protected theorem next : Mirrors d (fun c => c) next next where
  keeps _ _ := keepsLines_next
  tracks rest i s hrest hcut := by
    cases hs : s.ahead with
    | cons c r =>
        obtain ⟨j, s', hj, hs', hcut', -, hi, hs⟩ := hcut.next_on hs
        exact .of_ok hj hs' ⟨hcut', [c], hi, hs⟩
    | nil =>
        obtain ⟨hu, hleft⟩ := hcut.at_end hrest hs
        cases rest with
        | nil =>
            have hi : i.ahead = [] := by rw [hcut.ahead, hs]; rfl
            obtain ⟨j, hj, hj', hsame⟩ := hcut.long.next_on_nil hi
            obtain ⟨s', hs', hs'', hsame'⟩ := hcut.short.next_on_nil hs
            exact .of_ok hj hs' ⟨Alike.of_same hcut hsame hsame' hj' hs'', [], hsame.since,
              hsame'.since⟩
        | cons c r =>
            have hi : i.ahead = c :: r := by rw [hcut.ahead, hs]; rfl
            obtain ⟨j, hj, -, -, hjleft, -⟩ := hcut.long.next_on_cons hi
            unfold Tracks
            rw [hj]
            left
            rw [hjleft hu]
            exact Nat.lt_succ_self _

/-- A character is looked at. At the end of the excerpt what follows it is seen by one reader only. -/
theorem peekBefore {k k' : Option Char → Reader β}
    (hk : ∀ c, MirrorsBefore c d g (k (some c)) (k' (some c)))
    (hend : ∀ b : Option Char, (∀ c ∈ b, isWordBreak c = true) →
      MirrorsAtEnd b d g (k b) (k' none)) :
    Mirrors d g (Reader.peek >>= k) (Reader.peek >>= k') where
  keeps S start := keepsLines_peek.bind fun b => by
    cases b with
    | none => exact (hend none nofun).keeps S start
    | some c => exact (hk c).keeps S start
  tracks rest _ _ hrest hcut := .peek hrest hcut (fun c _ => hk c) fun _ => hend rest.head? hrest

theorem peek {k k' : Option Char → Reader β} (hk : ∀ c, Mirrors d g (k (some c)) (k' (some c)))
    (hend : ∀ b : Option Char, (∀ c ∈ b, isWordBreak c = true) →
      MirrorsAtEnd b d g (k b) (k' none)) :
    Mirrors d g (Reader.peek >>= k) (Reader.peek >>= k') :=
  peekBefore (fun c => (hk c).on _) hend

end Mirrors

/-! ## Readers that leave the text alone -/

namespace Mirrors

variable {f : α → α} {x y : Reader α}

/-- What leaves the text and the texts of the words alone gives the same and notes the same. -/
theorem aside [hx : Aside x] [hy : Aside y]
    (h : ∀ rest i s, Excerpt d rest i s → ∃ a j s', x.on i = (.ok a, j) ∧ y.on s = (.ok (f a), s') ∧
      j.captures = i.captures ∧ s'.captures = s.captures ∧ i.nextTicket ≤ j.nextTicket ∧
      Alike d j s') : Mirrors d f x y where
  keeps _ _ := keepsLines_aside _
  tracks rest i s _ hcut := by
    obtain ⟨a, j, s', hj, hs', hjc, hsc, hticket, halike⟩ := h rest i s hcut
    have hji : j.position = i.position := by simpa [hj] using hx.position i
    have hss : s'.position = s.position := by simpa [hs'] using hy.position s
    have hjblank : i.aliasBlank = false → j.aliasBlank = false := by
      simpa [hj] using hx.aliasBlank i
    have hsblank : s.aliasBlank = false → s'.aliasBlank = false := by
      simpa [hs'] using hy.aliasBlank s
    have hline : ∀ {k l : Input}, k.position = l.position → k.line = l.line :=
      fun hsame => congrArg (fun p => p.2.2.2.2.2.2.1) hsame
    have hsticket : s.nextTicket ≤ s'.nextTicket := by
      rw [hcut.nextTicket, halike.nextTicket]
      exact hticket
    refine .of_ok hj hs' ⟨⟨halike, hcut.long.of_position hji hjblank,
      hcut.short.of_position hss hsblank, ?_, ?_⟩, [], ?_, ?_⟩
    · rw [Input.ahead_of_position hji, Input.ahead_of_position hss, hcut.ahead]
    · rw [hline hss, hline hji, hcut.line]
    · exact .refl (Input.ahead_of_position hji) hjc hticket
    · exact .refl (Input.ahead_of_position hss) hsc hsticket

theorem line : Mirrors d (· + d) Reader.line Reader.line :=
  aside fun _ i s h => ⟨i.line, i, s, rfl, congrArg (fun l => (Except.ok l, s)) h.line, rfl, rfl,
    Nat.le_refl _, h.toAlike⟩

theorem pushToken (tk : Token) :
    Mirrors d (fun u => u) (Reader.pushToken tk) (Reader.pushToken (tk.down d)) :=
  aside fun _ _ _ h => ⟨(), _, _, rfl, rfl, rfl, rfl, Nat.le_refl _, { h.toAlike with pushback := rfl }⟩

theorem takePushback :
    Mirrors d (Option.map (Token.down d)) Script.takePushback Script.takePushback :=
  aside fun _ i s h => by
    refine ⟨i.pushback, _, (Script.takePushback.on s).2, rfl, ?_, rfl, rfl, Nat.le_refl _,
      { h.toAlike with pushback := rfl }⟩
    rw [← h.pushback]
    rfl

theorem startLine : Mirrors d (fun u => u) Script.startLine Script.startLine :=
  aside fun _ _ _ h => ⟨(), _, _, rfl, rfl, rfl, rfl, Nat.le_refl _, { h.toAlike with }⟩

theorem bodiesRead : Mirrors d (Bodies.down d) Script.bodiesRead Script.bodiesRead :=
  aside fun _ i s h => ⟨i.bodies, i, s, rfl, congrArg (fun b => (Except.ok b, s)) h.bodies, rfl, rfl,
    Nat.le_refl _, h.toAlike⟩

theorem takeAliasBlank : Mirrors d (fun b => b) Reader.takeAliasBlank Reader.takeAliasBlank :=
  aside fun _ i s h => by
    have hblank : i.aliasBlank = s.aliasBlank :=
      (h.long.lined.quiet rfl).2.trans (h.short.lined.quiet rfl).2.symm
    refine ⟨i.aliasBlank, _, (Reader.takeAliasBlank.on s).2, rfl, ?_, rfl, rfl, Nat.le_refl _,
      { h.toAlike with }⟩
    rw [hblank]
    rfl

theorem requestHereDoc (delimiter : Text) (stripTabs quoted : Bool) :
    Mirrors d (fun k => k) (Reader.requestHereDoc delimiter stripTabs quoted)
      (Reader.requestHereDoc delimiter stripTabs quoted) :=
  aside fun _ i s h => by
    refine ⟨i.nextTicket, _, ((Reader.requestHereDoc delimiter stripTabs quoted).on s).2, rfl, ?_,
      rfl, rfl, Nat.le_succ _, ?_⟩
    · rw [← h.nextTicket]
      rfl
    · refine { h.toAlike with pending := ?_, nextTicket := ?_, unasked := nofun }
      · show s.pending ++ [_] = i.pending ++ [_]
        rw [h.pending, h.nextTicket]
      · exact congrArg (· + 1) h.nextTicket

end Mirrors

/-! ## Texts of words, and texts by themselves -/

/-- Reads with the text recorded that is taken. -/
def captured (r : Reader α) : Reader (Text × α) := do
  startCapture
  let a ← r
  let t ← endCapture
  return (t, a)

theorem endCapture_on {c : Text} {cs : List Text} (h : i.captures = c :: cs) :
    endCapture.on i = (.ok c.reverse, { i with captures := cs }) := by
  cases i
  cases h
  rfl

/-- The text that is recorded is the text that was taken. -/
theorem captured_on {r : Reader α} {a : α} {t : Text}
    (hr : r.on { i with captures := [] :: i.captures } = (.ok a, j))
    (hj : j.captures = ([] :: i.captures).map (t.reverse ++ ·)) :
    (captured r).on i =
      (.ok (t, a), { j with captures := i.captures.map (t.reverse ++ ·) }) := by
  have hcons : j.captures = t.reverse :: i.captures.map (t.reverse ++ ·) := by simpa using hj
  have hend := endCapture_on hcons
  rw [List.reverse_reverse] at hend
  unfold captured
  show ((r >>= fun a => endCapture >>= fun t => pure (t, a)) : Reader _).on _ = _
  rw [Reader.on_bind, hr]
  dsimp only
  rw [Reader.on_bind, hend]
  rfl

theorem captured_failed {r : Reader α} {e : Halt}
    (hr : r.on { i with captures := [] :: i.captures } = (.error e, j)) :
    (captured r).on i = (.error e, j) := by
  unfold captured
  show ((r >>= fun a => endCapture >>= fun t => pure (t, a)) : Reader _).on _ = _
  rw [Reader.on_bind, hr]

theorem keepsLines_captured {r : Reader α} {S : Text} {start : Nat}
    (hr : KeepsLines .empty S start r) : KeepsLines .empty S start (captured r) :=
  (keepsLines_aside startCapture).bind fun _ => hr.bind fun _ =>
    (keepsLines_aside endCapture).bind fun _ => keepsLines_aside _

/-- The input for the text of a word has nothing but a further text to be recorded. -/
theorem Excerpt.startCapture (h : Excerpt d rest i s) :
    Excerpt d rest { i with captures := [] :: i.captures } { s with captures := [] :: s.captures } :=
  { h with
    long := .of_lined { h.long.lined with } h.long.closed
    short := .of_lined { h.short.lined with } h.short.closed }

/-- No alias is being read. -/
theorem aliasesInUse_on {S : Text} {start : Nat} (k : List Text → Reader β)
    (h : Lined .empty S start i) : (aliasesInUse >>= k).on i = (k []).on i := by
  have huse : i.inUse = [] := by simp [Input.inUse, (h.quiet rfl).1, h.within rfl]
  show (k i.inUse).on i = _
  rw [huse]

theorem Tracks.aliasesInUse {g : β → β} {k k' : List Text → Reader β} (hcut : Excerpt d rest i s)
    (hk : Tracks d g rest (k []) (k' []) i s) :
    Tracks d g rest (Script.aliasesInUse >>= k) (Script.aliasesInUse >>= k') i s :=
  hk.after hcut.inStep (aliasesInUse_on k hcut.long.lined) (aliasesInUse_on k' hcut.short.lined)

namespace Mirrors

variable {f : α → α} {g : β → β} {x y : Reader α}

theorem captured (hx : Mirrors d f x y) :
    Mirrors d (fun p => (p.1, f p.2)) (Script.captured x) (Script.captured y) where
  keeps S start := keepsLines_captured (hx.keeps S start)
  tracks rest i s hrest hcut := by
    have hinner := hx.tracks rest _ _ hrest hcut.startCapture
    unfold Tracks at hinner ⊢
    generalize hj : x.on { i with captures := [] :: i.captures } = outcome at hinner
    obtain ⟨o, j⟩ := outcome
    cases o with
    | error e =>
        rw [captured_failed hj]
        intro hend
        obtain ⟨e', he'⟩ := hinner hend
        generalize hs : y.on { s with captures := [] :: s.captures } = outcome' at he'
        obtain ⟨o', s'⟩ := outcome'
        cases he'
        exact ⟨e', congrArg Prod.fst (captured_failed hs)⟩
    | ok a =>
        rcases hinner with hbeyond | ⟨s', hs', hstep⟩
        · -- ending the record takes nothing back
          have hleft : ((Script.captured x).on i).2.left = j.left := by
            unfold Script.captured
            show (((x >>= fun a => endCapture >>= fun t => pure (t, a)) : Reader _).on _).2.left = _
            rw [Reader.on_bind, hj]
            dsimp only
            unfold endCapture
            rw [bind_assoc, Reader.on_get]
            cases j.captures <;> rfl
          generalize (Script.captured x).on i = outcome at hleft
          obtain ⟨o, l⟩ := outcome
          cases o with
          | ok p =>
              left
              rw [show l.left = j.left from hleft]
              exact hbeyond
          | error e =>
              rintro rfl
              exact absurd hbeyond (Nat.not_lt_zero _)
        · obtain ⟨t, ht, ht'⟩ := hstep.taken
          rw [captured_on hj ht.captures]
          refine .inr ⟨_, captured_on hs' ht'.captures, { hstep.toExcerpt with
            long := .of_lined { hstep.long.lined with } hstep.long.closed
            short := .of_lined { hstep.short.lined with } hstep.short.closed }, t, ?_, ?_⟩
          · exact ⟨ht.ahead, rfl, ht.nextTicket⟩
          · exact ⟨ht'.ahead, rfl, ht'.nextTicket⟩

/-- No alias is being read. -/
theorem aliasesInUse {k k' : List Text → Reader β} (hk : Mirrors d g (k []) (k' [])) :
    Mirrors d g (Script.aliasesInUse >>= k) (Script.aliasesInUse >>= k') where
  keeps S start i hi := by
    rw [aliasesInUse_on k hi]
    exact hk.keeps S start i hi
  tracks rest _ _ hrest hcut := .aliasesInUse hcut (hk.tracks rest _ _ hrest hcut)

/-- A text by itself is read to its end on both sides. -/
theorem nested {h k : α → Input → β} (hx : Mirrors d f x y)
    (hvalue : ∀ a j s, Excerpt d [] j s → k (f a) s = g (h a j)) (t : Text) (l : Nat) :
    Mirrors d g (readNested [] t l x >>= fun p => pure (h p.1 p.2))
      (readNested [] t (l + d) y >>= fun p => pure (k p.1 p.2)) where
  keeps _ _ := (keepsLines_aside _).bind fun _ => keepsLines_aside _
  tracks rest i s _ hcut := by
    have hnested : Excerpt d [] (i.nested [] t l) (s.nested [] t (l + d)) := by
      have hlined := fun l => lined_ofText .empty t l
      refine { long := .of_lined { hlined l with aliases := ?_ } rfl
               short := .of_lined { hlined (l + d) with aliases := ?_ } rfl
               ahead := (List.append_nil _).symm, line := rfl, pushback := rfl, pending := rfl
               bodies := rfl, nextTicket := rfl, unasked := fun _ => ⟨rfl, rfl⟩ }
      · exact hcut.long.lined.aliases
      · exact hcut.short.lined.aliases
    have hinner := hx.tracks [] _ _ nofun hnested
    unfold Tracks at hinner ⊢
    rw [Reader.on_bind, Reader.on_bind]
    unfold readNested
    rw [Reader.on_get, Reader.on_get, Reader.on_withInput, Reader.on_withInput]
    generalize x.on (i.nested [] t l) = outcome at hinner
    obtain ⟨o, j⟩ := outcome
    cases o with
    | error e =>
        intro _
        obtain ⟨e', he'⟩ := hinner rfl
        generalize y.on (s.nested [] t (l + d)) = outcome' at he'
        obtain ⟨o', s'⟩ := outcome'
        cases he'
        exact ⟨e', rfl⟩
    | ok a =>
        obtain ⟨s', hs', hstep⟩ := hinner.resolve_left (Nat.not_lt_zero _)
        rw [hs']
        refine .inr ⟨_, congrArg (fun b => (Except.ok b, _)) (hvalue a j s' hstep.toExcerpt), ?_, [],
          ?_, ?_⟩
        · exact { hcut with
            long := .of_lined { hcut.long.lined with } hcut.long.closed
            short := .of_lined { hcut.short.lined with } hcut.short.closed }
        · exact .refl rfl rfl (Nat.le_refl _)
        · exact .refl rfl rfl (Nat.le_refl _)

end Mirrors

end CommandShell.Script
