import CommandShell.Proofs.Reading.Locality

/-!
# The lines of an input

What is left of a text is the rest of the current line and the lines after it, and the line counter
tells how many newlines were passed (`Lined`). All readers keep that up, whether they come to a
value or fail, if no alias has a newline in its text: a newline is taken from a line only, and it is
the last character of it.
-/

namespace CommandShell.Script

open Reader

variable {α β : Type} {A : Table Text} {S : Text} {start : Nat} {i j : Input}

/-- A line: not empty, with a newline at its end or without one. -/
structure IsLine (l : Text) : Prop where
  ne_nil : l ≠ []
  newline : '\n' ∉ l.dropLast

/-- The text that is left, but for a character put back. -/
def Input.left (i : Input) : Text := i.current ++ i.queue.flatten

/-- The input is what is left of the text `S`, which started on the line `start`. -/
structure Lined (A : Table Text) (S : Text) (start : Nat) (i : Input) : Prop where
  aliases : i.aliases = A
  frames : ∀ f ∈ i.frames, '\n' ∉ f.rest
  unread : ∀ c ∈ i.unread, c = '\\'
  current : i.current ≠ [] → IsLine i.current
  queue : ∀ l ∈ i.queue, IsLine l
  ended : i.atEnd = true → i.current = [] ∧ i.queue = []
  /-- The line counter counts the newlines that were passed. -/
  passed : ∃ p, S = p ++ i.left ∧ i.line = start + p.count '\n'
  within : A.toList = [] → i.within = []
  /-- Without aliases none is being read or was just read. -/
  quiet : A.toList = [] → i.frames = [] ∧ i.aliasBlank = false

/-! ## Lines of a text -/

theorem isLine_lines (t : Text) : ∀ l ∈ t.lines, IsLine l := by
  induction t with
  | nil => exact fun _ hl => nomatch hl
  | cons c r ih =>
      unfold Text.lines
      split
      · rename_i hc
        refine List.forall_mem_cons.mpr ⟨⟨List.cons_ne_nil _ _, ?_⟩, ih⟩
        exact List.not_mem_nil
      · rename_i hc
        cases hr : Text.lines r with
        | nil =>
            refine List.forall_mem_singleton.mpr ⟨List.cons_ne_nil _ _, ?_⟩
            exact List.not_mem_nil
        | cons p ps =>
            rw [hr] at ih
            obtain ⟨hp, hps⟩ := List.forall_mem_cons.mp ih
            refine List.forall_mem_cons.mpr ⟨⟨List.cons_ne_nil _ _, ?_⟩, hps⟩
            rw [List.dropLast_cons_of_ne_nil hp.ne_nil, List.mem_cons, not_or]
            exact ⟨fun h => hc h.symm, hp.newline⟩

theorem lines_append_newline {t : Text} (h : '\n' ∉ t) (rest : Text) :
    Text.lines (t ++ '\n' :: rest) = (t ++ ['\n']) :: Text.lines rest := by
  induction t with
  | nil => simp [Text.lines]
  | cons c t ih =>
      obtain ⟨hc, ht⟩ := not_or.mp (List.mem_cons.not.mp h)
      rw [List.cons_append, Text.lines, if_neg (Ne.symm hc), ih ht]
      rfl

theorem lines_of_notMem {t : Text} (hne : t ≠ []) (h : '\n' ∉ t) : Text.lines t = [t] := by
  induction t with
  | nil => exact absurd rfl hne
  | cons c t ih =>
      obtain ⟨hc, ht⟩ := not_or.mp (List.mem_cons.not.mp h)
      rw [Text.lines, if_neg (Ne.symm hc)]
      cases t with
      | nil => rfl
      | cons d t => rw [ih (List.cons_ne_nil d t) ht]

/-- What is left of a line after its first character. -/
theorem IsLine.tail {c : Char} {r : Text} (h : IsLine (c :: r)) (hr : r ≠ []) : IsLine r := by
  refine ⟨hr, fun hmem => h.newline ?_⟩
  rw [List.dropLast_cons_of_ne_nil hr]
  exact List.mem_cons_of_mem _ hmem

/-- Nothing follows a newline in its line. -/
theorem IsLine.after_newline {r : Text} (h : IsLine ('\n' :: r)) : r = [] := by
  by_contra hr
  refine h.newline ?_
  rw [List.dropLast_cons_of_ne_nil hr]
  exact List.mem_cons_self

theorem lined_ofText (A : Table Text) (t : Text) (line : Nat) :
    Lined A t line (.ofText t line A) where
  aliases := rfl
  frames _ h := nomatch h
  unread _ h := nomatch h
  current h := absurd rfl h
  queue := isLine_lines t
  ended h := nomatch h
  passed := ⟨[], (lines_flatten t).symm, rfl⟩
  within _ := rfl
  quiet _ := ⟨rfl, rfl⟩

/-- What is left is a text too. -/
theorem Lined.restart (h : Lined A S start i) : Lined A i.left i.line i :=
  { h with passed := ⟨[], rfl, rfl⟩ }

/-! ## The law -/

/-- The lines are the same wherever the position is. -/
theorem Lined.of_position (h : Lined A S start i) (hsame : j.position = i.position)
    (hblank : i.aliasBlank = false → j.aliasBlank = false) : Lined A S start j := by
  obtain ⟨hframes, hcurrent, hqueue, -, hend, hunread, hline, haliases, hwithin⟩ := by
    simpa [Input.position] using hsame
  have hleft : j.left = i.left := by rw [Input.left, Input.left, hcurrent, hqueue]
  exact {
    aliases := haliases.trans h.aliases
    frames := hframes ▸ h.frames
    unread := hunread ▸ h.unread
    current := hcurrent ▸ h.current
    queue := hqueue ▸ h.queue
    ended := by rw [hend, hcurrent, hqueue]; exact h.ended
    passed := by rw [hleft, hline]; exact h.passed
    within := fun hA => hwithin.trans (h.within hA)
    quiet := fun hA => ⟨hframes.trans (h.quiet hA).1, hblank (h.quiet hA).2⟩ }

/-- A reader that keeps to the lines. -/
def KeepsLines (A : Table Text) (S : Text) (start : Nat) (r : Reader α) : Prop :=
  ∀ i, Lined A S start i → Lined A S start (r.on i).2

theorem keepsLines_aside (r : Reader α) [h : Aside r] : KeepsLines A S start r :=
  fun i hi => hi.of_position (h.position i) (h.aliasBlank i)

theorem KeepsLines.bind {x : Reader α} {f : α → Reader β} (hx : KeepsLines A S start x)
    (hf : ∀ a, KeepsLines A S start (f a)) : KeepsLines A S start (x >>= f) := by
  intro i hi
  have hj := hx i hi
  rw [Reader.on_bind]
  generalize x.on i = u at hj
  obtain ⟨r, j⟩ := u
  cases r with
  | ok a => exact hf a j hj
  | error e => exact hj

theorem Lined.settled (h : Lined A S start i) : Lined A S start (settled i) where
  aliases := h.aliases
  frames f hf := h.frames f (live_subset _ (settled_frames i ▸ hf))
  unread := h.unread
  current := h.current
  queue := h.queue
  ended := h.ended
  passed := h.passed
  within := h.within
  quiet hA := by
    obtain ⟨hf, hb⟩ := h.quiet hA
    simp [Script.settled, hf, hb, Input.dropSpent]

theorem Input.holdsText_eq_false (h : i.holdsText = false) :
    i.frames = [] ∧ i.current = [] ∧ i.atEnd = false := by
  simpa [Input.holdsText, and_assoc] using h

theorem keepsLines_fillLine : KeepsLines A S start fillLine := by
  intro i hi
  cases h : i.holdsText with
  | true =>
      rw [fillLine_on_held h]
      exact hi
  | false =>
      obtain ⟨hframes, hcurrent, hend⟩ := Input.holdsText_eq_false h
      cases hq : i.queue with
      | cons l ls =>
          rw [fillLine_on_line h hq]
          have hlines := List.forall_mem_cons.mp (hq ▸ hi.queue)
          have hleft : (i.withLine l ls).left = i.left := by
            simp [Input.left, Input.withLine, hcurrent, hq]
          exact { hi with
            current := fun _ => hlines.1
            queue := hlines.2
            ended := fun h => nomatch hend.symm.trans h
            passed := by rw [hleft]; exact hi.passed }
      | nil =>
          cases hc : i.closed with
          | true =>
              rw [fillLine_on_end h hq hc]
              exact { hi with ended := fun _ => ⟨hcurrent, hq⟩ }
          | false =>
              rw [fillLine_on_open h hq hc]
              exact hi

theorem keepsLines_fill : KeepsLines A S start fill :=
  fun _ hi => keepsLines_fillLine _ hi.settled

theorem keepsLines_peek : KeepsLines A S start peek := by
  intro i hi
  cases hu : i.unread with
  | cons c r =>
      rw [peek_on_unread hu]
      exact hi
  | nil =>
      rw [peek_on_filled hu]
      refine KeepsLines.bind keepsLines_fill (fun _ => ?_) i hi
      exact fun j hj => hj

/-- A character of the current line is taken. -/
theorem Lined.takeChar (h : Lined A S start i) {c : Char} {r : Text} (hc : i.current = c :: r) :
    Lined A S start (noted c { i with current := r }) := by
  have hline : IsLine (c :: r) := hc ▸ h.current (by simp [hc])
  obtain ⟨p, hp, hcount⟩ := h.passed
  exact { h with
    current := hline.tail
    ended := fun hend => absurd (h.ended hend).1 (by simp [hc])
    passed := by
      refine ⟨p ++ [c], ?_, ?_⟩
      · rw [hp]
        simp [Input.left, noted, hc]
      · show (if c = '\n' then i.line + 1 else i.line) = _
        rw [List.count_append, List.count_singleton, hcount]
        split
        · rename_i hn
          simp [hn, Nat.add_assoc]
        · rename_i hn
          simp [hn] }

theorem keepsLines_takeFront : KeepsLines A S start takeFront := by
  intro i hi
  cases hf : i.frames with
  | nil =>
      cases hc : i.current with
      | nil =>
          rw [takeFront_on_end hf hc]
          exact hi
      | cons c r =>
          rw [takeFront_on_line hf hc]
          exact hi.takeChar hc
  | cons f fs =>
      have hrest := List.forall_mem_cons.mp (hf ▸ hi.frames)
      have hquiet : A.toList ≠ [] := fun h => absurd (hi.quiet h).1 (by simp [hf])
      cases hr : f.rest with
      | cons c r =>
          rw [takeFront_on_alias hf hr]
          have hc : c ≠ '\n' := fun h => hrest.1 (hr ▸ h ▸ List.mem_cons_self)
          exact { hi with
            frames := List.forall_mem_cons.mpr
              ⟨fun h => hrest.1 (hr ▸ List.mem_cons_of_mem _ h), hrest.2⟩
            passed := by
              show ∃ p, S = p ++ i.left ∧ (if c = '\n' then i.line + 1 else i.line) = _
              rw [if_neg hc]
              exact hi.passed
            quiet := fun h => absurd h hquiet }
      | nil =>
          rw [takeFront_on_blank hf hr]
          exact { hi with
            frames := List.forall_mem_cons.mpr ⟨hrest.1, hrest.2⟩
            passed := hi.passed
            quiet := fun h => absurd h hquiet }

theorem keepsLines_next : KeepsLines A S start next := by
  intro i hi
  cases hu : i.unread with
  | cons c r =>
      rw [next_on_unread hu]
      have hunread := List.forall_mem_cons.mp (hu ▸ hi.unread)
      obtain rfl : c = '\\' := hunread.1
      exact { hi with unread := hunread.2 }
  | nil =>
      rw [next_on_filled hu]
      exact KeepsLines.bind keepsLines_fill (fun _ => keepsLines_takeFront) i hi

/-- What is expanded is the text of an alias. -/
theorem Lined.mem_of_expanded (h : Lined A S start i) {name text : Text}
    (ht : (if i.frames.any (fun f => f.name == name) then none else i.aliases.get? name)
      = some text) : (name, text) ∈ A.toList := by
  rw [← h.aliases]
  split at ht
  · exact nomatch ht
  · exact Table.mem_of_get? ht

/-- The text of an alias is started. -/
theorem Lined.pushAlias (h : Lined A S start i) (hA : A.toList ≠ []) {name text : Text}
    (ht : '\n' ∉ text) : Lined A S start ((Reader.pushAlias name text).on i).2 :=
  { h with
    frames := List.forall_mem_cons.mpr ⟨ht, h.frames⟩
    quiet := fun h => absurd h hA }

/-- All readers keep to the lines when no alias has a newline in its text. -/
def linedLaw (hA : ∀ b ∈ A.toList, '\n' ∉ b.2) (S : Text) (start : Nat) : Law where
  Obeyed := KeepsLines A S start
  aside r _ _ := keepsLines_aside r
  nested _ _ _ _ _ := keepsLines_aside _
  bind := KeepsLines.bind
  peek := keepsLines_peek
  next := keepsLines_next
  putBack i hi := { hi with unread := List.forall_mem_cons.mpr ⟨rfl, hi.unread⟩ }
  expand name x y hx hy i hi := by
    rw [Reader.on_bind, aliasText?_on]
    dsimp only
    split
    · exact hx i hi
    · rename_i text htext
      have hmem := hi.mem_of_expanded htext
      exact hy _ (hi.pushAlias (List.ne_nil_of_mem hmem) (hA _ hmem))

/-! ## Whole calls -/

theorem Lined.parseCommand (hA : ∀ b ∈ A.toList, '\n' ∉ b.2) (h : Lined A S start i) :
    Lined A S start (parseCommand.on i).2 := by
  rw [parseCommand_on]
  exact (readersObey (linedLaw hA S start) i.stepBound).parseTop.holds i h

/-- The lines after the current one are a text of their own. -/
theorem Lined.discardLine (h : Lined A S start i) :
    Lined A i.queue.flatten i.line i.discardLine where
  aliases := h.aliases
  frames _ hf := nomatch hf
  unread _ hc := nomatch hc
  current hne := absurd rfl hne
  queue := h.queue
  ended hend := ⟨rfl, (h.ended hend).2⟩
  passed := ⟨[], rfl, rfl⟩
  within := h.within
  quiet hA := ⟨rfl, (h.quiet hA).2⟩

end CommandShell.Script
