import CommandShell.Proofs.Reading.LineEnds

/-!
# Commands take whole lines

Reading a command takes the lines up to the one that the command and its here-documents end on, and
nothing of the lines after it (`parseCommand_takes_whole_lines`): with fewer lines it asks for the
next one, and whatever lines follow make no difference. So when lines are supplied one by one, as
they are asked for, those of the command are all that is ever taken from where they come from.

Each call takes a line, unless it comes to the end or no line can be had (`parseTop_advances`). This
holds also between a line that could not be read and the line after it.
-/

namespace CommandShell.Script

open Reader

variable {α β : Type} {S : Text} {start k n : Nat} {i j : Input} {p : Parsed}

/-! ## A line is taken -/

/-- Values satisfy `Q`, and failures are for want of a line, if `w` says that one may be wanted, or
of steps. Nothing is asked of outcomes with fewer than `k` lines left. -/
def Advances (k : Nat) (w : Prop) (Q : α → Input → Prop) (r : Reader α) (i : Input) : Prop :=
  Meets (fun e j => j.queue.length < k ∨ w ∧ e = .needLine ∨ e = .outOfSteps)
    (fun a j => j.queue.length < k ∨ Q a j) r i

/-- With fewer lines left there is nothing to show. -/
theorem advances_of_fewer (r : Reader α) [hr : Obeys localLaw r] (hi : i.queue.length < k)
    (w : Prop) (Q : α → Input → Prop) : Advances k w Q r i := by
  have hlocal : Local r := hr.holds
  have hj := Nat.lt_of_le_of_lt (hlocal.queue i).length_le hi
  unfold Advances Meets
  generalize r.on i = outcome at hj
  obtain ⟨o, j⟩ := outcome
  cases o with
  | ok a => exact .inl hj
  | error e => exact .inl hj

theorem Advances.bind {w : Prop} {P : α → Input → Prop} {Q : β → Input → Prop} {x : Reader α}
    {f : α → Reader β} [∀ a, Obeys localLaw (f a)] (hx : Advances k w P x i)
    (hf : ∀ a j, P a j → Advances k w Q (f a) j) : Advances k w Q (x >>= f) i := by
  refine Meets.bind hx fun a j hj => ?_
  rcases hj with hfewer | hP
  · exact advances_of_fewer (f a) hfewer w Q
  · exact hf a j hP

/-- All lines were taken, and no here-document is waited for. -/
structure Input.Done (j : Input) : Prop extends j.Ended where
  pending : j.pending = []

/-- The first look at a line takes it. -/
theorem peek_advances (hi : i.AtBreak) (hpending : i.pending = []) (hk : i.queue.length ≤ k) :
    Advances k (i.atEnd = false) (fun c j => c = none ∧ j.Done) peek i := by
  have hframes : (settled i).frames = [] := by simp [settled, hi.frames, Input.dropSpent]
  have hfill : Advances k (i.atEnd = false) (fun _ j => j.Done) fill i := by
    have hfill : fill.on i = fillLine.on (settled i) := rfl
    unfold Advances Meets
    rw [hfill]
    cases h : (settled i).holdsText with
    | true =>
        rw [fillLine_on_held h]
        have hend : (settled i).atEnd = true := by
          have hcurrent : (settled i).current = [] := hi.current
          simpa [Input.holdsText, hframes, hcurrent] using h
        exact .inr ⟨⟨⟨hframes, hi.current, hi.unread⟩, hend⟩, hpending⟩
    | false =>
        cases hq : (settled i).queue with
        | cons l ls =>
            rw [fillLine_on_line h hq]
            have hq : i.queue = l :: ls := hq
            rw [hq] at hk
            exact .inl hk
        | nil =>
            cases hc : (settled i).closed with
            | true =>
                rw [fillLine_on_end h hq hc]
                exact .inr ⟨⟨⟨hframes, hi.current, hi.unread⟩, rfl⟩, hpending⟩
            | false =>
                rw [fillLine_on_open h hq hc]
                exact .inr (.inl ⟨(Input.holdsText_eq_false h).2.2, rfl⟩)
  unfold Advances Meets
  rw [peek_on_filled hi.unread]
  refine Meets.bind hfill fun _ j hj => hj.imp id fun hj => ⟨?_, hj⟩
  rw [hj.frames, hj.current]
  rfl

theorem skipBlanks_advances (hi : i.AtBreak) (hpending : i.pending = [])
    (hk : i.queue.length ≤ k) :
    Advances k (i.atEnd = false) (fun _ j => j.Done) (skipBlanks n) i := by
  cases n with
  | zero => exact .inr (.inr rfl)
  | succ n =>
      unfold skipBlanks
      refine Meets.bind (peek_advances hi hpending hk) fun c j hj => ?_
      rcases hj with hfewer | ⟨rfl, hdone⟩
      · split
        · exact advances_of_fewer (do let _ ← next; skipBlanks n) hfewer _ _
        · exact advances_of_fewer (do let _ ← next; skipBlanks n) hfewer _ _
        · exact advances_of_fewer (do skipComment n; skipBlanks n) hfewer _ _
        · exact advances_of_fewer _ hfewer _ _
        · exact .inl hfewer
      · exact .inr hdone

/-- No here-document is waited for. -/
theorem readPending_advances (hpending : i.pending = []) (w : Prop) :
    Advances k w (fun _ _ => True) (readPending n) i := by
  match n with
  | 0 => exact .inr (.inr rfl)
  | 1 =>
    rw [ReadersObey.readPending_eq]
    exact .inr (.inr rfl)
  | n + 2 =>
    rw [ReadersObey.readPending_eq]
    refine meets_bind.mpr ?_
    show Meets _ _ (readHereDocs (n + 1) i.pending) _
    rw [hpending]
    exact .inr trivial

/-- At the end there is no character. -/
theorem Input.Ended.peek (hi : i.Ended) : peek.on i = (.ok none, settled i) := by
  have hframes : (settled i).frames = [] := by simp [settled, hi.frames, Input.dropSpent]
  have hcurrent : (settled i).current = [] := hi.current
  have hheld : (settled i).holdsText = true := by
    have hend : (settled i).atEnd = true := hi.atEnd
    simp [Input.holdsText, hend]
  have hfill : fill.on i = (.ok (), settled i) := fillLine_on_held hheld
  rw [peek_on_filled hi.unread, Reader.on_bind, hfill]
  dsimp only
  rw [Reader.on_get, hframes, hcurrent]
  rfl

theorem tokenHere_advances (hi : i.Done) (w : Prop) :
    Advances k w (fun tk _ => tk.kind = .endOfInput) (ReadersObey.tokenHere n) i := by
  unfold ReadersObey.tokenHere
  refine meets_line.mpr (meets_bind_of_ok hi.peek ?_)
  exact Meets.bind (readPending_advances (i := settled i) hi.pending w) fun _ _ _ => .inr rfl

theorem freshToken_advances (hi : i.AtBreak) (hpending : i.pending = [])
    (hk : i.queue.length ≤ k) :
    Advances k (i.atEnd = false) (fun tk _ => tk.kind = .endOfInput)
      (ReadersObey.freshToken n) i := by
  unfold ReadersObey.freshToken
  exact (skipBlanks_advances hi hpending hk).bind fun _ j hj => tokenHere_advances hj _

theorem nextToken_advances (hi : i.AtRest) (hk : i.queue.length ≤ k) :
    Advances k (i.atEnd = false) (fun tk _ => tk.kind = .endOfInput) (nextToken n) i := by
  cases n with
  | zero => exact .inr (.inr rfl)
  | succ n =>
      cases hp : i.pushback with
      | some tk =>
          unfold Advances Meets
          rw [Suffices.nextToken_pushback hp]
          exact .inr (hi.pushback tk hp)
      | none =>
          unfold Advances Meets
          rw [ReadersObey.nextToken_on_fresh hp]
          exact freshToken_advances hi.toAtBreak hi.pending hk

/-- A line is taken, if there is one and it is asked for. -/
theorem parseTop_advances (n : Nat) (hi : i.AtRest) :
    Advances i.queue.length (i.atEnd = false) (fun p _ => p = .done) (parseTop n) i := by
  cases n with
  | zero => exact .inr (.inr rfl)
  | succ n =>
      have hlist := (readersObey localLaw n).parseList
      have hstart : (startLine.on i).2.AtRest :=
        { hi with frames := hi.frames, current := hi.current, unread := hi.unread }
      rw [ReadersObey.parseTop_eq]
      refine meets_bind.mpr ?_
      refine Meets.bind (nextToken_advances (n := n) hstart (Nat.le_refl _)) fun tk j hj => ?_
      rcases hj with hfewer | hend
      · split
        · exact .inl hfewer
        · exact .inl hfewer
        · exact advances_of_fewer _ hfewer _ _
      · rw [hend]
        exact .inr rfl

/-! ## Between commands -/

/-- The states between the commands of a script without aliases. -/
inductive Paused : Input → Prop
  | start (t : Text) (line : Nat) : Paused (.ofText t line)
  /-- A command line was read. -/
  | next {i j : Input} {p : Parsed} (h : Paused i) (hread : parseCommand.on i = (.ok p, j)) :
    Paused j
  /-- A command line could not be read, and the rest of the line is dropped. -/
  | failed {i j : Input} {e : Halt} (h : Paused i) (hread : parseCommand.on i = (.error e, j)) :
    Paused j.discardLine
  /-- Other lines follow, unless the end was met. -/
  | supplied {i : Input} (h : Paused i) (hend : i.atEnd = false) (queue : List Text)
    (hlines : ∀ l ∈ queue, IsLine l) (closed : Bool) : Paused { i with queue, closed }

/-- What holds between commands. -/
structure Between (i : Input) : Prop where
  proper : Proper i.expanded
  held : Held .empty False i
  lined : ∃ S start, Lined .empty S start i
  rest : i.AtRest

theorem Between.sane (h : Between i) : Sane .empty i := by
  obtain ⟨S, start, hlined⟩ := h.lined
  have hframes := (hlined.quiet rfl).1
  refine ⟨hlined.aliases, fun f hf => ?_, fun f hf => ?_, hlined.unread, fun hnil => ?_,
    hlined.within rfl, h.proper, hlined.quiet⟩
  · exact nomatch (hframes ▸ hf : f ∈ [])
  · exact nomatch (hframes ▸ hf : f ∈ [])
  · exact (hlined.queue [] hnil).ne_nil rfl

/-- The same is read with more steps. -/
theorem Sane.parseTop_on (hi : Sane .empty i) (hn : i.stepBound ≤ n) :
    (parseTop n).on i = parseCommand.on i ∧ (parseCommand.on i).1 ≠ .error .outOfSteps ∧
      Proper (parseCommand.on i).2.expanded := by
  obtain ⟨o, hsettles, hproper, -⟩ := parseTop_settles empty_plain hi
  rw [hsettles.parseCommand_on]
  exact ⟨hsettles.2 n hn, hsettles.1, hproper⟩

theorem between_ofText (t : Text) (line : Nat) : Between (.ofText t line) where
  proper _ hu := nomatch hu
  held := by
    have hclear : Clear .empty False (.ofText t line) :=
      ⟨⟨rfl, fun _ hb => (nomatch hb), False.elim, False.elim⟩, rfl⟩
    exact hclear.held
  lined := ⟨t, line, lined_ofText .empty t line⟩
  rest := ⟨⟨rfl, fun _ hp => nomatch hp⟩, ⟨rfl, rfl, rfl⟩, fun _ hp => nomatch hp⟩

theorem empty_no_newline : ∀ b ∈ (Table.empty : Table Text).toList, '\n' ∉ b.2 :=
  fun _ hb => nomatch hb

theorem Between.next (h : Between i) (hread : parseCommand.on i = (.ok p, j)) : Between j := by
  obtain ⟨S, start, hlined⟩ := h.lined
  obtain ⟨-, -, hproper⟩ := h.sane.parseTop_on (Nat.le_refl _)
  have hj := hlined.parseCommand empty_no_newline
  rw [hread] at hproper hj
  refine ⟨hproper, ((leads_parseCommand h.held).value hread).2.1.1, ⟨S, start, hj⟩, ?_⟩
  rw [parseCommand_on] at hread
  exact ((parseTop_rests empty_no_newline i.stepBound h.held hlined h.rest).value hread).1

theorem Between.failed {e : Halt} (h : Between i) (hread : parseCommand.on i = (.error e, j)) :
    Between j.discardLine := by
  obtain ⟨S, start, hlined⟩ := h.lined
  obtain ⟨-, -, hproper⟩ := h.sane.parseTop_on (Nat.le_refl _)
  have hj := hlined.parseCommand empty_no_newline
  rw [hread] at hproper hj
  have hbodies : j.WellFormed := (leads_parseCommand h.held).failure hread
  have hclear : Clear .empty False j.discardLine :=
    ⟨⟨hj.aliases, hbodies, False.elim, False.elim⟩, rfl⟩
  exact ⟨hproper, hclear.held, ⟨_, _, hj.discardLine⟩,
    ⟨⟨rfl, fun _ hp => nomatch hp⟩, ⟨rfl, rfl, rfl⟩, fun _ hp => nomatch hp⟩⟩

theorem Between.supplied (h : Between i) (hend : i.atEnd = false) {queue : List Text}
    (hlines : ∀ l ∈ queue, IsLine l) (closed : Bool) :
    Between { i with queue, closed } := by
  obtain ⟨S, start, hlined⟩ := h.lined
  have hlined : Lined .empty queue.flatten i.line { i with queue, closed } := {
    hlined with
    queue := hlines
    ended := fun h => nomatch hend.symm.trans h
    passed := ⟨[], by simp [Input.left, h.rest.current], rfl⟩ }
  have hrest : { i with queue, closed }.AtRest :=
    ⟨⟨h.rest.pending, h.rest.pushback⟩, ⟨h.rest.frames, h.rest.current, h.rest.unread⟩,
      h.rest.atEnd⟩
  exact ⟨h.proper, h.held.of_docs rfl, ⟨_, _, hlined⟩, hrest⟩

theorem Paused.between (h : Paused i) : Between i := by
  induction h with
  | start t line => exact between_ofText t line
  | next _ hread ih => exact ih.next hread
  | failed _ hread ih => exact ih.failed hread
  | supplied _ hend _ hlines closed ih => exact ih.supplied hend hlines closed

/-! ## The lines of a command -/

/-- The input with no lines but `q`, where more may follow. -/
def Input.only (i : Input) (q : List Text) : Input := { i with queue := q, closed := false }

/-- The input when no line was supplied that was not asked for. -/
def Input.drained (j : Input) : Input := { j with queue := [], closed := j.atEnd }

theorem Input.drained_of_atEnd (hend : j.atEnd = true) (hnone : j.queue = [])
    (hclosed : j.closed = true) : j.drained = j := by
  cases j
  cases hend
  cases hnone
  cases hclosed
  rfl

theorem Input.drained_of_open (hopen : j.atEnd = false) : j.drained = j.only [] := by
  cases j
  cases hopen
  rfl

/-- The answer to a call for a line: a line, none when there is none, or a failure. -/
abbrev Answer := Except Stop (Option Text)

/-- Reading a command from lines that are supplied as they are asked for, with the answers. -/
inductive Supplied : Input → List Answer → Except Stop Parsed × Input → Prop
  | read {i j : Input} {p : Parsed} (h : parseCommand.on i = (.ok p, j)) : Supplied i [] (.ok p, j)
  | stopped {i j : Input} {s : Stop} (h : parseCommand.on i = (.error (.stop s), j)) :
    Supplied i [] (.error s, j)
  | refused {i j : Input} {s : Stop} (h : parseCommand.on i = (.error .needLine, j)) :
    Supplied i [.error s] (.error s, j)
  | closed {i : Input} {answers : List Answer} {o : Except Stop Parsed × Input}
    (h : (parseCommand.on i).1 = .error .needLine)
    (hmore : Supplied { i with closed := true } answers o) : Supplied i (.ok none :: answers) o
  | line {i : Input} {l : Text} {answers : List Answer} {o : Except Stop Parsed × Input}
    (h : (parseCommand.on i).1 = .error .needLine)
    (hmore : Supplied { i with queue := i.queue ++ [l] } answers o) :
    Supplied i (.ok (some l) :: answers) o

/-- The lines `taken` are those of the command `p` that is read, and `j` is what comes after. -/
structure TakesLines (i : Input) (p : Parsed) (j : Input) (taken : List Text) : Prop where
  ne_nil : taken ≠ []
  queue : i.queue = taken ++ j.queue
  rest : j.AtRest
  /-- With fewer of the lines the next one is asked for. -/
  short : ∀ q, q <+: taken → q ≠ taken → (parseCommand.on (i.only q)).1 = .error .needLine
  /-- What follows the lines makes no difference. -/
  enough : j.atEnd = false → ∀ more closed,
    parseCommand.on { i with queue := taken ++ more, closed }
      = (.ok p, { j with queue := more, closed })
  /-- At the end of a text there is no other line, and one is asked for. -/
  ended : j.atEnd = true →
    j.queue = [] ∧ i.closed = true ∧ (parseCommand.on (i.only taken)).1 = .error .needLine
  /-- These lines are supplied when lines are asked for, and the end of them if it was met. -/
  supplied : Supplied (i.only [])
    (taken.map (fun l => .ok (some l)) ++ if j.atEnd then [.ok none] else [])
    (.ok p, j.drained)

/-- More lines allow for more steps. -/
theorem stepBound_followedBy (i : Input) (more : List Text) (closed : Bool) :
    i.stepBound ≤ (i.followedBy more closed).stepBound := by
  have hlength : i.queue.flatten.length ≤ (i.queue ++ more).flatten.length := by simp
  unfold Input.stepBound
  dsimp only [Input.followedBy]
  refine Nat.add_le_add_right (Nat.mul_le_mul_left 20 (Nat.mul_le_mul_right _ ?_)) 100
  omega

theorem Local.parseCommand (hb : Between i) (hend : i.atEnd = false) {q r : List Text}
    (hq : i.queue = q ++ r) :
    parseCommand.on i = ((parseCommand.on (i.only q)).1,
      (parseCommand.on (i.only q)).2.followedBy r i.closed) ∨
    (parseCommand.on (i.only q)).1 = .error .needLine ∧
      ((parseCommand.on i).1 = .error .needLine ∨ (parseCommand.on i).2.WentInto r) := by
  obtain ⟨S, start, hlined⟩ := hb.lined
  have hlines : ∀ l ∈ q, IsLine l := fun l hl =>
    hlined.queue l (hq ▸ List.mem_append_left r hl)
  have honly : Sane .empty (i.only q) := (hb.supplied hend hlines false).sane
  have hsame : i = (i.only q).followedBy r i.closed := by
    cases i
    cases hq
    rfl
  -- with steps enough for both
  have hmax := (local_parseTop (max i.stepBound (i.only q).stepBound)).followedBy (i.only q) r
    i.closed rfl
  rw [← hsame, (hb.sane.parseTop_on (Nat.le_max_left ..)).1,
    (honly.parseTop_on (Nat.le_max_right ..)).1] at hmax
  exact hmax

section

variable (hb : Between i) (h : parseCommand.on i = (.ok p, j))
include hb h

/-- The lines that were taken, of which there is one. -/
theorem Between.taken (hp : p ≠ .done) :
    i.atEnd = false ∧ ∃ taken, taken ≠ [] ∧ i.queue = taken ++ j.queue := by
  obtain ⟨S, start, hlined⟩ := hb.lined
  rw [parseCommand_on] at h
  have hfewer := ((parseTop_advances i.stepBound hb.rest).value h).resolve_right hp
  have hqueue : j.queue <:+ i.queue := by
    have := (local_parseTop i.stepBound).queue i
    rwa [h] at this
  obtain ⟨taken, htaken⟩ := hqueue
  refine ⟨?_, taken, ?_, htaken.symm⟩
  · by_contra hend
    rw [(hlined.ended ((Bool.not_eq_false _).mp hend)).2] at hfewer
    exact Nat.not_lt_zero _ hfewer
  · rintro rfl
    exact Nat.lt_irrefl _ (htaken ▸ hfewer)

variable (hend : i.atEnd = false) {taken : List Text} (hq : i.queue = taken ++ j.queue)
include hend hq

theorem Between.short {q : List Text} (hpre : q <+: taken) (hne : q ≠ taken) :
    (parseCommand.on (i.only q)).1 = .error .needLine := by
  obtain ⟨r, rfl⟩ := hpre
  have hq' : i.queue = q ++ (r ++ j.queue) := by rw [hq, List.append_assoc]
  rcases Local.parseCommand hb hend hq' with heq | ⟨hneed, -⟩
  · -- all lines of `r` would be left
    have hleft : j.queue = (parseCommand.on (i.only q)).2.queue ++ (r ++ j.queue) :=
      congrArg (fun o => o.2.queue) (h.symm.trans heq)
    have hlength := congrArg List.length hleft
    simp only [List.length_append] at hlength
    obtain rfl : r = [] := List.length_eq_zero_iff.mp (by omega)
    exact absurd (List.append_nil q).symm hne
  · exact hneed

/-- From the lines alone the command is read too, if the end was not met. -/
theorem Between.alone (hend' : j.atEnd = false) :
    parseCommand.on (i.only taken) = (.ok p, j.only []) := by
  have hclosed : (parseCommand.on (i.only taken)).2.closed = false := by
    rw [parseCommand_on]
    exact (local_parseTop _).closed (i.only taken)
  rcases Local.parseCommand hb hend hq with heq | ⟨-, hneed | hend | hfewer⟩
  · rw [h] at heq
    generalize parseCommand.on (i.only taken) = o at heq hclosed
    obtain ⟨r, k⟩ := o
    obtain ⟨rfl, hj⟩ := Prod.mk.inj heq
    have hk : k.queue = [] := List.self_eq_append_left.mp (congrArg Input.queue hj)
    rw [hj]
    cases k
    cases hk
    cases hclosed
    rfl
  · exact nomatch (congrArg Prod.fst h).symm.trans hneed
  · rw [h] at hend
    exact nomatch hend'.symm.trans hend
  · rw [h] at hfewer
    exact absurd hfewer (Nat.lt_irrefl _)

theorem Between.enough (hend' : j.atEnd = false) (more : List Text) (closed : Bool) :
    parseCommand.on { i with queue := taken ++ more, closed }
      = (.ok p, { j with queue := more, closed }) := by
  have halone := hb.alone h hend hq hend'
  rw [parseCommand_on] at halone ⊢
  have hmore : (parseTop (i.only taken).stepBound).on ((i.only taken).followedBy more closed)
      = (.ok p, (j.only []).followedBy more closed) := by
    rcases (local_parseTop _).followedBy (i.only taken) more closed rfl with heq | ⟨hneed, -⟩
    · rw [heq, halone]
    · rw [halone] at hneed
      exact nomatch hneed
  have hgrows := fun n => (readersGrow n).parseTop
  exact (refines_of_le hgrows (stepBound_followedBy (i.only taken) more closed)).on_eq hmore nofun

theorem Between.ended (hend' : j.atEnd = true) :
    j.queue = [] ∧ i.closed = true ∧ (parseCommand.on (i.only taken)).1 = .error .needLine := by
  obtain ⟨S, start, hlined⟩ := (hb.next h).lined
  have hopened : ∀ k : Input, k.closed = false → k.atEnd = false →
      (parseCommand.on k).2.atEnd = false := by
    intro k
    rw [parseCommand_on]
    exact (local_parseTop _).opened k
  refine ⟨(hlined.ended hend').2, ?_, ?_⟩
  · by_contra hopen
    have := hopened i ((Bool.not_eq_true _).mp hopen) hend
    rw [h] at this
    exact nomatch hend'.symm.trans this
  · rcases Local.parseCommand hb hend hq with heq | ⟨hneed, -⟩
    · have hj : j.atEnd = (parseCommand.on (i.only taken)).2.atEnd :=
        congrArg (fun o => o.2.atEnd) (h.symm.trans heq)
      exact nomatch hend'.symm.trans (hj.trans (hopened _ rfl hend))
    · exact hneed

/-- The lines are supplied one after the other. -/
theorem Between.supplied_from (r q : List Text) (hsplit : taken = q ++ r) :
    Supplied (i.only q)
      (r.map (fun l => .ok (some l)) ++ if j.atEnd then [.ok none] else [])
      (.ok p, j.drained) := by
  induction r generalizing q with
  | nil =>
      obtain rfl : taken = q := hsplit.trans (List.append_nil q)
      by_cases hend' : j.atEnd = true
      · obtain ⟨hnone, hclosed, hneed⟩ := hb.ended h hend hq hend'
        have hsame : { i.only taken with closed := true } = i := by
          rw [hnone, List.append_nil] at hq
          unfold Input.only
          rw [← hq, ← hclosed]
        have hjclosed : j.closed = i.closed := by
          have := (local_parseTop i.stepBound).closed i
          rwa [← parseCommand_on, h] at this
        rw [if_pos hend', Input.drained_of_atEnd hend' hnone (hjclosed.trans hclosed)]
        refine .closed hneed (.read ?_)
        rw [hsame]
        exact h
      · have hopen : j.atEnd = false := (Bool.not_eq_true _).mp hend'
        rw [if_neg hend', Input.drained_of_open hopen]
        exact .read (hb.alone h hend hq hopen)
  | cons l r ih =>
      have hneed := hb.short h hend hq (q := q) ⟨l :: r, hsplit.symm⟩ fun hall =>
        absurd (congrArg List.length (hall.trans hsplit)) (by simp)
      exact .line hneed (ih (q ++ [l]) (by rw [hsplit, List.append_assoc, List.singleton_append]))

end

/-- A command is read from whole lines, the last of which it or one of its here-documents ends on,
and from nothing after them. -/
theorem parseCommand_takes_whole_lines (hi : Paused i) (h : parseCommand.on i = (.ok p, j))
    (hp : p ≠ .done) : ∃ taken, TakesLines i p j taken := by
  have hb := hi.between
  obtain ⟨hend, taken, hne, hq⟩ := hb.taken h hp
  exact ⟨taken, {
    ne_nil := hne
    queue := hq
    rest := (hb.next h).rest
    short := fun _ => hb.short h hend hq
    enough := hb.enough h hend hq
    ended := hb.ended h hend hq
    supplied := hb.supplied_from h hend hq taken [] rfl }⟩

/-- A function with a here-document in its body: five lines are taken, and one is left. -/
theorem parseCommand_takes_whole_lines_function : ∃ n j taken,
    parseCommand.on (.ofText "f() \x7b\ncat <<E; \x7d\n$(a\nb)\nE\nc\n") = (.ok (.command n), j) ∧
      TakesLines (.ofText "f() \x7b\ncat <<E; \x7d\n$(a\nb)\nE\nc\n") (.command n) j taken ∧
      taken.length = 5 := by
  generalize hi : Input.ofText "f() \x7b\ncat <<E; \x7d\n$(a\nb)\nE\nc\n" = i
  have hpaused : Paused i := hi ▸ .start _ 1
  have hall : i.queue.length = 6 := hi ▸ rfl
  have hleft : (parseCommand.on i).2.queue.length = 1 := by
    subst hi
    decide +kernel
  obtain ⟨n, j, hread, -⟩ := exists_parseCommand (P := fun _ => true) (i := i) (by
    subst hi
    decide +kernel)
  rw [hread] at hleft
  have hleft : j.queue.length = 1 := hleft
  obtain ⟨taken, htaken⟩ := parseCommand_takes_whole_lines hpaused hread (fun h => nomatch h)
  have hlength := congrArg List.length htaken.queue
  rw [List.length_append] at hlength
  exact ⟨n, j, taken, hread, htaken, by omega⟩

/-! ## Calls that get on -/

/-- Whether an answer brings something: a line, or a failure. -/
def Answer.isNews : Answer → Bool
  | .ok none => false
  | _ => true

/-- What is left after a call: after a failure the rest of the line is dropped. -/
def afterCall : Except Stop Parsed × Input → Input
  | (.ok _, j) => j
  | (.error _, j) => j.discardLine

theorem Between.closed (h : Between i) : Between { i with closed := true } := by
  obtain ⟨S, start, hlined⟩ := h.lined
  have hlined : Lined .empty S start { i with closed := true } := { hlined with }
  have hrest : { i with closed := true }.AtRest := { h.rest with
    frames := h.rest.frames, current := h.rest.current, unread := h.rest.unread }
  exact ⟨h.proper, h.held.of_docs rfl, ⟨S, start, hlined⟩, hrest⟩

/-- No line is asked for after the end. -/
theorem Between.asks (h : Between i) (hneed : (parseCommand.on i).1 = .error .needLine) :
    i.atEnd = false := by
  obtain ⟨S, start, hlined⟩ := h.lined
  by_contra hend
  have hnone := (hlined.ended ((Bool.not_eq_false _).mp hend)).2
  have hadvances := parseTop_advances i.stepBound h.rest
  rw [parseCommand_on] at hneed
  unfold Advances Meets at hadvances
  generalize (parseTop i.stepBound).on i = o at hneed hadvances
  obtain ⟨r, j⟩ := o
  obtain rfl : r = .error .needLine := hneed
  rcases hadvances with hfewer | ⟨hopen, -⟩ | hout
  · rw [hnone] at hfewer
    exact Nat.not_lt_zero _ hfewer
  · exact hend hopen
  · exact nomatch hout

/-- Nothing was read, and further lines may come. -/
structure Waits (i : Input) : Prop extends Between i where
  queue : i.queue = []
  closed : i.closed = false
  atEnd : i.atEnd = false

/-- A call that has no line asks for one. -/
theorem Waits.call (h : Waits i) :
    ∃ j, parseCommand.on i = (.error .needLine, j) ∧ Waits j.discardLine := by
  have hb := h.toBetween
  obtain ⟨S, start, hlined⟩ := hb.lined
  have hlocal := local_parseTop i.stepBound
  have hqueue : (parseCommand.on i).2.queue = [] := by
    rw [parseCommand_on]
    exact List.suffix_nil.mp (h.queue ▸ hlocal.queue i)
  have hclosed : (parseCommand.on i).2.closed = false := by
    rw [parseCommand_on]
    exact (hlocal.closed i).trans h.closed
  have hopened : (parseCommand.on i).2.atEnd = false := by
    rw [parseCommand_on]
    exact hlocal.opened i h.closed h.atEnd
  have hadvances := parseTop_advances i.stepBound hb.rest
  have hout := (hb.sane.parseTop_on (Nat.le_refl _)).2.1
  rw [h.queue] at hadvances
  generalize hread : parseCommand.on i = o at hqueue hclosed hopened hout
  obtain ⟨r, j⟩ := o
  have hread' := hread
  rw [parseCommand_on] at hread'
  cases r with
  | ok p =>
      rcases hadvances.value hread' with hfewer | hdone
      · exact absurd hfewer (Nat.not_lt_zero _)
      · have hrests := parseTop_rests empty_no_newline i.stepBound hb.held hlined hb.rest
        have hend := (hrests.value hread').2 hdone
        exact nomatch hopened.symm.trans hend
  | error e =>
      rcases hadvances.failure hread' with hfewer | ⟨-, rfl⟩ | rfl
      · exact absurd hfewer (Nat.not_lt_zero _)
      · exact ⟨j, rfl, hb.failed hread, hqueue, hclosed, hopened⟩
      · exact absurd rfl hout

/-- Each call takes a line, or is failed a line, or comes to the end of the input. -/
theorem Supplied.gets_on {answers : List Answer} {o : Except Stop Parsed × Input}
    (h : Supplied i answers o) (hb : Between i)
    (hlines : ∀ l, .ok (some l) ∈ answers → IsLine l) :
    o.1 = .ok .done ∨ Between (afterCall o) ∧
      (afterCall o).queue.length + 1 ≤ i.queue.length + answers.countP Answer.isNews := by
  induction h with
  | @read i j p h =>
      by_cases hp : p = .done
      · exact .inl (congrArg _ hp)
      · obtain ⟨-, taken, hne, hq⟩ := hb.taken h hp
        have hpos := List.length_pos_iff.mpr hne
        refine .inr ⟨hb.next h, ?_⟩
        rw [hq, List.length_append]
        show j.queue.length + 1 ≤ taken.length + j.queue.length + 0
        omega
  | @stopped i j e h =>
      refine .inr ⟨hb.failed h, ?_⟩
      have hout := (hb.sane.parseTop_on (Nat.le_refl _)).2.1
      have hadvances := parseTop_advances i.stepBound hb.rest
      rw [h] at hout
      rw [parseCommand_on] at h
      rcases hadvances.failure h with hfewer | ⟨-, hneed⟩ | hsteps
      · exact hfewer
      · exact nomatch hneed
      · exact absurd (congrArg Except.error hsteps) hout
  | @refused i j e h =>
      refine .inr ⟨hb.failed h, ?_⟩
      have hqueue := (local_parseTop i.stepBound).queue i
      rw [← parseCommand_on, h] at hqueue
      exact Nat.succ_le_succ hqueue.length_le
  | @closed i answers o h _ ih =>
      exact ih hb.closed fun l hl => hlines l (List.mem_cons_of_mem _ hl)
  | @line i l answers o h _ ih =>
      obtain ⟨S, start, hlined⟩ := hb.lined
      have hqueue : ∀ m ∈ i.queue ++ [l], IsLine m := by
        intro m hm
        rcases List.mem_append.mp hm with hm | hm
        · exact hlined.queue m hm
        · exact List.mem_singleton.mp hm ▸ hlines l List.mem_cons_self
      have hmore := ih (hb.supplied (hb.asks h) hqueue i.closed) fun l hl =>
        hlines l (List.mem_cons_of_mem _ hl)
      refine hmore.imp id fun ⟨hbetween, hle⟩ => ⟨hbetween, ?_⟩
      have hnews : Answer.isNews (.ok (some l)) = true := rfl
      rw [List.length_append, List.length_singleton] at hle
      rw [List.countP_cons_of_pos hnews]
      omega

end CommandShell.Script
