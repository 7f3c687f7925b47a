import CommandShell.Proofs.Reading.Excerpts.Commands
import CommandShell.Proofs.Reading.LineEnds

/-!
# The text that comes next

What the reader comes to next lies in several places: characters that were put back, what is left of the
texts of aliases with the blank after each, and the lines. `Input.oncoming` is all of it in one text, of
which `peek` shows the first character and `next` takes it, whatever aliases are being read.

Readers that start the text of an alias put something before what comes. They still leave an end of the
lines (`endLaw`). Where no alias can be read nothing comes before the lines but what was put back
(`Excerpt.oncoming`).
-/

namespace CommandShell.Script

open Reader

variable {α β : Type} {i j k : Input}

/-- What is left of the text of an alias, and the blank after it. -/
def AliasFrame.ahead (f : AliasFrame) : Text := f.rest ++ if f.spent then [] else [' ']

/-- What comes before the text that is left of the lines. -/
def Input.held (i : Input) : Text := i.unread ++ i.frames.flatMap AliasFrame.ahead

/-- The text that the reader comes to next, up to the end of the lines. -/
def Input.oncoming (i : Input) : Text := i.held ++ i.left

/-- The blank after the text of an alias comes last, no line is empty, and none follows the end. So it is
with every input that is made from a text, and stays so whatever is read (`endLaw`). -/
structure Coherent (i : Input) : Prop where
  spent : ∀ f ∈ i.frames, f.spent = true → f.rest = []
  lines : [] ∉ i.queue
  ended : i.atEnd = true → i.queue = []

/-- Beside the text of the input nothing has changed that reading goes by. -/
structure SameBeside (i j : Input) : Prop where
  closed : j.closed = i.closed
  aliases : j.aliases = i.aliases
  bodies : j.bodies = i.bodies
  expanded : j.expanded = i.expanded

theorem SameBeside.refl (i : Input) : SameBeside i i := ⟨rfl, rfl, rfl, rfl⟩

theorem SameBeside.trans (h : SameBeside i j) (h' : SameBeside j k) : SameBeside i k :=
  ⟨h'.closed.trans h.closed, h'.aliases.trans h.aliases, h'.bodies.trans h.bodies,
    h'.expanded.trans h.expanded⟩

theorem coherent_ofText (t : Text) (line : Nat) (A : Table Text) : Coherent (.ofText t line A) :=
  ⟨nofun, nil_notMem_lines t, nofun⟩

theorem oncoming_ofText (t : Text) (line : Nat) (A : Table Text) :
    (Input.ofText t line A).oncoming = t :=
  lines_flatten t

theorem coherent_nested (i : Input) (within : List Text) (t : Text) (line : Nat) :
    Coherent (i.nested within t line) :=
  ⟨nofun, nil_notMem_lines t, nofun⟩

theorem oncoming_nested (i : Input) (within : List Text) (t : Text) (line : Nat) :
    (i.nested within t line).oncoming = t :=
  lines_flatten t

/-! ## Outcomes -/

theorem Meets.shows_value {E : Halt → Input → Prop} {Q : α → Input → Prop} {r : Reader α}
    (h : Meets E Q r i) : Shows (fun a j => r.on i = (.ok a, j) ∧ Q a j) r i := by
  unfold Shows Meets at *
  generalize r.on i = outcome at h
  obtain ⟨o, j⟩ := outcome
  cases o with
  | ok a => exact ⟨rfl, h⟩
  | error e => trivial

/-- A reader that has no way to fail comes to a value. -/
theorem Meets.sure {P : Prop} {Q : α → Input → Prop} {r : Reader α}
    (h : Meets (fun _ _ => P) Q r i) (hP : ¬ P) : ∃ a j, r.on i = (.ok a, j) ∧ Q a j := by
  unfold Meets at h
  generalize r.on i = outcome at h ⊢
  obtain ⟨o, j⟩ := outcome
  cases o with
  | ok a => exact ⟨a, j, rfl, h⟩
  | error e => exact absurd h hP

theorem on_of_isOk {r : Reader α} (h : (r.on i).1.isOk = true) : ∃ a j, r.on i = (.ok a, j) := by
  generalize r.on i = outcome at h ⊢
  obtain ⟨o, j⟩ := outcome
  cases o with
  | ok a => exact ⟨a, j, rfl⟩
  | error e => exact nomatch h

/-- A reader that came to a value with some number of steps comes to no other. -/
theorem shows_of_grows {f : Nat → Reader α} (hf : ∀ n, Grows f n) {m : Nat} {a : α}
    (hm : (f m).on i = (.ok a, j)) (n : Nat) : Shows (fun b k => b = a ∧ k = j) (f n) i := by
  unfold Shows Meets
  rcases Nat.le_total n m with hle | hle
  · rcases (refines_of_le hf hle).agrees i with hout | heq
    · generalize (f n).on i = outcome at hout
      obtain ⟨o, k⟩ := outcome
      cases hout
      trivial
    · rw [← heq, hm]
      exact ⟨rfl, rfl⟩
  · rw [(refines_of_le hf hle).on_eq hm nofun]
    exact ⟨rfl, rfl⟩

/-! ## Single characters -/

theorem flatMap_ahead_live (fs : List AliasFrame) :
    (live fs).flatMap AliasFrame.ahead = fs.flatMap AliasFrame.ahead := by
  induction fs with
  | nil => rfl
  | cons f fs ih =>
      unfold live
      split
      · rename_i h
        obtain ⟨hrest, hspent⟩ : f.rest = [] ∧ f.spent = true := by simpa using h
        rw [ih, List.flatMap_cons]
        simp [AliasFrame.ahead, hrest, hspent]
      · rfl

/-- The input once the next character is available. -/
structure Loaded (i j : Input) : Prop extends SameBeside i j where
  coherent : Coherent j
  unread : j.unread = i.unread
  frames : j.frames = live i.frames
  left : j.left = i.left
  /-- Nothing is left when no character is. -/
  ended : j.frames = [] → j.current = [] → j.left = []
  again : fill.on j = (.ok (), j)

theorem Loaded.oncoming (h : Loaded i j) : j.oncoming = i.oncoming := by
  rw [Input.oncoming, Input.oncoming, Input.held, Input.held, h.unread, h.frames,
    flatMap_ahead_live, h.left]

theorem Coherent.settled (h : Coherent i) : Coherent (settled i) where
  spent f hf := h.spent f (live_subset _ (settled_frames i ▸ hf))
  lines := h.lines
  ended := h.ended

/-- What is held ready stays as it is. -/
theorem fill_on_held (hlive : live j.frames = j.frames) (hheld : j.holdsText = true) :
    fill.on j = (.ok (), j) := by
  have hsettled : Script.settled j = j := by
    unfold Script.settled
    rw [← hlive, dropSpent_live, hlive]
  show fillLine.on (Script.settled j) = _
  rw [hsettled, fillLine_on_held hheld]

/-- The next character is made available, unless a line is needed for it. -/
theorem Coherent.fill (h : Coherent i) :
    Meets (fun _ _ => i.closed = false ∧ i.oncoming = i.unread) (fun _ j => Loaded i j) fill i := by
  have hs := h.settled
  have hlive : live (Script.settled i).frames = (Script.settled i).frames := by
    rw [settled_frames, live_live]
  show Meets _ _ fillLine (Script.settled i)
  unfold Meets
  cases hheld : (Script.settled i).holdsText with
  | true =>
      rw [fillLine_on_held hheld]
      refine ⟨⟨rfl, rfl, rfl, rfl⟩, hs, rfl, settled_frames i, rfl, fun hf hc => ?_,
        fill_on_held hlive hheld⟩
      have hend : (Script.settled i).atEnd = true := by simpa [Input.holdsText, hf, hc] using hheld
      rw [Input.left, hc, hs.ended hend]
      rfl
  | false =>
      obtain ⟨hf, hc, -⟩ := Input.holdsText_eq_false hheld
      cases hq : (Script.settled i).queue with
      | cons l ls =>
          obtain ⟨hl, hls⟩ := not_or.mp (List.mem_cons.not.mp (hq ▸ hs.lines))
          rw [fillLine_on_line hheld hq]
          have hheld' : ((Script.settled i).withLine l ls).holdsText = true := by
            simp [Input.holdsText, Input.withLine, Ne.symm hl]
          refine ⟨⟨rfl, rfl, rfl, rfl⟩, ⟨hs.spent, hls, fun hend => ?_⟩, rfl, settled_frames i, ?_,
            fun _ hc' => absurd hc'.symm hl, fill_on_held hlive hheld'⟩
          · exact absurd (hs.ended hend) (by simp [hq])
          · show l ++ ls.flatten = (Script.settled i).left
            simp [Input.left, hc, hq]
      | nil =>
          have hleft : (Script.settled i).left = [] := by rw [Input.left, hc, hq]; rfl
          cases hclosed : (Script.settled i).closed with
          | true =>
              rw [fillLine_on_end hheld hq hclosed]
              exact ⟨⟨rfl, rfl, rfl, rfl⟩, ⟨hs.spent, hs.lines, fun _ => hq⟩, rfl, settled_frames i,
                rfl, fun _ _ => hleft, fill_on_held hlive (by simp [Input.holdsText])⟩
          | false =>
              rw [fillLine_on_open hheld hq hclosed]
              refine ⟨hclosed, ?_⟩
              have hframes : i.frames.flatMap AliasFrame.ahead = [] := by
                rw [← flatMap_ahead_live, ← settled_frames, hf]
                rfl
              rw [Input.oncoming, Input.held, hframes, show i.left = [] from hleft,
                List.append_nil, List.append_nil]

/-- An alias whose text was read to its end is being read only as long as the blank is left. -/
theorem Loaded.spent_eq_false (h : Loaded i j) {f : AliasFrame} {fs : List AliasFrame}
    (hf : j.frames = f :: fs) (hr : f.rest = []) : f.spent = false := by
  have hlive : live j.frames = j.frames := by rw [h.frames, live_live]
  rw [hf, live] at hlive
  cases hs : f.spent with
  | false => rfl
  | true =>
      rw [if_pos (by simp [hr, hs])] at hlive
      have hle := (live_sublist fs).length_le
      rw [hlive] at hle
      exact absurd hle (by simp)

/-- The character that is available is the next one. -/
theorem Loaded.head? (h : Loaded i j) (hu : i.unread = []) : front j = i.oncoming.head? := by
  rw [← h.oncoming, front_of_unread (h.unread.trans hu), Input.oncoming, Input.held, h.unread, hu]
  cases hf : j.frames with
  | nil =>
      cases hc : j.current with
      | cons c r => simp [Input.left, hc]
      | nil => simp [h.ended hf hc]
  | cons f fs =>
      cases hr : f.rest with
      | cons c r => simp [AliasFrame.ahead, hr]
      | nil => simp [AliasFrame.ahead, hr, h.spent_eq_false hf hr]

/-- The next character is looked at, and stays what it is. -/
theorem Coherent.peek (h : Coherent i) :
    Meets (fun _ _ => i.closed = false ∧ i.oncoming = []) (fun c j => c = i.oncoming.head? ∧
      Coherent j ∧ SameBeside i j ∧ j.oncoming = i.oncoming ∧ next.on j = next.on i) peek i := by
  cases hu : i.unread with
  | cons c r =>
      unfold Meets
      rw [peek_on_unread hu]
      exact ⟨by simp [Input.oncoming, Input.held, hu], h, .refl i, rfl, rfl⟩
  | nil =>
      have hfill := h.fill
      rw [hu] at hfill
      have hpeek : Meets (fun _ _ => i.closed = false ∧ i.oncoming = [])
          (fun c j => c = front j ∧ Loaded i j ∧ Reader.fill.on i = (.ok (), j)) Reader.peek i := by
        unfold Meets at hfill ⊢
        rw [peek_on_filled hu, Reader.on_bind]
        generalize Reader.fill.on i = outcome at hfill
        obtain ⟨r, j⟩ := outcome
        cases r with
        | ok _ => exact ⟨(front_of_unread (hfill.unread.trans hu)).symm, hfill, rfl⟩
        | error e => exact hfill
      refine hpeek.mono ?_
      rintro _ j ⟨rfl, hj, hon⟩
      refine ⟨hj.head? hu, hj.coherent, hj.toSameBeside, hj.oncoming, ?_⟩
      rw [next_on_filled hu, next_on_filled (hj.unread.trans hu), Reader.on_bind, Reader.on_bind, hon,
        hj.again]

/-- What is taken then is the next character, and it is the one that goes. -/
theorem Loaded.takeFront (h : Loaded i j) (hu : i.unread = []) (E : Halt → Input → Prop) :
    Meets E (fun c k => c = i.oncoming.head? ∧ Coherent k ∧ SameBeside i k ∧
      k.oncoming = i.oncoming.tail) takeFront j := by
  have hhead := h.head? hu
  have huj := h.unread.trans hu
  rw [front_of_unread huj] at hhead
  rw [← hhead, ← h.oncoming]
  have hbeside := h.toSameBeside
  have hcoherent := h.coherent
  unfold Meets
  cases hf : j.frames with
  | nil =>
      cases hc : j.current with
      | nil =>
          rw [takeFront_on_end hf hc]
          refine ⟨rfl, hcoherent, hbeside, ?_⟩
          rw [Input.oncoming, Input.held, huj, hf, h.ended hf hc]
          rfl
      | cons c r =>
          rw [takeFront_on_line hf hc]
          refine ⟨rfl, ⟨hcoherent.spent, hcoherent.lines, hcoherent.ended⟩,
            hbeside.trans ⟨rfl, rfl, rfl, rfl⟩, ?_⟩
          show j.unread ++ j.frames.flatMap _ ++ (r ++ j.queue.flatten) = j.oncoming.tail
          rw [Input.oncoming, Input.held, huj, hf, Input.left, hc]
          rfl
  | cons f fs =>
      obtain ⟨hspent, hspents⟩ := List.forall_mem_cons.mp (hf ▸ hcoherent.spent)
      cases hr : f.rest with
      | nil =>
          rw [takeFront_on_blank hf hr]
          refine ⟨by simp [hr], ⟨List.forall_mem_cons.mpr ⟨fun _ => hr, hspents⟩, hcoherent.lines,
            hcoherent.ended⟩, hbeside.trans ⟨rfl, rfl, rfl, rfl⟩, ?_⟩
          simp [Input.oncoming, Input.held, Input.left, noted, huj, hf, AliasFrame.ahead, hr,
            h.spent_eq_false hf hr]
      | cons c r =>
          have hfs : f.spent = false := by
            by_contra hs
            exact absurd (hspent (Bool.not_eq_false _ ▸ hs)) (by simp [hr])
          rw [takeFront_on_alias hf hr]
          have hspents' : f.spent = true → r = [] := fun hs => absurd hs (by simp [hfs])
          refine ⟨by simp [hr], ⟨List.forall_mem_cons.mpr ⟨hspents', hspents⟩, hcoherent.lines,
            hcoherent.ended⟩, hbeside.trans ⟨rfl, rfl, rfl, rfl⟩, ?_⟩
          simp [Input.oncoming, Input.held, Input.left, noted, huj, hf, AliasFrame.ahead, hr, hfs]

/-- The next character is taken. -/
theorem Coherent.next (h : Coherent i) :
    Meets (fun _ _ => i.closed = false ∧ i.oncoming = []) (fun c j => c = i.oncoming.head? ∧
      Coherent j ∧ SameBeside i j ∧ j.oncoming = i.oncoming.tail) next i := by
  cases hu : i.unread with
  | cons c r =>
      unfold Meets
      rw [next_on_unread hu]
      refine ⟨by simp [Input.oncoming, Input.held, hu], ⟨h.spent, h.lines, h.ended⟩,
        ⟨rfl, rfl, rfl, rfl⟩, ?_⟩
      rw [Input.oncoming, Input.oncoming, Input.held, Input.held, hu]
      rfl
  | nil =>
      have hfill := h.fill
      rw [hu] at hfill
      unfold Meets
      rw [next_on_filled hu]
      exact hfill.bind fun _ j hj => hj.takeFront hu _

theorem Coherent.of_next (hi : Coherent i) (hj : Reader.next.on i = (.ok (some c), j)) :
    Coherent j ∧ i.oncoming = c :: j.oncoming := by
  obtain ⟨hc, hcoherent, -, hon⟩ := hi.next.value hj
  obtain ⟨t, ht⟩ := List.head?_eq_some_iff.mp hc.symm
  rw [ht] at hon ⊢
  exact ⟨hcoherent, congrArg (c :: ·) hon.symm⟩

/-- The next character of a text is taken. -/
theorem Coherent.next_on_cons (hi : Coherent i) {t : Text} (ht : i.oncoming = c :: t) :
    ∃ j, Reader.next.on i = (.ok (some c), j) ∧ Coherent j ∧ SameBeside i j ∧ j.oncoming = t := by
  obtain ⟨o, j, hj, rfl, hcoherent, hbeside, hon⟩ := hi.next.sure (by simp [ht])
  rw [ht] at hj hon
  exact ⟨j, hj, hcoherent, hbeside, hon⟩

/-- The end is met where no line can follow. -/
theorem Coherent.next_on_nil (hi : Coherent i) (hend : i.oncoming = []) (hclosed : i.closed = true) :
    ∃ j, Reader.next.on i = (.ok none, j) ∧ Coherent j ∧ SameBeside i j ∧ j.oncoming = [] := by
  obtain ⟨o, j, hj, rfl, hcoherent, hbeside, hon⟩ := hi.next.sure (by simp [hclosed])
  rw [hend] at hj hon
  exact ⟨j, hj, hcoherent, hbeside, hon⟩

/-! ## Other readers -/

theorem Coherent.of_position (h : Coherent i) (hsame : j.position = i.position) : Coherent j := by
  obtain ⟨hframes, -, hqueue, -, hend, -⟩ := by simpa [Input.position] using hsame
  exact ⟨hframes ▸ h.spent, hqueue ▸ h.lines, hend ▸ hqueue ▸ h.ended⟩

/-- The reader leaves an end of the lines. -/
def LeavesEnd (r : Reader α) : Prop :=
  ∀ i, Coherent i → Coherent (r.on i).2 ∧ (r.on i).2.left <:+ i.left

theorem LeavesEnd.shows {r : Reader α} (h : LeavesEnd r) (hi : Coherent i) :
    Shows (fun a j => r.on i = (.ok a, j) ∧ Coherent j ∧ j.left <:+ i.left) r i := by
  have hj := h i hi
  unfold Shows Meets
  generalize r.on i = outcome at hj
  obtain ⟨o, j⟩ := outcome
  cases o with
  | ok a => exact ⟨rfl, hj⟩
  | error e => trivial

theorem leavesEnd_aside (r : Reader α) [h : Aside r] : LeavesEnd r := by
  intro i hi
  have hsame := h.position i
  refine ⟨hi.of_position hsame, ?_⟩
  obtain ⟨-, hcurrent, hqueue, -⟩ := by simpa [Input.position] using hsame
  have hleft : i.left = (r.on i).2.left := by rw [Input.left, Input.left, hcurrent, hqueue]
  exact hleft ▸ List.suffix_refl _

theorem LeavesEnd.bind {x : Reader α} {f : α → Reader β} (hx : LeavesEnd x)
    (hf : ∀ a, LeavesEnd (f a)) : LeavesEnd (x >>= f) := by
  intro i hi
  obtain ⟨hj, hleft⟩ := hx i hi
  rw [Reader.on_bind]
  generalize x.on i = outcome at hj hleft
  obtain ⟨r, j⟩ := outcome
  cases r with
  | ok a => exact ⟨(hf a j hj).1, (hf a j hj).2.trans hleft⟩
  | error e => exact ⟨hj, hleft⟩

theorem leavesEnd_fillLine : LeavesEnd fillLine := by
  intro i hi
  cases hheld : i.holdsText with
  | true =>
      rw [fillLine_on_held hheld]
      exact ⟨hi, List.suffix_refl _⟩
  | false =>
      obtain ⟨-, hc, hend⟩ := Input.holdsText_eq_false hheld
      cases hq : i.queue with
      | cons l ls =>
          rw [fillLine_on_line hheld hq]
          have hlines : [] ∉ ls := fun h => hi.lines (hq ▸ List.mem_cons_of_mem l h)
          refine ⟨⟨hi.spent, hlines, fun h => nomatch hend.symm.trans h⟩, ?_⟩
          have hleft : i.left = (i.withLine l ls).left := by
            simp [Input.left, Input.withLine, hc, hq]
          exact hleft ▸ List.suffix_refl _
      | nil =>
          cases hclosed : i.closed with
          | true =>
              rw [fillLine_on_end hheld hq hclosed]
              exact ⟨⟨hi.spent, hi.lines, fun _ => hq⟩, List.suffix_refl _⟩
          | false =>
              rw [fillLine_on_open hheld hq hclosed]
              exact ⟨hi, List.suffix_refl _⟩

theorem leavesEnd_fill : LeavesEnd fill :=
  fun _ hi => leavesEnd_fillLine _ hi.settled

theorem leavesEnd_peek : LeavesEnd peek := by
  intro i hi
  cases hu : i.unread with
  | cons c r =>
      rw [peek_on_unread hu]
      exact ⟨hi, List.suffix_refl _⟩
  | nil =>
      rw [peek_on_filled hu]
      refine LeavesEnd.bind leavesEnd_fill (fun _ => ?_) i hi
      exact fun j hj => ⟨hj, List.suffix_refl _⟩

theorem leavesEnd_takeFront : LeavesEnd takeFront := by
  intro i hi
  cases hf : i.frames with
  | nil =>
      cases hc : i.current with
      | nil =>
          rw [takeFront_on_end hf hc]
          exact ⟨hi, List.suffix_refl _⟩
      | cons c r =>
          rw [takeFront_on_line hf hc]
          refine ⟨⟨hi.spent, hi.lines, hi.ended⟩, ?_⟩
          rw [Input.left, Input.left, hc]
          exact List.suffix_cons c _
  | cons f fs =>
      obtain ⟨hspent, hspents⟩ := List.forall_mem_cons.mp (hf ▸ hi.spent)
      cases hr : f.rest with
      | cons c r =>
          rw [takeFront_on_alias hf hr]
          have hnot : f.spent ≠ true := fun hs => absurd (hspent hs) (by simp [hr])
          refine ⟨⟨List.forall_mem_cons.mpr ⟨fun hs => absurd hs hnot, hspents⟩, hi.lines, hi.ended⟩, ?_⟩
          exact List.suffix_refl _
      | nil =>
          rw [takeFront_on_blank hf hr]
          refine ⟨⟨List.forall_mem_cons.mpr ⟨fun _ => hr, hspents⟩, hi.lines, hi.ended⟩, ?_⟩
          exact List.suffix_refl _

theorem leavesEnd_next : LeavesEnd next := by
  intro i hi
  cases hu : i.unread with
  | cons c r =>
      rw [next_on_unread hu]
      exact ⟨⟨hi.spent, hi.lines, hi.ended⟩, List.suffix_refl _⟩
  | nil =>
      rw [next_on_filled hu]
      exact LeavesEnd.bind leavesEnd_fill (fun _ => leavesEnd_takeFront) i hi

/-- Readers leave an end of the lines, whatever aliases they start. -/
def endLaw : Law where
  Obeyed := LeavesEnd
  aside r _ _ := leavesEnd_aside r
  nested _ _ _ _ _ := leavesEnd_aside _
  bind := LeavesEnd.bind
  peek := leavesEnd_peek
  next := leavesEnd_next
  putBack i hi := ⟨⟨hi.spent, hi.lines, hi.ended⟩, List.suffix_refl _⟩
  expand name x y hx hy i hi := by
    rw [Reader.on_bind, aliasText?_on]
    dsimp only
    split
    · exact hx i hi
    · rename_i text htext
      have hpushed : Coherent ((pushAlias name text).on i).2 :=
        ⟨List.forall_mem_cons.mpr ⟨nofun, hi.spent⟩, hi.lines, hi.ended⟩
      exact hy _ hpushed

/-! ## Without aliases -/

theorem Excerpt.oncoming (h : Excerpt 0 [] i i) : i.oncoming = i.ahead := by
  rw [Input.oncoming, Input.held, h.long.frames]
  simp [Input.ahead]

/-- A text that is read by itself with no alias defined. -/
theorem excerpt_nested (hempty : i.aliases = .empty) (t : Text) (line : Nat) :
    Excerpt 0 [] (i.nested [] t line) (i.nested [] t line) := by
  have halone : Alone (i.nested [] t line) := by
    have hlined : Lined .empty t line (i.nested [] t line) := by
      rw [Input.nested, hempty]
      exact { lined_ofText .empty t line with }
    exact .of_lined hlined rfl
  exact {
    pushback := rfl
    pending := rfl
    bodies := rfl
    nextTicket := rfl
    unasked := fun _ => ⟨rfl, rfl⟩
    long := halone
    short := halone
    ahead := (List.append_nil _).symm
    line := rfl }

end CommandShell.Script
