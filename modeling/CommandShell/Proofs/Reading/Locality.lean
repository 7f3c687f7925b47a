import CommandShell.Proofs.Reading.Laws

/-!
# Reading depends on the lines that it takes

A reader takes lines one after the other, and knows nothing of those that it did not take. So with
other lines after its own it does the same (`Local`), unless it needed a line that was not there:
then the run that has more lines took one of these, or met the end of the input.
-/

namespace CommandShell.Script

open Reader

variable {α β : Type} {i : Input}

/-- The end of the input was met, or lines out of `more` were taken. -/
def Input.WentInto (more : List Text) (j : Input) : Prop :=
  j.atEnd = true ∨ j.queue.length < more.length

/-- A reader that depends on the lines it takes. -/
structure Local (r : Reader α) : Prop where
  closed : ∀ i, (r.on i).2.closed = i.closed
  queue : ∀ i, (r.on i).2.queue <:+ i.queue
  atEnd : ∀ i, i.atEnd = true → (r.on i).2.atEnd = true
  /-- The end is not met as long as a line may follow. -/
  opened : ∀ i, i.closed = false → i.atEnd = false → (r.on i).2.atEnd = false
  followedBy : ∀ i more closed, i.closed = false →
    r.on (i.followedBy more closed) = ((r.on i).1, (r.on i).2.followedBy more closed) ∨
    (r.on i).1 = .error .needLine ∧
      ((r.on (i.followedBy more closed)).1 = .error .needLine ∨
        (r.on (i.followedBy more closed)).2.WentInto more)

/-! ## The law -/

theorem local_aside (r : Reader α) [h : Aside r] : Local r where
  closed i := congrArg (fun p => p.2.2.2.1) (h.position i)
  queue i := by
    have hqueue : (r.on i).2.queue = i.queue := congrArg (fun p => p.2.2.1) (h.position i)
    exact hqueue ▸ List.suffix_refl _
  atEnd i hi := (congrArg (fun p => p.2.2.2.2.1) (h.position i)).trans hi
  opened i _ hi := (congrArg (fun p => p.2.2.2.2.1) (h.position i)).trans hi
  followedBy i more closed _ := .inl (h.followedBy i more closed)

theorem Local.bind {x : Reader α} {f : α → Reader β} (hx : Local x) (hf : ∀ a, Local (f a)) :
    Local (x >>= f) where
  closed i := by
    have h := hx.closed i
    rw [Reader.on_bind]
    generalize x.on i = u at h
    obtain ⟨r, j⟩ := u
    cases r with
    | ok a => exact ((hf a).closed j).trans h
    | error e => exact h
  queue i := by
    have h := hx.queue i
    rw [Reader.on_bind]
    generalize x.on i = u at h
    obtain ⟨r, j⟩ := u
    cases r with
    | ok a => exact ((hf a).queue j).trans h
    | error e => exact h
  atEnd i hi := by
    have h := hx.atEnd i hi
    rw [Reader.on_bind]
    generalize x.on i = u at h
    obtain ⟨r, j⟩ := u
    cases r with
    | ok a => exact (hf a).atEnd j h
    | error e => exact h
  opened i hopen hi := by
    have hj := hx.opened i hopen hi
    have hopen := (hx.closed i).trans hopen
    rw [Reader.on_bind]
    generalize x.on i = u at hj hopen
    obtain ⟨r, j⟩ := u
    cases r with
    | ok a => exact (hf a).opened j hopen hj
    | error e => exact hj
  followedBy i more closed hi := by
    have hopen := hx.closed i
    have h := hx.followedBy i more closed hi
    rw [Reader.on_bind, Reader.on_bind]
    generalize x.on i = u at h hopen
    obtain ⟨r, j⟩ := u
    rcases h with h | ⟨hneed, h⟩
    · rw [h]
      cases r with
      | ok a => exact (hf a).followedBy j more closed (hopen.trans hi)
      | error e => exact .inl rfl
    · obtain rfl : r = .error .needLine := hneed
      refine .inr ⟨rfl, ?_⟩
      generalize x.on (i.followedBy more closed) = v at h
      obtain ⟨s, k⟩ := v
      dsimp only at h
      cases s with
      | error e =>
          rcases h with h | h
          · obtain rfl := Except.error.inj h
            exact .inl rfl
          · exact .inr h
      | ok a =>
          -- what was taken stays taken
          rcases h with h | hend | hless
          · exact nomatch h
          · exact .inr (.inl ((hf a).atEnd k hend))
          · exact .inr (.inr (Nat.lt_of_le_of_lt ((hf a).queue k).length_le hless))

/-- A look at what the lines that follow do not show in. -/
theorem Local.get_bind {f : Input → Reader α}
    (hsame : ∀ i more closed, f (i.followedBy more closed) = f i) (hf : ∀ i, Local (f i)) :
    Local (get >>= f) where
  closed i := (hf i).closed i
  queue i := (hf i).queue i
  atEnd i := (hf i).atEnd i
  opened i := (hf i).opened i
  followedBy i more closed hi := by
    rw [Reader.on_get, Reader.on_get, hsame]
    exact (hf i).followedBy i more closed hi

/-- A change of the input that leaves the lines alone. -/
theorem Local.of_same {r : Reader α}
    (hsame : ∀ i, (r.on i).2.closed = i.closed ∧ (r.on i).2.queue = i.queue ∧
      (r.on i).2.atEnd = i.atEnd)
    (hfollowed : ∀ i more closed,
      r.on (i.followedBy more closed) = ((r.on i).1, (r.on i).2.followedBy more closed)) :
    Local r where
  closed i := (hsame i).1
  queue i := (hsame i).2.1.symm ▸ List.suffix_refl _
  atEnd i hi := (hsame i).2.2.trans hi
  opened i _ hi := (hsame i).2.2.trans hi
  followedBy i more closed _ := .inl (hfollowed i more closed)

/-! ## Taking lines -/

/-- No line is taken: an alias is being read, or the current line, or the end was met. -/
def Input.holdsText (i : Input) : Bool := !i.frames.isEmpty || !i.current.isEmpty || i.atEnd

/-- The input with its next line made the current one. -/
def Input.withLine (i : Input) (l : Text) (ls : List Text) : Input :=
  { i with
    current := l, queue := ls, primary := false
    shown := if i.verbose then l :: i.shown else i.shown }

theorem fillLine_on_held (h : i.holdsText = true) : fillLine.on i = (.ok (), i) := by
  unfold fillLine
  rw [Reader.on_get]
  exact congrFun (if_pos h) i

theorem fillLine_on_line (h : i.holdsText = false) {l : Text} {ls : List Text}
    (hq : i.queue = l :: ls) : fillLine.on i = (.ok (), i.withLine l ls) := by
  unfold fillLine
  rw [Reader.on_get, hq]
  exact congrFun (if_neg (Bool.eq_false_iff.mp h)) i

theorem fillLine_on_end (h : i.holdsText = false) (hq : i.queue = []) (hc : i.closed = true) :
    fillLine.on i = (.ok (), { i with atEnd := true, primary := false }) := by
  unfold fillLine
  rw [Reader.on_get, hq, hc]
  exact congrFun (if_neg (Bool.eq_false_iff.mp h)) i

theorem fillLine_on_open (h : i.holdsText = false) (hq : i.queue = []) (hc : i.closed = false) :
    fillLine.on i = (.error .needLine, i) := by
  unfold fillLine
  rw [Reader.on_get, hq, hc]
  exact congrFun (if_neg (Bool.eq_false_iff.mp h)) i

theorem local_fillLine : Local fillLine where
  closed i := by
    cases h : i.holdsText with
    | true => rw [fillLine_on_held h]
    | false =>
        cases hq : i.queue with
        | cons l ls => exact congrArg (fun o => o.2.closed) (fillLine_on_line h hq)
        | nil =>
            cases hc : i.closed with
            | true =>
                rw [fillLine_on_end h hq hc]
                exact hc
            | false =>
                rw [fillLine_on_open h hq hc]
                exact hc
  queue i := by
    cases h : i.holdsText with
    | true => simp [fillLine_on_held h]
    | false =>
        cases hq : i.queue with
        | cons l ls =>
            rw [fillLine_on_line h hq]
            exact List.suffix_cons l ls
        | nil =>
            cases hc : i.closed with
            | true =>
                rw [fillLine_on_end h hq hc]
                exact hq ▸ List.suffix_refl _
            | false =>
                rw [fillLine_on_open h hq hc]
                exact hq ▸ List.suffix_refl _
  atEnd i hi := by
    rw [fillLine_on_held (by simp [Input.holdsText, hi])]
    exact hi
  opened i hopen hi := by
    cases h : i.holdsText with
    | true =>
        rw [fillLine_on_held h]
        exact hi
    | false =>
        cases hq : i.queue with
        | cons l ls =>
            rw [fillLine_on_line h hq]
            exact hi
        | nil =>
            rw [fillLine_on_open h hq hopen]
            exact hi
  followedBy i more closed hi := by
    have hsame : (i.followedBy more closed).holdsText = i.holdsText := rfl
    cases h : i.holdsText with
    | true =>
        rw [fillLine_on_held h, fillLine_on_held (hsame.trans h)]
        exact .inl rfl
    | false =>
        have h' := hsame.trans h
        cases hq : i.queue with
        | cons l ls =>
            have hq' : (i.followedBy more closed).queue = l :: (ls ++ more) :=
              congrArg (· ++ more) hq
            rw [fillLine_on_line h hq, fillLine_on_line h' hq']
            exact .inl rfl
        | nil =>
            -- what the other run does is up to the lines that follow
            refine .inr ⟨congrArg Prod.fst (fillLine_on_open h hq hi), ?_⟩
            have hq' : (i.followedBy more closed).queue = more := congrArg (· ++ more) hq
            cases more with
            | cons l ls =>
                rw [fillLine_on_line h' hq']
                exact .inr (.inr (Nat.lt_succ_self _))
            | nil =>
                cases closed with
                | true =>
                    rw [fillLine_on_end h' hq' rfl]
                    exact .inr (.inl rfl)
                | false =>
                    rw [fillLine_on_open h' hq' rfl]
                    exact .inl rfl

theorem local_fill : Local fill := by
  refine Local.bind (Local.of_same (fun _ => ⟨rfl, rfl, rfl⟩) fun _ _ _ => rfl) fun _ => ?_
  exact local_fillLine

theorem local_peek : Local peek := by
  refine Local.get_bind (fun _ _ _ => rfl) fun i => ?_
  split
  · exact local_aside _
  · refine Local.bind local_fill fun _ => Local.get_bind (fun _ _ _ => rfl) fun j => ?_
    split <;> exact local_aside _

/-- Takes a character that was put back. -/
def takeUnread : Reader (Option Char) := do
  let i ← get
  set { i with unread := i.unread.tail }
  return i.unread.head?

theorem next_eq : next = (do
    match ← takeUnread with
    | some c =>
      note c
      return some c
    | none =>
      fill
      takeFront) := by
  funext i
  cases hu : i.unread with
  | cons c r =>
      cases i
      cases hu
      rfl
  | nil =>
      cases i
      cases hu
      rfl

theorem local_note (c : Char) : Local (note c) :=
  Local.of_same (fun _ => ⟨rfl, rfl, rfl⟩) fun _ _ _ => rfl

theorem local_takeFront : Local takeFront := by
  refine Local.of_same (fun i => ?_) fun i more closed => ?_
  · unfold takeFront
    rw [Reader.on_get]
    split
    · split <;> exact ⟨rfl, rfl, rfl⟩
    · split <;> exact ⟨rfl, rfl, rfl⟩
  · have hframes : (i.followedBy more closed).frames = i.frames := rfl
    have hcurrent : (i.followedBy more closed).current = i.current := rfl
    unfold takeFront
    rw [Reader.on_get, Reader.on_get, hframes, hcurrent]
    cases i.frames with
    | nil => cases i.current <;> rfl
    | cons f fs =>
        cases hr : f.rest with
        | nil => simp only [hr]; rfl
        | cons c r => simp only [hr]; rfl

theorem local_next : Local next := by
  rw [next_eq]
  refine Local.bind (Local.of_same (fun _ => ⟨rfl, rfl, rfl⟩) fun _ _ _ => rfl) fun c => ?_
  split
  · exact Local.bind (local_note _) fun _ => local_aside _
  · exact Local.bind local_fill fun _ => local_takeFront

/-- Every reader depends on the lines that it takes. -/
def localLaw : Law where
  Obeyed := Local
  aside r _ _ := local_aside r
  nested _ _ _ _ _ := local_aside _
  bind := Local.bind
  peek := local_peek
  next := local_next
  putBack := Local.of_same (fun _ => ⟨rfl, rfl, rfl⟩) fun _ _ _ => rfl
  expand name _ _ hx hy := by
    refine Local.bind (local_aside (aliasText? name)) fun text => ?_
    cases text with
    | none => exact hx
    | some text =>
        exact Local.bind (Local.of_same (fun _ => ⟨rfl, rfl, rfl⟩) fun _ _ _ => rfl) fun _ => hy

theorem local_parseTop (n : Nat) : Local (parseTop n) := (readersObey localLaw n).parseTop.holds

end CommandShell.Script
