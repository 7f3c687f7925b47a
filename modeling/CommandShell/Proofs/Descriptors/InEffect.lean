import CommandShell.Proofs.Descriptors.Successes

/-!
# Redirections in effect

Inside a construct with redirections each descriptor stands for what the list of redirections says.
The list knows nothing of the copies that the shell keeps: `SlotChange` is what one redirection does
to a table, and `applied` makes the changes from left to right. A `Course` is a run of redirections
with the change that each of them makes, which is the file that it opened in this run or the number
that its word came to.

The table of the shell and the one that the list describes are the same but for the copies that the
construct keeps for itself (`ShowsBut`). These stand at numbers from `saveFloor` on, and a
redirection that copies one of them finds a descriptor that the list does not know
(`not_redirections_as_listed`). If no redirection does so, the list can be applied, the shell shows
what comes of it, and the next `>&` or `<&` refuses a number as a bad descriptor if and only if the
number is closed there (`redirections_as_listed`).

Every run of redirections that succeeds is a course (`endsAt_applyRedirects`), one that fails is a
course up to the redirection that failed (`endsAt_applyRedirects_error`), and the body of a
construct starts where such a course ends (`endsAt_withRedirects`).
-/

namespace CommandShell.Shell

open Host (Program FileTable FileMap Limits)
open Script (Word Redirect RedirectOp)
open Expansion

variable {α : Type} {L : Limits} {ev : Evaluator} {w : Holdings}

/-! ## The table that the list describes -/

/-- What a redirection does to a table. -/
inductive SlotChange where
  | opens (fd file : Nat)
  | copies (fd source : Nat)
  | closes (fd : Nat)

/-- The table after a change; none if there is nothing to be copied. -/
def SlotChange.apply : SlotChange → FileMap → Option FileMap
  | .opens fd file, f => some (Function.update f fd (some file))
  | .copies fd source, f => (f source).map fun file => Function.update f fd (some file)
  | .closes fd, f => some (Function.update f fd none)

/-- The table after some changes, made from left to right. -/
def applied : List SlotChange → FileMap → Option FileMap
  | [], f => some f
  | change :: changes, f => (change.apply f).bind (applied changes)

/-- The numbers at which the newest construct keeps copies; none if nothing is to be put back. -/
def ownCopies (save : Bool) (saved : List (List SavedDescriptor)) : List Nat :=
  if save then (saved.headD []).filterMap SavedDescriptor.copy else []

/-- A table shows another one if it has nothing in addition but copies of the shell's own. -/
def ShowsBut (own : List Nat) (g f : FileMap) : Prop :=
  ∀ fd, f fd = g fd ∨ fd ∈ own ∧ g fd = none

section

variable {own own' : List Nat} {f g : FileMap} {fd : Nat}

theorem ShowsBut.eq (h : ShowsBut own g f) (hfd : fd ∉ own) : f fd = g fd := by
  rcases h fd with heq | ⟨hown, -⟩
  · exact heq
  · exact absurd hown hfd

theorem ShowsBut.mono (h : ShowsBut own g f) (hown : own ⊆ own') : ShowsBut own' g f := by
  intro fd
  rcases h fd with heq | ⟨hfd, hnone⟩
  · exact .inl heq
  · exact .inr ⟨hown hfd, hnone⟩

/-- What is free in a table is free in the one that it shows. -/
theorem ShowsBut.free (h : ShowsBut own g f) (hfd : f fd = none) : g fd = none := by
  rcases h fd with heq | ⟨-, hnone⟩
  · rw [← heq, hfd]
  · exact hnone

theorem ShowsBut.update (h : ShowsBut own g f) (fd : Nat) (x : Option Nat) :
    ShowsBut own (Function.update g fd x) (Function.update f fd x) := by
  intro n
  by_cases hn : n = fd
  · subst hn
    simp
  · rw [Function.update_of_ne hn, Function.update_of_ne hn]
    exact h n

/-- A new copy is of no concern to the table that is shown. -/
theorem ShowsBut.copy (h : ShowsBut own g f) (hown : own ⊆ own') (hfd : fd ∈ own')
    (hfree : f fd = none) (x : Option Nat) : ShowsBut own' g (Function.update f fd x) := by
  intro n
  by_cases hn : n = fd
  · subst hn
    exact .inr ⟨hfd, h.free hfree⟩
  · rw [Function.update_of_ne hn]
    exact h.mono hown n

end

/-! ## Putting aside -/

/-- Puts a descriptor aside if it is to be put back. -/
def putAside (save : Bool) (fd : Nat) : ShellM Unit := if save then saveDescriptor fd else pure ()

/-- What is put aside is copied to numbers of the shell's own. -/
structure KeepsAside (save : Bool) (w w' : Holdings) : Prop where
  grows : ownCopies save w.saved ⊆ ownCopies save w'.saved
  high : ∀ fd ∈ ownCopies save w'.saved, fd ∈ ownCopies save w.saved ∨ saveFloor ≤ fd

theorem KeepsAside.of_saved {save : Bool} {w w' : Holdings} (h : w'.saved = w.saved) :
    KeepsAside save w w' := by
  constructor
  · rw [h]
    exact List.Subset.refl _
  · rw [h]
    exact fun _ hfd => .inl hfd

theorem KeepsAside.trans {save : Bool} {w w' w'' : Holdings} (h : KeepsAside save w w')
    (h' : KeepsAside save w' w'') : KeepsAside save w w'' := by
  constructor
  · exact List.Subset.trans h.grows h'.grows
  · intro fd hfd
    rcases h'.high fd hfd with hmem | hle
    · exact h.high fd hmem
    · exact .inr hle

/-- What putting a descriptor aside adds: nothing, an entry for a closed descriptor, or an entry and
the copy that it names. -/
theorem ends_saveDescriptor_adds {frame : List SavedDescriptor} {rest : List (List SavedDescriptor)}
    (hsaved : w.saved = frame :: rest) (fd : Nat) :
    Ends L (saveDescriptor fd) w fun _ w' => w.Same w' ∨
      ∃ copy, w'.saved = (⟨fd, copy⟩ :: frame) :: rest ∧ match copy with
        | none => w'.files = w.files
        | some k => saveFloor ≤ k ∧ w.files k = none ∧
          ∃ n, w'.files = Function.update w.files k (some n) := by
  refine ends_get_bind fun s hs => ?_
  rw [hs.trans hsaved]
  dsimp only
  split
  · exact ends_pure (.inl (.refl w))
  refine (gives_isOpen fd).bind fun isOpen w₁ h₁ => ?_
  obtain ⟨-, hsame⟩ := h₁
  split
  · rw [bind_map_left]
    refine (ends_copyHigh fd).bind ?_ fun e w₂ h₂ => .inl (hsame.trans h₂)
    intro k w₂ hgains
    obtain ⟨hfloor, hfree, -, n, -, hfiles⟩ := Gains.after hgains hsame
    refine (gives_modify ((⟨fd, some k⟩ :: frame) :: rest) fun _ _ => rfl).ends ?_
    rintro _ _ rfl
    exact .inr ⟨some k, rfl, hfloor, hfree, n, hfiles⟩
  · rw [pure_bind]
    refine (gives_modify ((⟨fd, none⟩ :: frame) :: rest) fun _ _ => rfl).ends ?_
    rintro _ _ rfl
    exact .inr ⟨none, rfl, hsame.files⟩

/-- Putting aside changes nothing that the list describes. -/
theorem ends_putAside (save : Bool) (fd : Nat) :
    Ends L (putAside save fd) w fun _ w' => KeepsAside save w w' ∧
      ∀ g, ShowsBut (ownCopies save w.saved) g w.files →
        ShowsBut (ownCopies save w'.saved) g w'.files := by
  have hsame : ∀ {w' : Holdings}, w.Same w' → KeepsAside save w w' ∧
      ∀ g, ShowsBut (ownCopies save w.saved) g w.files →
        ShowsBut (ownCopies save w'.saved) g w'.files := by
    intro w' h
    refine ⟨.of_saved h.saved, fun g hg => ?_⟩
    rw [h.saved, h.files]
    exact hg
  cases save with
  | false => exact ends_pure (hsame (.refl w))
  | true =>
      show Ends L (saveDescriptor fd) w _
      rcases hsaved : w.saved with _ | ⟨frame, rest⟩
      · refine ends_get_bind fun s hs => ?_
        rw [hs, hsaved]
        exact ends_pure (hsaved ▸ hsame (.refl w))
      rw [← hsaved]
      refine (ends_saveDescriptor_adds hsaved fd).mono fun _ w' h => ?_
      rcases h with h | ⟨copy, hsaved', hfiles⟩
      · exact hsame h
      -- the new entry adds at most one number, which was free before
      have hown : ownCopies true w'.saved = copy.toList ++ ownCopies true w.saved := by
        rw [hsaved, hsaved']
        cases copy <;> rfl
      cases copy with
      | none =>
          have heq : ownCopies true w'.saved = ownCopies true w.saved := hown
          constructor
          · exact ⟨heq ▸ List.Subset.refl _, fun _ hfd => .inl (heq ▸ hfd)⟩
          · intro g hg
            rw [heq, hfiles]
            exact hg
      | some k =>
          obtain ⟨hfloor, hfree, n, hfiles⟩ := hfiles
          have heq : ownCopies true w'.saved = k :: ownCopies true w.saved := hown
          rw [hfiles]
          constructor
          · refine ⟨heq ▸ List.subset_cons_self .., fun x hx => ?_⟩
            rw [heq] at hx
            rcases List.mem_cons.mp hx with rfl | hx
            · exact .inr hfloor
            · exact .inl hx
          · intro g hg
            rw [heq]
            exact hg.copy (List.subset_cons_self ..) List.mem_cons_self hfree (some n)

/-! ## Numbers of descriptors -/

/-- Whether the word after an operator names a descriptor, or `-` for none. -/
def namesDescriptor : RedirectOp → Bool
  | .dupIn | .dupOut => true
  | _ => false

/-- What comes of copying the descriptor `source` for `fd`. -/
def Copied (fd source : Nat) (w : Holdings) : Except Stop Nat → Holdings → Prop
  | .error e, _ => e = Stop.ofFault (.badDescriptor (Text.ofNat source)) ↔ w.files source = none
  | .ok k, w' => (k ≠ fd → w.files k = none) ∧ w'.saved = w.saved ∧
    ∃ n, w.files source = some n ∧ w'.files = Function.update w.files k (some n)

/-- An open descriptor is copied, unless there is no room for the copy. -/
theorem ends_copyNamed_number {fd source : Nat} {t : Text}
    (ht : Numeral.int32? t = some (source : Int)) :
    Ends L (copyNamed fd t) w (Copied fd source w) := by
  unfold copyNamed
  rw [ht]
  refine (gives_isOpen source).bind fun isOpen w₁ h₁ => ?_
  obtain ⟨rfl, hsame⟩ := h₁
  dsimp only
  cases hfile : w.files source with
  | none =>
      refine ends_fail_bind ?_
      exact ⟨fun _ => hfile, fun _ => rfl⟩
  | some n =>
      -- the redirected descriptor itself serves as its own copy
      show Ends L (if source = fd then pure source else copyHigh source) w₁ _
      split
      · rename_i heq
        refine ends_pure ⟨fun hne => absurd heq hne, hsame.saved, n, hfile, ?_⟩
        rw [hsame.files, Function.update_eq_self_iff.mpr hfile.symm]
      · refine (gives_duplicate source saveFloor).bind fun reply w₂ h₂ => ?_
        rcases reply with e | k
        · refine ends_fail ⟨nofun, fun hclosed => ?_⟩
          rw [hfile] at hclosed
          cases hclosed
        · obtain ⟨-, hfree, hsaved, m, hm, hfiles⟩ := h₂.after hsame
          rw [hsame.files, hfile] at hm
          cases hm
          exact ends_pure ⟨fun _ => hfree, hsaved, n, hfile, hfiles⟩

/-- What the operators that copy a descriptor do with a word. -/
theorem openWord_copies {op : RedirectOp} (hop : namesDescriptor op = true) (fd : Nat) (t : Text) :
    openWord fd op t = if t = ['-'] then pure none else some <$> copyNamed fd t := by
  cases op with
  | dupIn | dupOut => rfl
  | _ => cases hop

theorem openWord_number {op : RedirectOp} {t : Text} {m : Int} (hop : namesDescriptor op = true)
    (hnumber : Numeral.int32? t = some m) (fd : Nat) :
    openWord fd op t = some <$> copyNamed fd t := by
  rw [openWord_copies hop, if_neg]
  rintro rfl
  cases hnumber

/-- A number is refused as a bad descriptor if and only if it is closed. -/
theorem ends_openWord_number {fd : Nat} {op : RedirectOp} {t : Text} {m : Int}
    (hop : namesDescriptor op = true) (hnumber : Numeral.int32? t = some m) :
    Ends L (openWord fd op t) w fun o _ =>
      (o = .error (Stop.ofFault (.badDescriptor (Text.ofInt m))) ↔
        ∀ k : Nat, m = k → w.files k = none) := by
  rw [openWord_number hop hnumber]
  cases m with
  | ofNat source =>
      refine .map ((ends_copyNamed_number hnumber).mono fun o w' h => ?_)
      have hclosed : (∀ k : Nat, Int.ofNat source = k → w.files k = none) ↔
          w.files source = none := by
        constructor
        · intro h
          exact h source rfl
        · intro h k hk
          obtain rfl := Int.ofNat.inj hk
          exact h
      rw [hclosed]
      cases o with
      | error e =>
          have hiff : e = Stop.ofFault (.badDescriptor (Text.ofNat source)) ↔ _ := h
          rw [← hiff]
          exact ⟨fun heq => Except.error.inj heq, fun heq => congrArg Except.error heq⟩
      | ok k =>
          obtain ⟨-, -, n, hn, -⟩ := h
          rw [hn]
          exact ⟨nofun, nofun⟩
  | negSucc n =>
      have hfail : copyNamed fd t = fail (.badDescriptor (Text.ofInt (.negSucc n))) := by
        unfold copyNamed
        rw [hnumber]
      rw [hfail]
      refine .map (ends_fail ?_)
      exact ⟨fun _ _ hk => (nomatch hk), fun _ => rfl⟩

/-! ## Courses -/

/-- The descriptor of a redirection has been put aside, and its word has come to a text. -/
def CameTo (L : Limits) (ev : Evaluator) (save : Bool) (fd : Nat) (word : Word) (t : Text)
    (c c' : Situation) : Prop :=
  ∃ c₁, EndsAt L (putAside save fd) c (.ok ()) c₁ ∧ EndsAt L (wordText ev word) c₁ (.ok t) c'

/-- A run of one redirection, with the change that it makes. -/
inductive Applies (L : Limits) (ev : Evaluator) (save : Bool) :
    Redirect → Situation → SlotChange → Situation → Prop where
  | file {r : Redirect} {c c₁ c₂ c' : Situation} {k n : Nat}
    (hop : ∀ fd op word, r = .word fd op word → namesDescriptor op = false)
    (haside : EndsAt L (putAside save r.fd) c (.ok ()) c₁)
    (hopen : EndsAt L (openTarget ev r) c₁ (.ok (some k)) c₂) (hfile : c₂.files k = some n)
    (hmove : EndsAt L (moveInto r.fd (some k)) c₂ (.ok ()) c') :
    Applies L ev save r c (.opens r.fd n) c'
  | copy {fd source k : Nat} {op : RedirectOp} {word : Word} {t : Text} {c c₁ c₂ c' : Situation}
    (hop : namesDescriptor op = true) (hword : CameTo L ev save fd word t c c₁)
    (hnumber : Numeral.int32? t = some (source : Int))
    (hcopy : EndsAt L (openWord fd op t) c₁ (.ok (some k)) c₂)
    (hmove : EndsAt L (moveInto fd (some k)) c₂ (.ok ()) c') :
    Applies L ev save (.word fd op word) c (.copies fd source) c'
  | close {fd : Nat} {op : RedirectOp} {word : Word} {c c₁ c' : Situation}
    (hop : namesDescriptor op = true) (hword : CameTo L ev save fd word ['-'] c c₁)
    (hmove : EndsAt L (moveInto fd none) c₁ (.ok ()) c') :
    Applies L ev save (.word fd op word) c (.closes fd) c'

/-- A run of some redirections, with the changes that they make. -/
inductive Course (L : Limits) (ev : Evaluator) (save : Bool) :
    List Redirect → Situation → List SlotChange → Situation → Prop where
  | nil (c : Situation) : Course L ev save [] c [] c
  | cons {r : Redirect} {rs : List Redirect} {c c₁ c' : Situation} {change : SlotChange}
    {changes : List SlotChange} (hr : Applies L ev save r c change c₁)
    (hrs : Course L ev save rs c₁ changes c') :
    Course L ev save (r :: rs) c (change :: changes) c'

/-- A situation shows every table that another one showed, and more may be put aside. -/
structure Carries (L : Limits) (save : Bool) (c c' : Situation) : Prop where
  fit : L.Fit c'.table
  aside : KeepsAside save c.holdings c'.holdings
  shows : ∀ g, ShowsBut (ownCopies save c.shell.saved) g c.files →
    ShowsBut (ownCopies save c'.shell.saved) g c'.files

section

variable {save : Bool} {fd : Nat} {r : Redirect} {rs : List Redirect} {c c₁ c' : Situation}
  {change : SlotChange} {changes : List SlotChange} {t : Text} {op : RedirectOp} {word : Word}

theorem EndsAt.carries_putAside (h : EndsAt L (putAside save fd) c (.ok ()) c')
    (hfit : L.Fit c.table) : Carries L save c c' := by
  obtain ⟨hfit', haside, hshows⟩ := h.holds (ends_putAside save fd) hfit
  exact ⟨hfit', haside, hshows⟩

theorem CameTo.carries (h : CameTo L ev save fd word t c c') (hfit : L.Fit c.table) :
    Carries L save c c' := by
  obtain ⟨c₁, haside, htext⟩ := h
  have h₁ := haside.carries_putAside hfit
  obtain ⟨hfit', hkeeps⟩ := htext.holds (KeepsFilesIfOk.ends _) h₁.fit
  have hsame := hkeeps rfl
  have hsaved : c'.shell.saved = c₁.shell.saved := hsame.saved
  have hfiles : c'.files = c₁.files := hsame.files
  refine ⟨hfit', h₁.aside.trans (.of_saved hsaved), fun g hg => ?_⟩
  rw [hsaved, hfiles]
  exact h₁.shows g hg

/-- Some changes are made to every table that is shown, if none of the shell's own copies is
copied. -/
structure Performs (L : Limits) (save : Bool) (changes : List SlotChange) (c c' : Situation) :
    Prop where
  fit : L.Fit c'.table
  aside : KeepsAside save c.holdings c'.holdings
  shows : ∀ g, ShowsBut (ownCopies save c.shell.saved) g c.files →
    (∀ fd source, .copies fd source ∈ changes → source ∉ ownCopies save c'.shell.saved) →
    ∃ g', applied changes g = some g' ∧ ShowsBut (ownCopies save c'.shell.saved) g' c'.files

theorem Performs.nil (hfit : L.Fit c.table) : Performs L save [] c c :=
  ⟨hfit, .of_saved rfl, fun g hg _ => ⟨g, rfl, hg⟩⟩

theorem Performs.cons (h : Performs L save [change] c c₁) (h' : Performs L save changes c₁ c') :
    Performs L save (change :: changes) c c' := by
  refine ⟨h'.fit, h.aside.trans h'.aside, fun g hg hown => ?_⟩
  -- the copies only get more, so what is none at the end was none after the first change
  obtain ⟨g₁, hg₁, hshows₁⟩ := h.shows g hg fun fd source hmem hsource => by
    rw [List.mem_singleton] at hmem
    exact hown fd source (hmem ▸ List.mem_cons_self) (h'.aside.grows hsource)
  obtain ⟨g', hg', hshows'⟩ := h'.shows g₁ hshows₁ fun fd source hmem =>
    hown fd source (List.mem_cons_of_mem change hmem)
  refine ⟨g', ?_, hshows'⟩
  obtain ⟨g₂, hg₂, heq⟩ := Option.bind_eq_some_iff.mp hg₁
  obtain rfl := Option.some.inj heq
  show (change.apply g).bind (applied changes) = _
  rw [hg₂]
  exact hg'

/-- The descriptor that a redirection names is changed last, after all that was done for it. -/
theorem Carries.performs (h : Carries L save c c₁) (hfit : L.Fit c'.table)
    (hsaved : c'.shell.saved = c₁.shell.saved) {x : Option Nat}
    (hfiles : c'.files = Function.update c₁.files fd x)
    (hchange : ∀ g, ShowsBut (ownCopies save c₁.shell.saved) g c₁.files →
      (∀ fd source, change = .copies fd source → source ∉ ownCopies save c₁.shell.saved) →
      change.apply g = some (Function.update g fd x)) :
    Performs L save [change] c c' := by
  refine ⟨hfit, h.aside.trans (.of_saved hsaved), fun g hg hown => ?_⟩
  rw [hsaved] at hown ⊢
  have hg₁ := h.shows g hg
  have happly := hchange g hg₁ fun fd source heq => hown fd source (heq ▸ List.mem_cons_self)
  refine ⟨Function.update g fd x, ?_, ?_⟩
  · show (change.apply g).bind some = _
    rw [happly]
    rfl
  · rw [hfiles]
    exact hg₁.update fd x

/-- What was opened is moved to the descriptor that the redirection names. -/
theorem Carries.moved {c₂ : Situation} {k n : Nat} (h : Carries L save c c₁) (hfit : L.Fit c₂.table)
    (hfree : k ≠ fd → c₁.holdings.files k = none) (hsaved : c₂.holdings.saved = c₁.holdings.saved)
    (hfiles : c₂.holdings.files = Function.update c₁.holdings.files k (some n))
    (hmove : EndsAt L (moveInto fd (some k)) c₂ (.ok ()) c')
    (hchange : ∀ g, ShowsBut (ownCopies save c₁.shell.saved) g c₁.files →
      (∀ fd source, change = .copies fd source → source ∉ ownCopies save c₁.shell.saved) →
      change.apply g = some (Function.update g fd (some n))) :
    Performs L save [change] c c' := by
  obtain ⟨hfit', hmoved⟩ := hmove.holds (ends_moveInto_ok hfree hsaved hfiles) hfit
  obtain ⟨hsaved', hfiles'⟩ := hmoved rfl
  exact h.performs hfit' hsaved' hfiles' hchange

/-- One redirection makes its change. -/
theorem Applies.performs (h : Applies L ev save r c change c') (hfit : L.Fit c.table) :
    Performs L save [change] c c' := by
  cases h with
  | @file _ _ c₁ c₂ _ k n _ haside hopen hfile hmove =>
      have h₁ := haside.carries_putAside hfit
      obtain ⟨hfit₂, hopens⟩ := hopen.holds (ends_openTarget_ok r) h₁.fit
      obtain ⟨hfree, hsaved, hfiles⟩ := (hopens rfl).of_file hfile
      exact h₁.moved hfit₂ hfree hsaved hfiles hmove fun g _ _ => rfl
  | @copy fd source k op word t _ c₁ c₂ _ hop hword hnumber hcopy hmove =>
      have h₁ := hword.carries hfit
      rw [openWord_number hop hnumber] at hcopy
      obtain ⟨k, heq, hcopy⟩ := endsAt_map_ok.mp hcopy
      cases heq
      obtain ⟨hfit₂, hfree, hsaved, n, hsource, hfiles⟩ :=
        hcopy.holds (ends_copyNamed_number hnumber) h₁.fit
      refine h₁.moved hfit₂ hfree hsaved hfiles hmove fun g hg hown => ?_
      -- the number means the same in both tables, as it is none of the shell's own
      have hgsource : g source = some n := (hg.eq (hown fd source rfl)).symm.trans hsource
      show (g source).map _ = _
      rw [hgsource]
      rfl
  | @close fd op word _ c₁ _ hop hword hmove =>
      have h₁ := hword.carries hfit
      have hclose : Ends L (moveInto fd none) c₁.holdings fun _ w' => Closes fd c₁.holdings w' :=
        (gives_close fd).bind fun _ _ hw' => ends_pure hw'.2
      obtain ⟨hfit', hclosed⟩ := hmove.holds hclose h₁.fit
      exact h₁.performs hfit' hclosed.saved hclosed.files fun g _ _ => rfl

/-- A course does to the table that is shown what its changes do, one after the other. -/
theorem Course.performs (h : Course L ev save rs c changes c') (hfit : L.Fit c.table) :
    Performs L save changes c c' := by
  induction h with
  | nil c => exact .nil hfit
  | cons hr _ ih =>
      have h₁ := hr.performs hfit
      exact h₁.cons (ih h₁.fit)

end

/-! ## Every run is a course -/

/-- What is done for one redirection. -/
def applyOne (ev : Evaluator) (save : Bool) (r : Redirect) : ShellM Unit := do
  putAside save r.fd
  moveInto r.fd (← openTarget ev r)

theorem applyRedirects_cons (ev : Evaluator) (save : Bool) (r : Redirect) (rs : List Redirect) :
    applyRedirects ev save (r :: rs) =
      applyOne ev save r >>= fun _ => applyRedirects ev save rs := by
  cases save with
  | false => simp [applyRedirects, applyOne, putAside]
  | true => simp [applyRedirects, applyOne, putAside]

section

variable {save : Bool} {fd : Nat} {r : Redirect} {rs : List Redirect} {c c₁ c' : Situation}
  {t : Text} {op : RedirectOp} {word : Word} {target : Option Nat}

theorem not_endsAt_fail {f : Fault} {a : α} : ¬ EndsAt L (fail f : ShellM α) c (.ok a) c' := by
  rintro ⟨heq, -⟩
  cases heq

/-- What the operators that copy a descriptor come to. -/
theorem endsAt_openWord_copies (hop : namesDescriptor op = true) :
    EndsAt L (openWord fd op t) c (.ok target) c' →
      (t = ['-'] ∧ target = none ∧ c' = c) ∨
      ∃ (source k : Nat), Numeral.int32? t = some (source : Int) ∧ target = some k := by
  rw [openWord_copies hop]
  intro h
  split at h
  · rename_i ht
    obtain ⟨heq, rfl⟩ := endsAt_pure.mp h
    exact .inl ⟨ht, Except.ok.inj heq, rfl⟩
  · obtain ⟨k, rfl, h⟩ := endsAt_map_ok.mp h
    unfold copyNamed at h
    split at h
    · exact absurd h not_endsAt_fail
    · exact absurd h not_endsAt_fail
    · rename_i source hnumber
      exact .inr ⟨source, k, hnumber, rfl⟩

/-- The other operators open something. -/
theorem endsAt_openWord_other (hop : namesDescriptor op = false) (hfit : L.Fit c.table)
    (h : EndsAt L (openWord fd op t) c (.ok target) c') : target ≠ none := by
  rintro rfl
  obtain ⟨-, -, hnone⟩ := h.holds (ends_openWord fd op t) hfit
  obtain ⟨-, rfl | rfl⟩ := hnone rfl
  · cases hop
  · cases hop

/-- A redirection that succeeds makes some change. -/
theorem endsAt_applyOne (hfit : L.Fit c.table) :
    EndsAt L (applyOne ev save r) c (.ok ()) c' ↔ ∃ change, Applies L ev save r c change c' := by
  constructor
  · intro h
    obtain ⟨_, c₁, haside, h⟩ := endsAt_bind_ok.mp h
    obtain ⟨target, c₂, hopen, hmove⟩ := endsAt_bind_ok.mp h
    have hfit₁ := (haside.carries_putAside hfit).fit
    -- whatever does not name a descriptor opens a file
    have hfile : (∀ fd op word, r = .word fd op word → namesDescriptor op = false) → target ≠ none →
        ∃ change, Applies L ev save r c change c' := by
      intro hop htarget
      obtain ⟨k, rfl⟩ := Option.ne_none_iff_exists'.mp htarget
      obtain ⟨n, hn⟩ := ((hopen.holds (ends_openTarget_ok r) hfit₁).2 rfl).exists_file
      exact ⟨_, .file hop haside hopen hn hmove⟩
    cases r with
    | hereDoc fd op doc =>
        refine hfile nofun ?_
        rintro rfl
        cases doc with
        | pending n => exact not_endsAt_fail hopen
        | body word =>
            obtain ⟨t, c₃, -, hopen⟩ := endsAt_bind_ok.mp hopen
            obtain ⟨k, heq, -⟩ := endsAt_map_ok.mp hopen
            cases heq
    | word fd op word =>
        obtain ⟨t, c₃, htext, hword⟩ := endsAt_bind_ok.mp hopen
        have hcame : CameTo L ev save fd word t c c₃ := ⟨c₁, haside, htext⟩
        cases hop : namesDescriptor op with
        | false =>
            refine hfile ?_ (endsAt_openWord_other hop (hcame.carries hfit).fit hword)
            rintro _ _ _ heq
            cases heq
            exact hop
        | true =>
            rcases endsAt_openWord_copies hop hword with ⟨rfl, rfl, rfl⟩ | ⟨source, k, hnumber, rfl⟩
            · exact ⟨_, .close hop hcame hmove⟩
            · exact ⟨_, .copy hop hcame hnumber hword hmove⟩
  · rintro ⟨change, h⟩
    cases h with
    | file hop haside hopen hfile hmove =>
        exact endsAt_bind_ok.mpr ⟨_, _, haside, endsAt_bind_ok.mpr ⟨_, _, hopen, hmove⟩⟩
    | copy hop hword hnumber hcopy hmove =>
        obtain ⟨c₁, haside, htext⟩ := hword
        have hopen := endsAt_bind_ok.mpr ⟨_, _, htext, hcopy⟩
        exact endsAt_bind_ok.mpr ⟨_, _, haside, endsAt_bind_ok.mpr ⟨_, _, hopen, hmove⟩⟩
    | @close fd op word _ c₂ _ hop hword hmove =>
        obtain ⟨c₁, haside, htext⟩ := hword
        have hclose : EndsAt L (openWord fd op ['-']) c₂ (.ok none) c₂ := by
          rw [openWord_copies hop, if_pos rfl]
          exact endsAt_pure.mpr ⟨rfl, rfl⟩
        have hopen := endsAt_bind_ok.mpr ⟨_, _, htext, hclose⟩
        exact endsAt_bind_ok.mpr ⟨_, _, haside, endsAt_bind_ok.mpr ⟨_, _, hopen, hmove⟩⟩

/-- The runs of redirections that succeed are the courses. -/
theorem endsAt_applyRedirects (hfit : L.Fit c.table) :
    EndsAt L (applyRedirects ev save rs) c (.ok ()) c' ↔
      ∃ changes, Course L ev save rs c changes c' := by
  induction rs generalizing c with
  | nil =>
      constructor
      · intro h
        obtain ⟨-, rfl⟩ := endsAt_pure.mp h
        exact ⟨[], .nil c'⟩
      · rintro ⟨_, h⟩
        cases h
        exact endsAt_pure.mpr ⟨rfl, rfl⟩
  | cons r rs ih =>
      rw [applyRedirects_cons, endsAt_bind_ok]
      constructor
      · rintro ⟨_, c₁, hr, hrs⟩
        obtain ⟨change, hr⟩ := (endsAt_applyOne hfit).mp hr
        obtain ⟨changes, hrs⟩ := (ih (hr.performs hfit).fit).mp hrs
        exact ⟨_, .cons hr hrs⟩
      · rintro ⟨_, h⟩
        cases h with
        | @cons _ _ _ c₁ _ change changes hr hrs =>
            have hfit₁ := (hr.performs hfit).fit
            exact ⟨(), c₁, (endsAt_applyOne hfit).mpr ⟨change, hr⟩, (ih hfit₁).mpr ⟨changes, hrs⟩⟩

/-- Redirections that fail are a course up to the one that failed. -/
theorem endsAt_applyRedirects_error {e : Stop} (hfit : L.Fit c.table) :
    EndsAt L (applyRedirects ev save rs) c (.error e) c' ↔
      ∃ before r after changes c₁, rs = before ++ r :: after ∧
        Course L ev save before c changes c₁ ∧ EndsAt L (applyOne ev save r) c₁ (.error e) c' := by
  induction rs generalizing c with
  | nil =>
      constructor
      · intro h
        cases (endsAt_pure.mp h).1
      · rintro ⟨before, r, after, -, -, heq, -⟩
        cases before with
        | nil => cases heq
        | cons => cases heq
  | cons r rs ih =>
      rw [applyRedirects_cons, endsAt_bind]
      constructor
      · rintro (⟨_, c₁, hr, hrs⟩ | ⟨_, heq, hr⟩)
        · obtain ⟨change, hr⟩ := (endsAt_applyOne hfit).mp hr
          obtain ⟨before, q, after, changes, c₂, rfl, hbefore, hq⟩ :=
            (ih (hr.performs hfit).fit).mp hrs
          exact ⟨r :: before, q, after, change :: changes, c₂, rfl, .cons hr hbefore, hq⟩
        · cases heq
          exact ⟨[], r, rs, [], c, rfl, .nil c, hr⟩
      · rintro ⟨before, q, after, changes, c₂, heq, hbefore, hq⟩
        cases hbefore with
        | nil =>
            cases heq
            exact .inr ⟨e, rfl, hq⟩
        | @cons _ _ _ c₁ _ change changes hr hrs =>
            cases heq
            have hfit₁ := (hr.performs hfit).fit
            have hrest := (ih hfit₁).mpr ⟨_, _, _, _, _, rfl, hrs, hq⟩
            exact .inl ⟨(), c₁, (endsAt_applyOne hfit).mpr ⟨change, hr⟩, hrest⟩

end

/-! ## Runs with given replies -/

theorem mayEnd_of_follow? :
    ∀ {p : Program α} {T U : FileTable} {a : α}, follow? p T = some (a, U) → p.MayEnd L T a U
  | .done _, _, _, _, h => by
      cases h
      exact ⟨rfl, rfl⟩
  | .call c k, T, _, _, h => by
      obtain ⟨⟨r, V⟩, hr, h⟩ := Option.bind_eq_some_iff.mp h
      exact ⟨r, V, answers_of_reply? hr, mayEnd_of_follow? h⟩

theorem endsAt_of_follow? {x : ShellM α} {c : Situation} {r : Except Stop α} {s : Shell}
    {U : FileTable} (h : follow? (x.startedIn c.shell) c.table = some ((r, s), U)) :
    EndsAt L x c r ⟨s, U⟩ :=
  mayEnd_of_follow? h

/-! ## Inside a construct -/

/-- The situation in which a construct begins to apply its redirections. -/
def Situation.begun (save : Bool) (c : Situation) : Situation :=
  if save then { c with shell := { c.shell with saved := [] :: c.shell.saved } } else c

section

variable {save : Bool} {r : Redirect} {rs : List Redirect} {c c' : Situation}

theorem begun_table (save : Bool) (c : Situation) : (c.begun save).table = c.table := by
  cases save <;> rfl

theorem ownCopies_begun (save : Bool) (c : Situation) :
    ownCopies save (c.begun save).shell.saved = [] := by
  cases save <;> rfl

/-- The body of a construct starts where its redirections have been applied. If they fail there is
no body to be run. -/
theorem endsAt_withRedirects {body : ShellM Unit} {o : Except Stop Unit} :
    EndsAt L (withRedirects ev (r :: rs) body) c o c' ↔
      (∃ c₁ o₁ c₂, EndsAt L (applyRedirects ev true (r :: rs)) (c.begun true) (.ok ()) c₁ ∧
        EndsAt L body c₁ o₁ c₂ ∧ EndsAt L (do
          closeSaved
          resume o₁) c₂ o c') ∨
      ∃ e c₁, EndsAt L (applyRedirects ev true (r :: rs)) (c.begun true) (.error e) c₁ ∧
        EndsAt L (do
          closeSaved
          if e.isJump then throw e
          reportStop e
          setStatus 1) c₁ o c' := by
  refine Iff.trans (endsAt_modify_bind (x := attempt (applyRedirects ev true (r :: rs)) >>= _)) ?_
  rw [endsAt_attempt_bind]
  constructor
  · rintro ⟨o₁, c₁, happly, h⟩
    cases o₁ with
    | ok u =>
        obtain ⟨o₂, c₂, hbody, h⟩ := endsAt_attempt_bind.mp h
        exact .inl ⟨c₁, o₂, c₂, happly, hbody, h⟩
    | error e => exact .inr ⟨e, c₁, happly, h⟩
  · rintro (⟨c₁, o₁, c₂, happly, hbody, h⟩ | ⟨e, c₁, happly, h⟩)
    · exact ⟨.ok (), c₁, happly, endsAt_attempt_bind.mpr ⟨o₁, c₂, hbody, h⟩⟩
    · exact ⟨.error e, c₁, happly, h⟩

/-- Inside a construct the descriptors are what the list says. A run of its redirections has some
course, and its changes can be made to the table that was there before, from left to right, if no
number that is copied is one of the shell's own copies. The shell shows what comes of it, and the
next number that is copied is refused as a bad descriptor if and only if it is closed there. -/
theorem redirections_as_listed (hfit : L.Fit c.table) :
    (EndsAt L (applyRedirects ev save rs) (c.begun save) (.ok ()) c' ↔
      ∃ changes, Course L ev save rs (c.begun save) changes c') ∧
    ∀ changes, Course L ev save rs (c.begun save) changes c' →
      (∀ fd ∈ ownCopies save c'.shell.saved, saveFloor ≤ fd) ∧
      ((∀ fd source, .copies fd source ∈ changes → source ∉ ownCopies save c'.shell.saved) →
        ∃ g, applied changes c.files = some g ∧
          ShowsBut (ownCopies save c'.shell.saved) g c'.files ∧
          ∀ fd op word t m c₁ o c₂, namesDescriptor op = true → CameTo L ev save fd word t c' c₁ →
            Numeral.int32? t = some m → (∀ k ∈ ownCopies save c₁.shell.saved, m ≠ k) →
            EndsAt L (openWord fd op t) c₁ o c₂ →
            (o = .error (Stop.ofFault (.badDescriptor (Text.ofInt m))) ↔
              ∀ k : Nat, m = k → g k = none)) := by
  have hbegun : L.Fit (c.begun save).table := by
    rw [begun_table]
    exact hfit
  refine ⟨endsAt_applyRedirects hbegun, fun changes hcourse => ?_⟩
  have hperforms := hcourse.performs hbegun
  constructor
  · intro fd hfd
    rcases hperforms.aside.high fd hfd with hmem | hle
    · have hnil : fd ∈ [] := ownCopies_begun save c ▸ hmem
      cases hnil
    · exact hle
  · intro hown
    have hstart : ShowsBut (ownCopies save (c.begun save).shell.saved) c.files
        (c.begun save).files := by
      intro fd
      exact .inl (by rw [Situation.files, begun_table]; rfl)
    obtain ⟨g, hg, hshows⟩ := hperforms.shows c.files hstart hown
    refine ⟨g, hg, hshows, ?_⟩
    intro fd op word t m c₁ o c₂ hop hword hnumber hnotOwn hopen
    have h₁ := hword.carries hperforms.fit
    have hshows₁ := h₁.shows g hshows
    obtain ⟨-, hiff⟩ := hopen.holds (ends_openWord_number hop hnumber) h₁.fit
    rw [hiff]
    refine forall_congr' fun k => ?_
    have heq : m = k → c₁.files k = g k := fun hm => hshows₁.eq fun hk => hnotOwn k hk hm
    constructor
    · intro h hm
      rw [← heq hm]
      exact h hm
    · intro h hm
      exact (heq hm).trans (h hm)

/-- Inside `2>&1 1>g` the errors go where the output went before. -/
def insideSwap : Situation where
  shell := { saved := [[⟨1, some 11⟩, ⟨2, some 10⟩]] }
  table.descriptors :=
    { slots := [(1, ⟨7, false⟩), (11, ⟨1, true⟩), (2, ⟨1, false⟩), (10, ⟨2, true⟩), (0, ⟨0, false⟩)],
      limit := 64 }

/-- The number that a literal word comes to. -/
theorem Applies.source_eq {fd n source m : Nat} {op : RedirectOp} {t : Text} {c c' : Situation}
    (ht : tildePrefix? t = none) (hm : Numeral.int32? t = some (m : Int))
    (h : Applies L ev save (plain n op t) c (.copies fd source) c') : source = m := by
  cases h with
  | copy hop hword hnumber hcopy hmove =>
      obtain ⟨c₁, -, htext⟩ := hword
      rw [wordText_literal ht] at htext
      cases (endsAt_pure.mp htext).1
      exact Int.ofNat.inj (Option.some.inj (hnumber.symm.trans hm))

theorem redirections_as_listed_swap :
    Limits.Fit ⟨64, False⟩ threeOpen ∧ ∃ changes g,
      Course ⟨64, False⟩ idle true [plain 2 .dupOut "1", plain 1 .output "g"]
        (Situation.begun true ⟨{}, threeOpen⟩) changes insideSwap ∧
      applied changes threeOpen.descriptors.files = some g ∧
      ShowsBut [11, 10] g insideSwap.files ∧ g 1 = some 7 ∧ g 2 = some 1 := by
  have hfit : Limits.Fit ⟨64, False⟩ threeOpen := ⟨rfl, by decide⟩
  obtain ⟨hcourses, hlisted⟩ := @redirections_as_listed _ idle true
    [plain 2 .dupOut "1", plain 1 .output "g"] ⟨{}, threeOpen⟩ insideSwap hfit
  obtain ⟨changes, hcourse⟩ := hcourses.mp (endsAt_of_follow? rfl)
  have hown : ∀ fd source, .copies fd source ∈ changes → source ∉ [11, 10] := by
    intro fd source hmem
    cases hcourse with
    | cons hfirst hrest =>
        cases hrest with
        | cons hsecond hrest =>
            cases hrest
            rcases List.mem_pair.mp hmem with rfl | rfl
            · rw [hfirst.source_eq rfl rfl]
              decide
            · cases hsecond with
              | copy hop => cases hop
  obtain ⟨g, hg, hshows, -⟩ := (hlisted changes hcourse).2 hown
  -- neither `1` nor `2` is a copy, so the list means what the shell shows there
  have houtput : insideSwap.files 1 = g 1 := hshows.eq (by decide)
  have herrors : insideSwap.files 2 = g 2 := hshows.eq (by decide)
  exact ⟨hfit, changes, g, hcourse, hg, hshows, houtput.symm, herrors.symm⟩

end

/-- The three standard descriptors, and a copy of `2` at `10`. -/
def copyAtTen : Situation where
  shell := { saved := [[⟨2, some 10⟩]] }
  table.descriptors :=
    { slots := [(10, ⟨2, true⟩), (0, ⟨0, false⟩), (1, ⟨1, false⟩), (2, ⟨2, false⟩)], limit := 64 }

/-- `2>&10` copies what `2` stood for, although `10` was closed. -/
theorem not_redirections_as_listed :
    ¬ ∀ (L : Limits) (ev : Evaluator) (save : Bool) (rs : List Redirect)
      (changes : List SlotChange) (c c' : Situation), L.Fit c.table →
      Course L ev save rs (c.begun save) changes c' →
      ∃ g, applied changes c.files = some g ∧
        ShowsBut (ownCopies save c'.shell.saved) g c'.files ∧
        ∀ fd op word t m c₁ o c₂, namesDescriptor op = true → CameTo L ev save fd word t c' c₁ →
          Numeral.int32? t = some m → EndsAt L (openWord fd op t) c₁ o c₂ →
          (o = .error (Stop.ofFault (.badDescriptor (Text.ofInt m))) ↔
            ∀ k : Nat, m = k → g k = none) := by
  intro h
  let L : Limits := ⟨64, False⟩
  obtain ⟨g, hg, -, hiff⟩ := h L idle true [] [] ⟨{}, threeOpen⟩ _ ⟨rfl, by decide⟩ (.nil _)
  -- before the first redirection the list describes what was there before
  obtain rfl : threeOpen.descriptors.files = g := Option.some.inj hg
  have haside : EndsAt L (putAside true 2) (Situation.begun true ⟨{}, threeOpen⟩) (.ok ())
      copyAtTen := endsAt_of_follow? rfl
  have hword : EndsAt L (wordText idle (.mk "10" [.literal "10"] 1)) copyAtTen (.ok "10")
      copyAtTen := by
    rw [wordText_literal (by decide)]
    exact endsAt_pure.mpr ⟨rfl, rfl⟩
  obtain ⟨c₂, hcopied⟩ : ∃ c₂, EndsAt L (openWord 2 .dupOut "10") copyAtTen (.ok (some 11)) c₂ :=
    ⟨⟨_, _⟩, endsAt_of_follow? rfl⟩
  have hrefused := (hiff 2 .dupOut _ "10" 10 _ _ _ rfl ⟨_, haside, hword⟩ rfl hcopied).mpr
  cases hrefused fun k hk => by
    obtain rfl : 10 = k := Int.ofNat.inj hk
    rfl

end CommandShell.Shell
