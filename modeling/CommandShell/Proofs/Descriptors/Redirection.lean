import CommandShell.Proofs.Descriptors.Expansion
import CommandShell.Proofs.RawBytes

/-!
# Redirections leave no trace

A construct with redirections puts what it changes aside and puts it back at its end. Putting back
works through the entries, newest first, and `Restores` follows it on the open files: each copy that
an entry names must still be there when its turn comes. What endangers a copy is a later change of
its number. `Covers` says that the newest entry to be touched by such a change is the one that
remembers this number, so that the change is undone before the copy is needed.

A descriptor of the shell's own range that a construct closes and redirects again is not covered:
its number is free for a copy in between (`not_keepsFiles_withRedirects`). Without that, and below
the limit of the table, a construct keeps the files whenever its body does, whichever steps fail
(`keepsFiles_withRedirects`).
-/

namespace CommandShell.Shell

open Host (Call Reply Program FileTable FileMap Limits Answers Descriptors)
open Script (Part Word Redirect RedirectOp HereDoc)
open Expansion

variable {σ α β : Type} {L : Limits} {ev : Evaluator} {w : Holdings}

/-! ## Putting back -/

/-- Putting the entries back, the first one first, succeeds and comes to the files `base`. -/
def Restores (L : Limits) (base : FileMap) : List SavedDescriptor → FileMap → Prop
  | [], f => f = base
  | ⟨fd, none⟩ :: frame, f => Restores L base frame (Function.update f fd none)
  | ⟨fd, some copy⟩ :: frame, f => copy ≠ fd ∧ fd < L.descriptors ∧ (f copy).isSome ∧
    Restores L base frame (Function.update (Function.update f fd (f copy)) copy none)

/-- Before any entry uses a number as a copy, some entry puts the number itself back. -/
def Covers (fd : Nat) : List SavedDescriptor → Prop
  | [] => False
  | s :: frame => s.fd = fd ∨ (s.copy ≠ some fd ∧ Covers fd frame)

/-- Changes of a covered descriptor are undone. -/
theorem Restores.update {base : FileMap} {fd : Nat} (x : Option Nat) :
    ∀ {frame : List SavedDescriptor} {f : FileMap}, Restores L base frame f → Covers fd frame →
      Restores L base frame (Function.update f fd x)
  | ⟨n, none⟩ :: frame, f, h, hc => by
      show Restores L base frame (Function.update (Function.update f fd x) n none)
      by_cases hn : n = fd
      · subst hn
        rw [Function.update_idem]
        exact h
      · rw [Function.update_comm (Ne.symm hn)]
        exact Restores.update x h (hc.resolve_left hn).2
  | ⟨n, some copy⟩ :: frame, f, ⟨hcopy, hlimit, hopen, h⟩, hc => by
      by_cases hn : n = fd
      · subst hn
        have hsame : Function.update f n x copy = f copy := Function.update_of_ne hcopy _ _
        refine ⟨hcopy, hlimit, hsame ▸ hopen, ?_⟩
        rw [hsame, Function.update_idem]
        exact h
      · obtain ⟨hne, hcovers⟩ := hc.resolve_left hn
        have hfd : copy ≠ fd := fun heq => hne (congrArg some heq)
        have hsame : Function.update f fd x copy = f copy := Function.update_of_ne hfd _ _
        refine ⟨hcopy, hlimit, hsame ▸ hopen, ?_⟩
        rw [hsame, Function.update_comm (Ne.symm hn), Function.update_comm hfd.symm]
        exact Restores.update x h hcovers

theorem gives_restoreDescriptor {base : FileMap} {s : SavedDescriptor}
    {frame : List SavedDescriptor} (h : Restores L base (s :: frame) w.files) :
    Gives L (restoreDescriptor s) w fun _ w' =>
      w'.saved = w.saved ∧ Restores L base frame w'.files := by
  obtain ⟨fd, _ | copy⟩ := s
  · refine (gives_close fd).bind fun reply w' hw' => gives_pure ⟨hw'.2.saved, ?_⟩
    rw [hw'.2.files]
    exact h
  · obtain ⟨hcopy, hlimit, hopen, hrest⟩ := h
    refine (gives_duplicateOnto hcopy hopen hlimit).bind fun reply w₁ h₁ => ?_
    refine (gives_close copy).bind fun reply w₂ h₂ => gives_pure ⟨h₂.2.saved.trans h₁.2.1, ?_⟩
    rw [h₂.2.files, h₁.2.2]
    exact hrest

theorem gives_restoreAll {base : FileMap} {frame : List SavedDescriptor} :
    ∀ {w : Holdings}, Restores L base frame w.files →
      Gives L (frame.forM restoreDescriptor) w fun _ w' =>
        w'.saved = w.saved ∧ w'.files = base := by
  induction frame with
  | nil => exact fun h => gives_pure ⟨rfl, h⟩
  | cons s frame ih =>
      intro w h
      refine (gives_restoreDescriptor h).bind fun _ w₁ h₁ => ?_
      refine (ih h₁.2).ends fun _ w₂ h₂ => ⟨(), rfl, h₂.1.trans h₁.1, h₂.2⟩

/-- Leaving a construct puts everything back. -/
theorem gives_closeSaved {base : FileMap} {frame : List SavedDescriptor}
    {rest : List (List SavedDescriptor)} (hsaved : w.saved = frame :: rest)
    (h : Restores L base frame w.files) :
    Gives L closeSaved w fun _ w' => w'.saved = rest ∧ w'.files = base := by
  refine ends_get_bind fun s hs => ?_
  rw [hs, hsaved]
  refine (gives_modify rest fun _ _ => rfl).bind fun _ w₁ h₁ => ?_
  subst h₁
  exact gives_restoreAll h

/-! ## Putting aside -/

/-- A frame in which a descriptor has an entry. -/
def Has (fd : Nat) (frame : List SavedDescriptor) : Prop := ∃ s ∈ frame, s.fd = fd

/-- A descriptor with an entry that may be changed again. In the range of the shell's own it must be
open, so that no copy comes to lie there. -/
structure Guarded (frame : List SavedDescriptor) (f : FileMap) (fd : Nat) : Prop where
  covers : Covers fd frame
  isOpen : saveFloor ≤ fd → (f fd).isSome

/-- The files before some redirections of a construct that has put `frame` aside. -/
structure Undoable (L : Limits) (base : FileMap) (rs : List Redirect)
    (frame : List SavedDescriptor) (f : FileMap) : Prop where
  restores : Restores L base frame f
  guarded : ∀ r ∈ rs, Has r.fd frame → Guarded frame f r.fd

/-- The files when `fd` has been put aside, before the redirections that come after its own. -/
structure PutAside (L : Limits) (base : FileMap) (fd : Nat) (rs : List Redirect)
    (frame : List SavedDescriptor) (f : FileMap) : Prop where
  restores : Restores L base frame f
  covers : Covers fd frame
  others : ∀ r ∈ rs, r.fd ≠ fd → Has r.fd frame → Guarded frame f r.fd

section

variable {base : FileMap} {r : Redirect} {rs : List Redirect} {frame : List SavedDescriptor}
  {f : FileMap}

theorem Undoable.again (h : Undoable L base (r :: rs) frame f) (hr : Has r.fd frame) :
    PutAside L base r.fd rs frame f where
  restores := h.restores
  covers := (h.guarded r List.mem_cons_self hr).covers
  others q hq _ := h.guarded q (List.mem_cons_of_mem r hq)

/-- An entry for another descriptor is not the new one. -/
theorem Has.of_cons {fd n : Nat} {copy : Option Nat} (h : Has fd (⟨n, copy⟩ :: frame))
    (hne : fd ≠ n) : Has fd frame := by
  obtain ⟨s, hs, hfd⟩ := h
  rcases List.mem_cons.mp hs with rfl | hs
  · exact absurd hfd.symm hne
  · exact ⟨s, hs, hfd⟩

theorem Undoable.closed (h : Undoable L base (r :: rs) frame f) (hf : f r.fd = none) :
    PutAside L base r.fd rs (⟨r.fd, none⟩ :: frame) f where
  restores := by
    show Restores L base frame (Function.update f r.fd none)
    rw [Function.update_eq_self_iff.mpr hf.symm]
    exact h.restores
  covers := .inl rfl
  others q hq hne hhas := by
    have hg := h.guarded q (List.mem_cons_of_mem r hq) (hhas.of_cons hne)
    exact ⟨.inr ⟨nofun, hg.covers⟩, hg.isOpen⟩

/-- A copy is never made at a number that an entry guards. -/
theorem Undoable.copied (h : Undoable L base (r :: rs) frame f) {copy n : Nat}
    (hr : r.fd < L.descriptors) (hf : f r.fd = some n) (hfloor : saveFloor ≤ copy)
    (hcopy : f copy = none) :
    PutAside L base r.fd rs (⟨r.fd, some copy⟩ :: frame) (Function.update f copy (some n)) where
  restores := by
    have hne : copy ≠ r.fd := by
      rintro rfl
      rw [hcopy] at hf
      cases hf
    refine ⟨hne, hr, ?_, ?_⟩
    · rw [Function.update_self]
      rfl
    · rw [Function.update_self, Function.update_comm hne, update_update_of_free,
        Function.update_eq_self_iff.mpr hf.symm]
      · exact h.restores
      · rw [Function.update_of_ne hne, hcopy]
  covers := .inl rfl
  others q hq hne hhas := by
    have hg := h.guarded q (List.mem_cons_of_mem r hq) (hhas.of_cons hne)
    have hq : q.fd ≠ copy := by
      rintro heq
      have hopen := hg.isOpen (heq ▸ hfloor)
      rw [heq, hcopy] at hopen
      cases hopen
    refine ⟨.inr ⟨fun heq => hq (Option.some.inj heq).symm, hg.covers⟩, fun hq' => ?_⟩
    rw [Function.update_of_ne hq]
    exact hg.isOpen hq'

/-- A descriptor that was put aside may be changed, but not closed if it is changed again. -/
theorem PutAside.change {fd : Nat} (h : PutAside L base fd rs frame f) {x : Option Nat}
    (hx : ∀ r ∈ rs, r.fd = fd → saveFloor ≤ fd → x.isSome) :
    Undoable L base rs frame (Function.update f fd x) where
  restores := h.restores.update x h.covers
  guarded q hq hhas := by
    by_cases hfd : q.fd = fd
    · refine ⟨hfd ▸ h.covers, fun hfloor => ?_⟩
      rw [hfd, Function.update_self]
      exact hx q hq hfd (hfd ▸ hfloor)
    · have hg := h.others q hq hfd hhas
      refine ⟨hg.covers, fun hfloor => ?_⟩
      rw [Function.update_of_ne hfd]
      exact hg.isOpen hfloor

theorem ends_copyHigh (fd : Nat) :
    Ends L (copyHigh fd) w (Gains saveFloor (fun n => w.files fd = some n) w) := by
  refine (gives_duplicate fd saveFloor).bind fun reply w' h => ?_
  cases reply with
  | ok copy => exact ends_pure h
  | error e => exact ends_fail h

/-- Putting a descriptor aside, or failing to make room for a copy. -/
theorem ends_saveDescriptor {rest : List (List SavedDescriptor)}
    (hsaved : w.saved = frame :: rest) (h : Undoable L base (r :: rs) frame w.files)
    (hr : r.fd < L.descriptors) :
    Ends L (saveDescriptor r.fd) w fun res w' => ∃ frame', w'.saved = frame' :: rest ∧
      Restores L base frame' w'.files ∧
      (res.isOk → PutAside L base r.fd rs frame' w'.files) := by
  refine ends_get_bind fun s hs => ?_
  rw [hs, hsaved]
  dsimp only
  split
  · rename_i hany
    obtain ⟨e, he, hfd⟩ := List.any_eq_true.mp hany
    have hagain := h.again ⟨e, he, by simpa using hfd⟩
    exact ends_pure ⟨frame, hsaved, h.restores, fun _ => hagain⟩
  · refine (gives_isOpen r.fd).bind fun isOpen w₁ h₁ => ?_
    obtain ⟨hopen, hsame⟩ := h₁
    rw [← hsame.files] at h hopen
    have hput : ∀ (copy : Option Nat) (v : Holdings),
        PutAside L base r.fd rs (⟨r.fd, copy⟩ :: frame) v.files →
        Ends L (modify fun sh => { sh with saved := (⟨r.fd, copy⟩ :: frame) :: rest }) v
          fun res w' => ∃ frame', w'.saved = frame' :: rest ∧ Restores L base frame' w'.files ∧
            (res.isOk → PutAside L base r.fd rs frame' w'.files) := by
      intro copy v hv
      refine (gives_modify ((⟨r.fd, copy⟩ :: frame) :: rest) fun _ _ => rfl).ends ?_
      rintro _ _ rfl
      exact ⟨_, rfl, hv.restores, fun _ => hv⟩
    split
    · rename_i htrue
      rw [bind_map_left]
      refine (ends_copyHigh r.fd).bind ?_ ?_
      · rintro copy w₂ ⟨hfloor, hfree, -, n, hn, hfiles⟩
        refine hput (some copy) w₂ ?_
        rw [hfiles]
        exact h.copied hr hn hfloor hfree
      · intro e w₂ h₂
        refine ⟨frame, (hsame.trans h₂).saved.trans hsaved, ?_, fun he => by cases he⟩
        rw [show w₂.files = w₁.files from h₂.files]
        exact h.restores
    · rename_i hfalse
      rw [pure_bind]
      refine hput none w₁ (h.closed ?_)
      rw [hopen, Bool.not_eq_true, Option.isSome_eq_false_iff, Option.isNone_iff_eq_none] at hfalse
      exact hfalse

end

/-! ## Opening files -/

theorem ends_openOrFail (verb path : Text) (flags : Host.OpenFlags) :
    Ends L (openOrFail verb path flags) w (Gains 0 (fun _ => True) w) := by
  refine (gives_openFile path flags).bind fun reply w' h => ?_
  cases reply with
  | ok fd => exact ends_pure h
  | error e => exact ends_fail h

/-- A regular file that was opened after all is closed again. -/
theorem ends_openIrregular (path : Text) :
    Ends L (openIrregular path) w (Gains 0 (fun _ => True) w) := by
  refine (ends_openOrFail "create" path _).bind (fun fd w₁ h₁ => ?_) fun _ _ he => he
  refine (gives_descriptorStatus (Gains.isSome h₁)).bind fun reply w₂ h₂ => ?_
  have hgains := Gains.same h₁ h₂.2
  rcases reply with e | st
  · cases h₂.1
  · dsimp only
    split
    · exact (gives_closeOrFail hgains.isSome).bind fun _ w₃ h₃ => ends_fail (hgains.close h₃)
    · exact ends_pure hgains

theorem ends_openNoClobber (path : Text) :
    Ends L (openNoClobber path) w (Gains 0 (fun _ => True) w) := by
  have hopen : ∀ {k : Except Errno Nat → ShellM Nat}, (∀ fd, k (.ok fd) = pure fd) →
      (∀ e, k (.error e) =
        if e = .exists_ then openIrregular path else fail (openFault "create" path e)) →
      ∀ v, w.Same v → Ends L
        (openFile path { writes := true, creates := true, exclusive := true } >>= k) v
        (Gains 0 (fun _ => True) w) := by
    intro k hok herror v hv
    refine (gives_openFile path _).bind fun reply v' h => ?_
    have hgains := h.after hv
    rcases reply with e | fd
    · rw [herror]
      split
      · exact (ends_openIrregular path).mono fun r v'' h => h.after hgains
      · exact ends_fail hgains
    · rw [hok]
      exact ends_pure hgains
  have hstatus : KeepsFiles L (statusAt (plainPathBytes? path) true) := by
    unfold statusAt
    cases plainPathBytes? path with
    | some p => infer_instance
    | none => infer_instance
  refine .after (fun reply v hv => ?_) fun _ _ hv => hv
  cases reply with
  | error e => exact hopen (fun _ => rfl) (fun _ => rfl) v hv
  | ok st =>
      dsimp only
      split
      · exact ends_fail hv
      · exact hopen (fun _ => rfl) (fun _ => rfl) v hv

/-! ## Here-documents -/

/-- What a shell writes into a new pipe goes there at once. -/
theorem meets_writeBytes {s : Shell} {T : FileTable} {fd : Nat} {data : Host.Bytes}
    (hnew : T.newPipe = some fd) (hlength : data.length ≤ Host.atomicWrite) :
    ((writeBytes fd data).startedIn s).Meets L
      (fun r U => r = (.ok (), s) ∧ U.Follows T ∧ U.descriptors = T.descriptors) T := by
  -- two rounds are enough, whatever their limit is
  unfold writeBytes iterate
  rw [show roundLimit = 999999998 + 2 from rfl]
  generalize 999999998 = n
  cases data with
  | nil => exact ⟨rfl, .refl T, rfl⟩
  | cons b data =>
      rintro r U ⟨hr, rfl⟩
      obtain rfl := hr hnew hlength
      -- the round after the write finds nothing left
      show ((iterateFor _ (n + 1) ((b :: data).drop (b :: data).length)).startedIn s).Meets L _ _
      rw [List.drop_length]
      exact ⟨rfl, Host.FileTable.follows_next rfl, rfl⟩

/-- A here-document is left to be read from a new descriptor, or nothing is left of it. One that
needs a writer of its own needs a fork that cannot fail. -/
theorem ends_hereDocPipe {text : Text} (h : L.forkFails → Text.utf8Length text ≤ hereDocUnit) :
    Ends L (hereDocPipe text) w (Gains 0 (fun _ => True) w) := by
  have hclose : ∀ {readEnd writeEnd : Nat} {v : Holdings},
      GainsPipe w (.ok (readEnd, writeEnd)) v → Ends L (do
        closeOrFail writeEnd
        return readEnd) v (Gains 0 (fun _ => True) w) := fun hv =>
    (gives_closeOrFail hv.isSome).bind fun _ _ hc => ends_pure (hv.closeWrite hc)
  by_cases hshort : Text.utf8Length text ≤ hereDocUnit
  · intro s T hs hT r U hr
    obtain ⟨hU, hpipe, hnew⟩ := gainsPipe_of_answers (s := s) hr
    rw [hs] at hpipe
    rcases r with e | ⟨readEnd, writeEnd⟩
    · exact ⟨hU, hpipe⟩
    · have hlength := (Text.length_encode_le text).trans hshort
      show ((if Text.utf8Length text ≤ hereDocUnit then do
          write writeEnd text
          closeOrFail writeEnd
          return readEnd
        else feedFromChild readEnd writeEnd (Text.encode text) : ShellM Nat).startedIn s).Meets
          L _ U
      rw [if_pos hshort]
      refine Host.Program.meets_bind (p := (write writeEnd text).startedIn s)
        ((meets_writeBytes (hnew readEnd writeEnd rfl) hlength).mono ?_)
      rintro r V ⟨rfl, hV, hdescriptors⟩
      have hsame : (holdings s U).Same (holdings s V) :=
        ⟨rfl, congrArg Descriptors.files hdescriptors⟩
      refine (hclose (hpipe.same hsame) s V rfl (hT.of_follows (hV.trans hU))).mono ?_
      exact fun r X hX => ⟨hX.1.trans (hV.trans hU), hX.2⟩
  · have hfork : ¬ L.forkFails := fun hf => hshort (h hf)
    refine gives_pipe.bind fun reply w₁ h₁ => ?_
    rcases reply with e | ⟨readEnd, writeEnd⟩
    · exact ends_fail h₁
    · dsimp only
      rw [if_neg hshort]
      refine (gives_fork hfork).bind fun reply w₂ h₂ => ?_
      rcases reply with e | _ | child
      · cases h₂.1
      · exact @ends_neverEnds _ _ _ _ _
          (@neverEnds_bind _ _ _ _ _ fun _ => @neverEnds_bind _ _ _ _ _ fun _ => inferInstance)
      · exact hclose (h₁.same h₂.2)

/-! ## Targets -/

/-- What opening the target of a redirection leaves: nothing if it failed or if the descriptor is to
be closed, else a new descriptor. Only the redirected descriptor itself may be the target although
it was open before. -/
def Opens (fd : Nat) (w : Holdings) : Except Stop (Option Nat) → Holdings → Prop
  | .ok (some target), w' => (target ≠ fd → w.files target = none) ∧ w'.saved = w.saved ∧
    ∃ n, w'.files = Function.update w.files target (some n)
  | _, w' => w.Same w'

theorem Gains.opens {fd floor : Nat} {p : Nat → Prop} {r : Except Stop Nat} {w' : Holdings}
    (h : Gains floor p w r w') : Opens fd w (r.map some) w' := by
  cases r with
  | error e => exact h
  | ok target =>
      obtain ⟨-, hfree, hsaved, n, -, hfiles⟩ := h
      exact ⟨fun _ => hfree, hsaved, n, hfiles⟩

theorem Opens.after {fd : Nat} {r : Except Stop (Option Nat)} {w₁ w₂ : Holdings}
    (h : Opens fd w₁ r w₂) (hw : w.Same w₁) : Opens fd w r w₂ := by
  rcases r with e | _ | target
  · exact hw.trans h
  · exact hw.trans h
  · obtain ⟨hfree, hsaved, n, hfiles⟩ := h
    rw [hw.files] at hfree hfiles
    exact ⟨hfree, hsaved.trans hw.saved, n, hfiles⟩

theorem ends_copyNamed (fd : Nat) (word : Text) :
    Ends L (copyNamed fd word) w fun r w' => Opens fd w (r.map some) w' := by
  unfold copyNamed
  split
  · exact ends_fail (.refl w)
  · exact ends_fail (.refl w)
  · rename_i source _
    refine (gives_isOpen source).bind fun isOpen w₁ h₁ => ?_
    obtain ⟨rfl, hsame⟩ := h₁
    dsimp only
    split
    · exact ends_fail_bind hsame
    · rename_i hopen
      split
      · rename_i heq
        obtain ⟨n, hn⟩ : ∃ n, w.files source = some n :=
          Option.ne_none_iff_exists'.mp (by simpa using hopen)
        refine ends_pure ⟨fun hne => absurd heq hne, hsame.saved, n, ?_⟩
        rw [hsame.files, Function.update_eq_self_iff.mpr hn.symm]
      · exact (ends_copyHigh source).mono fun _ _ h => h.opens.after hsame

/-- Whether a redirection can close its descriptor is up to what its word comes to. -/
def KeepsOpen (ev : Evaluator) : Redirect → Prop
  | .word _ op word => op = .dupIn ∨ op = .dupOut →
    ∀ s, ((wordText ev word).startedIn s).Always fun r => r.1 ≠ .ok ['-']
  | .hereDoc .. => True

/-- Only the operators that copy descriptors can close one. -/
theorem keepsOpen_of_op {fd : Nat} {op : RedirectOp} {word : Word} (hin : op ≠ .dupIn)
    (hout : op ≠ .dupOut) : KeepsOpen ev (.word fd op word) :=
  fun h => (h.elim hin hout).elim

/-- A word that is one run of characters comes to just these, unless a tilde starts it. -/
theorem wordText_literal {t : Text} (ht : tildePrefix? t = none) (text : Text) (line : Nat) :
    wordText ev (.mk text [.literal t] line) = pure t := by
  unfold wordText wordPieces wordTilde
  simp only [Word.parts, ht, pieces, partPieces, pure_bind]
  exact congrArg pure (List.append_nil t)

theorem keepsOpen_literal {fd : Nat} {op : RedirectOp} {t : Text} (ht : tildePrefix? t = none)
    (hdash : t ≠ ['-']) (text : Text) (line : Nat) :
    KeepsOpen ev (.word fd op (.mk text [.literal t] line)) := by
  intro _ s
  rw [wordText_literal ht]
  exact fun heq => hdash (Except.ok.inj heq)

theorem ends_openWord (fd : Nat) (op : RedirectOp) (word : Text) :
    Ends L (openWord fd op word) w fun r w' => Opens fd w r w' ∧
      (r = .ok none → word = ['-'] ∧ (op = .dupIn ∨ op = .dupOut)) := by
  have hsome : ∀ {x : ShellM Nat} {v : Holdings}, w.Same v →
      Ends L x v (fun r w' => Opens fd v (r.map some) w') →
      Ends L (some <$> x) v fun r w' => Opens fd w r w' ∧
        (r = .ok none → word = ['-'] ∧ (op = .dupIn ∨ op = .dupOut)) := by
    refine fun hv hx => .map (hx.mono fun r w' h => ⟨h.after hv, fun hr => ?_⟩)
    cases r with
    | error e => cases hr
    | ok target => cases hr
  have hopen : ∀ (verb : Text) (flags : Host.OpenFlags) {v : Holdings}, w.Same v →
      Ends L (some <$> openOrFail verb word flags) v fun r w' => Opens fd w r w' ∧
        (r = .ok none → word = ['-'] ∧ (op = .dupIn ∨ op = .dupOut)) :=
    fun verb flags _ hv => hsome hv ((ends_openOrFail verb word flags).mono fun _ _ h => h.opens)
  cases op with
  | input | clobber | append | readWrite => exact hopen _ _ (.refl w)
  | output =>
      refine .after (fun s v hv => ?_) fun _ _ hv => ⟨hv, fun hr => (nomatch hr)⟩
      split
      · exact hsome hv ((ends_openNoClobber word).mono fun _ _ h => h.opens)
      · exact hopen _ _ hv
  | dupIn | dupOut =>
      show Ends L (if word = ['-'] then pure none else some <$> copyNamed fd word) w _
      split
      · rename_i heq
        exact ends_pure ⟨.refl w, fun _ => ⟨heq, by simp⟩⟩
      · exact hsome (.refl w) (ends_copyNamed fd word)
  | hereDoc | hereDocStrip => exact ends_fail ⟨.refl w, fun hr => (nomatch hr)⟩

/-- A redirection for which no process has to be forked. -/
def Forkless : Redirect → Prop
  | .word _ _ word => Commandless word.parts
  | .hereDoc _ _ (.body word) =>
    ∃ t, word.parts = [.singleQuoted t] ∧ Text.utf8Length t ≤ hereDocUnit
  | .hereDoc _ _ (.pending _) => True

theorem ends_openTarget {r : Redirect} (h : L.forkFails → Forkless r) :
    Ends L (openTarget ev r) w fun res w' => Opens r.fd w res w' ∧
      (KeepsOpen ev r → res ≠ .ok none) := by
  cases r with
  | word fd op word =>
      have hword : KeepsFiles L (wordText ev word) := keepsFiles_wordText h
      by_cases hopen : KeepsOpen ev (.word fd op word) ∧ (op = .dupIn ∨ op = .dupOut)
      · have hends := (hword.ends w).and_always (P := (· ≠ .ok ['-'])) (hopen.1 hopen.2)
        refine hends.bind (fun t v hv => ?_) ?_
        · refine (ends_openWord fd op t).mono fun res w' hres => ⟨hres.1.after hv.1, fun _ hr => ?_⟩
          exact hv.2 (congrArg Except.ok (hres.2 hr).1)
        · exact fun _ _ hv => ⟨hv.1, fun _ hr => (nomatch hr)⟩
      · refine .after (fun t v hv => ?_) fun _ _ hv => ⟨hv, fun _ hr => (nomatch hr)⟩
        refine (ends_openWord fd op t).mono fun res w' hres => ⟨hres.1.after hv, fun hk hr => ?_⟩
        exact hopen ⟨hk, (hres.2 hr).2⟩
  | hereDoc fd op doc =>
      cases doc with
      | pending n => exact ends_fail ⟨.refl w, fun _ hr => (nomatch hr)⟩
      | body word =>
          have hpipe : ∀ {v : Holdings} (t : Text), w.Same v →
              (L.forkFails → Text.utf8Length t ≤ hereDocUnit) →
              Ends L (some <$> hereDocPipe t) v fun res w' => Opens fd w res w' ∧
                (KeepsOpen ev (.hereDoc fd op (.body word)) → res ≠ .ok none) := by
            refine fun t hv ht => .map ((ends_hereDocPipe ht).mono fun res w' hres => ?_)
            refine ⟨hres.opens.after hv, fun _ hr => ?_⟩
            cases res with
            | error e => cases hr
            | ok target => cases hr
          show Ends L (hereDocText ev word >>= fun t => some <$> hereDocPipe t) w _
          by_cases hfork : L.forkFails
          · obtain ⟨t, hparts, ht⟩ := h hfork
            rw [show hereDocText ev word = pure t by unfold hereDocText; rw [hparts], pure_bind]
            exact hpipe t (.refl w) fun _ => ht
          · have hkeeps : KeepsFiles L (hereDocText ev word) :=
              keepsFiles_hereDocText fun hf => absurd hf hfork
            exact .after (fun t v hv => hpipe t hv fun hf => absurd hf hfork)
              fun _ _ hv => ⟨hv, fun _ hr => (nomatch hr)⟩

/-- Making a descriptor stand for what was opened for it. -/
theorem ends_moveInto {fd : Nat} {target : Option Nat} {w' : Holdings} (hfd : fd < L.descriptors)
    (h : Opens fd w (.ok target) w') :
    Ends L (moveInto fd target) w' fun _ w'' => w''.saved = w.saved ∧
      ∃ x, w''.files = Function.update w.files fd x ∧ (target.isSome → x.isSome) := by
  cases target with
  | none =>
      refine (gives_close fd).bind fun _ v hv => ends_pure ⟨hv.2.saved.trans h.saved, none, ?_, ?_⟩
      · rw [hv.2.files, show w'.files = w.files from h.files]
      · exact fun he => he
  | some target =>
      obtain ⟨hfree, hsaved, n, hfiles⟩ := h
      unfold moveInto
      dsimp only
      split
      · rename_i heq
        subst heq
        refine (KeepsFiles.ends w').mono fun _ v hv => ⟨hv.saved.trans hsaved, some n, ?_, ?_⟩
        · exact hv.files.trans hfiles
        · exact fun _ => rfl
      · rename_i hne
        have hopen : w'.files target = some n := by
          rw [hfiles, Function.update_self]
        refine (gives_duplicateOnto hne (by rw [hopen]; rfl) hfd).bind fun reply v hv => ?_
        obtain ⟨rfl, hsaved', hfiles'⟩ := hv
        have hstill : (v.files target).isSome := by
          rw [hfiles', Function.update_of_ne hne, hopen]
          rfl
        refine (gives_closeOrFail hstill).ends fun _ v' hv' => ?_
        refine ⟨hv'.saved.trans (hsaved'.trans hsaved), some n, ?_, fun _ => rfl⟩
        -- the number that was free in between is free again
        rw [hv'.files, hfiles', hopen, hfiles, Function.update_comm (Ne.symm hne),
          update_update_of_free (hfree hne)]

/-! ## Constructs with redirections -/

/-- Whatever steps fail, what the redirections of a construct did can be undone. -/
theorem ends_applyRedirects {base : FileMap} {rest : List (List SavedDescriptor)}
    (rs : List Redirect) :
    ∀ {frame : List SavedDescriptor} {w : Holdings}, w.saved = frame :: rest →
      Undoable L base rs frame w.files → (∀ r ∈ rs, r.fd < L.descriptors) →
      rs.Pairwise (fun r q => r.fd = q.fd → saveFloor ≤ r.fd → KeepsOpen ev r) →
      (L.forkFails → ∀ r ∈ rs, Forkless r) →
      Ends L (applyRedirects ev true rs) w fun _ w' =>
        ∃ frame', w'.saved = frame' :: rest ∧ Restores L base frame' w'.files := by
  induction rs with
  | nil => exact fun hsaved h _ _ _ => ends_pure ⟨_, hsaved, h.restores⟩
  | cons r rs ih =>
      intro frame w hsaved h hlimit hpairs hforks
      have hr : r.fd < L.descriptors := hlimit r List.mem_cons_self
      obtain ⟨hclosed, hpairs⟩ := List.pairwise_cons.mp hpairs
      refine (ends_saveDescriptor hsaved h hr).bind ?_ ?_
      · rintro _ w₁ ⟨frame₁, hsaved₁, -, haside⟩
        have haside := haside rfl
        refine (ends_openTarget fun hf => hforks hf r List.mem_cons_self).bind ?_ ?_
        · rintro target w₂ ⟨hopens, hopen⟩
          refine (ends_moveInto hr hopens).bind ?_ ?_
          · rintro - w₃ ⟨hsaved₃, x, hfiles₃, hx⟩
            refine ih (hsaved₃.trans hsaved₁) ?_ (fun q hq => hlimit q (List.mem_cons_of_mem r hq))
              hpairs fun hf q hq => hforks hf q (List.mem_cons_of_mem r hq)
            rw [hfiles₃]
            refine haside.change fun q hq hfd hfloor => hx (Option.isSome_iff_ne_none.mpr ?_)
            exact fun hn => hopen (hclosed q hq hfd.symm hfloor) (congrArg Except.ok hn)
          · rintro e w₃ ⟨hsaved₃, x, hfiles₃, -⟩
            refine ⟨frame₁, hsaved₃.trans hsaved₁, ?_⟩
            rw [hfiles₃]
            exact haside.restores.update x haside.covers
        · rintro e w₂ ⟨hsame, -⟩
          refine ⟨frame₁, hsame.saved.trans hsaved₁, ?_⟩
          rw [show w₂.files = w₁.files from hsame.files]
          exact haside.restores
      · rintro e w₁ ⟨frame₁, hsaved₁, hrestores, -⟩
        exact ⟨frame₁, hsaved₁, hrestores⟩

/-- A construct with redirections leaves every descriptor as it found it, if its body does. -/
theorem keepsFiles_withRedirects (rs : List Redirect) (body : ShellM Unit)
    (hbody : KeepsFiles L body) (hlimit : ∀ r ∈ rs, r.fd < L.descriptors)
    (hpairs : rs.Pairwise fun r q => r.fd = q.fd → saveFloor ≤ r.fd → KeepsOpen ev r)
    (hforks : L.forkFails → ∀ r ∈ rs, Forkless r) :
    KeepsFiles L (withRedirects ev rs body) := by
  refine .ite hbody ⟨fun w => ?_⟩
  refine (gives_modify ([] :: w.saved) fun s hs => congrArg _ hs).bind ?_
  intro _ w₀ hw₀
  have hstart : Undoable L w.files rs [] w₀.files :=
    hw₀ ▸ ⟨rfl, fun _ _ ⟨_, he, _⟩ => absurd he List.not_mem_nil⟩
  refine (ends_applyRedirects rs (congrArg Holdings.saved hw₀) hstart hlimit hpairs
    hforks).attempt.bind ?_
  rintro r w₁ ⟨frame, hsaved, hrestores⟩
  -- after either outcome everything is put back, and what follows opens nothing
  have hclose : ∀ (rest : ShellM Unit) [hrest : KeepsFiles L rest] (v : Holdings),
      v.saved = frame :: w.saved → v.files = w₁.files →
      Ends L (closeSaved >>= fun _ => rest) v fun _ w' => w.Same w' := by
    intro rest hrest v hv hfiles
    refine (gives_closeSaved hv (hfiles ▸ hrestores)).bind fun _ v' hv' => ?_
    exact (hrest.ends v').mono fun _ _ h => Holdings.Same.trans ⟨hv'.1, hv'.2⟩ h
  cases r with
  | ok u =>
      refine (hbody.ends w₁).attempt.bind fun r v hv => ?_
      exact hclose (resume r) v (hv.saved.trans hsaved) hv.files
  | error e =>
      have hrest : KeepsFiles L (do
          if e.isJump then throw e
          reportStop e
          setStatus 1) := by
        dsimp only
        infer_instance
      exact hclose _ w₁ hsaved rfl

/-- An evaluator that runs nothing. -/
def idle : Evaluator where
  node _ _ := pure ()
  source _ := pure ()
  command _ := pure ()
  builtin _ _ _ := pure ()

/-- A redirection to what a word without quotes names. -/
def plain (fd : Nat) (op : RedirectOp) (target : Text) : Redirect :=
  .word fd op (.mk target [.literal target] 1)

/-- A construct that redirects `12` twice, closes `3` and reads a here-document, where no process
can be forked. -/
theorem keepsFiles_withRedirects_twice :
    KeepsFiles ⟨64, True⟩ (withRedirects idle [plain 3 .dupOut "-", plain 1 .output "g",
      plain 12 .dupOut "1", .hereDoc 0 .hereDoc (.body (.mk "a" [.singleQuoted "a"] 2)),
      plain 12 .append "h"] (writeOut "b")) := by
  refine keepsFiles_withRedirects _ _ inferInstance (by decide) ?_ fun _ => ?_
  · have hopen : KeepsOpen idle (plain 12 .dupOut "1") :=
      keepsOpen_literal (by decide) (by decide) _ _
    simpa [plain, Redirect.fd, saveFloor] using hopen
  · have hplain : ∀ fd op target, Forkless (plain fd op target) := fun _ _ _ => ⟨trivial, trivial⟩
    have hdoc : Forkless (.hereDoc 0 .hereDoc (.body (.mk "a" [.singleQuoted "a"] 2))) :=
      ⟨"a", rfl, by decide⟩
    simp only [List.forall_mem_cons, hplain, hdoc, List.not_mem_nil, false_imp_iff, implies_true,
      and_self]

/-! ## Runs with given replies -/

/-- What a copy onto a given number comes to. -/
def copyOnto (T : FileTable) (fd target : Nat) : Except Errno Unit × FileTable :=
  match T.descriptors.get? fd with
  | some slot =>
    if target < T.descriptors.limit then
      (.ok (), T.next (T.descriptors.put target { slot with closeOnExec := false }))
    else (.error .badDescriptor, T.next T.descriptors)
  | none => (.error .badDescriptor, T.next T.descriptors)

/-- The reply of a system in which nothing fails without need. Files that are opened are all the
same. -/
def reply? (T : FileTable) : (c : Call) → Option (Reply c × FileTable)
  | .openFile _ _ => (T.descriptors.add? 0 { openFile := 7 }).map fun (ds, fd) =>
    (.ok fd, T.next ds)
  | .close fd =>
    some (if T.descriptors.isOpen fd then .ok () else .error .badDescriptor,
      T.next (T.descriptors.close fd))
  | .duplicate fd floor => (T.descriptors.get? fd).bind fun slot =>
    (T.descriptors.add? floor { slot with closeOnExec := true }).map fun (ds, copy) =>
      (.ok copy, T.next ds)
  | .duplicateOnto fd target => some (copyOnto T fd target)
  | .isOpen fd => some (T.descriptors.isOpen fd, T.next T.descriptors)
  | .write _ data => some (.ok data.length, T.next T.descriptors)
  | _ => none

theorem answers_of_reply? {T U : FileTable} {c : Call} {r : Reply c}
    (h : reply? T c = some (r, U)) : Answers L T c r U := by
  cases c with
  | openFile path flags =>
      obtain ⟨⟨ds, fd⟩, hadd, heq⟩ := Option.map_eq_some_iff.mp h
      cases heq
      exact ⟨_, ds, hadd, rfl⟩
  | close fd =>
      cases h
      refine ⟨?_, rfl⟩
      cases T.descriptors.isOpen fd with
      | true => rfl
      | false => rfl
  | duplicate fd floor =>
      obtain ⟨slot, hslot, hmap⟩ := Option.bind_eq_some_iff.mp h
      obtain ⟨⟨ds, copy⟩, hadd, heq⟩ := Option.map_eq_some_iff.mp hmap
      cases heq
      exact ⟨slot, ds, hslot, hadd, rfl⟩
  | duplicateOnto fd target =>
      have heq : copyOnto T fd target = (r, U) := Option.some.inj h
      unfold copyOnto at heq
      split at heq
      · rename_i slot hslot
        split at heq
        · rename_i hlt
          cases heq
          exact ⟨slot, hslot, hlt, rfl⟩
        · rename_i hlt
          cases heq
          exact ⟨fun hopen => hlt hopen.2, rfl⟩
      · rename_i hslot
        cases heq
        have hclosed : T.descriptors.isOpen fd = false := congrArg Option.isSome hslot
        exact ⟨fun hopen => Bool.false_ne_true (hclosed.symm.trans hopen.1), rfl⟩
  | isOpen fd =>
      cases h
      exact ⟨rfl, rfl⟩
  | write fd data =>
      cases h
      exact ⟨fun _ _ => rfl, rfl⟩
  | _ => cases h

/-- The end of a program with these replies. -/
def follow? {α : Type} : Program α → FileTable → Option (α × FileTable)
  | .done a, T => some (a, T)
  | .call c k, T => (reply? T c).bind fun (r, U) => follow? (k r) U

theorem of_follow? {Q : α → FileTable → Prop} :
    ∀ {p : Program α} {T : FileTable}, p.Meets L Q T → ∀ {a U}, follow? p T = some (a, U) → Q a U
  | .done _, _, h, _, _, hf => by
      cases hf
      exact h
  | .call c k, T, h, a, U, hf => by
      obtain ⟨⟨r, V⟩, hr, hf⟩ := Option.bind_eq_some_iff.mp hf
      exact of_follow? (h r V (answers_of_reply? hr)) hf

/-- A construct that comes to other files than it started from. -/
theorem not_keepsFiles_of_follow? {x : ShellM Unit} {T : FileTable} (fd : Nat) (hT : L.Fit T)
    (h : (follow? (x.startedIn {}) T).any
      (fun r => r.2.descriptors.files fd != T.descriptors.files fd) = true) :
    ¬ KeepsFiles L x := by
  intro hkeeps
  cases hf : follow? (x.startedIn {}) T with
  | none =>
      rw [hf] at h
      cases h
  | some r =>
      rw [hf] at h
      have hsame := of_follow? (hkeeps.ends _ {} T rfl hT) hf
      have hfd : r.2.descriptors.files fd = T.descriptors.files fd := congrFun hsame.2.files fd
      exact (bne_iff_ne.mp h) hfd

/-- A process with its three standard descriptors. -/
def threeOpen : FileTable where
  descriptors := { slots := [(0, ⟨0, false⟩), (1, ⟨1, false⟩), (2, ⟨2, false⟩)], limit := 64 }

/-- `10>&- 1>g 10>h` leaves `1` standing for `h`: when `1` was put aside, `10` was free. -/
theorem not_keepsFiles_withRedirects :
    ¬ ∀ (L : Limits) (ev : Evaluator) (rs : List Redirect) (body : ShellM Unit),
      KeepsFiles L body → KeepsFiles L (withRedirects ev rs body) := by
  intro h
  have hkeeps := h ⟨64, False⟩ idle
    [plain 10 .dupOut "-", plain 1 .output "g", plain 10 .output "h"] (pure ()) inferInstance
  exact not_keepsFiles_of_follow? (T := threeOpen) 1 ⟨rfl, by decide⟩
    (by decide +kernel) hkeeps

/-- `64>g` leaves `g` open if `64` is the limit. -/
theorem not_keepsFiles_at_limit :
    ¬ KeepsFiles ⟨64, False⟩ (withRedirects idle [plain 64 .output "g"] (pure ())) :=
  not_keepsFiles_of_follow? (T := threeOpen) 3 ⟨rfl, by decide⟩ (by decide +kernel)

end CommandShell.Shell
