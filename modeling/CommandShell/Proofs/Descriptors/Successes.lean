import CommandShell.Proofs.Descriptors
import CommandShell.Proofs.Descriptors.Redirection

/-!
# Single runs and runs that succeed

Two views of runs on a table of descriptors, besides the one that speaks of all runs: what one run came
to, and what holds of the runs that succeed.
-/

/-!
## Single runs on a table of descriptors

`Ends` speaks of all runs of a computation at once. `EndsAt` picks out one: from a shell and its
table to an outcome, a shell and a table. A run of a sequence is a run of its parts in turn
(`endsAt_bind`), so that a statement about one run can say what came of each of its steps. What
holds of all runs holds of it (`EndsAt.holds`).
-/

namespace CommandShell

open Host (Program FileTable FileMap Limits Answers)

namespace Host.Program

variable {α β : Type} {L : Limits}

/-- Some run of a program on a table ends with this result and this table. -/
def MayEnd (L : Limits) : Program α → FileTable → α → FileTable → Prop
  | .done a, T, b, U => b = a ∧ U = T
  | .call c k, T, b, U => ∃ r V, Answers L T c r V ∧ (k r).MayEnd L V b U

theorem Meets.of_mayEnd {Q : α → FileTable → Prop} {p : Program α} {T U : FileTable} {a : α}
    (h : p.Meets L Q T) (ha : p.MayEnd L T a U) : Q a U := by
  induction p generalizing T with
  | done b =>
      obtain ⟨rfl, rfl⟩ := ha
      exact h
  | call c k ih =>
      obtain ⟨r, V, hr, ha⟩ := ha
      exact ih r (h r V hr) ha

theorem mayEnd_bind {p : Program α} {f : α → Program β} {T U : FileTable} {b : β} :
    (p.bind f).MayEnd L T b U ↔ ∃ a V, p.MayEnd L T a V ∧ (f a).MayEnd L V b U := by
  induction p generalizing T with
  | done a =>
      constructor
      · intro h
        exact ⟨a, T, ⟨rfl, rfl⟩, h⟩
      · rintro ⟨_, _, ⟨rfl, rfl⟩, h⟩
        exact h
  | call c k ih =>
      constructor
      · rintro ⟨r, V, hr, h⟩
        obtain ⟨a, W, ha, hf⟩ := (ih r).mp h
        exact ⟨a, W, ⟨r, V, hr, ha⟩, hf⟩
      · rintro ⟨a, W, ⟨r, V, hr, ha⟩, hf⟩
        exact ⟨r, V, hr, (ih r).mpr ⟨a, W, ha, hf⟩⟩

end Host.Program

namespace Shell

variable {α β : Type} {L : Limits}

/-! ### Runs of computations -/

/-- A shell and the descriptors that it runs on. -/
structure Situation where
  shell : Shell
  table : FileTable

namespace Situation

/-- What each descriptor stands for. -/
def files (c : Situation) : FileMap := c.table.descriptors.files

def holdings (c : Situation) : Holdings := Shell.holdings c.shell c.table

end Situation

/-- Some run of a computation starts in one situation and ends in another one. -/
def EndsAt (L : Limits) (x : ShellM α) (c : Situation) (r : Except Stop α) (c' : Situation) :
    Prop :=
  (x.startedIn c.shell).MayEnd L c.table (r, c'.shell) c'.table

section

variable {x : ShellM α} {f : α → ShellM β} {c c' : Situation}

/-- What all runs satisfy. -/
theorem EndsAt.holds {r : Except Stop α} {Q : Except Stop α → Holdings → Prop}
    (h : EndsAt L x c r c') (hx : Ends L x c.holdings Q) (hfit : L.Fit c.table) :
    L.Fit c'.table ∧ Q r c'.holdings := by
  obtain ⟨hfollows, hQ⟩ := (hx c.shell c.table rfl hfit).of_mayEnd h
  exact ⟨hfit.of_follows hfollows, hQ⟩

theorem endsAt_pure {a : α} {r : Except Stop α} :
    EndsAt L (pure a : ShellM α) c r c' ↔ r = .ok a ∧ c' = c := by
  obtain ⟨s, T⟩ := c
  obtain ⟨s', T'⟩ := c'
  show ((r, s') = (.ok a, s) ∧ T' = T) ↔ r = .ok a ∧ Situation.mk s' T' = ⟨s, T⟩
  simp [and_assoc]

/-- What follows a change of the state starts in the changed state. -/
theorem endsAt_modify_bind {g : Shell → Shell} {x : ShellM β} {r : Except Stop β} :
    EndsAt L (modify g >>= fun _ => x) c r c' ↔
      EndsAt L x { c with shell := g c.shell } r c' :=
  Iff.rfl

/-- A sequence runs its parts one after the other, unless the first one fails. -/
theorem endsAt_bind {r : Except Stop β} :
    EndsAt L (x >>= f) c r c' ↔ (∃ a c₁, EndsAt L x c (.ok a) c₁ ∧ EndsAt L (f a) c₁ r c') ∨
      ∃ e, r = .error e ∧ EndsAt L x c (.error e) c' := by
  refine Iff.trans (Host.Program.mayEnd_bind (p := x.startedIn c.shell)) ?_
  constructor
  · rintro ⟨⟨r₁, s₁⟩, V, hx, hf⟩
    cases r₁ with
    | ok a => exact .inl ⟨a, ⟨s₁, V⟩, hx, hf⟩
    | error e =>
        obtain ⟨heq, hV⟩ := hf
        obtain ⟨rfl, rfl⟩ := Prod.mk.inj heq
        refine .inr ⟨e, rfl, ?_⟩
        show Host.Program.MayEnd L _ _ _ _
        rw [hV]
        exact hx
  · rintro (⟨a, c₁, hx, hf⟩ | ⟨e, rfl, hx⟩)
    · exact ⟨(.ok a, c₁.shell), c₁.table, hx, hf⟩
    · exact ⟨(.error e, c'.shell), c'.table, hx, rfl, rfl⟩

theorem endsAt_bind_ok {b : β} :
    EndsAt L (x >>= f) c (.ok b) c' ↔
      ∃ a c₁, EndsAt L x c (.ok a) c₁ ∧ EndsAt L (f a) c₁ (.ok b) c' := by
  rw [endsAt_bind]
  simp

theorem endsAt_map_ok {g : α → β} {b : β} :
    EndsAt L (g <$> x) c (.ok b) c' ↔ ∃ a, g a = b ∧ EndsAt L x c (.ok a) c' := by
  rw [map_eq_pure_bind, endsAt_bind_ok]
  constructor
  · rintro ⟨a, c₁, hx, hf⟩
    obtain ⟨heq, rfl⟩ := endsAt_pure.mp hf
    exact ⟨a, (Except.ok.inj heq).symm, hx⟩
  · rintro ⟨a, rfl, hx⟩
    exact ⟨a, c', hx, endsAt_pure.mpr ⟨rfl, rfl⟩⟩

theorem endsAt_attempt {r : Except Stop (Except Stop α)} :
    EndsAt L (attempt x) c r c' ↔ ∃ o, r = .ok o ∧ EndsAt L x c o c' := by
  refine Iff.trans (Host.Program.mayEnd_bind (p := x.startedIn c.shell)) ?_
  constructor
  · rintro ⟨⟨o, s⟩, V, hx, heq, hV⟩
    obtain ⟨rfl, rfl⟩ := Prod.mk.inj heq
    refine ⟨o, rfl, ?_⟩
    show Host.Program.MayEnd L _ _ _ _
    rw [hV]
    exact hx
  · rintro ⟨o, rfl, hx⟩
    exact ⟨(o, c'.shell), c'.table, hx, rfl, rfl⟩

/-- What follows an attempt is run however the attempt ended. -/
theorem endsAt_attempt_bind {g : Except Stop α → ShellM β} {r : Except Stop β} :
    EndsAt L (attempt x >>= g) c r c' ↔
      ∃ o c₁, EndsAt L x c o c₁ ∧ EndsAt L (g o) c₁ r c' := by
  rw [endsAt_bind]
  constructor
  · rintro (⟨o, c₁, hx, hg⟩ | ⟨e, -, hx⟩)
    · obtain ⟨_, heq, hx⟩ := endsAt_attempt.mp hx
      cases heq
      exact ⟨o, c₁, hx, hg⟩
    · obtain ⟨_, heq, -⟩ := endsAt_attempt.mp hx
      cases heq
  · rintro ⟨o, c₁, hx, hg⟩
    exact .inl ⟨o, c₁, endsAt_attempt.mpr ⟨o, rfl, hx⟩, hg⟩

end

end Shell

end CommandShell

/-!
## Computations that keep the files when they succeed

A fork that fails leaves the ends of a pipe open, and what needed the fork fails too. Whatever goes
on with a value has closed its pipes. So words, here-documents and the targets of redirections keep
the files without any assumption on forks, as long as they come to something.
-/

namespace CommandShell.Shell

open Host (FileTable Limits Answers Descriptors)
open Script (Part Word ParamOp Redirect)
open Expansion

variable {α β : Type} {L : Limits} {ev : Evaluator} {w : Holdings}

/-- A computation that ends with what it started with unless it fails. What a failed fork leaves
behind does not count. -/
class KeepsFilesIfOk (L : Limits) (x : ShellM α) : Prop where
  ends : ∀ w, Ends L x w fun r w' => r.isOk → w.Same w'

section

instance (priority := low) keepsFilesIfOk_of_keepsFiles {x : ShellM α} [hx : KeepsFiles L x] :
    KeepsFilesIfOk L x :=
  ⟨fun w => (hx.ends w).mono fun _ _ h _ => h⟩

instance keepsFilesIfOk_bind {x : ShellM α} {f : α → ShellM β} [hx : KeepsFilesIfOk L x]
    [hf : ∀ a, KeepsFilesIfOk L (f a)] : KeepsFilesIfOk L (x >>= f) := by
  constructor
  intro w
  refine (hx.ends w).bind (fun a w₁ h₁ => ?_) fun e w' _ hok => ?_
  · exact ((hf a).ends w₁).mono fun r w' h hok => (h₁ rfl).trans (h hok)
  · cases hok

instance keepsFilesIfOk_map {f : α → β} {x : ShellM α} [KeepsFilesIfOk L x] :
    KeepsFilesIfOk L (f <$> x) := by
  rw [map_eq_pure_bind]
  infer_instance

instance keepsFilesIfOk_ite {c : Prop} [Decidable c] {x y : ShellM α} [hx : KeepsFilesIfOk L x]
    [hy : KeepsFilesIfOk L y] : KeepsFilesIfOk L (if c then x else y) := by
  split
  · exact hx
  · exact hy

/-- Both ends of the pipe to a child are closed again by a shell that goes on. -/
instance keepsFilesIfOk_substitute (body : Option Script.Node) :
    KeepsFilesIfOk L (substitute ev body) := by
  cases body with
  | none => infer_instance
  | some body =>
      constructor
      intro w
      refine gives_pipe.bind fun reply w₁ hpipe => ?_
      rcases reply with e | ⟨readEnd, writeEnd⟩
      · exact ends_fail nofun
      have hfork : KeepsFiles L (ask .fork) := keepsFiles_ask _ rfl
      refine (hfork.ends w₁).bind ?_ fun e w' _ hok => by cases hok
      intro reply w₂ hsame
      rcases reply with e | _ | child
      · exact ends_fail nofun
      · exact ends_neverEnds _
      · exact (ends_readSubstitution child (hpipe.same hsame)).mono fun _ _ h _ => h

instance keepsFilesIfOk_expandParameter (name : Text) (op : ParamOp) (colon inQuotes hasArg : Bool)
    (arg : Quoting → ShellM (List Piece)) [∀ q, KeepsFilesIfOk L (arg q)] :
    KeepsFilesIfOk L (expandParameter name op colon inQuotes hasArg arg) := by
  unfold expandParameter
  refine @keepsFilesIfOk_bind _ _ _ _ _ _ fun s => ?_
  cases op with
  | _ =>
      dsimp only
      infer_instance

end

mutual

theorem keepsFilesIfOk_partPieces (q : Quoting) :
    ∀ p : Part, KeepsFilesIfOk L (partPieces ev q p)
  | .literal _ | .escaped _ | .singleQuoted _ | .command _ => by
      unfold partPieces
      infer_instance
  | .doubleQuoted ps => by
      have hps := keepsFilesIfOk_pieces .quoted ps
      unfold partPieces
      infer_instance
  | .param name op colon arg inQuotes => by
      have harg := fun q => keepsFilesIfOk_pieces q arg
      unfold partPieces
      infer_instance
  | .arithmetic ps => by
      have hps := keepsFilesIfOk_pieces .quoted ps
      unfold partPieces
      infer_instance

theorem keepsFilesIfOk_pieces (q : Quoting) :
    ∀ ps : List Part, KeepsFilesIfOk L (pieces ev q ps)
  | [] => by
      unfold pieces
      infer_instance
  | p :: ps => by
      have hp := keepsFilesIfOk_partPieces q p
      have hps := keepsFilesIfOk_pieces q ps
      unfold pieces
      infer_instance

end

instance keepsFiles_wordTilde (ps : List Part) : KeepsFiles L (wordTilde ps) := by
  unfold wordTilde
  split
  · split
    · infer_instance
    · refine .ite inferInstance (.bind fun home => ?_)
      cases home with
      | none => infer_instance
      | some home => infer_instance
  · infer_instance

instance keepsFilesIfOk_wordText (word : Word) : KeepsFilesIfOk L (wordText ev word) := by
  have hpieces : KeepsFilesIfOk L (wordPieces ev word) := by
    unfold wordPieces
    refine @keepsFilesIfOk_bind _ _ _ _ _ _ fun r => ?_
    cases r with
    | none => exact keepsFilesIfOk_pieces ..
    | some r =>
        have hrest : KeepsFilesIfOk L (pieces ev .bare r.2) := keepsFilesIfOk_pieces ..
        infer_instance
  unfold wordText
  infer_instance

instance keepsFilesIfOk_hereDocText (word : Word) : KeepsFilesIfOk L (hereDocText ev word) := by
  unfold hereDocText
  split
  · infer_instance
  · have hpieces : KeepsFilesIfOk L (pieces ev .quoted word.parts) := keepsFilesIfOk_pieces ..
    unfold quotedText
    infer_instance

/-! ### Redirections -/

/-- A here-document that is there to be read has a descriptor of its own. -/
theorem ends_hereDocPipe_ok (text : Text) :
    Ends L (hereDocPipe text) w fun r w' => r.isOk → Gains 0 (fun _ => True) w r w' := by
  by_cases hshort : L.forkFails → Text.utf8Length text ≤ hereDocUnit
  · exact (ends_hereDocPipe hshort).mono fun _ _ h _ => h
  have hlong : ¬ Text.utf8Length text ≤ hereDocUnit := fun h => hshort fun _ => h
  refine gives_pipe.bind fun reply w₁ h₁ => ?_
  rcases reply with e | ⟨readEnd, writeEnd⟩
  · exact ends_fail nofun
  dsimp only
  rw [if_neg hlong]
  have hfork : KeepsFiles L (ask .fork) := keepsFiles_ask _ rfl
  refine (hfork.ends w₁).bind ?_ fun e w' _ hok => by cases hok
  intro reply w₂ h₂
  rcases reply with e | _ | child
  · exact ends_fail nofun
  · exact @ends_neverEnds _ _ _ _ _
      (@neverEnds_bind _ _ _ _ _ fun _ => @neverEnds_bind _ _ _ _ _ fun _ => inferInstance)
  · have hpipe := h₁.same h₂
    exact (gives_closeOrFail hpipe.isSome).bind fun _ _ hc => ends_pure fun _ => hpipe.closeWrite hc

/-- What a redirection names to be opened has a descriptor then. -/
theorem ends_openTarget_ok (r : Redirect) :
    Ends L (openTarget ev r) w fun res w' => res.isOk → Opens r.fd w res w' := by
  cases r with
  | word fd op word =>
      have htext : KeepsFilesIfOk L (wordText ev word) := inferInstance
      refine (htext.ends w).bind (fun t w₁ h₁ => ?_) fun e w' _ hok => by cases hok
      exact (ends_openWord fd op t).mono fun res w' h _ => h.1.after (h₁ rfl)
  | hereDoc fd op doc =>
      cases doc with
      | pending n => exact ends_fail nofun
      | body word =>
          have htext : KeepsFilesIfOk L (hereDocText ev word) := inferInstance
          refine (htext.ends w).bind (fun t w₁ h₁ => ?_) fun e w' _ hok => by cases hok
          refine .map ((ends_hereDocPipe_ok t).mono fun res w' h hok => ?_)
          cases res with
          | error e => cases hok
          | ok k => exact (h rfl).opens.after (h₁ rfl)

section

variable {fd k : Nat} {w' : Holdings}

/-- What was opened stands for a file. -/
theorem Opens.exists_file (h : Opens fd w (.ok (some k)) w') : ∃ n, w'.files k = some n := by
  obtain ⟨-, -, n, hfiles⟩ := h
  refine ⟨n, ?_⟩
  rw [hfiles, Function.update_self]

/-- Nothing else changes where a file was opened. -/
theorem Opens.of_file {n : Nat} (h : Opens fd w (.ok (some k)) w') (hn : w'.files k = some n) :
    (k ≠ fd → w.files k = none) ∧ w'.saved = w.saved ∧
      w'.files = Function.update w.files k (some n) := by
  obtain ⟨hfree, hsaved, m, hfiles⟩ := h
  rw [hfiles, Function.update_self] at hn
  cases hn
  exact ⟨hfree, hsaved, hfiles⟩

end

/-- A copy onto a given number that succeeded. -/
theorem gives_duplicateOnto_ok {fd target : Nat} (hne : fd ≠ target) :
    Gives L (duplicateOnto fd target) w fun reply w' => reply.isOk → w'.saved = w.saved ∧
      w'.files = Function.update w.files target (w.files fd) := by
  unfold duplicateOnto
  rw [if_neg hne]
  rintro s T rfl - r U hr
  cases r with
  | error e =>
      obtain ⟨-, rfl⟩ := hr
      exact ⟨Host.FileTable.follows_next rfl, _, rfl, nofun⟩
  | ok u =>
      obtain ⟨slot, hslot, -, rfl⟩ := hr
      refine ⟨Host.FileTable.follows_next rfl, _, rfl, fun _ => ⟨rfl, ?_⟩⟩
      have hfile : T.descriptors.files fd = some slot.openFile :=
        congrArg (Option.map Host.Slot.openFile) hslot
      exact (Descriptors.files_put ..).trans (congrArg (Function.update _ target) hfile.symm)

/-- The redirected descriptor stands for what was opened, wherever that was. -/
theorem ends_moveInto_ok {fd k n : Nat} {w' : Holdings} (hfree : k ≠ fd → w.files k = none)
    (hsaved : w'.saved = w.saved) (hfiles : w'.files = Function.update w.files k (some n)) :
    Ends L (moveInto fd (some k)) w' fun r w'' => r.isOk → w''.saved = w.saved ∧
      w''.files = Function.update w.files fd (some n) := by
  unfold moveInto
  dsimp only
  split
  · rename_i heq
    subst heq
    refine (KeepsFiles.ends w').mono fun _ v hv _ => ?_
    exact ⟨hv.saved.trans hsaved, hv.files.trans hfiles⟩
  · rename_i hne
    have hopen : w'.files k = some n := by
      rw [hfiles, Function.update_self]
    refine (gives_duplicateOnto_ok hne).bind fun reply v hv => ?_
    rcases reply with e | u
    · exact ends_fail nofun
    obtain ⟨hsaved₁, hfiles₁⟩ := hv rfl
    have hstill : (v.files k).isSome := by
      rw [hfiles₁, Function.update_of_ne hne, hopen]
      rfl
    refine (gives_closeOrFail hstill).ends fun _ v' hv' _ => ?_
    refine ⟨hv'.saved.trans (hsaved₁.trans hsaved), ?_⟩
    -- the number that was free in between is free again
    rw [hv'.files, hfiles₁, hopen, hfiles, Function.update_comm (Ne.symm hne),
      update_update_of_free (hfree hne)]

end CommandShell.Shell
