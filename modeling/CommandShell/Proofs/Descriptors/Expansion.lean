import CommandShell.Proofs.Descriptors
import CommandShell.Proofs.Scopes.Expansion
import CommandShell.Proofs.Trees

/-!
# Expansions keep the files

A command substitution makes a pipe, and both ends are closed again when its output has been read.
Only a fork that fails leaves them open. Nothing else in the expansion of a word makes a descriptor,
so that a word keeps the files if no fork can fail, or if no command stands in it.
-/

namespace CommandShell.Shell

open Host (FileTable Limits Answers)
open Script (Part Word ParamOp)
open Expansion

variable {σ α : Type} {L : Limits} {ev : Evaluator} {w : Holdings}

/-! ## Reading and writing -/

instance keepsFiles_writeBytes (fd : Nat) (data : Host.Bytes) :
    KeepsFiles L (writeBytes fd data) := by
  refine .iterate (fun rest => .ite inferInstance (.bind fun r => ?_)) data
  cases r with
  | ok n => infer_instance
  | error e => infer_instance

instance keepsFiles_writeOut (t : Text) : KeepsFiles L (writeOut t) :=
  keepsFiles_writeBytes 1 (Text.encode t)

instance keepsFiles_writeErr (t : Text) : KeepsFiles L (writeErr t) :=
  keepsFiles_writeBytes 2 (Text.encode t)

instance keepsFiles_reportStop (s : Stop) : KeepsFiles L (reportStop s) := keepsFiles_ite

theorem gives_readSome (fd count : Nat) :
    Gives L (readSome fd count) w fun _ w' => w.Same w' ∧ w'.reads < w.reads := by
  refine ends_iterate (I := fun w' => w.Same w' ∧ w'.reads ≤ w.reads) (fun _ v hv => ?_) ()
    ⟨.refl w, Nat.le_refl _⟩
  refine (gives_read fd count).bind fun reply v' h => ?_
  have hsame := hv.1.trans h.1
  have hreads := Nat.lt_of_lt_of_le h.2 hv.2
  cases reply with
  | ok bs => exact ends_pure ⟨_, rfl, hsame, hreads⟩
  | error e =>
      dsimp only
      split
      · exact ends_pure ⟨⟨hsame, Nat.le_of_lt hreads⟩, h.2⟩
      · exact ends_pure ⟨_, rfl, hsame, hreads⟩

/-- Whatever is read, there is an end to it. -/
theorem gives_readAll (fd : Nat) : Gives L (readAll fd) w fun _ w' => w.Same w' := by
  refine ends_iterate (I := w.Same) (fun chunks v hv => ?_) [] (.refl w)
  refine (gives_readSome fd chunkSize).bind fun reply v' h => ?_
  have hsame := hv.trans h.1
  rcases reply with e | _ | ⟨b, bs⟩
  · exact ends_pure ⟨_, rfl, hsame⟩
  · exact ends_pure ⟨_, rfl, hsame⟩
  · exact ends_pure ⟨hsame, h.2⟩

/-! ## Substitution -/

instance keepsFiles_substitutionStatus (child : ProcessId) :
    KeepsFiles L (Expansion.substitutionStatus child) := by
  refine .iterate (fun _ => .bind fun r => ?_) ()
  rcases r with e | _ | ⟨pid, status⟩
  · infer_instance
  · infer_instance
  · infer_instance

instance keepsFiles_setSubstitutionStatus (code : Int) :
    KeepsFiles L (modify fun sh => { sh with substitutionStatus := some code } : ShellM Unit) :=
  .modify fun _ => rfl

/-- Without commands there is nothing to fork. -/
instance keepsFiles_substitute_none : KeepsFiles L (substitute ev none) := keepsFiles_bind

/-- A shell that has forked a child reads from the pipe and leaves nothing of it. -/
theorem ends_readSubstitution {readEnd writeEnd : Nat} {v : Holdings} (child : ProcessId)
    (hpipe : GainsPipe w (.ok (readEnd, writeEnd)) v) :
    Ends L (do
      closeOrFail writeEnd
      let output ← readAll readEnd
      closeOrFail readEnd
      let status ← Expansion.substitutionStatus child
      modify fun sh => { sh with substitutionStatus := some status }
      match output with
      | .error e => fail (.inputOutput e)
      | .ok data => return Text.trimEnd (· == '\n') (Text.decode data) : ShellM Text) v
      fun _ w' => w.Same w' := by
  refine (gives_closeOrFail hpipe.isSome).bind fun _ w₁ h₁ => ?_
  have hread := hpipe.closeWrite h₁
  refine (gives_readAll readEnd).bind fun output w₂ h₂ => ?_
  refine (gives_closeOrFail (hread.same h₂).isSome).bind fun _ w₃ h₃ => ?_
  have hsame := (hread.same h₂).close h₃
  -- the shell holds again what it held before the pipe
  refine Ends.mono (@KeepsFiles.ends _ _ _ ?_ w₃) fun _ _ h => hsame.trans h
  refine .bind fun status => .bind fun _ => ?_
  cases output with
  | ok data => infer_instance
  | error e => infer_instance

/-- The pipe to a child is closed again at both ends, if the child can be forked. -/
theorem keepsFiles_substitute_some (hfork : ¬ L.forkFails) (body : Script.Node) :
    KeepsFiles L (substitute ev (some body)) := by
  constructor
  intro w
  refine gives_pipe.bind fun reply w₁ hpipe => ?_
  rcases reply with e | ⟨readEnd, writeEnd⟩
  · exact ends_fail hpipe
  refine (gives_fork hfork).bind fun reply w₂ h₂ => ?_
  rcases reply with e | _ | child
  · cases h₂.1
  · exact ends_neverEnds _
  · exact ends_readSubstitution child (hpipe.same h₂.2)

/-! ## Parameters and arithmetic -/

theorem saved_assign {s t : Shell} {name value : Text} (h : s.assign name value = .ok t) :
    t.saved = s.saved := by
  unfold assign at h
  cases ha : s.variables.assignWith name (some value) (s.has .allexport) false with
  | error e =>
      rw [ha] at h
      cases h
  | ok vs =>
      rw [ha] at h
      cases h
      rfl

instance keptByAssignments_saved : KeptByAssignments (same Shell.saved) where
  assign h := saved_assign h

instance keepsFiles_assignVariable (name value : Text) :
    KeepsFiles L (assignVariable name value) := by
  constructor
  rintro w s T rfl -
  show ((ofExcept (s.assign name value) >>= fun t => set t : ShellM Unit).startedIn s).Meets L _ T
  cases h : s.assign name value with
  | error e => exact ⟨.refl _, .refl _⟩
  | ok t => exact ⟨.refl _, saved_assign h, rfl⟩

instance keepsFiles_arithmetic (text : Text) : KeepsFiles L (arithmetic text) := by
  have hrun : KeepsFiles L
      (modifyGet (Arith.evalText arithmeticAccess text).run.run : ShellM _) := by
    constructor
    rintro w s T rfl -
    exact ⟨.refl _, (ArithmeticAssigns.evalText text).keeps (R := same Shell.saved) s, rfl⟩
  exact keepsFiles_bind

instance keepsFiles_expandParameter (name : Text) (op : ParamOp) (colon inQuotes hasArg : Bool)
    (arg : Quoting → ShellM (List Piece)) [∀ q, KeepsFiles L (arg q)] :
    KeepsFiles L (expandParameter name op colon inQuotes hasArg arg) := by
  refine .bind fun s => ?_
  cases op with
  | _ =>
      dsimp only
      infer_instance

/-! ## Words -/

/-- No commands stand among the parts. -/
def Commandless (ps : List Part) : Prop := Part.EveryOf (fun _ _ => False) false ps

mutual

theorem keepsFiles_partPieces (q : Quoting) :
    ∀ p : Part, (L.forkFails → p.Every (fun _ _ => False) false) →
      KeepsFiles L (partPieces ev q p)
  | .literal _, _ | .escaped _, _ | .singleQuoted _, _ | .command none, _ => by
      unfold partPieces
      infer_instance
  | .doubleQuoted ps, h => by
      have hps := keepsFiles_pieces .quoted ps h
      unfold partPieces
      infer_instance
  | .param name op colon arg inQuotes, h => by
      have harg := fun q => keepsFiles_pieces q arg h
      unfold partPieces
      infer_instance
  | .command (some body), h => by
      have hbody : KeepsFiles L (substitute ev (some body)) :=
        keepsFiles_substitute_some (fun hfork => by
          have hevery := h hfork
          obtain ⟨c, l⟩ := body
          exact hevery.1) body
      unfold partPieces
      infer_instance
  | .arithmetic ps, h => by
      have hps := keepsFiles_pieces .quoted ps h
      unfold partPieces
      infer_instance

/-- Parts keep the files if no fork can fail, or if no command stands among them. -/
theorem keepsFiles_pieces (q : Quoting) :
    ∀ ps : List Part, (L.forkFails → Commandless ps) → KeepsFiles L (pieces ev q ps)
  | [], _ => by
      unfold pieces
      infer_instance
  | p :: ps, h => by
      have hp := keepsFiles_partPieces q p fun hfork => (h hfork).1
      have hps := keepsFiles_pieces q ps fun hfork => (h hfork).2
      unfold pieces
      infer_instance

end

instance keepsFiles_homeOf? (user : Text) : KeepsFiles L (homeOf? user) := by
  refine .ite (.bind fun s => ?_) inferInstance
  cases s.value? "HOME" with
  | some home => infer_instance
  | none => infer_instance

/-- What a word is left with after its tilde has no commands either. -/
theorem ends_wordTilde {ps : List Part} (h : L.forkFails → Commandless ps) :
    Ends L (wordTilde ps) w fun r w' => w.Same w' ∧
      ∀ home rest, r = .ok (some (home, rest)) → L.forkFails → Commandless rest := by
  have hnone : ∀ {v : Holdings}, w.Same v → Ends L (pure none) v fun r w' => w.Same w' ∧
      ∀ (home : Text) rest, r = .ok (some (home, rest)) → L.forkFails → Commandless rest :=
    fun hv => ends_pure ⟨hv, by simp⟩
  unfold wordTilde
  split
  · rename_i first rest
    have hrest : L.forkFails → Commandless rest := fun hfork => (h hfork).2
    split
    · exact hnone (.refl w)
    · rename_i user remainder _
      split
      · exact hnone (.refl w)
      · refine .after (fun r v hv => ?_) fun _ _ hv => ⟨hv, by simp⟩
        cases r with
        | none => exact hnone hv
        | some home =>
            refine ends_pure ⟨hv, fun _ _ heq hfork => ?_⟩
            cases heq
            split
            · exact hrest hfork
            · exact ⟨trivial, hrest hfork⟩
  · exact hnone (.refl w)

/-- A word keeps the files if no fork can fail, or if no command stands in it. -/
theorem keepsFiles_wordText {word : Word} (h : L.forkFails → Commandless word.parts) :
    KeepsFiles L (wordText ev word) := by
  have hpieces : KeepsFiles L (wordPieces ev word) := by
    constructor
    intro w
    refine (ends_wordTilde h).bind ?_ fun _ _ he => he.1
    rintro r w' ⟨hw', hrest⟩
    rcases r with _ | ⟨home, rest⟩
    · exact ((keepsFiles_pieces .bare _ h).ends w').mono fun _ _ hs => hw'.trans hs
    · have hkeeps : KeepsFiles L (pieces ev .bare rest) :=
        keepsFiles_pieces .bare rest (hrest home rest rfl)
      exact (KeepsFiles.ends w').mono fun _ _ hs => hw'.trans hs
  exact keepsFiles_bind

/-- The body of a here-document keeps the files under the same condition. -/
theorem keepsFiles_hereDocText {word : Word} (h : L.forkFails → Commandless word.parts) :
    KeepsFiles L (hereDocText ev word) := by
  unfold hereDocText
  split
  · infer_instance
  · have hpieces : KeepsFiles L (pieces ev .quoted word.parts) :=
      keepsFiles_pieces .quoted word.parts h
    exact keepsFiles_bind

end CommandShell.Shell
