import Mathlib.Logic.Relation
import CommandShell.Execution.Redirection
import CommandShell.Proofs.Lockstep.Expansion
import CommandShell.Proofs.Scopes

/-!
# What expansions and redirections leave behind

An expansion assigns to variables and starts children, which never come back. Neither changes a
scope or a positional parameter. A construct with redirections puts descriptors aside in an entry of
its own, and this entry is gone when it ends, also when one of the redirections failed.
-/

namespace CommandShell.Shell

open Script (Part Word ParamOp Redirect RedirectOp)
open Expansion

variable {α : Type} {R : Bond} {ev : Evaluator}

/-! ## Tildes and paths -/

instance keeps_homeOf? (user : Text) : Keeps R (homeOf? user) := by
  refine .ite (.bind fun s => ?_) inferInstance
  cases s.value? "HOME" with
  | some home => infer_instance
  | none => infer_instance

instance keeps_segmentTilde (segment : Text) (runsOn : Bool) :
    Keeps R (segmentTilde segment runsOn) := by
  unfold segmentTilde
  split
  · infer_instance
  · refine .ite inferInstance (.bind fun r => ?_)
    cases r with
    | some home => infer_instance
    | none => infer_instance

instance keeps_assignedTildes (text : Text) (atStart last : Bool) :
    Keeps R (assignedTildes text atStart last) := by
  have h : ∀ ss eligible, Keeps R (segmentTildes eligible last ss) := by
    intro ss
    induction ss with
    | nil => exact fun _ => keeps_pure _
    | cons s ss ih => exact fun _ => keeps_ite
  exact keeps_bind

instance keeps_wordTilde (ps : List Part) : Keeps R (wordTilde ps) := by
  unfold wordTilde
  split
  · split
    · infer_instance
    · refine .ite inferInstance (.bind fun home => ?_)
      cases home with
      | some home => infer_instance
      | none => infer_instance
  · infer_instance

instance keeps_directoryNames (dotted : Bool) (dir : Text) : Keeps R (directoryNames dotted dir) := by
  unfold directoryNames
  split
  · infer_instance
  · refine .bind fun r => ?_
    cases r with
    | ok names => infer_instance
    | error e => infer_instance

instance keeps_pathsInAll (component : List PatternItem) (dotted : Bool) (dirs : List Text) :
    Keeps R (pathsInAll component dotted dirs) := by
  induction dirs with
  | nil => exact keeps_pure _
  | cons dir dirs ih =>
      have hhere : Keeps R (pathsIn component dotted dir) := keeps_bind
      exact keeps_bind

instance keeps_follow (paths components : List Text) : Keeps R (follow paths components) := by
  induction components generalizing paths with
  | nil =>
      unfold follow
      infer_instance
  | cons component rest ih =>
      unfold follow
      refine .ite (ih _) ?_
      split
      · infer_instance
      · infer_instance

instance keeps_existing (directoriesOnly : Bool) (paths : List Text) :
    Keeps R (existing directoriesOnly paths) := by
  induction paths with
  | nil => exact keeps_pure _
  | cons p paths ih =>
      have hp : Keeps R (pathExists directoriesOnly p) := keeps_bind
      exact keeps_bind

instance keeps_pathnames (pattern : Text) : Keeps R (pathnames pattern) := by
  refine .bind fun r => ?_
  cases r with
  | some paths => infer_instance
  | none => infer_instance

instance keeps_fieldsArguments (fs : List Field) : Keeps R (fieldsArguments fs) := by
  have hf : ∀ f, Keeps R (fieldArguments f) := by
    refine fun f => .bind fun s => .ite inferInstance (.bind fun r => ?_)
    cases r with
    | some paths => infer_instance
    | none => infer_instance
  induction fs with
  | nil => exact keeps_pure _
  | cons f fs ih => exact keeps_bind

/-! ## Substitution -/

instance keeps_substitutionStatus (child : ProcessId) :
    Keeps R (Expansion.substitutionStatus child) := by
  refine .iterate (fun _ => .bind fun r => ?_) ()
  rcases r with e | _ | ⟨pid, status⟩
  · infer_instance
  · infer_instance
  · infer_instance

/-- A child of a command substitution never comes back. -/
instance neverEnds_substitutionChild (readEnd writeEnd : Nat) (body : Script.Node) :
    NeverEnds (substitutionChild ev readEnd writeEnd body) := by
  refine @neverEnds_bind _ _ _ _ _ fun _ => @neverEnds_bind _ _ _ _ _ fun _ =>
    @neverEnds_bind _ _ _ _ _ fun r => ?_
  cases r with
  | ok u => exact neverEnds_bind
  | error e => exact neverEnds_bind_left

section

variable [hR : KeptByExpansions R]

instance keeps_substitute (body : Option Script.Node) : Keeps R (substitute ev body) := by
  have hstatus : ∀ code : Int, Keeps R
      (modify fun sh => { sh with substitutionStatus := some code } : ShellM Unit) :=
    fun code => ⟨fun s => hR.substituted s (some code)⟩
  cases body with
  | none => exact keeps_bind
  | some body =>
      refine .bind fun r => ?_
      rcases r with e | ⟨readEnd, writeEnd⟩
      · infer_instance
      · refine .bind fun r => ?_
        rcases r with e | _ | child
        · infer_instance
        · exact keeps_of_neverEnds _
        · refine .bind fun _ => .bind fun output => .bind fun _ => .bind fun status =>
            .bind fun _ => ?_
          cases output with
          | ok data => infer_instance
          | error e => infer_instance

/-- An assignment, as the language has it. -/
def Assigns (s t : Shell) : Prop := ∃ name value, s.assign name value = .ok t

/-- What an arithmetic expression does to the state: it assigns. -/
def ArithmeticAssigns (x : Arith.Eval Shell α) : Prop :=
  ∀ s, Relation.ReflTransGen Assigns s (x.run.run s).2

namespace ArithmeticAssigns

variable {β : Type}

omit hR

protected theorem pure (a : α) : ArithmeticAssigns (pure a) := fun _ => .refl

protected theorem throw (f : Fault) : ArithmeticAssigns (throw f : Arith.Eval Shell α) :=
  fun _ => .refl

protected theorem bind {x : Arith.Eval Shell α} {f : α → Arith.Eval Shell β}
    (hx : ArithmeticAssigns x) (hf : ∀ a, ArithmeticAssigns (f a)) : ArithmeticAssigns (x >>= f) := by
  intro s
  have h := hx s
  show Relation.ReflTransGen Assigns s (let (r, t) := x.run.run s; ExceptT.bindCont f r t).2
  generalize x.run.run s = outcome at h
  obtain ⟨r, t⟩ := outcome
  cases r with
  | ok a => exact h.trans (hf a t)
  | error e => exact h

theorem readNumber (name : Text) : ArithmeticAssigns (Arith.readNumber arithmeticAccess name) := by
  intro s
  rw [Arith.readNumber, ArithmeticAlike.run_get_bind]
  cases arithmeticAccess.number s name with
  | ok n => exact .refl
  | error f => exact .refl

theorem writeNumber (name : Text) (n : Arith.Value) :
    ArithmeticAssigns (Arith.writeNumber arithmeticAccess name n) := by
  intro s
  rw [Arith.writeNumber, ArithmeticAlike.run_get_bind]
  cases h : arithmeticAccess.write s name (Text.ofInt n.toInt) with
  | ok t => exact .single ⟨name, _, h⟩
  | error f => exact .refl

theorem applyOp (op : Arith.BinaryOp) (a b : Arith.Value) :
    ArithmeticAssigns (Arith.applyOp op a b : Arith.Eval Shell Arith.Value) := by
  unfold Arith.applyOp
  split
  · exact .pure _
  · exact .throw _

theorem eval (e : Arith.Expr) : ArithmeticAssigns (e.eval arithmeticAccess) := by
  induction e with
  | number n => exact .pure n
  | var name => exact readNumber name
  | neg e ih => exact .bind ih fun _ => .pure _
  | not e ih => exact .bind ih fun _ => .pure _
  | bitNot e ih => exact .bind ih fun _ => .pure _
  | binary op a b iha ihb => exact .bind iha fun x => .bind ihb fun y => applyOp op x y
  | and a b iha ihb =>
      refine .bind iha fun x => ?_
      split
      · exact .pure _
      · exact .bind ihb fun _ => .pure _
  | or a b iha ihb =>
      refine .bind iha fun x => ?_
      split
      · exact .pure _
      · exact .bind ihb fun _ => .pure _
  | cond c a b ihc iha ihb =>
      refine .bind ihc fun x => ?_
      split
      · exact iha
      · exact ihb
  | assign name op e ih =>
      have hwrite : ∀ value, ArithmeticAssigns (do
          Arith.writeNumber arithmeticAccess name value
          return value) := fun value => .bind (writeNumber name value) fun _ => .pure _
      refine .bind ih fun x => ?_
      cases op with
      | none => exact .bind (.pure x) hwrite
      | some op => exact .bind (readNumber name) fun y => .bind (applyOp op y x) hwrite

theorem evalText (text : Text) : ArithmeticAssigns (Arith.evalText arithmeticAccess text) := by
  unfold Arith.evalText
  split
  · exact .throw _
  · exact .pure _
  · exact .eval _

/-- What assignments keep arithmetic expressions keep. -/
theorem keeps [hA : KeptByAssignments R] {x : Arith.Eval Shell α} (h : ArithmeticAssigns x)
    (s : Shell) : R s (x.run.run s).2 := by
  refine (h s).trans_induction_on (motive := fun {s t} _ => R s t) R.refl ?_ ?_
  · rintro s t ⟨name, value, hassign⟩
    exact hA.assign hassign
  · exact fun _ _ h h' => R.trans h h'

end ArithmeticAssigns

instance keeps_arithmetic (text : Text) : Keeps R (arithmetic text) := by
  have hrun : Keeps R (modifyGet (Arith.evalText arithmeticAccess text).run.run : ShellM _) :=
    ⟨(ArithmeticAssigns.evalText text).keeps⟩
  exact keeps_bind

/-! ## Words -/

instance keeps_expandParameter (name : Text) (op : ParamOp) (colon inQuotes hasArg : Bool)
    (arg : Quoting → ShellM (List Piece)) [∀ q, Keeps R (arg q)] :
    Keeps R (expandParameter name op colon inQuotes hasArg arg) := by
  refine .bind fun s => ?_
  cases op with
  | _ =>
      dsimp only
      infer_instance

omit hR

mutual

theorem keeps_partPieces [KeptByExpansions R] (q : Quoting) : ∀ p : Part, Keeps R (partPieces ev q p)
  | .literal _ | .escaped _ | .singleQuoted _ => by
      unfold partPieces
      infer_instance
  | .doubleQuoted ps => by
      have hps := keeps_pieces .quoted ps
      unfold partPieces
      infer_instance
  | .param name op colon arg inQuotes => by
      have harg := fun q => keeps_pieces q arg
      unfold partPieces
      infer_instance
  | .command body => by
      unfold partPieces
      infer_instance
  | .arithmetic ps => by
      have hps := keeps_pieces .quoted ps
      unfold partPieces
      infer_instance

theorem keeps_pieces [KeptByExpansions R] (q : Quoting) : ∀ ps : List Part, Keeps R (pieces ev q ps)
  | [] => by
      unfold pieces
      infer_instance
  | p :: ps => by
      have hp := keeps_partPieces q p
      have hps := keeps_pieces q ps
      unfold pieces
      infer_instance

end

attribute [instance] keeps_pieces

instance keeps_wordPieces (w : Word) : Keeps R (wordPieces ev w) := by
  refine .bind fun r => ?_
  rcases r with _ | ⟨home, rest⟩
  · infer_instance
  · infer_instance

instance keeps_quotedText (ps : List Part) : Keeps R (quotedText ev ps) := keeps_bind

instance keeps_wordText (w : Word) : Keeps R (wordText ev w) := keeps_bind

instance keeps_wordPattern (w : Word) : Keeps R (wordPattern ev w) := keeps_bind

instance keeps_hereDocText (w : Word) : Keeps R (hereDocText ev w) := by
  unfold hereDocText
  split
  · infer_instance
  · infer_instance

instance keeps_arguments (ws : List Word) : Keeps R (arguments ev ws) := by
  induction ws with
  | nil => exact keeps_pure _
  | cons w ws ih => exact keeps_bind

instance keeps_assignedValue (first : Bool) (done : Text) (ps : List Part) :
    Keeps R (assignedValue ev first done ps) := by
  induction ps generalizing first done with
  | nil => exact keeps_pure _
  | cons p ps ih =>
      unfold assignedValue
      cases p with
      | literal t => infer_instance
      | _ => infer_instance

instance keeps_assignment (w : Word) : Keeps R (assignment ev w) := by
  unfold assignment
  dsimp only
  split
  · split
    · infer_instance
    · infer_instance
  · infer_instance

instance keeps_assignments (ws : List Word) : Keeps R (assignments ev ws) := by
  induction ws with
  | nil => exact keeps_pure _
  | cons w ws ih => exact keeps_bind

end

/-! ## Descriptors and targets -/

instance keeps_copyHigh (fd : Nat) : Keeps R (copyHigh fd) := by
  refine .bind fun r => ?_
  cases r with
  | ok copy => infer_instance
  | error e => infer_instance

/-- Descriptors are put back after their entry was taken off the stack. -/
theorem closeSaved_always (t : Shell) :
    (closeSaved.startedIn t).Always fun r => R { t with saved := t.saved.tail } r.2 := by
  have hback : ∀ saved : SavedDescriptor, Keeps R (restoreDescriptor saved) := by
    intro saved
    unfold restoreDescriptor
    split
    · infer_instance
    · infer_instance
  have hget : ∀ f : Shell → ShellM Unit, (get >>= f).startedIn t = (f t).startedIn t := fun _ => rfl
  unfold closeSaved
  rw [hget]
  cases hsaved : t.saved with
  | nil =>
      show R { t with saved := [] } t
      rw [← hsaved]
      exact R.refl t
  | cons frame rest => exact (keeps_forM frame).always { t with saved := rest }

instance keeps_openOrFail (verb path : Text) (flags : Host.OpenFlags) :
    Keeps R (openOrFail verb path flags) := by
  refine .bind fun r => ?_
  cases r with
  | ok fd => infer_instance
  | error e => infer_instance

instance keeps_openIrregular (path : Text) : Keeps R (openIrregular path) := by
  refine .bind fun fd => .bind fun r => ?_
  cases r with
  | ok st => infer_instance
  | error e => infer_instance

instance keeps_openNoClobber (path : Text) : Keeps R (openNoClobber path) := by
  have hopen : ∀ r : Except Errno Nat, Keeps R (match r with
      | .ok fd => return fd
      | .error e =>
        if e = .exists_ then openIrregular path else fail (openFault "create" path e)) := by
    intro r
    cases r with
    | ok fd => infer_instance
    | error e => infer_instance
  refine .bind fun r => ?_
  cases r with
  | ok st => exact .ite inferInstance (.bind hopen)
  | error e => exact .bind hopen

instance keeps_hereDocPipe (text : Text) : Keeps R (hereDocPipe text) := by
  have hfeed : ∀ readEnd writeEnd data, Keeps R (feedFromChild readEnd writeEnd data) := by
    refine fun readEnd writeEnd data => .bind fun r => ?_
    rcases r with e | _ | child
    · infer_instance
    · infer_instance
    · infer_instance
  refine .bind fun r => ?_
  rcases r with e | ⟨readEnd, writeEnd⟩
  · infer_instance
  · infer_instance

instance keeps_copyNamed (fd : Nat) (word : Text) : Keeps R (copyNamed fd word) := by
  unfold copyNamed
  split
  · infer_instance
  · infer_instance
  · infer_instance

instance keeps_openWord (fd : Nat) (op : RedirectOp) (word : Text) :
    Keeps R (openWord fd op word) := by
  cases op with
  | _ =>
      unfold openWord
      infer_instance

instance keeps_moveInto (fd : Nat) (source : Option Nat) : Keeps R (moveInto fd source) := by
  cases source with
  | none => exact keeps_bind
  | some source =>
      refine .ite inferInstance (.bind fun r => ?_)
      cases r with
      | ok u => infer_instance
      | error e => infer_instance

/-! ## Constructs with redirections -/

section

variable [hR : Lenient R]

/-- Putting a descriptor aside replaces the newest entry of the stack by a longer one. -/
instance keeps_saveDescriptor (fd : Nat) : Keeps R (saveDescriptor fd) := by
  constructor
  intro s
  show ((match s.saved with
    | [] => return
    | frame :: rest => do
      if frame.any fun s => s.fd == fd then return
      let copy ← if ← ask (.isOpen fd) then some <$> copyHigh fd else pure none
      modify fun sh => { sh with saved := ({ fd, copy } :: frame) :: rest } : ShellM Unit).startedIn
    s).Always _
  split
  · exact R.refl s
  · rename_i frame rest hsaved
    have hset : ∀ copy : Option Nat, R s { s with saved := ({ fd, copy } :: frame) :: rest } := by
      intro copy
      have hdepth : rest.length + 1 = s.scopes.redirections := by
        show _ = s.saved.length
        rw [hsaved]
        rfl
      refine hR.stands ⟨⟨?_, .refl _⟩, rfl⟩
      show { s.scopes with redirections := rest.length + 1 } = s.scopes
      rw [hdepth]
    split
    · exact R.refl s
    · intro isOpen
      show ((if isOpen = true then _ else _ : ShellM Unit).startedIn s).Always _
      split
      · -- the calls for the copy leave the stack as it was read before
        refine always_bind (P := fun t => t = s)
          ((inferInstance : Keeps (same id) (some <$> copyHigh fd)).always s) ?_ ?_
        · rintro copy _ rfl
          exact hset copy
        · rintro e _ rfl
          exact R.refl _
      · exact hset none

instance keeps_openTarget (r : Redirect) : Keeps R (openTarget ev r) := by
  unfold openTarget
  split
  · infer_instance
  · infer_instance
  · infer_instance

instance keeps_applyRedirects (save : Bool) (rs : List Redirect) :
    Keeps R (applyRedirects ev save rs) := by
  induction rs with
  | nil => exact keeps_pure _
  | cons r rs ih =>
      unfold applyRedirects
      infer_instance

/-- The entry for a construct is on the stack while its redirections are applied and while it runs,
and is taken off after either, whether it failed or not. -/
instance keeps_withRedirects (rs : List Redirect) (body : ShellM Unit) [hbody : Keeps R body] :
    Keeps R (withRedirects ev rs body) := by
  refine .ite hbody ⟨fun s => ?_⟩
  let entered : Shell := { s with saved := [] :: s.saved }
  -- what follows after the entry was taken off goes on from a state that is related to the one before
  have hclose : ∀ (rest : ShellM Unit) [Keeps R rest] (t : Shell), R entered t →
      ((closeSaved >>= fun _ => rest).startedIn t).Always fun r => R s r.2 := by
    intro rest hrest t ht
    have hout : (closeSaved.startedIn t).Always fun r => R s r.2 :=
      (closeSaved_always t).mono fun _ => R.trans (hR.leaveRedirected ht)
    exact always_bind (P := R s) hout (fun _ _ hu => hrest.after hu) fun _ _ hu => hu
  show ((attempt (applyRedirects ev true rs) >>= _).startedIn entered).Always _
  refine always_attempt_bind (P := R entered) ((keeps_applyRedirects true rs).always entered)
    fun r t ht => ?_
  cases r with
  | ok u => exact always_attempt_bind (P := R entered) (hbody.after ht) fun r u hu => hclose (resume r) u hu
  | error e => exact hclose _ t ht

end

end CommandShell.Shell
