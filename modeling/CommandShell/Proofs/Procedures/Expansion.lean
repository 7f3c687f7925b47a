import CommandShell.Execution.Redirection
import CommandShell.Proofs.Procedures
import CommandShell.Proofs.Scopes.Expansion

/-!
# Expansions and redirections are procedures

The commands inside a word run in children of the shell, and a child goes on with the same parts as its
parent. An arithmetic expression changes the state only by assignments. Constructs with redirections
put descriptors aside and back by calls.
-/

namespace CommandShell.Shell

open Script (Part Word ParamOp Redirect RedirectOp)
open Expansion

variable {σ α : Type} {ev : Evaluator} {E : Exits}

/-! ## Tildes and paths -/

instance procedure_homeOf? (user : Text) : Procedure ev E (homeOf? user) := by
  refine .ite (.bind fun s => ?_) inferInstance
  cases s.value? "HOME" with
  | some home => infer_instance
  | none => infer_instance

instance procedure_segmentTilde (segment : Text) (runsOn : Bool) :
    Procedure ev E (segmentTilde segment runsOn) := by
  unfold segmentTilde
  split
  · infer_instance
  · refine .ite inferInstance (.bind fun r => ?_)
    cases r with
    | some home => infer_instance
    | none => infer_instance

instance procedure_assignedTildes (text : Text) (atStart last : Bool) :
    Procedure ev E (assignedTildes text atStart last) := by
  have h : ∀ ss eligible, Procedure ev E (segmentTildes eligible last ss) := by
    intro ss
    induction ss with
    | nil => exact fun _ => procedure_pure _
    | cons s ss ih => exact fun _ => procedure_ite
  exact procedure_bind

instance procedure_wordTilde (ps : List Part) : Procedure ev E (wordTilde ps) := by
  unfold wordTilde
  split
  · split
    · infer_instance
    · refine .ite inferInstance (.bind fun home => ?_)
      cases home with
      | some home => infer_instance
      | none => infer_instance
  · infer_instance

instance procedure_directoryNames (dotted : Bool) (dir : Text) : Procedure ev E (directoryNames dotted dir) := by
  unfold directoryNames
  split
  · infer_instance
  · refine .bind fun r => ?_
    cases r with
    | ok names => infer_instance
    | error e => infer_instance

instance procedure_pathsInAll (component : List PatternItem) (dotted : Bool) (dirs : List Text) :
    Procedure ev E (pathsInAll component dotted dirs) := by
  induction dirs with
  | nil => exact procedure_pure _
  | cons dir dirs ih =>
      have hhere : Procedure ev E (pathsIn component dotted dir) := procedure_bind
      exact procedure_bind

instance procedure_follow (paths components : List Text) : Procedure ev E (follow paths components) := by
  induction components generalizing paths with
  | nil =>
      unfold follow
      infer_instance
  | cons component rest ih =>
      unfold follow
      refine .ite (ih _) ?_
      split
      · infer_instance
      · infer_instance

instance procedure_existing (directoriesOnly : Bool) (paths : List Text) :
    Procedure ev E (existing directoriesOnly paths) := by
  induction paths with
  | nil => exact procedure_pure _
  | cons p paths ih =>
      have hp : Procedure ev E (pathExists directoriesOnly p) := procedure_bind
      exact procedure_bind

instance procedure_pathnames (pattern : Text) : Procedure ev E (pathnames pattern) := by
  refine .bind fun r => ?_
  cases r with
  | some paths => infer_instance
  | none => infer_instance

instance procedure_fieldsArguments (fs : List Field) : Procedure ev E (fieldsArguments fs) := by
  have hf : ∀ f, Procedure ev E (fieldArguments f) := by
    refine fun f => .bind fun s => .ite inferInstance (.bind fun r => ?_)
    cases r with
    | some paths => infer_instance
    | none => infer_instance
  induction fs with
  | nil => exact procedure_pure _
  | cons f fs ih => exact procedure_bind

/-! ## Substitution -/

instance procedure_substitutionStatus (child : ProcessId) :
    Procedure ev E (Expansion.substitutionStatus child) := by
  refine .iterate (fun _ => .bind fun r => ?_) ()
  rcases r with e | _ | ⟨pid, status⟩
  · infer_instance
  · infer_instance
  · infer_instance

instance procedure_substitutionChild (readEnd writeEnd : Nat) (body : Script.Node) :
    Procedure ev E (substitutionChild ev readEnd writeEnd body) := by
  refine .bind fun _ => .bind fun _ => .bind fun r => ?_
  cases r with
  | ok u => infer_instance
  | error e => infer_instance

instance procedure_substitute (body : Option Script.Node) : Procedure ev E (substitute ev body) := by
  have hstatus : ∀ code : Int, Procedure ev E
      (modify fun sh => { sh with substitutionStatus := some code } : ShellM Unit) :=
    fun _ => .modify fun _ => .works rfl rfl rfl rfl rfl rfl
  cases body with
  | none => exact procedure_bind
  | some body =>
      refine .bind fun r => ?_
      rcases r with e | ⟨readEnd, writeEnd⟩
      · infer_instance
      · refine .bind fun r => ?_
        rcases r with e | _ | child
        · infer_instance
        · infer_instance
        · refine .bind fun _ => .bind fun output => .bind fun _ => .bind fun status =>
            .bind fun _ => ?_
          cases output with
          | ok data => infer_instance
          | error e => infer_instance

theorem moves_of_assigns {s t : Shell} (h : Relation.ReflTransGen Assigns s t) : Moves s t := by
  induction h with
  | refl => exact .refl s
  | tail _ hassign ih =>
      obtain ⟨name, value, hassign⟩ := hassign
      exact ih.trans (.assign hassign)

instance procedure_arithmetic (text : Text) : Procedure ev E (arithmetic text) := by
  have hrun : Procedure ev E (modifyGet (Arith.evalText arithmeticAccess text).run.run : ShellM _) :=
    .modifyGet fun s => moves_of_assigns (ArithmeticAssigns.evalText text s)
  exact procedure_bind

/-! ## Words -/

instance procedure_expandParameter (name : Text) (op : ParamOp) (colon inQuotes hasArg : Bool)
    (arg : Quoting → ShellM (List Piece)) [∀ q, Procedure ev E (arg q)] :
    Procedure ev E (expandParameter name op colon inQuotes hasArg arg) := by
  refine .bind fun s => ?_
  cases op with
  | _ =>
      dsimp only
      infer_instance

mutual

theorem procedure_partPieces (q : Quoting) : ∀ p : Part, Procedure ev E (partPieces ev q p)
  | .literal _ | .escaped _ | .singleQuoted _ => by
      unfold partPieces
      infer_instance
  | .doubleQuoted ps => by
      have hps := procedure_pieces .quoted ps
      unfold partPieces
      infer_instance
  | .param name op colon arg inQuotes => by
      have harg := fun q => procedure_pieces q arg
      unfold partPieces
      infer_instance
  | .command body => by
      unfold partPieces
      infer_instance
  | .arithmetic ps => by
      have hps := procedure_pieces .quoted ps
      unfold partPieces
      infer_instance

theorem procedure_pieces (q : Quoting) : ∀ ps : List Part, Procedure ev E (pieces ev q ps)
  | [] => by
      unfold pieces
      infer_instance
  | p :: ps => by
      have hp := procedure_partPieces q p
      have hps := procedure_pieces q ps
      unfold pieces
      infer_instance

end

attribute [instance] procedure_pieces

instance procedure_wordPieces (w : Word) : Procedure ev E (wordPieces ev w) := by
  refine .bind fun r => ?_
  rcases r with _ | ⟨home, rest⟩
  · infer_instance
  · infer_instance

instance procedure_quotedText (ps : List Part) : Procedure ev E (quotedText ev ps) := procedure_bind

instance procedure_wordText (w : Word) : Procedure ev E (wordText ev w) := procedure_bind

instance procedure_wordPattern (w : Word) : Procedure ev E (wordPattern ev w) := procedure_bind

instance procedure_hereDocText (w : Word) : Procedure ev E (hereDocText ev w) := by
  unfold hereDocText
  split
  · infer_instance
  · infer_instance

instance procedure_arguments (ws : List Word) : Procedure ev E (arguments ev ws) := by
  induction ws with
  | nil => exact procedure_pure _
  | cons w ws ih => exact procedure_bind

instance procedure_assignedValue (first : Bool) (done : Text) (ps : List Part) :
    Procedure ev E (assignedValue ev first done ps) := by
  induction ps generalizing first done with
  | nil => exact procedure_pure _
  | cons p ps ih =>
      unfold assignedValue
      cases p with
      | literal t => infer_instance
      | _ => infer_instance

instance procedure_assignment (w : Word) : Procedure ev E (assignment ev w) := by
  unfold assignment
  dsimp only
  split
  · split
    · infer_instance
    · infer_instance
  · infer_instance

instance procedure_assignments (ws : List Word) : Procedure ev E (assignments ev ws) := by
  induction ws with
  | nil => exact procedure_pure _
  | cons w ws ih => exact procedure_bind

/-! ## Descriptors put aside -/

instance procedure_copyHigh (fd : Nat) : Procedure ev E (copyHigh fd) := by
  refine .bind fun r => ?_
  cases r with
  | ok copy => infer_instance
  | error e => infer_instance

instance procedure_saveDescriptor (fd : Nat) : Procedure ev E (saveDescriptor fd) := by
  have hset : ∀ saved, Procedure ev E (modify fun sh => { sh with saved := saved } : ShellM Unit) :=
    fun _ => .modify fun _ => .works rfl rfl rfl rfl rfl rfl
  refine .bind fun s => ?_
  cases s.saved with
  | nil => infer_instance
  | cons frame rest => infer_instance

instance procedure_closeSaved : Procedure ev E closeSaved := by
  have hset : ∀ saved, Procedure ev E (modify fun sh => { sh with saved := saved } : ShellM Unit) :=
    fun _ => .modify fun _ => .works rfl rfl rfl rfl rfl rfl
  have hback : ∀ saved : SavedDescriptor, Procedure ev E (restoreDescriptor saved) := by
    intro saved
    unfold restoreDescriptor
    split
    · infer_instance
    · infer_instance
  refine .bind fun s => ?_
  cases s.saved with
  | nil => infer_instance
  | cons frame rest => infer_instance

/-! ## Targets -/

instance procedure_openOrFail (verb path : Text) (flags : Host.OpenFlags) :
    Procedure ev E (openOrFail verb path flags) := by
  refine .bind fun r => ?_
  cases r with
  | ok fd => infer_instance
  | error e => infer_instance

instance procedure_openIrregular (path : Text) : Procedure ev E (openIrregular path) := by
  refine .bind fun fd => .bind fun r => ?_
  cases r with
  | ok st => infer_instance
  | error e => infer_instance

instance procedure_openNoClobber (path : Text) : Procedure ev E (openNoClobber path) := by
  have hopen : ∀ r : Except Errno Nat, Procedure ev E (match r with
      | .ok fd => return fd
      | .error e =>
        if e = .exists_ then openIrregular path else fail (openFault "create" path e)) := by
    intro r
    cases r with
    | ok fd => infer_instance
    | error e => infer_instance
  refine .bind fun r => ?_
  cases r with
  | ok st => exact .ite inferInstance (.bind hopen)
  | error e => exact .bind hopen

instance procedure_hereDocPipe (text : Text) : Procedure ev E (hereDocPipe text) := by
  have hfeed : ∀ readEnd writeEnd data, Procedure ev E (feedFromChild readEnd writeEnd data) := by
    refine fun readEnd writeEnd data => .bind fun r => ?_
    rcases r with e | _ | child
    · infer_instance
    · infer_instance
    · infer_instance
  refine .bind fun r => ?_
  rcases r with e | ⟨readEnd, writeEnd⟩
  · infer_instance
  · infer_instance

instance procedure_copyNamed (fd : Nat) (word : Text) : Procedure ev E (copyNamed fd word) := by
  unfold copyNamed
  split
  · infer_instance
  · infer_instance
  · infer_instance

instance procedure_openWord (fd : Nat) (op : RedirectOp) (word : Text) :
    Procedure ev E (openWord fd op word) := by
  cases op with
  | _ =>
      unfold openWord
      infer_instance

instance procedure_openTarget (r : Redirect) : Procedure ev E (openTarget ev r) := by
  unfold openTarget
  split
  · infer_instance
  · infer_instance
  · infer_instance

instance procedure_moveInto (fd : Nat) (source : Option Nat) : Procedure ev E (moveInto fd source) := by
  cases source with
  | none => exact procedure_bind
  | some source =>
      refine .ite inferInstance (.bind fun r => ?_)
      cases r with
      | ok u => infer_instance
      | error e => infer_instance

/-! ## Constructs with redirections -/

instance procedure_applyRedirects (save : Bool) (rs : List Redirect) :
    Procedure ev E (applyRedirects ev save rs) := by
  induction rs with
  | nil => exact procedure_pure _
  | cons r rs ih =>
      unfold applyRedirects
      infer_instance

/-- What the construct stops with is handed on after its descriptors are put back. -/
instance procedure_withRedirects (rs : List Redirect) (body : ShellM Unit) [hbody : Procedure ev E body] :
    Procedure ev E (withRedirects ev rs body) := by
  have hopen : Procedure ev E openSaved := .modify fun _ => .works rfl rfl rfl rfl rfl rfl
  refine .ite inferInstance (.bind fun _ => .caught (F := E) inferInstance fun r => ?_)
  cases r with
  | ok u => exact .mono (.caught hbody fun result => inferInstance) (Exits.le_handed _)
  | error s => infer_instance

end CommandShell.Shell
