import CommandShell.Expansion.Words
import CommandShell.Proofs.Lockstep.Processes
import CommandShell.Execution.Redirection

/-!
# Lockstep of words and redirections

Words are expanded alike in like shells, and redirections whose words are do the same.
-/

/-!
## Lockstep of expansions

A word is expanded alike unless it shows the options, which `$-` does.
-/

namespace CommandShell

open Script (Part Word ParamOp)

namespace Script

mutual

/-- Whether a part shows a parameter. Commands inside it are not looked at. -/
def Part.shows (name : Text) : Part → Bool
  | .doubleQuoted ps => Part.anyShows name ps
  | .param n _ _ arg _ => n == name || Part.anyShows name arg
  | .arithmetic ps => Part.anyShows name ps
  | .literal _ | .escaped _ | .singleQuoted _ | .command _ => false

/-- Whether one of the parts shows a parameter. -/
def Part.anyShows (name : Text) : List Part → Bool
  | [] => false
  | p :: ps => p.shows name || Part.anyShows name ps

end

/-- Whether a word shows a parameter. -/
def Word.shows (name : Text) (w : Word) : Bool := Part.anyShows name w.parts

end Script

namespace Shell

open Expansion

variable {L : Likeness} {ev ev' : Evaluator}

/-- Parts that expand alike. -/
def Likeness.AdmitsParts (L : Likeness) (ps : List Part) : Prop :=
  L.exact ∨ Part.anyShows ['-'] ps = false

/-- Words that expand alike. -/
def Likeness.AdmitsWords (L : Likeness) (ws : List Word) : Prop :=
  ∀ w ∈ ws, L.AdmitsParts w.parts

/-! ### Tildes and paths -/

instance alike_homeOf? (user : Text) : Steady L (homeOf? user) := by
  refine .ite (.get_bind (fun _ _ => rfl) fun s => ?_) inferInstance
  cases s.value? "HOME" with
  | some home => infer_instance
  | none => infer_instance

instance alike_segmentTilde (segment : Text) (runsOn : Bool) :
    Steady L (segmentTilde segment runsOn) := by
  unfold segmentTilde
  split
  · infer_instance
  · refine .ite inferInstance (.bind inferInstance fun r => ?_)
    cases r with
    | some home => infer_instance
    | none => infer_instance

instance alike_segmentTildes (eligible last : Bool) (ss : List Text) :
    Steady L (segmentTildes eligible last ss) := by
  induction ss generalizing eligible with
  | nil => exact alike_pure _
  | cons s ss ih => exact alike_ite

instance alike_assignedTildes (text : Text) (atStart last : Bool) :
    Steady L (assignedTildes text atStart last) := alike_bind

/-- Tildes in a word leave no parts but those of the word. -/
theorem wordTilde_yields {ps : List Part} (h : L.AdmitsParts ps) :
    Yields (fun r => ∀ home rest, r = some (home, rest) → L.AdmitsParts rest) (wordTilde ps) := by
  unfold wordTilde
  split
  · rename_i first rest
    split
    · exact .pure fun _ _ h => nomatch h
    · split
      · exact .pure fun _ _ h => nomatch h
      · refine .bind fun home => ?_
        cases home with
        | none => exact .pure fun _ _ h => nomatch h
        | some home =>
            refine .pure fun home' rest' hr => ?_
            cases hr
            rcases h with hex | hps
            · exact .inl hex
            · refine .inr ?_
              have hrest : Part.anyShows ['-'] rest = false := hps
              split
              · exact hrest
              · exact hrest
  · exact .pure fun _ _ h => nomatch h

instance alike_wordTilde (ps : List Part) : Steady L (wordTilde ps) := by
  unfold wordTilde
  split
  · split
    · infer_instance
    · refine .ite inferInstance (.bind inferInstance fun home => ?_)
      cases home with
      | none => infer_instance
      | some home => infer_instance
  · infer_instance

instance alike_directoryNames (dotted : Bool) (dir : Text) : Steady L (directoryNames dotted dir) := by
  unfold directoryNames
  split
  · infer_instance
  · refine .bind inferInstance fun r => ?_
    cases r with
    | ok names => infer_instance
    | error e => infer_instance

instance alike_pathsInAll (component : List PatternItem) (dotted : Bool) (dirs : List Text) :
    Steady L (pathsInAll component dotted dirs) := by
  induction dirs with
  | nil => exact alike_pure _
  | cons dir dirs ih =>
      have hhere : Steady L (pathsIn component dotted dir) :=
        alike_bind
      exact alike_bind

instance alike_follow (paths components : List Text) : Steady L (follow paths components) := by
  induction components generalizing paths with
  | nil =>
      unfold follow
      infer_instance
  | cons component rest ih =>
      unfold follow
      refine .ite (ih _) ?_
      split
      · infer_instance
      · infer_instance

instance alike_existing (directoriesOnly : Bool) (paths : List Text) :
    Steady L (existing directoriesOnly paths) := by
  induction paths with
  | nil => exact alike_pure _
  | cons p paths ih =>
      have hp : Steady L (pathExists directoriesOnly p) :=
        alike_bind
      exact alike_bind

instance alike_pathnames (pattern : Text) : Steady L (pathnames pattern) := by
  refine .bind inferInstance fun r => ?_
  cases r with
  | none => infer_instance
  | some paths => infer_instance

instance alike_fieldsArguments (fs : List Field) : Steady L (fieldsArguments fs) := by
  have hf : ∀ f, Steady L (fieldArguments f) := by
    intro f
    refine .get_bind (fun _ _ => rfl) fun s => .ite inferInstance (.bind inferInstance fun r => ?_)
    cases r with
    | some paths => infer_instance
    | none => infer_instance
  induction fs with
  | nil => exact alike_pure _
  | cons f fs ih => exact alike_bind

/-! ### Parameters -/

theorem parameter?_withErrexit {name : Text} (h : name ≠ ['-']) (s : Shell) (on : Bool) :
    parameter? (s.withErrexit on) name = parameter? s name := by
  unfold parameter?
  split <;> first | rfl | contradiction

theorem alike_expandParameter [L.Kept] {name : Text} {op : ParamOp} {colon inQuotes hasArg : Bool}
    {arg arg' : Quoting → ShellM (List Piece)} (hname : L.exact ∨ name ≠ ['-'])
    (harg : ∀ q, Alike L (arg q) (arg' q)) :
    Alike L (expandParameter name op colon inQuotes hasArg arg)
      (expandParameter name op colon inQuotes hasArg arg') := by
  unfold expandParameter
  refine .get_bind_of (hname.imp_right fun h s on => ?_) fun s => ?_
  · simp only [isSet, parameter?_withErrexit h]
    rfl
  · split <;> infer_instance

/-! ### Arithmetic -/

/-- An arithmetic computation that sees no `errexit` and keeps the invariant. -/
def ArithmeticAlike (L : Likeness) {α : Type} (x : Arith.Eval Shell α) : Prop :=
  ∀ s, (∀ on, x.run.run (s.withErrexit on)
      = ((x.run.run s).1, (x.run.run s).2.withErrexit on)) ∧
    (L.Holds s → L.Holds (x.run.run s).2)

namespace ArithmeticAlike

variable {α β : Type}

protected theorem pure (a : α) : ArithmeticAlike L (pure a) := fun _ => ⟨fun _ => rfl, id⟩

protected theorem throw (f : Fault) : ArithmeticAlike L (throw f : Arith.Eval Shell α) :=
  fun _ => ⟨fun _ => rfl, id⟩

protected theorem bind {x : Arith.Eval Shell α} {f : α → Arith.Eval Shell β}
    (hx : ArithmeticAlike L x) (hf : ∀ a, ArithmeticAlike L (f a)) :
    ArithmeticAlike L (x >>= f) := by
  have hok : ∀ {t u a}, x.run.run t = (.ok a, u) → (x >>= f).run.run t = (f a).run.run u := by
    intro t u a h
    show (let (r, v) := x.run.run t; ExceptT.bindCont f r v) = _
    rw [h]
    rfl
  have herror : ∀ {t u e}, x.run.run t = (.error e, u) → (x >>= f).run.run t = (.error e, u) := by
    intro t u e h
    show (let (r, v) := x.run.run t; ExceptT.bindCont f r v) = _
    rw [h]
    rfl
  intro s
  obtain ⟨hon, hinv⟩ := hx s
  cases h : x.run.run s with
  | mk r u =>
      rw [h] at hon hinv
      cases r with
      | ok a =>
          obtain ⟨hfon, hfinv⟩ := hf a u
          rw [hok h]
          refine ⟨fun on => ?_, fun hs => hfinv (hinv hs)⟩
          rw [hok (hon on), hfon]
      | error e =>
          rw [herror h]
          exact ⟨fun on => herror (hon on), hinv⟩

theorem run_get_bind (f : Shell → Arith.Eval Shell α) (s : Shell) :
    (get >>= f).run.run s = (f s).run.run s := rfl

theorem readNumber (name : Text) :
    ArithmeticAlike L (Arith.readNumber arithmeticAccess name) := by
  intro s
  have hrun : ∀ t, (Arith.readNumber arithmeticAccess name).run.run t
      = (arithmeticAccess.number t name, t) := by
    intro t
    rw [Arith.readNumber, run_get_bind]
    cases arithmeticAccess.number t name with
    | ok n => rfl
    | error f => rfl
  refine ⟨fun on => ?_, fun hs => ?_⟩
  · rw [hrun, hrun]
    rfl
  · rw [hrun]
    exact hs

theorem writeNumber [L.Kept] (name : Text) (n : Arith.Value) :
    ArithmeticAlike L (Arith.writeNumber arithmeticAccess name n) := by
  intro s
  have hok : ∀ {t u : Shell}, arithmeticAccess.write t name (Text.ofInt n.toInt) = .ok u →
      (Arith.writeNumber arithmeticAccess name n).run.run t = (.ok (), u) := by
    intro t u h
    rw [Arith.writeNumber, run_get_bind, h]
    rfl
  have herror : ∀ {t : Shell} {f}, arithmeticAccess.write t name (Text.ofInt n.toInt) = .error f →
      (Arith.writeNumber arithmeticAccess name n).run.run t = (.error f, t) := by
    intro t f h
    rw [Arith.writeNumber, run_get_bind, h]
    rfl
  have hwrite : ∀ on, arithmeticAccess.write (s.withErrexit on) name (Text.ofInt n.toInt)
      = (arithmeticAccess.write s name (Text.ofInt n.toInt)).map fun t => t.withErrexit on :=
    fun on => assign_withErrexit s on name _
  cases h : arithmeticAccess.write s name (Text.ofInt n.toInt) with
  | ok u =>
      rw [h] at hwrite
      rw [hok h]
      exact ⟨fun on => hok (hwrite on), fun hs => hs.assign h⟩
  | error f =>
      rw [h] at hwrite
      rw [herror h]
      exact ⟨fun on => herror (hwrite on), id⟩

theorem applyOp (op : Arith.BinaryOp) (a b : Arith.Value) :
    ArithmeticAlike L (Arith.applyOp op a b : Arith.Eval Shell Arith.Value) := by
  unfold Arith.applyOp
  split
  · exact .pure _
  · exact .throw _

theorem eval [L.Kept] (e : Arith.Expr) : ArithmeticAlike L (e.eval arithmeticAccess) := by
  induction e with
  | number n => exact .pure n
  | var name => exact readNumber name
  | neg e ih => exact .bind ih fun _ => .pure _
  | not e ih => exact .bind ih fun _ => .pure _
  | bitNot e ih => exact .bind ih fun _ => .pure _
  | binary op a b iha ihb => exact .bind iha fun x => .bind ihb fun y => applyOp op x y
  | and a b iha ihb =>
      refine .bind iha fun x => ?_
      split
      · exact .pure _
      · exact .bind ihb fun _ => .pure _
  | or a b iha ihb =>
      refine .bind iha fun x => ?_
      split
      · exact .pure _
      · exact .bind ihb fun _ => .pure _
  | cond c a b ihc iha ihb =>
      refine .bind ihc fun x => ?_
      split
      · exact iha
      · exact ihb
  | assign name op e ih =>
      have hwrite : ∀ value, ArithmeticAlike L (do
          Arith.writeNumber arithmeticAccess name value
          return value) := fun value => .bind (writeNumber name value) fun _ => .pure _
      refine .bind ih fun x => ?_
      cases op with
      | none => exact .bind (.pure x) hwrite
      | some op => exact .bind (readNumber name) fun y => .bind (applyOp op y x) hwrite

end ArithmeticAlike

instance alike_arithmetic [L.Kept] (text : Text) : Steady L (arithmetic text) := by
  have h : ArithmeticAlike L (Arith.evalText arithmeticAccess text) := by
    unfold Arith.evalText
    split
    · exact .throw _
    · exact .pure _
    · exact .eval _
  exact .bind (.modifyGet (fun s on => (h s).1 on) fun s => (h s).2) fun r => inferInstance

/-! ### Command substitution -/

instance alike_substitutionChild [EvaluatorsAlike L ev ev'] (readEnd writeEnd : Nat)
    (body : Script.Node) :
    Alike L (substitutionChild ev readEnd writeEnd body)
      (substitutionChild ev' readEnd writeEnd body) := by
  refine .bind inferInstance fun _ => .bind inferInstance fun _ => .bind inferInstance fun r => ?_
  cases r with
  | ok u => infer_instance
  | error e => infer_instance

instance alike_substitutionStatus (child : ProcessId) :
    Steady L (Expansion.substitutionStatus child) := by
  refine .iterate (fun _ => .bind inferInstance fun r => ?_) _
  rcases r with e | _ | ⟨pid, status⟩
  · infer_instance
  · infer_instance
  · infer_instance

instance alike_substitute [EvaluatorsAlike L ev ev'] (body : Option Script.Node) :
    Alike L (substitute ev body) (substitute ev' body) := by
  have hstatus : ∀ code : Int, Alike L
      (modify fun sh => { sh with substitutionStatus := some code } : ShellM Unit)
      (modify fun sh => { sh with substitutionStatus := some code }) :=
    fun _ => .modify (fun _ _ => rfl) fun _ h => h
  cases body with
  | none => exact alike_bind
  | some body =>
      refine .bind inferInstance fun r => ?_
      rcases r with e | ⟨readEnd, writeEnd⟩
      · infer_instance
      · refine .bind inferInstance fun r => ?_
        rcases r with e | _ | child
        · infer_instance
        · infer_instance
        · refine .bind inferInstance fun _ => .bind inferInstance fun output =>
            .bind inferInstance fun _ => .bind inferInstance fun status =>
            .bind inferInstance fun _ => ?_
          cases output with
          | ok data => infer_instance
          | error e => infer_instance

/-! ### Words -/

theorem Likeness.AdmitsParts.cons {p : Part} {ps : List Part} (h : L.AdmitsParts (p :: ps)) :
    (L.exact ∨ p.shows ['-'] = false) ∧ L.AdmitsParts ps := by
  rcases h with hex | hps
  · exact ⟨.inl hex, .inl hex⟩
  · have hor := Bool.or_eq_false_iff.mp hps
    exact ⟨.inr hor.1, .inr hor.2⟩

mutual

theorem alike_partPieces [L.Kept] [EvaluatorsAlike L ev ev'] (q : Quoting) : ∀ p : Part,
    (L.exact ∨ p.shows ['-'] = false) → Alike L (partPieces ev q p) (partPieces ev' q p)
  | .literal _, _ => by
      unfold partPieces
      infer_instance
  | .escaped _, _ => by
      unfold partPieces
      infer_instance
  | .singleQuoted _, _ => by
      unfold partPieces
      infer_instance
  | .doubleQuoted ps, h => by
      unfold partPieces
      exact .bind (alike_pieces .quoted ps h) fun _ => inferInstance
  | .param name op colon arg inQuotes, h => by
      unfold partPieces
      have hname : L.exact ∨ name ≠ ['-'] := h.imp_right fun h hname =>
        absurd (beq_iff_eq.mpr hname) (Bool.eq_false_iff.mp (Bool.or_eq_false_iff.mp h).1)
      have harg : L.AdmitsParts arg := h.imp_right fun h => (Bool.or_eq_false_iff.mp h).2
      exact alike_expandParameter hname fun q => alike_pieces q arg harg
  | .command body, _ => by
      unfold partPieces
      infer_instance
  | .arithmetic ps, h => by
      unfold partPieces
      exact .bind (alike_pieces .quoted ps h) fun _ => inferInstance

theorem alike_pieces [L.Kept] [EvaluatorsAlike L ev ev'] (q : Quoting) : ∀ ps : List Part,
    L.AdmitsParts ps → Alike L (pieces ev q ps) (pieces ev' q ps)
  | [], _ => by
      unfold pieces
      infer_instance
  | p :: ps, h => by
      unfold pieces
      have hp := alike_partPieces q p h.cons.1
      have hps := alike_pieces q ps h.cons.2
      infer_instance

end

section

variable [L.Kept] [EvaluatorsAlike L ev ev']

theorem alike_wordPieces {w : Word} (h : L.AdmitsParts w.parts) :
    Alike L (wordPieces ev w) (wordPieces ev' w) := by
  refine .bind_of inferInstance (wordTilde_yields h) fun r hr => ?_
  rcases r with _ | ⟨home, rest⟩
  · exact alike_pieces .bare w.parts h
  · exact .bind (alike_pieces .bare rest (hr home rest rfl)) fun _ => inferInstance

theorem alike_quotedText {ps : List Part} (h : L.AdmitsParts ps) :
    Alike L (quotedText ev ps) (quotedText ev' ps) :=
  .bind (alike_pieces .quoted ps h) fun _ => inferInstance

theorem alike_wordText {w : Word} (h : L.AdmitsParts w.parts) :
    Alike L (wordText ev w) (wordText ev' w) :=
  .bind (alike_wordPieces h) fun _ => inferInstance

theorem alike_wordPattern {w : Word} (h : L.AdmitsParts w.parts) :
    Alike L (wordPattern ev w) (wordPattern ev' w) :=
  .bind (alike_wordPieces h) fun _ => inferInstance

theorem alike_hereDocText {w : Word} (h : L.AdmitsParts w.parts) :
    Alike L (hereDocText ev w) (hereDocText ev' w) := by
  unfold hereDocText
  split
  · infer_instance
  · exact alike_quotedText h

theorem alike_arguments {ws : List Word} (h : L.AdmitsWords ws) :
    Alike L (arguments ev ws) (arguments ev' ws) := by
  induction ws with
  | nil => exact alike_pure _
  | cons w ws ih =>
      have hws := ih fun v hv => h v (List.mem_cons_of_mem _ hv)
      exact .bind (alike_wordPieces (h w List.mem_cons_self)) fun ps =>
        .get_bind (fun _ _ => rfl) fun s => inferInstance

theorem alike_assignedValue {ps : List Part} (h : L.AdmitsParts ps) (first : Bool) (done : Text) :
    Alike L (assignedValue ev first done ps) (assignedValue ev' first done ps) := by
  induction ps generalizing first done with
  | nil => exact alike_pure _
  | cons p ps ih =>
      have hps := fun next => ih h.cons.2 false (done ++ next)
      have hp : L.AdmitsParts [p] := h.cons.1.imp_right fun h => by
        simp only [Part.anyShows, h, Bool.or_self]
      have hquoted : Alike L (quotedText ev [p]) (quotedText ev' [p]) := alike_quotedText hp
      unfold assignedValue
      cases p with
      | literal t => infer_instance
      | _ => infer_instance

theorem alike_assignment {w : Word} (h : L.AdmitsParts w.parts) :
    Alike L (assignment ev w) (assignment ev' w) := by
  unfold assignment
  dsimp only
  split
  · rename_i t rest hparts
    rw [hparts] at h
    split
    · infer_instance
    · rename_i name start hsplit
      have hrest : L.AdmitsParts (if start.isEmpty then rest else .literal start :: rest) := by
        split
        · exact h.cons.2
        · exact h
      exact .bind (alike_assignedValue hrest true []) fun _ => inferInstance
  · infer_instance

theorem alike_assignments {ws : List Word} (h : L.AdmitsWords ws) :
    Alike L (assignments ev ws) (assignments ev' ws) := by
  induction ws with
  | nil => exact alike_pure _
  | cons w ws ih =>
      have hws := ih fun v hv => h v (List.mem_cons_of_mem _ hv)
      exact .bind (alike_assignment (h w List.mem_cons_self)) fun _ => inferInstance

end

end Shell

end CommandShell

/-!
## Lockstep of redirections
-/

namespace CommandShell

open Script (Redirect HereDoc RedirectOp)

/-- Whether the word of a redirection shows a parameter. -/
def Script.Redirect.shows (name : Text) : Redirect → Bool
  | .word _ _ w => w.shows name
  | .hereDoc _ _ (.body w) => w.shows name
  | .hereDoc _ _ (.pending _) => false

namespace Shell

open Expansion

variable {L : Likeness} {ev ev' : Evaluator}

/-- Redirections whose words expand alike. -/
def Likeness.AdmitsRedirects (L : Likeness) (rs : List Redirect) : Prop :=
  ∀ r ∈ rs, L.exact ∨ r.shows ['-'] = false

/-! ### Descriptors put aside -/

instance alike_copyHigh (fd : Nat) : Steady L (copyHigh fd) := by
  refine .bind inferInstance fun r => ?_
  cases r with
  | ok copy => infer_instance
  | error e => infer_instance

instance alike_saveDescriptor (fd : Nat) : Steady L (saveDescriptor fd) := by
  have hsave : ∀ (copy : Option Nat) (frame : List SavedDescriptor) (rest), Alike L
      (modify fun sh => { sh with saved := ({ fd, copy } :: frame) :: rest } : ShellM Unit)
      (modify fun sh => { sh with saved := ({ fd, copy } :: frame) :: rest }) :=
    fun _ _ _ => .modify (fun _ _ => rfl) fun _ h => h
  refine .get_bind (fun _ _ => rfl) fun s => ?_
  cases s.saved with
  | nil => infer_instance
  | cons frame rest => infer_instance

instance alike_openSaved : Steady L openSaved :=
  .modify (fun _ _ => rfl) fun _ h => h

instance alike_restoreDescriptor (s : SavedDescriptor) : Steady L (restoreDescriptor s) := by
  unfold restoreDescriptor
  split
  · infer_instance
  · infer_instance

instance alike_closeSaved : Steady L closeSaved := by
  have hsaved : ∀ rest : List (List SavedDescriptor), Alike L
      (modify fun sh => { sh with saved := rest } : ShellM Unit)
      (modify fun sh => { sh with saved := rest }) :=
    fun _ => .modify (fun _ _ => rfl) fun _ h => h
  refine .get_bind (fun _ _ => rfl) fun s => ?_
  cases s.saved with
  | nil => infer_instance
  | cons frame rest => infer_instance

/-! ### Targets -/

instance alike_openOrFail (verb path : Text) (flags : Host.OpenFlags) :
    Steady L (openOrFail verb path flags) := by
  refine .bind inferInstance fun r => ?_
  cases r with
  | ok fd => infer_instance
  | error e => infer_instance

instance alike_openIrregular (path : Text) : Steady L (openIrregular path) := by
  refine .bind inferInstance fun fd => .bind inferInstance fun r => ?_
  cases r with
  | ok st => infer_instance
  | error e => infer_instance

instance alike_openNoClobber (path : Text) : Steady L (openNoClobber path) := by
  have hopen : ∀ r : Except Errno Nat, Alike L
      (match r with
        | .ok fd => return fd
        | .error e =>
          if e = .exists_ then openIrregular path else fail (openFault "create" path e))
      (match r with
        | .ok fd => return fd
        | .error e =>
          if e = .exists_ then openIrregular path else fail (openFault "create" path e)) := by
    intro r
    cases r with
    | ok fd => infer_instance
    | error e => infer_instance
  refine .bind inferInstance fun r => ?_
  cases r with
  | ok st => exact .ite inferInstance (.bind inferInstance hopen)
  | error e => exact .bind inferInstance hopen

instance alike_feedFromChild (readEnd writeEnd : Nat) (data : Host.Bytes) :
    Steady L (feedFromChild readEnd writeEnd data) := by
  refine .bind inferInstance fun r => ?_
  rcases r with e | _ | child
  · infer_instance
  · infer_instance
  · infer_instance

instance alike_hereDocPipe (text : Text) : Steady L (hereDocPipe text) := by
  refine .bind inferInstance fun r => ?_
  rcases r with e | ⟨readEnd, writeEnd⟩
  · infer_instance
  · infer_instance

instance alike_copyNamed (fd : Nat) (word : Text) : Steady L (copyNamed fd word) := by
  unfold copyNamed
  split
  · infer_instance
  · infer_instance
  · infer_instance

instance alike_openWord (fd : Nat) (op : RedirectOp) (word : Text) :
    Steady L (openWord fd op word) := by
  cases op with
  | output => exact .get_bind (fun _ _ => rfl) fun s => inferInstance
  | _ =>
      unfold openWord
      infer_instance

theorem alike_openTarget [L.Kept] [EvaluatorsAlike L ev ev'] {r : Redirect}
    (h : L.exact ∨ r.shows ['-'] = false) : Alike L (openTarget ev r) (openTarget ev' r) := by
  unfold openTarget
  split
  · exact .bind (alike_hereDocText h) fun _ => inferInstance
  · infer_instance
  · exact .bind (alike_wordText h) fun _ => inferInstance

instance alike_moveInto (fd : Nat) (source : Option Nat) : Steady L (moveInto fd source) := by
  cases source with
  | none => exact alike_bind
  | some source =>
      refine .ite inferInstance (.bind inferInstance fun r => ?_)
      cases r with
      | ok u => infer_instance
      | error e => infer_instance

/-! ### Lists of redirections -/

theorem alike_applyRedirects [L.Kept] [EvaluatorsAlike L ev ev'] {rs : List Redirect}
    (h : L.AdmitsRedirects rs) (save : Bool) :
    Alike L (applyRedirects ev save rs) (applyRedirects ev' save rs) := by
  induction rs with
  | nil => exact alike_pure _
  | cons r rs ih =>
      have hrs := ih fun r' hr' => h r' (List.mem_cons_of_mem _ hr')
      have hr : Alike L (openTarget ev r) (openTarget ev' r) :=
        alike_openTarget (h r List.mem_cons_self)
      unfold applyRedirects
      infer_instance

theorem alike_withRedirects [L.Kept] [EvaluatorsAlike L ev ev'] {rs : List Redirect}
    {body body' : ShellM Unit} (h : L.AdmitsRedirects rs) (hbody : Alike L body body') :
    Alike L (withRedirects ev rs body) (withRedirects ev' rs body') := by
  have happly : Alike L (applyRedirects ev true rs) (applyRedirects ev' true rs) :=
    alike_applyRedirects h true
  refine .ite hbody (.bind inferInstance fun _ => .bind inferInstance fun r => ?_)
  cases r with
  | ok u => infer_instance
  | error s => infer_instance

end Shell

end CommandShell
