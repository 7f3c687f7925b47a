import Mathlib.Data.List.ModifyLast
import CommandShell.Proofs.ChildStatus
import CommandShell.Proofs.Reading.Offered

/-!
# Words in quotes

Quoted text is never cut into fields, never dropped because it is empty, and never taken for a
pattern of paths. What is left to make several fields of a word in quotes are the boundaries between
positional parameters.

`Piece.gathered` says which fields quoted pieces make: the texts between boundaries, and
`splitFields_quoted` that cutting comes to the same under any separators. From this follow the two
results on words. A word of quoted parts that expands `@` nowhere is one argument, the text that the
word has where it is not cut into fields (`arguments_quoted`). The parameters in a word like
`"pre$@post"` are forwarded as they are (`arguments_forwarded`).
-/

namespace CommandShell

namespace Shell

variable {α β : Type} {P : α → Prop}

/-- Nothing comes after a failure. -/
theorem Yields.fail_bind {P : β → Prop} (e : Fault) (f : α → ShellM β) :
    Yields P (fail e >>= f) := by
  intro s b hb
  cases hb

theorem Yields.ite {c : Prop} [Decidable c] {x y : ShellM α} (hx : Yields P x) (hy : Yields P y) :
    Yields P (if c then x else y) := by
  split
  · exact hx
  · exact hy

end Shell

namespace Expansion

open Script (Part Word ParamOp PartsSoFar Reads readDoubleQuoted writtenInQuotes reads_plain
  reads_closingQuote reads_specialParam plain_eq)
open Shell

/-! ## Cutting quoted pieces -/

/-- Quoted text, or a boundary. -/
def Piece.IsFirm (p : Piece) : Prop := p = .fieldBreak ∨ ∃ t, p = .quoted t

/-- The fields of quoted pieces: the texts between boundaries. Before the first piece there may be
some text of the first field. -/
def Piece.gathered : Option Text → List Piece → List Text
  | begun, [] => begun.toList
  | begun, .text t _ _ :: ps => gathered (some (begun.getD [] ++ t)) ps
  | begun, .fieldBreak :: ps => begun.toList ++ gathered none ps

/-- A cutter that has cut the given fields and begun one, if any, all without unquoted special
characters. -/
structure Cutter.Holds (s : Cutter) (cut : List Text) (begun : Option Text) : Prop where
  cut : s.done.reverse.map (·.text) = cut
  cutPlain : ∀ f ∈ s.done, f.magic = false
  text : s.text.reverse = begun.getD []
  plain : s.magic = false
  started : s.started = begun.isSome

section

variable {s : Cutter} {cut : List Text} {begun : Option Text} {ifs t : Text} {ps : List Piece}

theorem Cutter.foldl_push (s : Cutter) (t : Text) :
    (t.foldl (push true) s).done = s.done ∧
      (t.foldl (push true) s).text = t.reverse ++ s.text ∧
      (t.foldl (push true) s).magic = s.magic := by
  induction t generalizing s with
  | nil => exact ⟨rfl, rfl, rfl⟩
  | cons c t ih =>
      obtain ⟨hdone, htext, hmagic⟩ := ih (s.push true c)
      refine ⟨hdone, ?_, ?_⟩
      · rw [List.foldl_cons, htext]
        simp [push]
      · rw [List.foldl_cons, hmagic]
        simp [push]

/-- Quoted text goes on with the field, and begins one if there is none, even if it is empty. -/
theorem Cutter.Holds.quoted (h : s.Holds cut begun) (ifs t : Text) :
    (s.cutPiece ifs (.quoted t)).Holds cut (some (begun.getD [] ++ t)) := by
  obtain ⟨hdone, htext, hmagic⟩ := s.foldl_push t
  constructor
  · show (t.foldl (push true) s).done.reverse.map _ = cut
    rw [hdone]
    exact h.cut
  · show ∀ f ∈ (t.foldl (push true) s).done, _
    rw [hdone]
    exact h.cutPlain
  · show (t.foldl (push true) s).text.reverse = _
    rw [htext, List.reverse_append, List.reverse_reverse, h.text]
    rfl
  · show (t.foldl (push true) s).magic = false
    rw [hmagic]
    exact h.plain
  · rfl

/-- The field that was begun is finished. -/
theorem Cutter.Holds.finished (h : s.Holds cut begun) :
    Holds (if s.started then s.finish else s) (cut ++ begun.toList) none := by
  cases begun with
  | none =>
      rw [if_neg (by simp [h.started]), Option.toList_none, List.append_nil]
      exact h
  | some t =>
      rw [if_pos (by simp [h.started])]
      constructor
      · show (s.current :: s.done).reverse.map _ = _
        rw [List.reverse_cons, List.map_append, h.cut]
        show cut ++ [s.text.reverse] = _
        rw [h.text]
        rfl
      · intro f hf
        rcases List.mem_cons.mp hf with rfl | hf
        · exact h.plain
        · exact h.cutPlain f hf
      · rfl
      · rfl
      · rfl

theorem Cutter.Holds.fieldBreak (h : s.Holds cut begun) (ifs : Text) :
    (s.cutPiece ifs .fieldBreak).Holds (cut ++ begun.toList) none :=
  ⟨h.finished.cut, h.finished.cutPlain, h.finished.text, h.finished.plain, h.finished.started⟩

theorem Cutter.Holds.fields (h : s.Holds cut begun) :
    s.fields.map (·.text) = cut ++ begun.toList ∧ ∀ f ∈ s.fields, f.magic = false := by
  constructor
  · exact h.finished.cut
  · intro f hf
    exact h.finished.cutPlain f (List.mem_reverse.mp hf)

/-- What quoted pieces add to the fields that were cut before them. -/
theorem Cutter.Holds.foldl (h : s.Holds cut begun) (hps : ∀ p ∈ ps, p.IsFirm) (ifs : Text) :
    ∃ cut' begun', (ps.foldl (cutPiece ifs) s).Holds cut' begun' ∧
      cut' ++ begun'.toList = cut ++ Piece.gathered begun ps := by
  induction ps generalizing s cut begun with
  | nil => exact ⟨cut, begun, h, rfl⟩
  | cons p ps ih =>
      have hrest : ∀ p ∈ ps, p.IsFirm := fun p hp => hps p (List.mem_cons_of_mem _ hp)
      rcases hps p List.mem_cons_self with rfl | ⟨t, rfl⟩
      · obtain ⟨cut', begun', hs, heq⟩ := ih (h.fieldBreak ifs) hrest
        -- the boundary has finished the field that was begun
        refine ⟨cut', begun', hs, ?_⟩
        rw [heq, List.append_assoc]
        rfl
      · exact ih (h.quoted ifs t) hrest

/-- Quoted pieces make the fields between their boundaries, whatever separates fields, and none of
these fields is a pattern. -/
theorem splitFields_quoted (hps : ∀ p ∈ ps, p.IsFirm) (ifs : Text) :
    (splitFields ifs ps).map (·.text) = Piece.gathered none ps ∧
      ∀ f ∈ splitFields ifs ps, f.magic = false := by
  have hstart : Cutter.Holds {} [] none := ⟨rfl, nofun, rfl, rfl, rfl⟩
  obtain ⟨cut, begun, hs, heq⟩ := hstart.foldl hps ifs
  rw [List.nil_append] at heq
  rw [← heq]
  exact hs.fields

/-- Fields that are no patterns are arguments as they are: no directory is read. -/
theorem fieldsArguments_plain {fs : List Field} (hfs : ∀ f ∈ fs, f.magic = false) :
    fieldsArguments fs = pure (fs.map (·.text)) := by
  induction fs with
  | nil => rfl
  | cons f fs ih =>
      have hf : fieldArguments f = pure [f.text] := by
        unfold fieldArguments
        rw [hfs f List.mem_cons_self]
        simp only [Bool.not_false, Bool.or_true, if_true]
        rfl
      unfold fieldsArguments
      rw [hf, ih fun f hf => hfs f (List.mem_cons_of_mem _ hf)]
      rfl

/-- The arguments of a word whose pieces are quoted. -/
theorem arguments_of_yields {ev : Evaluator} {w : Word}
    (hw : Yields (fun ps => ∀ p ∈ ps, p.IsFirm) (wordPieces ev w)) :
    arguments ev [w] = Piece.gathered none <$> wordPieces ev w := by
  rw [map_eq_pure_bind]
  show wordPieces ev w >>= _ = _
  apply hw.bind_congr
  intro ps hps
  show (get >>= fun sh => fieldsArguments (splitFields (fieldSeparators sh) ps) >>= fun first =>
    pure [] >>= fun rest => pure (first ++ rest) : ShellM (List Text)) = _
  have hfields : ∀ sh : Shell, fieldsArguments (splitFields (fieldSeparators sh) ps) =
      pure (Piece.gathered none ps) := by
    intro sh
    obtain ⟨htexts, hplain⟩ := splitFields_quoted hps (fieldSeparators sh)
    rw [fieldsArguments_plain hplain, htexts]
  -- the separators are looked up, and make no difference
  simp only [hfields, pure_bind, List.append_nil]
  rfl

theorem gathered_some (t : Text) (hps : ∀ p ∈ ps, ∃ t, p = .quoted t) :
    Piece.gathered (some t) ps = [t ++ Piece.joined ps] := by
  induction ps generalizing t with
  | nil => simp [Piece.gathered, Piece.joined]
  | cons p ps ih =>
      obtain ⟨t', rfl⟩ := hps p List.mem_cons_self
      show Piece.gathered (some (t ++ t')) ps = [t ++ (t' ++ Piece.joined ps)]
      rw [ih (t ++ t') fun p hp => hps p (List.mem_cons_of_mem _ hp), List.append_assoc]

/-- Quoted texts, one at least, with no boundary between them are one field: what they are joined. -/
theorem gathered_none (hps : ∀ p ∈ ps, ∃ t, p = .quoted t) (hne : ps ≠ []) :
    Piece.gathered none ps = [Piece.joined ps] := by
  obtain ⟨p, rest, rfl⟩ := List.exists_cons_of_ne_nil hne
  obtain ⟨t, rfl⟩ := hps p List.mem_cons_self
  exact gathered_some t fun p hp => hps p (List.mem_cons_of_mem _ hp)

end

/-! ## Words that expand `@` nowhere -/

/-- Whether a part is a quotation: characters after backslashes, or text in quotes. -/
def isQuotation : Part → Bool
  | .escaped _ | .singleQuoted _ | .doubleQuoted _ => true
  | _ => false

mutual

/-- Whether a part expands `@`, itself or in a part inside it. Commands whose output is inserted
are none of its parts. -/
def expandsAt : Part → Bool
  | .param name _ _ arg _ => name == ['@'] || anyExpandsAt arg
  | .doubleQuoted ps => anyExpandsAt ps
  | .arithmetic ps => anyExpandsAt ps
  | _ => false

/-- Whether some part expands `@`. -/
def anyExpandsAt : List Part → Bool
  | [] => false
  | p :: ps => expandsAt p || anyExpandsAt ps

end

/-- Quoted texts, with no boundary between them. -/
def AllQuoted (ps : List Piece) : Prop := ∀ p ∈ ps, ∃ t, p = .quoted t

section

variable {ev : Evaluator} {name : Text} {ps : List Part}

theorem allQuoted_singleton (t : Text) : AllQuoted [.quoted t] := by
  intro p hp
  exact ⟨t, List.mem_singleton.mp hp⟩

theorem AllQuoted.append {ps qs : List Piece} (hps : AllQuoted ps) (hqs : AllQuoted qs) :
    AllQuoted (ps ++ qs) := by
  intro p hp
  rcases List.mem_append.mp hp with hp | hp
  · exact hps p hp
  · exact hqs p hp

theorem hasAt_eq_false (h : anyExpandsAt ps = false) : hasAt ps = false := by
  induction ps with
  | nil => rfl
  | cons p ps ih =>
      unfold anyExpandsAt at h
      rw [Bool.or_eq_false_iff] at h
      unfold hasAt
      rw [List.any_cons, Bool.or_eq_false_iff]
      refine ⟨?_, ih h.2⟩
      cases p with
      | param name op colon arg inQuotes =>
          have hp := h.1
          unfold expandsAt at hp
          exact (Bool.or_eq_false_iff.mp hp).1
      | _ => rfl

/-- In quotes a value is one text, that of all parameters too if they are asked for by `*`. -/
theorem allQuoted_valuePieces (sh : Shell) (hname : name ≠ ['@']) (value : Text) :
    AllQuoted (valuePieces sh name value true) := by
  unfold valuePieces
  split
  · rename_i hall
    have hstar : name = ['*'] := by simpa [isAllParams, hname] using hall
    unfold paramPieces
    rw [if_pos (by simp [hstar])]
    exact allQuoted_singleton _
  · exact allQuoted_singleton _

/-- What a parameter expansion in quotes comes to, if the word after its operator does. -/
theorem yields_expandParameter (hname : name ≠ ['@']) (op : ParamOp) (colon hasArg : Bool)
    {arg : Quoting → ShellM (List Piece)} (harg : Yields AllQuoted (arg .quoted)) :
    Yields AllQuoted (expandParameter name op colon true hasArg arg) := by
  unfold expandParameter
  apply Yields.bind
  intro sh
  have hpresent : Yields AllQuoted (pure (valuePieces sh name ((parameter? sh name).getD []) true)) :=
    .pure (allQuoted_valuePieces sh hname _)
  have hone : ∀ t, Yields AllQuoted (pure [Piece.substituted t true]) := fun t =>
    .pure (allQuoted_singleton t)
  -- every operator gives the value, the word after it, one text, or an error
  cases op with
  | plain => exact .ite (.fail_bind _ _) hpresent
  | length => exact .ite (.fail_bind _ _) (hone _)
  | default => exact .ite hpresent harg
  | alternative => exact .ite (.pure nofun) harg
  | assign =>
      refine .ite hpresent (.ite (.fail_bind _ _) ?_)
      exact .bind fun pieces => .bind fun _ => hone _
  | error => exact .ite hpresent (.ite (.bind fun _ => .fail _) (.bind fun _ => .fail _))
  | trimSuffix | trimSuffixLong | trimPrefix | trimPrefixLong =>
      exact .ite (.fail_bind _ _) (.bind fun pattern => hone _)

mutual

/-- Inside double quotes a part without `@` comes to quoted texts, at every depth. -/
theorem yields_partPieces_quoted : ∀ p : Part, expandsAt p = false →
    Yields AllQuoted (partPieces ev .quoted p)
  | .literal t, _ => by
      unfold partPieces
      exact .pure (allQuoted_singleton t)
  | .escaped t, _ => by
      unfold partPieces
      exact .pure (allQuoted_singleton t)
  | .singleQuoted t, _ => by
      unfold partPieces
      exact .pure (allQuoted_singleton t)
  | .doubleQuoted ps, h => by
      unfold expandsAt at h
      unfold partPieces
      apply (yields_pieces_quoted ps h).bind_of
      intro inside hinside
      apply Yields.pure
      split
      · exact hinside
      · exact (allQuoted_singleton []).append hinside
  | .param name op colon arg inQuotes, h => by
      unfold expandsAt at h
      obtain ⟨hname, harg⟩ := Bool.or_eq_false_iff.mp h
      unfold partPieces
      apply yields_expandParameter _ op colon _ (yields_pieces_quoted arg harg)
      rintro rfl
      cases hname
  | .command body, _ => by
      unfold partPieces
      exact .bind fun output => .pure (allQuoted_singleton output)
  | .arithmetic ps, _ => by
      unfold partPieces
      exact .bind fun text => .bind fun value => .pure (allQuoted_singleton _)

theorem yields_pieces_quoted : ∀ ps : List Part, anyExpandsAt ps = false →
    Yields AllQuoted (pieces ev .quoted ps)
  | [], _ => by
      unfold pieces
      exact .pure nofun
  | p :: ps, h => by
      unfold anyExpandsAt at h
      obtain ⟨hp, hps⟩ := Bool.or_eq_false_iff.mp h
      unfold pieces
      apply (yields_partPieces_quoted p hp).bind_of
      intro first hfirst
      apply (yields_pieces_quoted ps hps).bind_of
      intro rest hrest
      exact .pure (hfirst.append hrest)

end

/-- A quotation without `@` comes to quoted texts, and to one at least, wherever it stands. -/
theorem yields_partPieces_quotation {p : Part} (q : Quoting) (hp : isQuotation p = true)
    (hat : expandsAt p = false) :
    Yields (fun ps => AllQuoted ps ∧ ps ≠ []) (partPieces ev q p) := by
  cases p with
  | escaped t =>
      unfold partPieces
      exact .pure ⟨allQuoted_singleton t, List.cons_ne_nil _ _⟩
  | singleQuoted t =>
      unfold partPieces
      exact .pure ⟨allQuoted_singleton t, List.cons_ne_nil _ _⟩
  | doubleQuoted ps =>
      unfold expandsAt at hat
      unfold partPieces
      apply (yields_pieces_quoted ps hat).bind_of
      intro inside hinside
      apply Yields.pure
      -- without `@` the quotes add an empty text, so that there is a field in any case
      rw [if_neg (by rw [hasAt_eq_false hat]; exact Bool.false_ne_true)]
      exact ⟨(allQuoted_singleton []).append hinside, List.cons_ne_nil _ _⟩
  | _ => cases hp

theorem yields_pieces_quotations (q : Quoting) (hquoted : ∀ p ∈ ps, isQuotation p = true)
    (hat : anyExpandsAt ps = false) :
    Yields (fun pieces => AllQuoted pieces ∧ (ps ≠ [] → pieces ≠ [])) (pieces ev q ps) := by
  induction ps with
  | nil =>
      unfold pieces
      exact .pure ⟨nofun, fun hne => absurd rfl hne⟩
  | cons p ps ih =>
      unfold anyExpandsAt at hat
      obtain ⟨hp, hps⟩ := Bool.or_eq_false_iff.mp hat
      unfold pieces
      apply (yields_partPieces_quotation q (hquoted p List.mem_cons_self) hp).bind_of
      rintro first ⟨hfirst, hne⟩
      apply (ih (fun p hp => hquoted p (List.mem_cons_of_mem _ hp)) hps).bind_of
      rintro rest ⟨hrest, -⟩
      apply Yields.pure
      constructor
      · exact hfirst.append hrest
      · intro _
        exact List.append_ne_nil_of_left_ne_nil hne rest

/-- A word that starts with a quotation has no tilde to be replaced. -/
theorem wordPieces_of_quotation {w : Word} (hquoted : ∀ p ∈ w.parts, isQuotation p = true) :
    wordPieces ev w = pieces ev .bare w.parts := by
  have htilde : wordTilde w.parts = pure none := by
    cases hparts : w.parts with
    | nil => rfl
    | cons p ps =>
        have hp := hquoted p (hparts ▸ List.mem_cons_self)
        cases p with
        | literal t => cases hp
        | _ => rfl
  unfold wordPieces
  rw [htilde]
  rfl

end

/-- A computation comes to what a function makes of another one's value when that comes to the
value. -/
theorem comes_map_ok_iff {α β : Type} {f : α → β} {x : ShellM α} {s t : Shell} {b : β}
    {es : List Host.Event} :
    ((f <$> x).startedIn s).Comes es (.done (.ok b, t)) ↔
      ∃ a, b = f a ∧ (x.startedIn s).Comes es (.done (.ok a, t)) := by
  rw [map_eq_pure_bind]
  constructor
  · intro h
    obtain ⟨es₁, es₂, ⟨r, u⟩, rfl, hx, hrest⟩ := Host.Program.Comes.of_bind h
    cases r with
    | ok a =>
        cases hrest
        exact ⟨a, rfl, by rwa [List.append_nil]⟩
    | error e => cases hrest
  · rintro ⟨a, rfl, hx⟩
    rw [← List.append_nil es]
    exact hx.bind (.here _)

/-- A word in quotes is one argument. If every part of a word is in double quotes, in single quotes
or after a backslash, there is one at least, and `@` is expanded nowhere in it, then its expansion to
arguments is its expansion to a text, with the text as the only argument: it is not cut at any
separators, it stays when it is empty, and no paths are looked for. So from every state, with every
reply of the system, both make the same calls and come to the same end, and the arguments come out
just when the text does. -/
theorem arguments_quoted (ev : Evaluator) {w : Word} (hne : w.parts ≠ [])
    (hquoted : ∀ p ∈ w.parts, isQuotation p = true) (hat : anyExpandsAt w.parts = false) :
    arguments ev [w] = (fun text => [text]) <$> wordText ev w ∧
    ∀ (s : Shell) (es : List Host.Event) (args : List Text) (t : Shell),
      ((arguments ev [w]).startedIn s).Comes es (.done (.ok args, t)) ↔
        ∃ text, args = [text] ∧ ((wordText ev w).startedIn s).Comes es (.done (.ok text, t)) := by
  have hpieces : Yields (fun ps => AllQuoted ps ∧ (w.parts ≠ [] → ps ≠ [])) (wordPieces ev w) := by
    rw [wordPieces_of_quotation hquoted]
    exact yields_pieces_quotations .bare hquoted hat
  have hfirm : Yields (fun ps => ∀ p ∈ ps, p.IsFirm) (wordPieces ev w) := by
    intro s
    apply (hpieces s).mono
    intro r hr ps hps p hp
    exact .inr ((hr ps hps).1 p hp)
  have hone : arguments ev [w] = (fun text => [text]) <$> wordText ev w := by
    rw [arguments_of_yields hfirm, map_eq_pure_bind]
    unfold wordText
    rw [map_eq_pure_bind, bind_assoc]
    simp only [pure_bind]
    apply hpieces.bind_congr
    rintro ps ⟨hquoted, hsome⟩
    rw [gathered_none hquoted (hsome hne)]
  constructor
  · exact hone
  · intro s es args t
    rw [hone]
    exact comes_map_ok_iff

/-- A word of a parameter in double quotes and a star in single quotes. -/
def starAfterParameter : Word :=
  .mk "\"$x\"'*'" [.doubleQuoted [.param "x" .plain false [] true], .singleQuoted "*"] 1

/-- A shell in which `x` has blanks in its value. -/
def shellWithBlanks : Shell :=
  { «variables» := { bindings := Table.empty.insert "x" { value := some " a  b" } } }

/-- The blanks do not cut the argument, and the star matches no paths. -/
theorem arguments_quoted_star :
    starAfterParameter.parts ≠ [] ∧ (∀ p ∈ starAfterParameter.parts, isQuotation p = true) ∧
    anyExpandsAt starAfterParameter.parts = false ∧
    ((arguments (evaluatorOf 0) [starAfterParameter]).startedIn shellWithBlanks).Comes []
      (.done (.ok [" a  b*"], shellWithBlanks)) := by
  have hne : starAfterParameter.parts ≠ [] := List.cons_ne_nil _ _
  have hquoted : ∀ p ∈ starAfterParameter.parts, isQuotation p = true := by decide
  have hat : anyExpandsAt starAfterParameter.parts = false := by decide
  refine ⟨hne, hquoted, hat, ?_⟩
  exact ((arguments_quoted (evaluatorOf 0) hne hquoted hat).2 _ _ _ _).mpr ⟨_, rfl, .here _⟩

/-! ## Positional parameters -/

/-- The parts of plain text in double quotes. -/
def plainParts (t : Text) : List Part := if t.isEmpty then [] else [.literal t]

/-- The pieces of plain text in double quotes. -/
def plainPieces (t : Text) : List Piece := if t.isEmpty then [] else [.quoted t]

/-- The parts of `$@` between two plain texts in double quotes. -/
def aroundParams (pre post : Text) : List Part :=
  plainParts pre ++ .param ['@'] .plain false [] true :: plainParts post

/-- `$@` between two plain texts, as it is written in double quotes, with the closing quote. -/
def writtenAroundParams (pre post : Text) : Text :=
  writtenInQuotes pre ++ '$' :: '@' :: (writtenInQuotes post ++ ['"'])

/-- What becomes of parameters that are forwarded: they stay as they are, with one text before the
first and one after the last. Without parameters the texts are what there is, if anything. -/
def forwarded (pre post : Text) : List Text → List Text
  | [] => if (pre ++ post).isEmpty then [] else [pre ++ post]
  | ps => (ps.modifyHead (pre ++ ·)).modifyLast (· ++ post)

section

variable {ev : Evaluator}

theorem pieces_plainParts (t : Text) :
    pieces ev .quoted (plainParts t) = pure (plainPieces t) := by
  unfold plainParts plainPieces
  split
  · rfl
  · rfl

/-- The pieces of parts in a row are those of the first ones and those of the rest. -/
theorem pieces_append (q : Quoting) (ps qs : List Part) : pieces ev q (ps ++ qs) =
    pieces ev q ps >>= fun first => pieces ev q qs >>= fun rest => pure (first ++ rest) := by
  induction ps with
  | nil =>
      show pieces ev q qs = pure [] >>= fun first => pieces ev q qs >>= fun rest =>
        pure (first ++ rest)
      simp only [pure_bind, List.nil_append, bind_pure]
  | cons p ps ih =>
      show (partPieces ev q p >>= fun first => pieces ev q (ps ++ qs) >>= fun rest =>
        pure (first ++ rest)) = (partPieces ev q p >>= fun first => pieces ev q ps >>= fun rest =>
        pure (first ++ rest)) >>= _
      rw [ih]
      simp only [bind_assoc, pure_bind, List.append_assoc]

/-- `$@` is never an error, with no parameters either and under any options. -/
theorem partPieces_allParams :
    partPieces ev .quoted (.param ['@'] .plain false [] true) =
      get >>= fun sh => pure (paramPieces sh ['@'] true) := by
  show expandParameter ['@'] .plain false true false (fun q => pieces ev q []) = _
  unfold expandParameter
  apply congrArg (get >>= ·)
  funext sh
  have hnounset : (!isSet sh ['@'] && !isAllParams ['@'] && sh.has .nounset) = false := by
    rw [show isAllParams ['@'] = true from rfl, Bool.not_true, Bool.and_false, Bool.false_and]
  dsimp only
  rw [hnounset]
  rfl

theorem isFirm_plainPieces (t : Text) : ∀ p ∈ plainPieces t, p.IsFirm := by
  intro p hp
  unfold plainPieces at hp
  split at hp
  · cases hp
  · exact .inr ⟨t, List.mem_singleton.mp hp⟩

theorem isFirm_params (params : List Text) :
    ∀ p ∈ (params.map fun p => Piece.quoted p).intersperse .fieldBreak, p.IsFirm := by
  induction params with
  | nil => nofun
  | cons q qs ih =>
      intro p hp
      cases qs with
      | nil => exact .inr ⟨q, List.mem_singleton.mp hp⟩
      | cons q' qs =>
          rcases List.mem_cons.mp hp with rfl | hp
          · exact .inr ⟨q, rfl⟩
          · rcases List.mem_cons.mp hp with rfl | hp
            · exact .inl rfl
            · exact ih p hp

/-- In a word around `$@` the pieces of the parameters stand between those of the texts, and the
quotes add nothing. -/
theorem wordPieces_aroundParams (pre post text : Text) (line : Nat) :
    wordPieces ev (.mk text [.doubleQuoted (aroundParams pre post)] line) = get >>= fun sh =>
      pure (plainPieces pre ++ (paramPieces sh ['@'] true ++ plainPieces post)) := by
  have hat : hasAt (aroundParams pre post) = true := by
    show (plainParts pre ++ .param ['@'] .plain false [] true :: plainParts post).any _ = true
    rw [List.any_append, List.any_cons]
    simp
  have hinside : pieces ev .quoted (aroundParams pre post) = get >>= fun sh =>
      pure (plainPieces pre ++ (paramPieces sh ['@'] true ++ plainPieces post)) := by
    unfold aroundParams
    rw [pieces_append, pieces_plainParts]
    show (pure (plainPieces pre) >>= fun first =>
      (partPieces ev .quoted (.param ['@'] .plain false [] true) >>= fun params =>
        pieces ev .quoted (plainParts post) >>= fun rest => pure (params ++ rest)) >>= fun rest =>
      pure (first ++ rest)) = _
    rw [partPieces_allParams, pieces_plainParts]
    simp only [bind_assoc, pure_bind]
  rw [wordPieces_of_quotation (by intro p hp; rw [List.mem_singleton.mp hp]; rfl)]
  show ((pieces ev .quoted _ >>= fun inside =>
    pure (if hasAt _ then inside else .quoted [] :: inside)) >>= fun first =>
    pure [] >>= fun rest => pure (first ++ rest)) = _
  rw [hinside, hat]
  simp only [bind_assoc, pure_bind, if_true, List.append_nil]

end

section

variable {pre post : Text}

/-- Plain text goes on with a field, or begins one, unless it is empty. -/
theorem gathered_plainPieces (begun : Option Text) (t : Text) (ps : List Piece) :
    Piece.gathered begun (plainPieces t ++ ps) =
      Piece.gathered (if t.isEmpty then begun else some (begun.getD [] ++ t)) ps := by
  unfold plainPieces
  split
  · rfl
  · rfl

/-- One parameter at least makes as many fields as there are parameters. -/
theorem gathered_params (begun : Option Text) (p : Text) (ps : List Text) :
    Piece.gathered begun
        (((p :: ps).map fun p => Piece.quoted p).intersperse .fieldBreak ++ plainPieces post) =
      ((begun.getD [] ++ p) :: ps).modifyLast (· ++ post) := by
  induction ps generalizing begun p with
  | nil =>
      show Piece.gathered (some (begun.getD [] ++ p)) (plainPieces post) = _
      rw [← List.append_nil (plainPieces post), gathered_plainPieces]
      rw [show [begun.getD [] ++ p] = [] ++ [begun.getD [] ++ p] from rfl,
        List.modifyLast_concat, List.nil_append]
      split
      · rename_i hempty
        simp [Piece.gathered, List.isEmpty_iff.mp hempty]
      · rfl
  | cons q qs ih =>
      show (begun.getD [] ++ p) :: Piece.gathered none
        (((q :: qs).map fun p => Piece.quoted p).intersperse .fieldBreak ++ plainPieces post) = _
      rw [ih none q, Option.getD_none, List.nil_append]
      exact (List.modifyLast_append_of_right_ne_nil _ [begun.getD [] ++ p] (q :: qs)
        (List.cons_ne_nil _ _)).symm

theorem gathered_forwarded (params : List Text) :
    Piece.gathered none (plainPieces pre ++
        ((params.map fun p => Piece.quoted p).intersperse .fieldBreak ++ plainPieces post)) =
      forwarded pre post params := by
  rw [gathered_plainPieces]
  cases params with
  | nil =>
      show Piece.gathered _ (plainPieces post) = if (pre ++ post).isEmpty then _ else _
      rw [← List.append_nil (plainPieces post), gathered_plainPieces]
      cases pre <;> cases post <;> simp [Piece.gathered]
  | cons p ps =>
      rw [gathered_params]
      cases pre <;> rfl

end

/-- Reading `$@` between two plain texts up to the closing quote. -/
theorem reads_aroundParams (start n : Nat) (pre post rest : Text) :
    Reads (readDoubleQuoted start (n + (pre.length + post.length + 2)) [])
      (writtenAroundParams pre post ++ rest) (aroundParams pre post) rest := by
  have hend := reads_closingQuote start n
    (PartsSoFar.plain (.param ['@'] .plain false [] true :: PartsSoFar.plain [] pre) post) rest
  have hread := reads_plain (reads_specialParam rfl (by omega) (reads_plain hend))
  have hparts : PartsSoFar.sealed
      (PartsSoFar.plain (.param ['@'] .plain false [] true :: PartsSoFar.plain [] pre) post) =
      aroundParams pre post := by
    rw [plain_eq (by intro r qs h; cases h), plain_eq (by intro r qs h; cases h)]
    unfold aroundParams plainParts PartsSoFar.sealed
    cases pre <;> cases post <;> simp
  have hfuel : n + (pre.length + post.length + 2) = n + 1 + post.length + 1 + pre.length := by
    omega
  rw [hfuel, ← hparts]
  simpa [writtenAroundParams] using hread

/-- Arguments are forwarded as they are. In double quotes `$@` between two plain texts is read as
such, whatever the texts are. From every state the word `"pre$@post"` expands to the positional
parameters in their order, with `pre` before the first and `post` after the last, or to the texts
alone if there are no parameters, and to nothing if the texts are empty too. Empty parameters stay,
no separators cut the others, no paths are looked for, and there is no error under any options.
Nothing is asked of the system, and the state stays. -/
theorem arguments_forwarded (ev : Evaluator) (pre post text : Text) (line : Nat) :
    (∀ (start n : Nat) (rest : Text),
      Reads (readDoubleQuoted start (n + (pre.length + post.length + 2)) [])
        (writtenAroundParams pre post ++ rest) (aroundParams pre post) rest) ∧
    ∀ s : Shell, (arguments ev [.mk text [.doubleQuoted (aroundParams pre post)] line]).startedIn s =
      .done (.ok (forwarded pre post s.variables.params), s) := by
  constructor
  · intro start n rest
    exact reads_aroundParams start n pre post rest
  intro s
  have hfirm : Yields (fun ps => ∀ p ∈ ps, p.IsFirm)
      (wordPieces ev (.mk text [.doubleQuoted (aroundParams pre post)] line)) := by
    rw [wordPieces_aroundParams]
    apply Yields.bind
    intro sh
    apply Yields.pure
    intro p hp
    rcases List.mem_append.mp hp with hp | hp
    · exact isFirm_plainPieces pre p hp
    · rcases List.mem_append.mp hp with hp | hp
      · exact isFirm_params _ p hp
      · exact isFirm_plainPieces post p hp
  rw [arguments_of_yields hfirm, wordPieces_aroundParams]
  show Host.Program.done (Except.ok (Piece.gathered none _), s) = _
  rw [← gathered_forwarded]
  rfl

end Expansion

end CommandShell
