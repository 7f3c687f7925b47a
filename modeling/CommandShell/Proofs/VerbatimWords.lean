import CommandShell.Proofs.QuotedWords
import CommandShell.Proofs.Grammar.Completeness
import CommandShell.Proofs.Reading.Verbatim

/-!
# Quoted text is read back

Whatever a text is, what `Text.quote` makes of it is one word, and the word is expanded to the text
(`quote_read_back`): no blank in it separates, no character of it starts a comment, an expansion or a
pattern, and an empty text stays an argument.

Behind that are the words whose parts are verbatim: quotations, and characters that mean nothing where
they stand. They are expanded without a look at the shell, as arguments (`arguments_verbatim`) and, after
a name and `=`, as the values of assignments (`assignment_wordParts`).
-/

namespace CommandShell.Expansion

open Script (Part Word quotedParts quotedParts_ne_nil wordParts isPlain readToken Takes takes_word
  takes_endOfInput EndsWord ahead_ofText)
open Shell

/-! ## Verbatim parts -/

/-- A part that stands for its own text: a quotation of a text, or unquoted characters that mean
nothing. -/
inductive IsVerbatim : Part → Prop
  | literal {t : Text} (hne : t ≠ []) (hplain : ∀ c ∈ t, Text.isPlainChar c = true) :
    IsVerbatim (.literal t)
  | escaped (t : Text) : IsVerbatim (.escaped t)
  | singleQuoted (t : Text) : IsVerbatim (.singleQuoted t)

/-- The text of a verbatim part. -/
def verbatimText : Part → Text
  | .literal t | .escaped t | .singleQuoted t => t
  | _ => []

/-- The piece that a verbatim part makes. -/
def verbatimPiece : Part → Piece
  | .literal t => .text t false false
  | p => .quoted (verbatimText p)

section

variable {ev : Evaluator} {ps : List Part} {p : Part} {s : Cutter} {cut : List Text}
  {begun : Option Text} {ifs t : Text}

theorem plainChar_not_magic {c : Char} (hc : Text.isPlainChar c = true) :
    Pattern.isMagic c = false := by
  have hne : c ≠ '*' ∧ c ≠ '?' ∧ c ≠ '[' := by
    refine ⟨?_, ?_, ?_⟩ <;>
      · rintro rfl
        exact absurd hc (by decide)
  simp [Pattern.isMagic, hne]

/-- Unquoted characters that are no part of a pattern go on with the field. -/
theorem Cutter.Holds.pushed (h : s.Holds cut begun) (hne : t ≠ [])
    (hplain : ∀ c ∈ t, Text.isPlainChar c = true) :
    (t.foldl (Cutter.push false) s).Holds cut (some (begun.getD [] ++ t)) := by
  induction t generalizing s begun with
  | nil => exact absurd rfl hne
  | cons c t ih =>
      have hc := plainChar_not_magic (hplain c List.mem_cons_self)
      have hfirst : (s.push false c).Holds cut (some (begun.getD [] ++ [c])) := by
        constructor
        · exact h.cut
        · exact h.cutPlain
        · show (c :: s.text).reverse = _
          rw [List.reverse_cons, h.text]
          rfl
        · show (s.magic || (!false && Pattern.isMagic c)) = false
          rw [h.plain, hc]
          rfl
        · rfl
      cases t with
      | nil => exact hfirst
      | cons d t =>
          have hrest := ih hfirst (List.cons_ne_nil d t) fun e he => hplain e (List.mem_cons_of_mem c he)
          simpa using hrest

theorem Cutter.Holds.verbatim (h : s.Holds cut begun) (hp : IsVerbatim p) (ifs : Text) :
    (s.cutPiece ifs (verbatimPiece p)).Holds cut (some (begun.getD [] ++ verbatimText p)) := by
  cases hp with
  | literal hne hplain => exact h.pushed hne hplain
  | escaped t => exact h.quoted ifs t
  | singleQuoted t => exact h.quoted ifs t

/-- Verbatim parts, one at least, are one field. -/
theorem Cutter.Holds.verbatims (h : s.Holds cut begun) (hne : ps ≠ []) (hps : ∀ p ∈ ps, IsVerbatim p)
    (ifs : Text) : ((ps.map verbatimPiece).foldl (Cutter.cutPiece ifs) s).Holds cut
      (some (begun.getD [] ++ ps.flatMap verbatimText)) := by
  induction ps generalizing s begun with
  | nil => exact absurd rfl hne
  | cons p ps ih =>
      have hfirst := h.verbatim (hps p List.mem_cons_self) ifs
      cases ps with
      | nil => simpa using hfirst
      | cons q ps =>
          have hrest := ih hfirst (List.cons_ne_nil q ps) fun r hr => hps r (List.mem_cons_of_mem p hr)
          simpa using hrest

theorem splitFields_verbatim (hne : ps ≠ []) (hps : ∀ p ∈ ps, IsVerbatim p) (ifs : Text) :
    (splitFields ifs (ps.map verbatimPiece)).map (·.text) = [ps.flatMap verbatimText] ∧
      ∀ f ∈ splitFields ifs (ps.map verbatimPiece), f.magic = false := by
  have hstart : Cutter.Holds {} [] none := ⟨rfl, nofun, rfl, rfl, rfl⟩
  exact (hstart.verbatims hne hps ifs).fields

/-- Nothing is looked up for verbatim parts. -/
theorem pieces_verbatim (hps : ∀ p ∈ ps, IsVerbatim p) :
    pieces ev .bare ps = pure (ps.map verbatimPiece) := by
  induction ps with
  | nil => rfl
  | cons p ps ih =>
      have hp : partPieces ev .bare p = pure [verbatimPiece p] := by
        cases hps p List.mem_cons_self <;> rfl
      unfold pieces
      rw [hp, ih fun q hq => hps q (List.mem_cons_of_mem p hq)]
      rfl

theorem tildePrefix?_plain (hplain : ∀ c ∈ t, Text.isPlainChar c = true) : tildePrefix? t = none := by
  unfold tildePrefix?
  split
  · exact absurd (hplain '~' List.mem_cons_self) (by decide)
  · rfl

/-- No tilde stands at the start. -/
theorem wordTilde_verbatim (hps : ∀ p ∈ ps, IsVerbatim p) : wordTilde ps = pure none := by
  cases ps with
  | nil => rfl
  | cons p ps =>
      cases hps p List.mem_cons_self with
      | literal hne hplain =>
          unfold wordTilde
          dsimp only
          rw [tildePrefix?_plain hplain]
      | escaped t => rfl
      | singleQuoted t => rfl

/-- Words of verbatim parts are arguments as they are: no separators cut them, no directory is read,
nothing is asked of the system, and the state stays. -/
theorem arguments_verbatim {ws : List Word}
    (hws : ∀ w ∈ ws, w.parts ≠ [] ∧ ∀ p ∈ w.parts, IsVerbatim p) :
    arguments ev ws = pure (ws.map fun w => w.parts.flatMap verbatimText) := by
  induction ws with
  | nil => rfl
  | cons w ws ih =>
      obtain ⟨hne, hps⟩ := hws w List.mem_cons_self
      have hrest := ih fun v hv => hws v (List.mem_cons_of_mem w hv)
      have hpieces : wordPieces ev w = pure (w.parts.map verbatimPiece) := by
        unfold wordPieces
        rw [wordTilde_verbatim hps]
        exact pieces_verbatim hps
      have hfields : ∀ sh : Shell, fieldsArguments
          (splitFields (fieldSeparators sh) (w.parts.map verbatimPiece)) =
            pure [w.parts.flatMap verbatimText] := by
        intro sh
        obtain ⟨htexts, hplain⟩ := splitFields_verbatim hne hps (fieldSeparators sh)
        rw [fieldsArguments_plain hplain, htexts]
      unfold arguments
      rw [hpieces, hrest]
      simp only [pure_bind, hfields]
      rfl

end

/-! ## The parts of a quoted text -/

theorem isVerbatim_quotedParts {v acc : Text} {p : Part} (hp : p ∈ quotedParts acc v) :
    IsVerbatim p := by
  induction v generalizing acc with
  | nil =>
      obtain rfl := List.mem_singleton.mp hp
      exact .singleQuoted acc
  | cons c v ih =>
      unfold quotedParts at hp
      split at hp
      · rcases List.mem_cons.mp hp with rfl | hp
        · exact .singleQuoted acc
        rcases List.mem_cons.mp hp with rfl | hp
        · exact .escaped [c]
        · exact ih hp
      · exact ih hp

theorem flatMap_quotedParts (acc v : Text) :
    (quotedParts acc v).flatMap verbatimText = acc ++ v := by
  induction v generalizing acc with
  | nil => simp [quotedParts, verbatimText]
  | cons c v ih =>
      unfold quotedParts
      split
      · simp [verbatimText, ih]
      · simp [ih]

/-- A word of plain characters and a quoted text is verbatim. -/
theorem wordParts_verbatim (pre : Text) (hpre : ∀ c ∈ pre, Text.isPlainChar c = true) (v : Text) :
    wordParts pre v ≠ [] ∧ (∀ p ∈ wordParts pre v, IsVerbatim p) ∧
      (wordParts pre v).flatMap verbatimText = pre ++ v := by
  unfold wordParts
  split
  · rename_i hv
    obtain ⟨hne, hall⟩ := Bool.and_eq_true_iff.mp hv
    have hne' : pre ++ v ≠ [] := by
      rintro heq
      rw [(List.append_eq_nil_iff.mp heq).2] at hne
      exact absurd hne (by decide)
    refine ⟨List.cons_ne_nil _ _, ?_, by simp [verbatimText]⟩
    intro p hp
    obtain rfl := List.mem_singleton.mp hp
    apply IsVerbatim.literal hne'
    intro c hc
    rcases List.mem_append.mp hc with hc | hc
    · exact hpre c hc
    · exact List.all_eq_true.mp hall c hc
  · split
    · rename_i hempty
      obtain rfl := List.isEmpty_iff.mp hempty
      exact ⟨quotedParts_ne_nil _ _, fun p hp => isVerbatim_quotedParts hp, flatMap_quotedParts [] v⟩
    · rename_i hempty
      refine ⟨List.cons_ne_nil _ _, ?_, by simp [verbatimText, flatMap_quotedParts]⟩
      intro p hp
      rcases List.mem_cons.mp hp with rfl | hp
      · exact .literal (by simpa using hempty) hpre
      · exact isVerbatim_quotedParts hp

/-! ## Values of assignments -/

theorem cut?_append {sep : Char} {t : Text} (h : sep ∉ t) (u : Text) :
    Text.cut? sep (t ++ sep :: u) = some (t, u) := by
  induction t with
  | nil => simp [Text.cut?]
  | cons c t ih =>
      obtain ⟨hc, ht⟩ := not_or.mp (mt List.mem_cons.mpr h)
      simp [Text.cut?, Ne.symm hc, ih ht]

theorem splitAssignment?_append {name : Text} (hname : Text.isName name = true) (v : Text) :
    Text.splitAssignment? (name ++ '=' :: v) = some (name, v) := by
  have hcut := cut?_append (Script.equals_notMem_of_isName hname) v
  simp [Text.splitAssignment?, hcut, hname]

section

variable {ev : Evaluator}

/-- No tilde stands at the start of a segment. -/
theorem segmentTildes_plain {segs : List Text}
    (hplain : ∀ seg ∈ segs, ∀ c ∈ seg, Text.isPlainChar c = true) (eligible last : Bool) :
    segmentTildes eligible last segs = pure segs := by
  induction segs generalizing eligible with
  | nil => rfl
  | cons seg segs ih =>
      have hsame : ∀ runsOn, segmentTilde seg runsOn = pure seg := by
        intro runsOn
        unfold segmentTilde
        rw [tildePrefix?_plain (hplain seg List.mem_cons_self)]
      have hrest := ih (fun t ht => hplain t (List.mem_cons_of_mem seg ht)) true
      unfold segmentTildes
      simp only [hsame, hrest]
      cases eligible <;> rfl

theorem assignedTildes_plain {t : Text} (hplain : ∀ c ∈ t, Text.isPlainChar c = true)
    (atStart last : Bool) : assignedTildes t atStart last = pure t := by
  have hsegs : ∀ seg ∈ Text.splitAt ':' t, ∀ c ∈ seg, Text.isPlainChar c = true :=
    fun seg hseg c hc => hplain c (Text.mem_of_mem_splitAt hseg hc)
  unfold assignedTildes
  rw [segmentTildes_plain hsegs]
  show (pure (Text.join [':'] (Text.splitAt ':' t)) : ShellM Text) = _
  rw [Text.join_splitAt]

theorem quotedText_verbatim {p : Part} (hp : IsVerbatim p) :
    quotedText ev [p] = pure (verbatimText p) := by
  cases hp <;> simp [quotedText, pieces, partPieces, Piece.joined, Piece.quoted, verbatimText]

/-- Verbatim parts are the value as they stand. -/
theorem assignedValue_verbatim {ps : List Part} (hps : ∀ p ∈ ps, IsVerbatim p) (first : Bool)
    (done : Text) : assignedValue ev first done ps = pure (done ++ ps.flatMap verbatimText) := by
  induction ps generalizing first done with
  | nil => simp [assignedValue]
  | cons p ps ih =>
      have hrest := ih (fun q hq => hps q (List.mem_cons_of_mem p hq)) false
      unfold assignedValue
      cases hps p List.mem_cons_self with
      | literal hne hplain =>
          simp only [assignedTildes_plain hplain, pure_bind, hrest, List.flatMap_cons,
            List.append_assoc, verbatimText]
      | escaped t =>
          simp only [quotedText_verbatim (.escaped t), pure_bind, hrest, List.flatMap_cons,
            List.append_assoc]
      | singleQuoted t =>
          simp only [quotedText_verbatim (.singleQuoted t), pure_bind, hrest, List.flatMap_cons,
            List.append_assoc]

/-- A name, `=` and a quoted text are an assignment of the text. -/
theorem assignment_wordParts {w : Word} {name v : Text} (hname : Text.isName name = true)
    (hw : w.parts = wordParts (name ++ ['=']) v) : assignment ev w = pure (name, v) := by
  have hsplit := splitAssignment?_append hname
  by_cases hv : isPlain v = true
  · have hparts : w.parts = [.literal (name ++ '=' :: v)] := by
      rw [hw, wordParts, if_pos hv, List.append_assoc]
      rfl
    obtain ⟨hne, hall⟩ := Bool.and_eq_true_iff.mp hv
    have hempty : v.isEmpty = false := by simpa using hne
    have hverbatim : ∀ p ∈ [Part.literal v], IsVerbatim p := by
      intro p hp
      obtain rfl := List.mem_singleton.mp hp
      exact .literal (List.isEmpty_eq_false_iff.mp hempty) (List.all_eq_true.mp hall)
    have hvalue : assignedValue ev true [] [.literal v] = _ :=
      assignedValue_verbatim hverbatim true []
    unfold assignment
    simp only [hparts, hsplit, hempty, Bool.false_eq_true, if_false, hvalue, pure_bind]
    simp [verbatimText]
  · have hparts : w.parts = .literal (name ++ '=' :: []) :: quotedParts [] v := by
      rw [hw, wordParts, if_neg hv, if_neg (by simp)]
    have hvalue : assignedValue ev true [] (quotedParts [] v) = _ :=
      assignedValue_verbatim (fun p hp => isVerbatim_quotedParts hp) true []
    unfold assignment
    simp only [hparts, hsplit, List.isEmpty_nil, if_true, hvalue, pure_bind, flatMap_quotedParts,
      List.nil_append]

end

/-! ## Reading back -/

/-- A quoted text is read back. Whatever the text is, reading what `Text.quote` makes of it, on any line
and with any aliases, gives one word and then the end of the input. The word is expanded to the text and
nothing else, from every state: nothing is asked of the system, so that neither its files nor the
separators have a say, and the state stays. -/
theorem quote_read_back (t : Text) (line : Nat) (aliases : Table Text) :
    ∃ tk stop w i j,
      Script.readToken.on (.ofText (Text.quote t) line aliases) = (.ok tk, i) ∧ tk.kind = .word w ∧
      Script.readToken.on i = (.ok stop, j) ∧ stop.kind = .endOfInput ∧
      ∀ (ev : Evaluator) (s : Shell),
        (arguments ev [w]).startedIn s = .done (.ok [t], s) := by
  have hquoted : Takes aliases readToken (Text.quote t) (·.HasParts (wordParts [] t)) [] := by
    apply Takes.readToken
    intro n hn
    have hword := takes_word (A := aliases) (n := n) [] [] (by simp) (by simp) t
      (by simp [EndsWord] : EndsWord []) (by simp; omega)
    simpa using hword
  have hend : Takes aliases readToken [] (fun tk => tk.kind = .endOfInput) [] := by
    apply Takes.readToken
    intro n hn
    obtain ⟨n, rfl⟩ : ∃ k, n = k + 3 := ⟨n - 3, by omega⟩
    exact takes_endOfInput
  obtain ⟨tk, i, hi, ⟨text, l, hkind⟩, hahead⟩ := hquoted.on (ahead_ofText aliases _ line)
  obtain ⟨stop, j, hj, hstop, -⟩ := hend.on hahead
  refine ⟨tk, stop, .mk text (wordParts [] t) l, i, j, hi, hkind, hj, hstop, ?_⟩
  intro ev s
  obtain ⟨hne, hverbatim, htext⟩ := wordParts_verbatim [] (by simp) t
  rw [arguments_verbatim]
  · show Host.Program.done (Except.ok [(wordParts [] t).flatMap verbatimText], s) = _
    rw [htext]
    rfl
  · intro w hw
    obtain rfl := List.mem_singleton.mp hw
    exact ⟨hne, hverbatim⟩

end CommandShell.Expansion
