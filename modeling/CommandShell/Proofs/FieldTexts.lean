import Mathlib.Data.List.TakeWhile
import CommandShell.Expansion.Field

/-!
# Fields and delimiters

The cutter goes through a row of pieces once, with two flags. This file says what it comes to without
them: the row is divided into contents and delimiters from left to right, a delimiter being a run of
separator blanks with at most one other separator in it, and each delimiter ends a field
(`Mark.fields`). `splitFields_by_delimiters` says that the texts of the fields are these, and that nothing but
the separators in text from unquoted substitutions is left out.
-/

namespace CommandShell.Expansion

/-! ## Contents and delimiters -/

/-- What stands in a row of pieces, for the division into fields. -/
inductive Mark where
  /-- A character that belongs to a field. -/
  | char (c : Char)
  /-- The end of quoted text, which makes the field exist even when the text is empty. -/
  | quote
  /-- A separator blank. -/
  | blank
  /-- A separator that is no blank. -/
  | stop
  deriving DecidableEq, Repr

namespace Mark

/-- Whether the mark belongs to a field. -/
def isContent : Mark → Bool
  | char _ | quote => true
  | blank | stop => false

/-- Whether the mark is a separator blank. -/
def isBlank : Mark → Bool
  | blank => true
  | char _ | quote | stop => false

/-- The mark of a character in text where separators count. -/
def ofChar (ifs : Text) (c : Char) : Mark :=
  if c ∉ ifs then char c
  else if c ∈ [' ', '\t', '\n', '\x0c', '\r'] then blank
  else stop

/-- The characters that belong to fields. -/
def text (ms : List Mark) : Text :=
  ms.filterMap fun
    | char c => some c
    | _ => none

/-- The delimiter at the start of a row: blanks, at most one other separator, and blanks again. -/
def delimiter (ms : List Mark) : List Mark :=
  match ms.dropWhile isBlank with
  | stop :: r => ms.takeWhile isBlank ++ stop :: r.takeWhile isBlank
  | _ => ms.takeWhile isBlank

/-- What follows the delimiter at the start of a row. -/
def afterDelimiter (ms : List Mark) : List Mark :=
  match ms.dropWhile isBlank with
  | stop :: r => r.dropWhile isBlank
  | r => r

theorem afterDelimiter_nil : afterDelimiter [] = [] := rfl

theorem afterDelimiter_blank (ms : List Mark) :
    afterDelimiter (blank :: ms) = afterDelimiter ms := rfl

theorem length_afterDelimiter_le (ms : List Mark) : (afterDelimiter ms).length ≤ ms.length := by
  have hblanks := List.length_dropWhile_le isBlank ms
  unfold afterDelimiter
  split
  next r h =>
    have hmore := List.length_dropWhile_le isBlank r
    rw [h, List.length_cons] at hblanks
    omega
  next => exact hblanks

/-- A separator at the start belongs to the delimiter. -/
theorem length_afterDelimiter_cons {m : Mark} (hm : m.isContent = false) (ms : List Mark) :
    (afterDelimiter (m :: ms)).length ≤ ms.length := by
  cases m with
  | char c => cases hm
  | quote => cases hm
  | blank => exact length_afterDelimiter_le ms
  | stop => exact List.length_dropWhile_le isBlank ms

/-- A part of a row: what belongs to one field, or what stands between two. -/
inductive Segment where
  | content (ms : List Mark)
  | delimiter (ms : List Mark)
  deriving DecidableEq, Repr

/-- A row as contents and delimiters in turn, each as long as it can be, from left to right. -/
def segments : List Mark → List Segment
  | [] => []
  | m :: ms =>
    if m.isContent then .content (m :: ms.takeWhile isContent) :: segments (ms.dropWhile isContent)
    else .delimiter (delimiter (m :: ms)) :: segments (afterDelimiter (m :: ms))
termination_by ms => ms.length
decreasing_by
  · have hle := List.length_dropWhile_le isContent ms
    rw [List.length_cons]
    omega
  · have hle := length_afterDelimiter_cons (Bool.eq_false_iff.mpr ‹_›) ms
    rw [List.length_cons]
    omega

/-- The segments without a delimiter of blanks alone at the start. -/
def withoutLeading : List Segment → List Segment
  | .delimiter d :: ss => if d.all isBlank then ss else .delimiter d :: ss
  | ss => ss

/-- The segments without a delimiter of blanks alone at the end. -/
def withoutTrailing : List Segment → List Segment
  | [] => []
  | [.delimiter d] => if d.all isBlank then [] else [.delimiter d]
  | s :: ss => s :: withoutTrailing ss

/-- The fields that delimiters end, and the one that the row itself ends. -/
def closedFields : List Segment → List Text
  | [] => []
  | [.content ms] => [text ms]
  | .content ms :: _ :: ss => text ms :: closedFields ss
  | .delimiter _ :: ss => [] :: closedFields ss

/-- The fields of a row. -/
def fields (ms : List Mark) : List Text := closedFields (withoutTrailing (withoutLeading (segments ms)))

section

variable {m : Mark} {ms r : List Mark}

theorem segments_nil : segments [] = [] := by
  rw [segments]

theorem segments_content (hm : m.isContent = true) : segments (m :: ms) =
    .content (m :: ms.takeWhile isContent) :: segments (ms.dropWhile isContent) := by
  rw [segments, if_pos hm]

theorem segments_delimiter (hm : m.isContent = false) : segments (m :: ms) =
    .delimiter (delimiter (m :: ms)) :: segments (afterDelimiter (m :: ms)) := by
  rw [segments, if_neg (Bool.eq_false_iff.mp hm)]

/-- Contents are taken up to a separator. -/
theorem isContent_of_dropWhile (h : ms.dropWhile isContent = m :: r) : m.isContent = false := by
  have hhead := List.head?_dropWhile_not isContent ms
  rw [h] at hhead
  simpa using hhead

/-- The first field of a row goes up to the first delimiter, and the others follow that. -/
theorem closedFields_segments (hne : ms ≠ []) : closedFields (segments ms) =
    text (ms.takeWhile isContent) ::
      closedFields (segments (afterDelimiter (ms.dropWhile isContent))) := by
  obtain ⟨m, ms, rfl⟩ := List.exists_cons_of_ne_nil hne
  by_cases hm : m.isContent = true
  · rw [segments_content hm, List.takeWhile_cons_of_pos hm, List.dropWhile_cons_of_pos hm]
    cases hrest : ms.dropWhile isContent with
    | nil =>
        rw [afterDelimiter_nil, segments_nil]
        rfl
    | cons d r =>
        rw [segments_delimiter (isContent_of_dropWhile hrest)]
        rfl
  · have hm' := Bool.eq_false_iff.mpr hm
    rw [segments_delimiter hm', List.takeWhile_cons_of_neg hm, List.dropWhile_cons_of_neg hm]
    rfl

theorem dropWhile_isBlank_ne (ms r : List Mark) : ms.dropWhile isBlank ≠ blank :: r := by
  intro h
  have hhead := List.head?_dropWhile_not isBlank ms
  rw [h] at hhead
  exact Bool.false_ne_true hhead.symm

theorem afterDelimiter_ne (ms r : List Mark) : afterDelimiter ms ≠ blank :: r := by
  unfold afterDelimiter
  split
  · exact dropWhile_isBlank_ne _ r
  · exact dropWhile_isBlank_ne ms r

/-- Induction along the fields of a row, each with the delimiter after it. -/
theorem field_induction {motive : List Mark → Prop} (nil : motive [])
    (field : ∀ ms, ms ≠ [] → motive (afterDelimiter (ms.dropWhile isContent)) → motive ms) :
    ∀ ms, motive ms
  | [] => nil
  | m :: ms => field (m :: ms) (List.cons_ne_nil m ms)
      (field_induction nil field (afterDelimiter ((m :: ms).dropWhile isContent)))
termination_by ms => ms.length
decreasing_by
  cases hm : m.isContent with
  | true =>
      have hrest := List.length_dropWhile_le isContent ms
      have hafter := length_afterDelimiter_le (ms.dropWhile isContent)
      rw [List.dropWhile_cons_of_pos hm, List.length_cons]
      omega
  | false =>
      have hafter := length_afterDelimiter_cons hm ms
      rw [List.dropWhile_cons_of_neg (Bool.eq_false_iff.mp hm), List.length_cons]
      omega

/-- A delimiter with a separator that is no blank ends a field, also at the end. -/
theorem closedFields_withoutTrailing_delimiter {d : List Mark} (hd : d.all isBlank = false)
    (ss : List Segment) : closedFields (withoutTrailing (.delimiter d :: ss)) =
      [] :: closedFields (withoutTrailing ss) := by
  cases ss with
  | nil => simp [withoutTrailing, hd, closedFields]
  | cons s ss => simp [withoutTrailing, closedFields]

/-- After contents it makes no difference whether a delimiter is at the end. -/
theorem closedFields_withoutTrailing_content (c d : List Mark) (ss : List Segment) :
    closedFields (withoutTrailing (.content c :: .delimiter d :: ss)) =
      text c :: closedFields (withoutTrailing ss) := by
  cases ss with
  | nil => cases hd : d.all isBlank <;> simp [withoutTrailing, hd, closedFields]
  | cons s ss => simp [withoutTrailing, closedFields]

/-- A row that does not start with a blank has a delimiter of blanks alone only after contents, whose
field it ends. -/
theorem closedFields_withoutTrailing (hms : ∀ r, ms ≠ blank :: r) :
    closedFields (withoutTrailing (segments ms)) = closedFields (segments ms) := by
  induction ms using field_induction with
  | nil => rw [segments_nil, withoutTrailing]
  | field ms hne ih =>
      have hafter := ih (afterDelimiter_ne _)
      rw [closedFields_segments hne, ← hafter]
      obtain ⟨m, ms, rfl⟩ := List.exists_cons_of_ne_nil hne
      cases hm : m.isContent with
      | true =>
          rw [segments_content hm, List.takeWhile_cons_of_pos hm, List.dropWhile_cons_of_pos hm]
          cases hrest : ms.dropWhile isContent with
          | nil =>
              rw [afterDelimiter_nil, segments_nil]
              rfl
          | cons d r =>
              rw [segments_delimiter (isContent_of_dropWhile hrest),
                closedFields_withoutTrailing_content]
      | false =>
          have hm' := Bool.eq_false_iff.mp hm
          -- no blank comes first, so the delimiter has a separator that stays at the end too
          have hstop : (delimiter (m :: ms)).all isBlank = false := by
            cases m with
            | char c => cases hm
            | quote => cases hm
            | blank => exact absurd rfl (hms ms)
            | stop => simp [delimiter, isBlank]
          rw [segments_delimiter hm, closedFields_withoutTrailing_delimiter hstop,
            List.takeWhile_cons_of_neg hm', List.dropWhile_cons_of_neg hm']
          rfl

theorem all_takeWhile_isBlank (ms : List Mark) : (ms.takeWhile isBlank).all isBlank = true :=
  List.all_eq_true.mpr fun _ hm => (List.mem_takeWhile_imp hm)

/-- Blanks at the start are the whole of a delimiter, or belong to the first one. -/
theorem closedFields_withoutLeading (ms : List Mark) :
    closedFields (withoutTrailing (withoutLeading (segments ms))) =
      closedFields (withoutTrailing (segments (ms.dropWhile isBlank))) := by
  cases ms with
  | nil => simp [segments_nil, withoutLeading]
  | cons m ms =>
      cases hm : m.isContent with
      | true =>
          have hblank : ¬ m.isBlank = true := by cases m <;> simp_all [isContent, isBlank]
          rw [List.dropWhile_cons_of_neg hblank, segments_content hm]
          rfl
      | false =>
          rw [segments_delimiter hm]
          -- the blanks end the row, belong to the separator after them, or stand before contents
          cases hrest : (m :: ms).dropWhile isBlank with
          | nil =>
              have hd : (delimiter (m :: ms)).all isBlank = true := by
                rw [delimiter, hrest]
                exact all_takeWhile_isBlank _
              rw [withoutLeading, if_pos hd, afterDelimiter, hrest]
          | cons d r =>
              by_cases hstop : d = stop
              · subst hstop
                have hd : (delimiter (m :: ms)).all isBlank = false := by
                  simp [delimiter, hrest, isBlank]
                have hd' : (delimiter (stop :: r)).all isBlank = false := by
                  simp [delimiter, isBlank]
                rw [withoutLeading, if_neg (Bool.eq_false_iff.mp hd), segments_delimiter rfl,
                  closedFields_withoutTrailing_delimiter hd,
                  closedFields_withoutTrailing_delimiter hd', afterDelimiter, hrest]
                rfl
              · have hd : (delimiter (m :: ms)).all isBlank = true := by
                  rw [delimiter, hrest]
                  cases d <;> first | exact absurd rfl hstop | exact all_takeWhile_isBlank _
                rw [withoutLeading, if_pos hd, afterDelimiter, hrest]
                cases d <;> first | exact absurd rfl hstop | rfl

/-- The fields of a row, blanks at its start aside. -/
theorem fields_eq (ms : List Mark) :
    fields ms = closedFields (segments (ms.dropWhile isBlank)) := by
  rw [fields, closedFields_withoutLeading, closedFields_withoutTrailing (dropWhile_isBlank_ne ms)]

end

end Mark

/-! ## One pass over the marks -/

/-- How far the cutting of a row has come. -/
structure Progress where
  /-- The texts of the finished fields. -/
  cut : List Text := []
  /-- The text of the field that has been begun. -/
  begun : Option Text := none
  /-- Whether blanks ended the last field. -/
  afterBlank : Bool := false

namespace Progress

open Mark (isContent isBlank text segments closedFields afterDelimiter)

/-- What one mark does. -/
def step (p : Progress) : Mark → Progress
  | .char c => { p with begun := some (p.begun.getD [] ++ [c]), afterBlank := false }
  | .quote => { p with begun := some (p.begun.getD []), afterBlank := false }
  | .blank =>
    match p.begun with
    | some t => { cut := p.cut ++ [t], afterBlank := true }
    | none => p
  | .stop =>
    if p.afterBlank then { p with afterBlank := false }
    else { cut := p.cut ++ [p.begun.getD []] }

/-- The fields once the row has ended. -/
def fields (p : Progress) : List Text := p.cut ++ p.begun.toList

variable {cut : List Text} {begun : Option Text} {after : Bool} {t : Text} {ms : List Mark}

/-- Contents go on with the field, and begin one if there is none. -/
theorem foldl_content (hms : ∀ m ∈ ms, m.isContent = true) (hne : ms ≠ []) :
    ms.foldl step ⟨cut, begun, after⟩ = ⟨cut, some (begun.getD [] ++ text ms), false⟩ := by
  induction ms generalizing begun after with
  | nil => exact absurd rfl hne
  | cons m ms ih =>
      have hm := hms m List.mem_cons_self
      have hstep : step ⟨cut, begun, after⟩ m = ⟨cut, some (begun.getD [] ++ text [m]), false⟩ := by
        cases m with
        | char c => rfl
        | quote => simp [step, text]
        | blank => cases hm
        | stop => cases hm
      have htext : text (m :: ms) = text [m] ++ text ms := List.filterMap_append (l := [m])
      rw [List.foldl_cons, hstep, htext]
      cases hms' : ms with
      | nil => simp [text]
      | cons n ns =>
          rw [← hms', ih (fun k hk => hms k (List.mem_cons_of_mem m hk)) (by simp [hms'])]
          simp

/-- Blanks after the end of a field do nothing. -/
theorem foldl_dropWhile_isBlank (ms : List Mark) :
    ms.foldl step ⟨cut, none, after⟩ = (ms.dropWhile isBlank).foldl step ⟨cut, none, after⟩ := by
  induction ms with
  | nil => rfl
  | cons m ms ih =>
      cases m with
      | blank => exact ih
      | char c => rfl
      | quote => rfl
      | stop => rfl

/-- Only a separator asks whether blanks ended the last field. -/
theorem fields_foldl_after (hms : ∀ r, ms ≠ .stop :: r) (hblank : ∀ r, ms ≠ .blank :: r) :
    (ms.foldl step ⟨cut, none, after⟩).fields = (ms.foldl step ⟨cut, none, false⟩).fields := by
  cases ms with
  | nil => rfl
  | cons m ms =>
      cases m with
      | char c => rfl
      | quote => rfl
      | blank => exact absurd rfl (hblank ms)
      | stop => exact absurd rfl (hms ms)

/-- A delimiter ends the field that has been begun. -/
theorem fields_foldl_delimiter (hms : ms.head?.all fun m => !m.isContent) :
    (ms.foldl step ⟨cut, some t, false⟩).fields =
      ((afterDelimiter ms).foldl step ⟨cut ++ [t], none, false⟩).fields := by
  cases ms with
  | nil => simp [afterDelimiter, fields]
  | cons m ms =>
      cases m with
      | char c => cases hms
      | quote => cases hms
      | stop =>
          show (ms.foldl step ⟨cut ++ [t], none, false⟩).fields = _
          rw [foldl_dropWhile_isBlank]
          rfl
      | blank =>
          show (ms.foldl step ⟨cut ++ [t], none, true⟩).fields = _
          rw [foldl_dropWhile_isBlank, Mark.afterDelimiter_blank, afterDelimiter]
          split
          next r hr =>
            rw [hr]
            show (r.foldl step ⟨cut ++ [t], none, false⟩).fields = _
            rw [foldl_dropWhile_isBlank]
          next hstop =>
            exact fields_foldl_after hstop (Mark.dropWhile_isBlank_ne ms)

/-- The fields of a row that starts where a field may begin. -/
theorem fields_foldl (hms : ∀ r, ms ≠ .blank :: r) :
    (ms.foldl step ⟨cut, none, false⟩).fields = cut ++ closedFields (segments ms) := by
  induction ms using Mark.field_induction generalizing cut with
  | nil => rw [Mark.segments_nil]; rfl
  | field ms hne ih =>
      rw [Mark.closedFields_segments hne]
      have hafter := @ih (cut ++ [text (ms.takeWhile isContent)]) (Mark.afterDelimiter_ne _)
      rw [List.append_assoc, List.singleton_append] at hafter
      rw [← hafter]
      -- contents begin a field that the delimiter ends; without them the separator ends an empty one
      by_cases hbegun : ms.takeWhile isContent = []
      · obtain ⟨m, ms, rfl⟩ := List.exists_cons_of_ne_nil hne
        cases m with
        | char c => cases hbegun
        | quote => cases hbegun
        | blank => exact absurd rfl (hms ms)
        | stop =>
            show (ms.foldl step ⟨cut ++ [[]], none, false⟩).fields = _
            rw [foldl_dropWhile_isBlank]
            rfl
      · have hcontent : (ms.takeWhile isContent).foldl step ⟨cut, none, false⟩ =
            ⟨cut, some (text (ms.takeWhile isContent)), false⟩ :=
          foldl_content (fun m hm => List.mem_takeWhile_imp hm) hbegun
        have hrest : (ms.dropWhile isContent).head?.all (fun m => !m.isContent) = true := by
          cases hd : ms.dropWhile isContent with
          | nil => rfl
          | cons d r => simp [Mark.isContent_of_dropWhile hd]
        have hsplit : ms.foldl step ⟨cut, none, false⟩ = (ms.dropWhile isContent).foldl step
            ⟨cut, some (text (ms.takeWhile isContent)), false⟩ := calc
          _ = (ms.takeWhile isContent ++ ms.dropWhile isContent).foldl step ⟨cut, none, false⟩ := by
            rw [List.takeWhile_append_dropWhile]
          _ = _ := by
            rw [List.foldl_append, hcontent]
        rw [hsplit, fields_foldl_delimiter hrest]

/-- The fields of a whole row. -/
theorem fields_foldl_start (ms : List Mark) : (ms.foldl step {}).fields = Mark.fields ms := by
  rw [foldl_dropWhile_isBlank, fields_foldl (Mark.dropWhile_isBlank_ne ms), Mark.fields_eq,
    List.nil_append]

end Progress

/-! ## The cutter -/

/-- The marks of a piece. -/
def Piece.marks (ifs : Text) : Piece → List Mark
  | .text t true _ => t.map .char ++ [.quote]
  | .text t false false => t.map .char
  | .text t false true => t.map (Mark.ofChar ifs)
  | .fieldBreak => []

/-- The characters of a piece that no separator takes. -/
def Piece.kept (ifs : Text) : Piece → Text
  | .text t false true => t.filter fun c => c ∉ ifs
  | .text t _ _ => t
  | .fieldBreak => []

namespace Cutter

/-- A cutter that has come as far as a pass over the marks. -/
structure Shows (s : Cutter) (p : Progress) : Prop where
  cut : s.done.reverse.map (·.text) = p.cut
  text : s.text.reverse = p.begun.getD []
  started : s.started = p.begun.isSome
  afterBlank : s.afterBlank = p.afterBlank

variable {s : Cutter} {p : Progress} {ifs : Text}

theorem Shows.push (h : s.Shows p) (quoted : Bool) (c : Char) :
    (s.push quoted c).Shows (p.step (.char c)) := by
  constructor
  · exact h.cut
  · show (c :: s.text).reverse = p.begun.getD [] ++ [c]
    rw [List.reverse_cons, h.text]
  · rfl
  · rfl

theorem Shows.foldl_push (h : s.Shows p) (quoted : Bool) (t : Text) :
    (t.foldl (Cutter.push quoted) s).Shows ((t.map Mark.char).foldl Progress.step p) := by
  induction t generalizing s p with
  | nil => exact h
  | cons c t ih => exact ih (h.push quoted c)

theorem Shows.finish (h : s.Shows p) : s.finish.Shows
    { cut := p.cut ++ [p.begun.getD []], afterBlank := p.afterBlank } := by
  constructor
  · show (s.current :: s.done).reverse.map _ = _
    rw [List.reverse_cons, List.map_append, h.cut]
    show p.cut ++ [s.text.reverse] = _
    rw [h.text]
  · rfl
  · rfl
  · exact h.afterBlank

theorem isAsciiBlank_iff (c : Char) :
    isAsciiBlank c = true ↔ c ∈ [' ', '\t', '\n', '\x0c', '\r'] := by
  simp [isAsciiBlank, or_assoc]

theorem Shows.cutChar (h : s.Shows p) (ifs : Text) (c : Char) :
    (s.cutChar ifs c).Shows (p.step (Mark.ofChar ifs c)) := by
  by_cases hsep : c ∈ ifs
  · by_cases hblank : c ∈ [' ', '\t', '\n', '\x0c', '\r']
    · have hcut : s.cutChar ifs c = if s.started then { s.finish with afterBlank := true } else s := by
        simp [Cutter.cutChar, hsep, (isAsciiBlank_iff c).mpr hblank]
      have hmark : Mark.ofChar ifs c = .blank := by
        rw [Mark.ofChar, if_neg (not_not_intro hsep), if_pos hblank]
      rw [hcut, hmark, h.started, Progress.step]
      cases hbegun : p.begun with
      | none => exact h
      | some t =>
          have hfinish := h.finish
          rw [hbegun] at hfinish
          exact ⟨hfinish.cut, hfinish.text, hfinish.started, rfl⟩
    · have hcut : s.cutChar ifs c =
          if s.afterBlank then { s with afterBlank := false } else s.finish := by
        simp [Cutter.cutChar, hsep, mt (isAsciiBlank_iff c).mp hblank]
      have hmark : Mark.ofChar ifs c = .stop := by
        rw [Mark.ofChar, if_neg (not_not_intro hsep), if_neg hblank]
      rw [hcut, hmark, h.afterBlank, Progress.step]
      cases hafter : p.afterBlank with
      | true => exact ⟨h.cut, h.text, h.started, rfl⟩
      | false =>
          have hfinish := h.finish
          rw [hafter] at hfinish
          exact hfinish
  · have hcut : s.cutChar ifs c = s.push false c := by simp [Cutter.cutChar, hsep]
    rw [hcut, Mark.ofChar, if_pos hsep]
    exact h.push false c

theorem Shows.foldl_cutChar (h : s.Shows p) (ifs t : Text) :
    (t.foldl (Cutter.cutChar ifs) s).Shows ((t.map (Mark.ofChar ifs)).foldl Progress.step p) := by
  induction t generalizing s p with
  | nil => exact h
  | cons c t ih => exact ih (h.cutChar ifs c)

theorem Shows.cutPiece (h : s.Shows p) (ifs : Text) {q : Piece} (hq : q ≠ .fieldBreak) :
    (s.cutPiece ifs q).Shows ((q.marks ifs).foldl Progress.step p) := by
  cases q with
  | fieldBreak => exact absurd rfl hq
  | text t quoted splittable =>
      cases quoted with
      | true =>
          have ht := h.foldl_push true t
          rw [Piece.marks, List.foldl_append]
          exact ⟨ht.cut, ht.text, rfl, rfl⟩
      | false =>
          cases splittable with
          | true => exact h.foldl_cutChar ifs t
          | false => exact h.foldl_push false t

theorem Shows.fields (h : s.Shows p) : s.fields.map (·.text) = p.fields := by
  unfold Cutter.fields Progress.fields
  rw [h.started]
  cases hbegun : p.begun with
  | none => simpa using h.cut
  | some t =>
      have hfinish := h.finish.cut
      rw [hbegun] at hfinish
      exact hfinish

theorem Shows.foldl_cutPiece (h : s.Shows p) (ifs : Text) {ps : List Piece}
    (hps : ∀ q ∈ ps, q ≠ .fieldBreak) : (ps.foldl (Cutter.cutPiece ifs) s).Shows
      ((ps.flatMap (Piece.marks ifs)).foldl Progress.step p) := by
  induction ps generalizing s p with
  | nil => exact h
  | cons q ps ih =>
      rw [List.foldl_cons, List.flatMap_cons, List.foldl_append]
      exact ih (h.cutPiece ifs (hps q List.mem_cons_self)) fun r hr =>
        hps r (List.mem_cons_of_mem q hr)

end Cutter

/-! ## Splitting -/

theorem texts_splitFields (ifs : Text) {ps : List Piece} (hps : ∀ q ∈ ps, q ≠ .fieldBreak) :
    (splitFields ifs ps).map (·.text) = Mark.fields (ps.flatMap (Piece.marks ifs)) := by
  have hstart : Cutter.Shows {} {} := ⟨rfl, rfl, rfl, rfl⟩
  rw [← Progress.fields_foldl_start]
  exact (hstart.foldl_cutPiece ifs hps).fields

theorem Mark.text_dropWhile_isBlank (ms : List Mark) : text (ms.dropWhile isBlank) = text ms := by
  induction ms with
  | nil => rfl
  | cons m ms ih =>
      cases m with
      | blank => exact ih
      | char c => rfl
      | quote => rfl
      | stop => rfl

/-- A delimiter holds no character of a field. -/
theorem Mark.text_afterDelimiter (ms : List Mark) : text (afterDelimiter ms) = text ms := by
  rw [← text_dropWhile_isBlank ms]
  unfold afterDelimiter
  split
  next r hr =>
    rw [hr]
    exact text_dropWhile_isBlank r
  next => rfl

/-- The fields hold the characters that belong to fields, in their order. -/
theorem Mark.flatten_closedFields (ms : List Mark) : (closedFields (segments ms)).flatten = text ms := by
  induction ms using field_induction with
  | nil => rw [segments_nil]; rfl
  | field ms hne ih =>
      rw [closedFields_segments hne, List.flatten_cons, ih, text_afterDelimiter]
      unfold text
      rw [← List.filterMap_append, List.takeWhile_append_dropWhile]

theorem Mark.flatten_fields (ms : List Mark) : (fields ms).flatten = text ms := by
  rw [fields_eq, flatten_closedFields, text_dropWhile_isBlank]

theorem Mark.text_ofChar (ifs : Text) (c : Char) :
    text [ofChar ifs c] = [c].filter fun c => c ∉ ifs := by
  unfold ofChar
  split
  next h => simp [text, h]
  next h =>
    split
    · simp [text, not_not.mp h]
    · simp [text, not_not.mp h]

theorem Mark.text_append (ms ns : List Mark) : text (ms ++ ns) = text ms ++ text ns :=
  List.filterMap_append

theorem Mark.text_map_char (t : Text) : text (t.map char) = t := by
  induction t with
  | nil => rfl
  | cons c t ih => exact congrArg (c :: ·) ih

theorem Piece.text_marks (ifs : Text) (p : Piece) : Mark.text (p.marks ifs) = p.kept ifs := by
  cases p with
  | fieldBreak => rfl
  | text t quoted splittable =>
      cases quoted with
      | true =>
          rw [marks, Mark.text_append, Mark.text_map_char]
          exact List.append_nil t
      | false =>
          cases splittable with
          | false => exact Mark.text_map_char t
          | true =>
              show Mark.text (t.map (Mark.ofChar ifs)) = t.filter _
              induction t with
              | nil => rfl
              | cons c t ih =>
                  rw [List.map_cons, ← List.singleton_append, Mark.text_append, ih, Mark.text_ofChar,
                    ← List.filter_append, List.singleton_append]

theorem Piece.text_flatMap_marks (ifs : Text) (ps : List Piece) :
    Mark.text (ps.flatMap (marks ifs)) = ps.flatMap (kept ifs) := by
  induction ps with
  | nil => rfl
  | cons p ps ih => rw [List.flatMap_cons, List.flatMap_cons, Mark.text_append, ih, text_marks]

/-- The texts of the fields of any pieces are the fields of the row of marks that the pieces make, and
together they are all the characters that are no separators from an unquoted substitution, in their
order. -/
theorem splitFields_by_delimiters (ifs : Text) (ps : List Piece) (hps : ∀ p ∈ ps, p ≠ .fieldBreak) :
    (splitFields ifs ps).map (·.text) = Mark.fields (ps.flatMap (Piece.marks ifs)) ∧
      (splitFields ifs ps).flatMap (·.text) = ps.flatMap (Piece.kept ifs) := by
  have htexts := texts_splitFields ifs hps
  refine ⟨htexts, ?_⟩
  rw [List.flatMap_def, htexts, Mark.flatten_fields, Piece.text_flatMap_marks]

/-- A separator among blanks, an empty quotation, and a separator that is not in the result of a
substitution. -/
theorem splitFields_by_delimiters_mixed :
    let ps : List Piece := [.text " a : " false true, .quoted [], .text " : :b" false true,
      .text ":c" false false, .text ": " false true]
    (∀ p ∈ ps, p ≠ .fieldBreak) ∧
      Mark.fields (ps.flatMap (Piece.marks " :")) = ["a".toList, [], [], "b:c".toList] ∧
      ps.flatMap (Piece.kept " :") = "ab:c".toList := by
  intro ps
  have hps : ∀ p ∈ ps, p ≠ .fieldBreak := by decide
  obtain ⟨htexts, hkept⟩ := splitFields_by_delimiters " :" ps hps
  exact ⟨hps, htexts.symm.trans (by decide), hkept.symm.trans (by decide)⟩

end CommandShell.Expansion
