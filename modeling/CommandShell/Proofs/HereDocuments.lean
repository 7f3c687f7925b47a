import CommandShell.Proofs.QuotedWords
import CommandShell.Proofs.QuoteRemoval
import CommandShell.Proofs.Reading.Portions

/-!
# The texts of here-documents

The body of a here-document is the lines up to the delimiter (`Delimited`). Unless the delimiter was
quoted the body is read once more, by itself and in its own context, and the text of the document is made
of the parts that were read.

That text is the body with its expansions processed: the texts of the portions of the body, one after the
other (`hereDocText_of_unquoted`). What is read between lines and parts goes through two steps. Lines are
taken as they stand (`Delimited.readHereDocLines`), and the parts have the texts of the portions that
they come from (`quotedText_foldl_addTo`), though characters in a row make one part.

With an alias whose text ends a command substitution, what is left of that text comes before the rest of
the body (`not_hereDocText_of_unquoted`).
-/

namespace CommandShell.Script

open Reader

variable {n : Nat} {i j : Input}

/-! ## The lines of a body -/

/-- The body of a here-document: the lines before the one that is the delimiter, and the text after
that line. At the end of an input that no line can follow the delimiter may go without a newline, or
be missing. -/
inductive Delimited (closed : Bool) (delimiter : Text) : (body rest text : Text) → Prop
  | here (rest : Text) (h : '\n' ∉ delimiter) :
      Delimited closed delimiter [] rest (delimiter ++ '\n' :: rest)
  | last (hclosed : closed = true) (h : '\n' ∉ delimiter) :
      Delimited closed delimiter [] [] delimiter
  | missing (hclosed : closed = true) {l : Text} (h : '\n' ∉ l) (hne : l ≠ delimiter) :
      Delimited closed delimiter l [] l
  | line {l body rest text : Text} (h : '\n' ∉ l) (hne : l ≠ delimiter)
      (hrest : Delimited closed delimiter body rest text) :
      Delimited closed delimiter (l ++ '\n' :: body) rest (l ++ '\n' :: text)

/-- What stands before the end of a line is taken. -/
theorem readRawLine_take (hi : Coherent i) {l t : Text} (hl : '\n' ∉ l) (ht : i.oncoming = l ++ t) :
    ∃ j, Coherent j ∧ SameBeside i j ∧ j.oncoming = t ∧ ∀ n acc,
      (readRawLine (n + l.length) acc).on i = (readRawLine n (l.reverse ++ acc)).on j := by
  induction l generalizing i with
  | nil => exact ⟨i, hi, .refl i, ht, fun _ _ => rfl⟩
  | cons c l ih =>
      obtain ⟨hc, hl⟩ := not_or.mp (List.mem_cons.not.mp hl)
      obtain ⟨j, hj, hcoherent, hbeside, hon⟩ := hi.next_on_cons ht
      obtain ⟨k, hkc, hkbeside, hkon, hk⟩ := ih hcoherent hl hon
      refine ⟨k, hkc, hbeside.trans hkbeside, hkon, fun n acc => ?_⟩
      rw [List.reverse_cons, List.append_assoc, List.singleton_append, ← hk]
      show (readRawLine (n + l.length + 1) acc).on i = _
      rw [readRawLine, Reader.on_bind, hj]
      dsimp only
      split
      · rename_i heq
        exact absurd (Option.some.inj heq).symm hc
      · rename_i heq
        cases heq
        rfl
      · contradiction

theorem readRawLine_newline (hi : Coherent i) {l t : Text} (hl : '\n' ∉ l)
    (ht : i.oncoming = l ++ '\n' :: t) {n : Nat} (hn : l.length < n) :
    ∃ j, (readRawLine n []).on i = (.ok (some (l ++ ['\n'])), j) ∧ Coherent j ∧ SameBeside i j ∧
      j.oncoming = t := by
  obtain ⟨m, rfl⟩ := Nat.exists_eq_add_of_lt hn
  obtain ⟨j, hcoherent, hbeside, hon, hj⟩ := readRawLine_take hi hl ht
  obtain ⟨k, hk, hkc, hkbeside, hkon⟩ := hcoherent.next_on_cons hon
  refine ⟨k, ?_, hkc, hbeside.trans hkbeside, hkon⟩
  rw [show l.length + m + 1 = m + 1 + l.length by omega, hj, readRawLine, Reader.on_bind, hk]
  show (Except.ok (some ('\n' :: (l.reverse ++ [])).reverse), k) = _
  simp

theorem readRawLine_end (hi : Coherent i) {l : Text} (hl : '\n' ∉ l) (ht : i.oncoming = l)
    (hclosed : i.closed = true) {n : Nat} (hn : l.length < n) :
    ∃ j, (readRawLine n []).on i = (.ok (if l.isEmpty then none else some l), j) ∧ Coherent j ∧
      SameBeside i j ∧ j.oncoming = [] := by
  obtain ⟨m, rfl⟩ := Nat.exists_eq_add_of_lt hn
  obtain ⟨j, hcoherent, hbeside, hon, hj⟩ := readRawLine_take hi hl (ht.trans (List.append_nil l).symm)
  obtain ⟨k, hk, hkc, hkbeside, hkon⟩ := hcoherent.next_on_nil hon (hbeside.closed.trans hclosed)
  refine ⟨k, ?_, hkc, hbeside.trans hkbeside, hkon⟩
  rw [show l.length + m + 1 = m + 1 + l.length by omega, hj, readRawLine, Reader.on_bind, hk]
  show (Except.ok (if (l.reverse ++ []).isEmpty then none else some (l.reverse ++ []).reverse), k) = _
  simp

section

variable {req : HereDocRequest} {body rest text : Text}

theorem readHereDocLines_on_line (hstrip : req.stripTabs = false) {l : Text}
    (hj : (readRawLine n []).on i = (.ok (some l), j)) (acc : List Text) :
    (readHereDocLines req (n + 1) acc).on i =
      (if (if l.getLast? = some '\n' then l.dropLast else l) = req.delimiter then
        pure acc.reverse.flatten
      else readHereDocLines req n (l :: acc)).on j := by
  rw [readHereDocLines, Reader.on_bind, hj]
  dsimp only
  rw [hstrip, if_neg Bool.false_ne_true]

theorem readHereDocLines_on_end (hj : (readRawLine n []).on i = (.ok none, j)) (acc : List Text) :
    (readHereDocLines req (n + 1) acc).on i = (.ok acc.reverse.flatten, j) := by
  rw [readHereDocLines, Reader.on_bind, hj]
  rfl

/-- A last line without a newline. -/
theorem readHereDocLines_last (hstrip : req.stripTabs = false) (hi : Coherent i) {l : Text}
    (hl : '\n' ∉ l) (hon : i.oncoming = l) (hclosed : i.closed = true) {n : Nat}
    (hn : l.length + 1 < n) (acc : List Text) :
    ∃ j, (readHereDocLines req n acc).on i =
        (.ok (acc.reverse.flatten ++ if l = req.delimiter then [] else l), j) ∧
      Coherent j ∧ SameBeside i j ∧ j.oncoming = [] := by
  obtain ⟨m, rfl⟩ := Nat.exists_eq_add_one.mpr (Nat.zero_lt_of_lt hn)
  obtain ⟨j, hj, hcoherent, hbeside, hjon⟩ :=
    readRawLine_end hi hl hon hclosed (Nat.lt_of_succ_lt_succ hn)
  cases l with
  | nil =>
      refine ⟨j, ?_, hcoherent, hbeside, hjon⟩
      rw [readHereDocLines_on_end hj]
      simp
  | cons c l =>
      have hlast : (c :: l).getLast? ≠ some '\n' := fun h => hl (List.mem_of_getLast? h)
      have hline := readHereDocLines_on_line hstrip hj acc
      rw [if_neg hlast] at hline
      rw [hline]
      by_cases heq : c :: l = req.delimiter
      · refine ⟨j, ?_, hcoherent, hbeside, hjon⟩
        rw [if_pos heq, if_pos heq, List.append_nil]
        rfl
      · -- the end is met once more
        obtain ⟨m, rfl⟩ := Nat.exists_eq_add_one.mpr (Nat.zero_lt_of_lt (Nat.lt_of_succ_lt_succ hn))
        have hm : ([] : Text).length < m := by
          rw [List.length_cons] at hn
          rw [List.length_nil]
          omega
        obtain ⟨k, hk, hkc, hkbeside, hkon⟩ :=
          readRawLine_end hcoherent List.not_mem_nil hjon (hbeside.closed.trans hclosed) hm
        refine ⟨k, ?_, hkc, hbeside.trans hkbeside, hkon⟩
        rw [if_neg heq, if_neg heq, readHereDocLines_on_end hk]
        simp

/-- The lines before the delimiter are read. -/
theorem Delimited.readHereDocLines (h : Delimited i.closed req.delimiter body rest text)
    (hstrip : req.stripTabs = false) (hi : Coherent i) (hon : i.oncoming = text) {n : Nat}
    (hn : text.length + 1 < n) (acc : List Text) :
    ∃ j, (readHereDocLines req n acc).on i = (.ok (acc.reverse.flatten ++ body), j) ∧ Coherent j ∧
      SameBeside i j ∧ j.oncoming = rest := by
  generalize hcl : i.closed = closed at h
  induction h generalizing i n acc with
  | here rest h =>
      obtain ⟨m, rfl⟩ := Nat.exists_eq_add_one.mpr (Nat.zero_lt_of_lt hn)
      have hlength : req.delimiter.length < m := by
        rw [List.length_append] at hn
        omega
      obtain ⟨j, hj, hcoherent, hbeside, hjon⟩ := readRawLine_newline hi h hon hlength
      refine ⟨j, ?_, hcoherent, hbeside, hjon⟩
      rw [readHereDocLines_on_line hstrip hj, if_pos (by simp), List.append_nil]
      rfl
  | last hclosed h =>
      have hlast := readHereDocLines_last hstrip hi h hon (hcl.trans hclosed) hn acc
      rwa [if_pos rfl] at hlast
  | missing hclosed h hne =>
      have hlast := readHereDocLines_last hstrip hi h hon (hcl.trans hclosed) hn acc
      rwa [if_neg hne] at hlast
  | @line l body rest text h hne hrest ih =>
      obtain ⟨m, rfl⟩ := Nat.exists_eq_add_one.mpr (Nat.zero_lt_of_lt hn)
      rw [List.length_append, List.length_cons] at hn
      obtain ⟨j, hj, hcoherent, hbeside, hjon⟩ := readRawLine_newline hi h hon (n := m) (by omega)
      obtain ⟨k, hk, hkc, hkbeside, hkon⟩ :=
        ih hcoherent hjon (n := m) (by omega) ((l ++ ['\n']) :: acc) (hbeside.closed.trans hcl)
      refine ⟨k, ?_, hkc, hbeside.trans hkbeside, hkon⟩
      rw [readHereDocLines_on_line hstrip hj, if_neg (by simpa using hne), hk]
      simp

theorem Delimited.length_le {closed : Bool} {delimiter : Text}
    (h : Delimited closed delimiter body rest text) : body.length ≤ text.length := by
  induction h with
  | here rest h => exact Nat.zero_le _
  | last hclosed h => exact Nat.zero_le _
  | missing hclosed h hne => exact Nat.le_refl _
  | line h hne hrest ih => simpa using ih

/-! ## Whole documents -/

/-- The input after a here-document, with its body kept. -/
def Input.withBody (i : Input) (req : HereDocRequest) (w : Word) (expanded : List AliasUse) : Input :=
  { i with bodies := (req.ticket, w) :: i.bodies, expanded }

/-- Once the lines are there, the body is read by itself. -/
theorem readHereDocs_on (hquoted : req.quoted = false) (hbeside : SameBeside i j)
    (hraw : (readHereDocLines req n []).on i = (.ok body, j)) (reqs : List HereDocRequest) :
    (readHereDocs (n + 1) (req :: reqs)).on i =
      match (readParts .hereDoc i.line n 0 []).on (i.nested i.inUse body i.line) with
      | (.ok parts, sub) => (readHereDocs n reqs).on
          (j.withBody req (.mk body (Part.fillAll sub.bodies parts) i.line) sub.expanded)
      | (.error e, sub) => (.error e, { j with expanded := sub.expanded }) := by
  have hnested : j.nested i.inUse body i.line = i.nested i.inUse body i.line := by
    unfold Input.nested
    rw [hbeside.aliases, hbeside.expanded]
  rw [ReadersObey.readHereDocs_cons]
  show (do
    let raw ← readHereDocLines req n []
    let parts ← ReadersObey.readBody n req i.line i.inUse raw
    keepBody req.ticket (.mk raw parts i.line)
    readHereDocs n reqs).on i = _
  rw [Reader.on_bind, hraw]
  dsimp only
  unfold ReadersObey.readBody
  rw [hquoted, if_neg Bool.false_ne_true, bind_assoc, Reader.on_bind]
  unfold readNested
  rw [Reader.on_get, Reader.on_withInput, hnested]
  generalize (readParts .hereDoc i.line n 0 []).on (i.nested i.inUse body i.line) = outcome
  obtain ⟨o, sub⟩ := outcome
  cases o with
  | ok parts => rfl
  | error e => rfl

/-- The lines of a document that was read. -/
theorem readHereDocLines_of_read {reqs : List HereDocRequest}
    (hj : (readHereDocs (n + 1) (req :: reqs)).on i = (.ok (), j)) :
    ∃ raw k, (readHereDocLines req n []).on i = (.ok raw, k) := by
  rw [ReadersObey.readHereDocs_cons] at hj
  change (readHereDocLines req n [] >>= fun raw => do
    let parts ← ReadersObey.readBody n req i.line i.inUse raw
    keepBody req.ticket (.mk raw parts i.line)
    readHereDocs n reqs).on i = _ at hj
  rw [Reader.on_bind] at hj
  generalize (readHereDocLines req n []).on i = outcome at hj ⊢
  obtain ⟨o, k⟩ := outcome
  cases o with
  | ok raw => exact ⟨raw, k, rfl⟩
  | error e => cases hj

end

end CommandShell.Script

namespace CommandShell.Expansion

open Script (Part PartsSoFar Bodies Word Portion)
open Shell

variable {ev : Evaluator} {bs : Bodies}

/-! ## Texts -/

/-- The text of a portion: characters stand for themselves, and expansions are processed. -/
def portionText (ev : Evaluator) (bs : Bodies) : Portion → ShellM Text
  | .plain c | .escaped c => return [c]
  | .joined => return []
  | .expansion _ _ p => quotedText ev [p.fill bs]

/-- The texts of portions, one after the other. -/
def portionsText (ev : Evaluator) (bs : Bodies) : List Portion → ShellM Text
  | [] => return []
  | x :: xs => do
    let t ← portionText ev bs x
    return t ++ (← portionsText ev bs xs)

theorem quotedText_append (ps qs : List Part) :
    quotedText ev (ps ++ qs) = do
      let t ← quotedText ev ps
      return t ++ (← quotedText ev qs) := by
  unfold quotedText
  rw [pieces_append]
  simp [Piece.joined]

theorem hereDocText_eq (w : Word) : hereDocText ev w = quotedText ev w.parts := by
  unfold hereDocText
  split
  · rename_i t ht
    rw [ht]
    simp [quotedText, pieces, partPieces, Piece.joined, Piece.quoted]
  · rfl

theorem fillAll_append (ps qs : List Part) :
    Part.fillAll bs (ps ++ qs) = Part.fillAll bs ps ++ Part.fillAll bs qs := by
  induction ps with
  | nil => rfl
  | cons p ps ih => exact congrArg (p.fill bs :: ·) ih

/-- A part after others adds its text to theirs. -/
theorem quotedText_sealed_cons (p : Part) (ps : PartsSoFar) :
    quotedText ev (Part.fillAll bs (PartsSoFar.sealed (p :: ps))) = do
      let t ← quotedText ev (Part.fillAll bs ps.sealed)
      return t ++ (← quotedText ev (Part.fillAll bs (PartsSoFar.sealed [p]))) := by
  rw [PartsSoFar.sealed_cons, fillAll_append, quotedText_append]

theorem quotedText_literal (t : Text) : quotedText ev [.literal t] = pure t := by
  simp [quotedText, pieces, partPieces, Piece.joined]

theorem quotedText_escaped (t : Text) : quotedText ev [.escaped t] = pure t := by
  simp [quotedText, pieces, partPieces, Piece.joined, Piece.quoted]

/-- A character adds itself to the text of the parts so far. -/
theorem quotedText_addChar {ps : PartsSoFar} {c : Char} {f : Text → Part}
    (htext : ∀ t, PartsSoFar.sealed [f t] = [f t.reverse])
    (hquoted : ∀ t, quotedText ev (Part.fillAll bs [f t]) = pure t) {qs : PartsSoFar}
    (hqs : (∃ t rest, ps = f t :: rest ∧ qs = f (c :: t) :: rest) ∨ qs = f [c] :: ps) :
    quotedText ev (Part.fillAll bs qs.sealed) = do
      let t ← quotedText ev (Part.fillAll bs ps.sealed)
      return t ++ [c] := by
  rcases hqs with ⟨t, rest, rfl, rfl⟩ | rfl
  · rw [quotedText_sealed_cons, quotedText_sealed_cons (f t), htext, htext, hquoted, hquoted]
    simp only [bind_assoc, pure_bind, List.reverse_cons, List.append_assoc]
  · rw [quotedText_sealed_cons, htext, hquoted]
    rfl

/-- A portion adds its text to that of the parts so far. -/
theorem quotedText_addTo {x : Portion} (hx : x.IsRead) (ps : PartsSoFar) :
    quotedText ev (Part.fillAll bs (x.addTo ps).sealed) = do
      let t ← quotedText ev (Part.fillAll bs ps.sealed)
      return t ++ (← portionText ev bs x) := by
  cases x with
  | plain c =>
      refine quotedText_addChar (f := .literal) (fun t => rfl) quotedText_literal ?_
      show (∃ t rest, ps = .literal t :: rest ∧ ps.literal c = _) ∨ ps.literal c = _
      unfold PartsSoFar.literal
      split
      · exact .inl ⟨_, _, rfl, rfl⟩
      · exact .inr rfl
  | escaped c =>
      refine quotedText_addChar (f := .escaped) (fun t => rfl) quotedText_escaped ?_
      show (∃ t rest, ps = .escaped t :: rest ∧ ps.escaped c = _) ∨ ps.escaped c = _
      unfold PartsSoFar.escaped
      split
      · exact .inl ⟨_, _, rfl, rfl⟩
      · exact .inr rfl
  | joined => simp [Portion.addTo, portionText]
  | expansion s l p =>
      have hsealed : PartsSoFar.sealed [p] = [p] := by
        cases p with
        | param name op colon arg q => rfl
        | command body => rfl
        | arithmetic ps => rfl
        | _ => exact hx.elim
      show quotedText ev (Part.fillAll bs (PartsSoFar.sealed (p :: ps))) = _
      rw [quotedText_sealed_cons, hsealed]
      rfl

/-- The parts of portions have the texts of the portions. -/
theorem quotedText_foldl_addTo {xs : List Portion} (hxs : ∀ x ∈ xs, x.IsRead) (ps : PartsSoFar) :
    quotedText ev (Part.fillAll bs (PartsSoFar.sealed (xs.foldl Portion.addTo ps))) = do
      let t ← quotedText ev (Part.fillAll bs ps.sealed)
      return t ++ (← portionsText ev bs xs) := by
  induction xs generalizing ps with
  | nil => simp [portionsText]
  | cons x xs ih =>
      obtain ⟨hx, hxs⟩ := List.forall_mem_cons.mp hxs
      rw [List.foldl_cons, ih hxs, quotedText_addTo hx]
      simp only [portionsText, bind_assoc, pure_bind, List.append_assoc]

theorem portionsText_plain (t : Text) : portionsText ev bs (t.map .plain) = pure t := by
  induction t with
  | nil => rfl
  | cons c t ih => simp [portionsText, portionText, ih]

/-! ## Here-documents -/

open Script.Reader (next)
open Script (Input HereDocRequest readHereDocs readParts readParts_cutInto Portions Coherent Delimited
  isHereDocSpecial)

variable {n line : Nat} {req : HereDocRequest} {i sub : Input}
  {body rest : Text} {parts : List Part}

/-- The text of a body that was read is that of its portions. -/
theorem portions_of_read {within : List Text}
    (hread : (readParts .hereDoc line n 0 []).on (i.nested within body line) = (.ok parts, sub)) :
    ∃ xs, Portions line (i.nested within body line) xs ∧
      ((∀ x ∈ xs, x.left = []) → xs.flatMap Portion.source = body) ∧
      ∀ ev bs, quotedText ev (Part.fillAll bs parts) = portionsText ev bs xs := by
  have hcoherent := Script.coherent_nested i within body line
  obtain ⟨xs, hxs, rfl⟩ := (readParts_cutInto line n 0 _ hcoherent []).value hread
  refine ⟨xs, hxs, fun hleft => ?_, fun ev bs => ?_⟩
  · rw [hxs.flatMap_source hcoherent hleft, Script.oncoming_nested]
  · rw [quotedText_foldl_addTo hxs.isRead]
    simp [PartsSoFar.sealed, Part.fillAll, quotedText, pieces, Piece.joined]

/-- The body of a here-document is read by itself, which ends with `sub`, and kept as the word `w`.
Reading goes on from `k`. -/
structure KeepsBody (n : Nat) (req : HereDocRequest) (i : Input) (body rest : Text) (w : Word)
    (sub k : Input) : Prop where
  reads : ∃ parts, w = .mk body (Part.fillAll sub.bodies parts) i.line ∧
    (readParts .hereDoc i.line n 0 []).on (i.nested i.inUse body i.line) = (.ok parts, sub)
  bodies : k.bodies = (req.ticket, w) :: i.bodies
  rest : k.oncoming = rest

/-- The text of an unquoted here-document is that of the portions of its body, where only expansions,
commands in back-quotes and certain backslashes stand for something else. No other character is lost
or moved, unless an expansion ends in the text of an alias: what is left of that then comes in the place
of what was written for the expansion. A body without special characters is always read, and is its own
text. -/
theorem hereDocText_of_unquoted (reqs : List HereDocRequest) (hquoted : req.quoted = false)
    (hstrip : req.stripTabs = false) (hi : Coherent i)
    (hbody : Delimited i.closed req.delimiter body rest i.oncoming) :
    (∀ j, (readHereDocs (n + 1) (req :: reqs)).on i = (.ok (), j) →
      ∃ w sub k xs, KeepsBody n req i body rest w sub k ∧ (readHereDocs n reqs).on k = (.ok (), j) ∧
        Portions i.line (i.nested i.inUse body i.line) xs ∧
        (∀ ev, hereDocText ev w = portionsText ev sub.bodies xs) ∧
        ((∀ x ∈ xs, x.left = []) → xs.flatMap Portion.source = body) ∧
        (i.aliases = .empty → i.inUse = [] → ∀ x ∈ xs, x.left = [])) ∧
    ((∀ c ∈ body, isHereDocSpecial c = false) → i.oncoming.length + 1 < n →
      ∃ w sub k, KeepsBody n req i body rest w sub k ∧
        (readHereDocs (n + 1) (req :: reqs)).on i = (readHereDocs n reqs).on k ∧
        ∀ ev, hereDocText ev w = pure body) := by
  constructor
  · intro j hj
    obtain ⟨k, hk, -, hbeside, hrest⟩ := hbody.readHereDocLines hstrip hi rfl (Nat.lt_succ_self _) []
    -- how many steps there are makes no difference to the lines
    obtain ⟨raw, k', hraw⟩ := Script.readHereDocLines_of_read hj
    have hgrows := fun n => Script.readHereDocLines_grows req n []
    obtain ⟨hbody', rfl⟩ := (Script.shows_of_grows hgrows hk n).value hraw
    obtain rfl : raw = body := hbody'
    rw [Script.readHereDocs_on hquoted hbeside hraw] at hj
    split at hj
    · rename_i parts sub hread
      obtain ⟨xs, hxs, hsource, htext⟩ := portions_of_read hread
      refine ⟨_, sub, _, xs, ⟨⟨parts, rfl, hread⟩, congrArg _ hbeside.bodies, ?_⟩, hj, hxs, fun ev => ?_,
        hsource, ?_⟩
      · exact hrest
      · rw [hereDocText_eq]
        exact htext ev sub.bodies
      · intro hempty huse
        rw [huse] at hxs
        exact hxs.left_eq_nil (Script.excerpt_nested hempty _ _)
    · cases hj
  · intro hplain hn
    obtain ⟨k, hk, -, hbeside, hrest⟩ := hbody.readHereDocLines hstrip hi rfl hn []
    have hraw : (Script.readHereDocLines req n []).on i = (.ok body, k) := hk
    have hcoherent := Script.coherent_nested i i.inUse body i.line
    have hon := Script.oncoming_nested i i.inUse body i.line
    have hlength : body.length < n := Nat.lt_of_le_of_lt hbody.length_le (Nat.lt_of_succ_lt hn)
    obtain ⟨parts, sub, hread⟩ := Script.readParts_plain i.line hcoherent rfl
      (by rwa [hon]) (by rwa [hon]) 0 []
    obtain ⟨xs, hxs, -, htext⟩ := portions_of_read hread
    obtain rfl := hxs.eq_map_plain hcoherent (by rwa [hon])
    refine ⟨_, sub, k.withBody req (.mk body (Part.fillAll sub.bodies parts) i.line) sub.expanded,
      ⟨⟨parts, rfl, hread⟩, congrArg _ hbeside.bodies, hrest⟩, ?_, fun ev => ?_⟩
    · rw [Script.readHereDocs_on hquoted hbeside hraw, hread]
    · rw [hereDocText_eq]
      exact (htext ev sub.bodies).trans (by rw [hon]; exact portionsText_plain body)

/-- A document that ends with a line `E`. -/
def documentToE : HereDocRequest := ⟨"E", false, false, 0⟩

theorem delimited_ofText {t l : Text} (ht : t = l ++ ['\n', 'E', '\n']) (h : '\n' ∉ l)
    (hne : l ≠ documentToE.delimiter) (A : Table Text) :
    Delimited true documentToE.delimiter (l ++ ['\n']) [] (Input.ofText t 1 A).oncoming := by
  rw [Script.oncoming_ofText, ht]
  exact .line h hne (.here [] (by decide))

theorem hereDocText_of_unquoted_quotes :
    (∃ w xs bs, w.text = ("\"$x\" it's ~ *\n" : Text) ∧
      xs.flatMap Portion.source = ("\"$x\" it's ~ *\n" : Text) ∧
      ∀ ev, hereDocText ev w = portionsText ev bs xs) ∧
    ∃ w : Word, w.text = ("\"x\" it's ~ *\n" : Text) ∧
      ∀ ev, hereDocText ev w = pure ("\"x\" it's ~ *\n" : Text) := by
  constructor
  · have hi := Script.coherent_ofText "\"$x\" it's ~ *\nE\n" 1 .empty
    have hbody := delimited_ofText (t := "\"$x\" it's ~ *\nE\n") (l := "\"$x\" it's ~ *") rfl (by decide)
      (by decide) .empty
    have hread : ((readHereDocs 40 [documentToE]).on (.ofText "\"$x\" it's ~ *\nE\n")).1.isOk := by
      decide +kernel
    obtain ⟨_, j, hj⟩ := Script.on_of_isOk hread
    obtain ⟨w, sub, k, xs, hkeeps, -, -, htext, hsource, hleft⟩ :=
      (hereDocText_of_unquoted (n := 39) [] rfl rfl hi hbody).1 j hj
    obtain ⟨parts, rfl, -⟩ := hkeeps.reads
    exact ⟨_, xs, sub.bodies, rfl, hsource (hleft rfl rfl), htext⟩
  · have hi := Script.coherent_ofText "\"x\" it's ~ *\nE\n" 1 .empty
    have hbody := delimited_ofText (t := "\"x\" it's ~ *\nE\n") (l := "\"x\" it's ~ *") rfl (by decide)
      (by decide) .empty
    obtain ⟨w, sub, k, hkeeps, -, htext⟩ :=
      (hereDocText_of_unquoted (n := 39) [] rfl rfl hi hbody).2 (by simp [isHereDocSpecial])
        (by rw [Script.oncoming_ofText]; decide)
    obtain ⟨parts, rfl, -⟩ := hkeeps.reads
    exact ⟨_, rfl, htext⟩

/-- A command substitution that an alias ends: `echo hi)` is put in the place of `p`. -/
def endedByAlias : Input := .ofText "$(p rest\n" 1 (.ofList [("p", "echo hi)")])

theorem coherent_endedByAlias : Coherent endedByAlias := Script.coherent_ofText _ _ _

theorem oncoming_endedByAlias : endedByAlias.oncoming = '$' :: ("(p rest\n" : Text) :=
  Script.oncoming_ofText _ _ _

/-- After the substitution the blank after the alias comes before the rest of the line. -/
theorem expands_endedByAlias {p : Part} {k : Input} (h : Script.Expands 1 endedByAlias p k) :
    k.oncoming = ("  rest\n" : Text) := by
  cases h with
  | @dollar n j hj hk =>
      have hread : ((Script.readDollar 30 true).on (next.on endedByAlias).2).1.isOk := by
        decide +kernel
      have hon : ((Script.readDollar 30 true).on (next.on endedByAlias).2).2.oncoming =
          ("  rest\n" : Text) := by
        decide +kernel
      rw [hj] at hread hon
      obtain ⟨o, l, hl⟩ := Script.on_of_isOk hread
      have hgrows := fun n => (Script.readersGrow n).readDollar true
      obtain ⟨-, rfl⟩ := (Script.shows_of_grows hgrows hl n).value hk
      rwa [hl] at hon
  | backQuote hj hk =>
      have hhead := (coherent_endedByAlias.of_next hj).2
      rw [oncoming_endedByAlias] at hhead
      exact absurd (List.cons.inj hhead).1 (by decide)

theorem not_portions_endedByAlias {xs : List Portion} (h : Portions 1 endedByAlias xs) :
    xs.flatMap Portion.source ≠ '$' :: ("(p rest\n" : Text) := by
  have hnext : ∀ {c j}, next.on endedByAlias = (.ok (some c), j) →
      '$' = c ∧ ("(p rest\n" : Text) = j.oncoming := by
    intro c j hj
    have hon := (coherent_endedByAlias.of_next hj).2
    rw [oncoming_endedByAlias] at hon
    exact List.cons.inj hon
  intro hsource
  cases h with
  | done h => exact absurd (oncoming_endedByAlias.symm.trans h) (List.cons_ne_nil _ _)
  | plain hj hc rest =>
      obtain ⟨rfl, -⟩ := hnext hj
      exact absurd hc (by decide)
  | dollar hj hnone rest =>
      obtain ⟨-, hon⟩ := hnext hj
      exact absurd (hnone '(' (by rw [← hon]; rfl)) (by decide)
  | backslash hj hnone rest => exact absurd (hnext hj).1 (by decide)
  | escaped hj hk hc rest => exact absurd (hnext hj).1 (by decide)
  | joined hj hk rest => exact absurd (hnext hj).1 (by decide)
  | @expansion _ k p s l r xs h hs hl hleft rest =>
      have hon := expands_endedByAlias h
      have hk := (h.leavesEnd coherent_endedByAlias).1
      have hxs := rest.eq_map_plain hk (by rw [hon]; simp [isHereDocSpecial])
      have hrest := rest.flatMap_source hk (by rw [hxs]; simp [Portion.left])
      rw [List.flatMap_cons, hrest, ← oncoming_endedByAlias, hs, hon] at hsource
      have hr : ("  rest\n" : Text) = r := List.append_cancel_left hsource
      have hsuffix : ("  rest\n" : Text) <:+ '$' :: ("(p rest\n" : Text) :=
        ⟨s, by rw [← oncoming_endedByAlias, hs, hr]⟩
      exact absurd hsuffix (by decide)

theorem not_hereDocText_of_unquoted :
    ¬ ∀ (n : Nat) (req : HereDocRequest) (i j : Input) (body rest : Text), req.quoted = false →
      req.stripTabs = false → Coherent i → Delimited i.closed req.delimiter body rest i.oncoming →
      (readHereDocs (n + 1) [req]).on i = (.ok (), j) →
      ∃ w bs xs, (req.ticket, w) ∈ j.bodies ∧ Portions i.line (i.nested i.inUse body i.line) xs ∧
        xs.flatMap Portion.source = body ∧ ∀ ev, hereDocText ev w = portionsText ev bs xs := by
  intro hclaim
  have hi := Script.coherent_ofText "$(p rest\nE\n" 1 (.ofList [("p", "echo hi)")])
  have hbody := delimited_ofText (t := "$(p rest\nE\n") (l := "$(p rest") rfl (by decide)
      (by decide) (.ofList [("p", "echo hi)")])
  have hread : ((readHereDocs 40 [documentToE]).on
      (.ofText "$(p rest\nE\n" 1 (.ofList [("p", "echo hi)")]))).1.isOk := by
    decide +kernel
  obtain ⟨_, j, hj⟩ := Script.on_of_isOk hread
  obtain ⟨w, bs, xs, -, hxs, hsource, -⟩ := hclaim 39 documentToE _ j _ [] rfl rfl hi hbody hj
  exact not_portions_endedByAlias hxs hsource

end CommandShell.Expansion
