import Mathlib.Data.List.Nodup
import CommandShell.Proofs.Listings
import CommandShell.Proofs.RawBytes.Boundaries

/-!
# Variable listings are read back

`export -p`, `readonly -p` and `set` list variables as commands. Run in a shell without variables these
commands bring back what was listed (`listings_read_back`): the names with the flag, each with its value
or without one, and for `set` every value.

That is said of the listing as a text. It is written as bytes, and these are read as the same text exactly
if every listed value survives as bytes. A value with a character of the block that stands for single
bytes does not (`not_listings_read_back`).
-/

namespace CommandShell

open Shell
open Commands (DeclareFlag declaredLine declareOperand runDeclare runSet)
open Script (Line QuotedWord)

namespace Commands

/-- What `export -p` and `readonly -p` list. -/
def flaggedListing (flag : DeclareFlag) (vs : Variables) : Text :=
  (vs.bindings.toList.filter fun b => flag.isOn b.2).flatMap fun (name, v) => declaredLine flag name v

/-- A variable that has the flag and nothing else but its value. -/
def DeclareFlag.mark (flag : DeclareFlag) (value : Option Text) : Variable :=
  { value, exported := flag == .exported, readOnly := flag == .readOnly }

/-- A value as `set` lists it. -/
def valueLine (name value : Text) : Text := name ++ "=" ++ Text.quote value ++ "\n"

/-- What `set` lists. -/
def valueListing (vs : Variables) : Text :=
  vs.bindings.toList.flatMap fun (name, v) =>
    match v.value with
    | some value => valueLine name value
    | none => []

end Commands

open Commands

/-! ## Values -/

/-- The values of a list of variables. -/
def listedValues (l : List (Text × Variable)) : List (Text × Text) :=
  l.filterMap fun b => b.2.value.map fun value => (b.1, value)

theorem keys_listedValues {l : List (Text × Variable)} :
    ((listedValues l).map Prod.fst).Sublist (l.map Prod.fst) := by
  induction l with
  | nil => exact .slnil
  | cons b l ih =>
      unfold listedValues
      rw [List.filterMap_cons, List.map_cons]
      cases b.2.value with
      | none => exact ih.cons _
      | some value => exact ih.cons_cons _

theorem find?_listedValues {l : List (Text × Variable)} (h : (l.map Prod.fst).Nodup) (k : Text) :
    Table.find? k (listedValues l) = (Table.find? k l).bind (·.value) := by
  induction l with
  | nil => rfl
  | cons b l ih =>
      obtain ⟨hb, hl⟩ := List.nodup_cons.mp h
      have hrest := ih hl
      have hvalues : listedValues (b :: l) =
          (b.2.value.map fun value => (b.1, value)).toList ++ listedValues l := by
        unfold listedValues
        rw [List.filterMap_cons]
        cases b.2.value <;> rfl
      rw [hvalues, Table.find?]
      by_cases hk : k = b.1
      · subst hk
        have hnone : Table.find? b.1 (listedValues l) = none := by
          rw [hrest, Table.find?_eq_none hb]
          rfl
        cases hvalue : b.2.value with
        | none => simp [hnone, hvalue]
        | some value => simp [Table.find?, hvalue]
      · rw [if_neg hk, ← hrest]
        cases b.2.value with
        | none => rfl
        | some value => simp [Table.find?, hk]

/-! ## Names -/

namespace Text

variable {name : Text}

theorem isPlainChar_of_isNameChar {c : Char} (h : isNameChar c = true) :
    isPlainChar c = true := by
  unfold isNameChar isNameStart at h
  unfold isPlainChar
  simp only [Bool.or_eq_true, beq_iff_eq] at h ⊢
  rcases h with (h | rfl) | h
  · exact .inl (.inl h)
  · exact .inr (by decide)
  · exact .inl (.inr h)

theorem exists_cons_of_isName (h : isName name = true) : ∃ c r, name = c :: r ∧
    isNameStart c = true ∧ ∀ d ∈ name, isNameChar d = true := by
  cases name with
  | nil => exact nomatch h
  | cons c r =>
      obtain ⟨hc, hr⟩ := Bool.and_eq_true_iff.mp h
      refine ⟨c, r, rfl, hc, ?_⟩
      intro d hd
      rcases List.mem_cons.mp hd with rfl | hd
      · simp [isNameChar, hc]
      · exact List.all_eq_true.mp hr d hd

theorem plain_of_isName (h : isName name = true) : ∀ c ∈ name, isPlainChar c = true := by
  obtain ⟨-, -, -, -, hall⟩ := exists_cons_of_isName h
  exact fun c hc => isPlainChar_of_isNameChar (hall c hc)

theorem plain_assigned (h : isName name = true) :
    ∀ c ∈ name ++ ['='], isPlainChar c = true := by
  intro c hc
  rcases List.mem_append.mp hc with hc | hc
  · exact plain_of_isName h c hc
  · obtain rfl := List.mem_singleton.mp hc
    decide

theorem quote_of_isName (h : isName name = true) : quote name = name := by
  apply Script.quote_of_isPlain
  obtain ⟨c, r, rfl, -⟩ := exists_cons_of_isName h
  exact List.all_eq_true.mpr (plain_of_isName h)

end Text

/-! ## Lines -/

section

variable {name : Text}

theorem assigns_of_isName (h : Text.isName name = true) (v : Text) :
    QuotedWord.Assigns ⟨name ++ ['='], v, Text.plain_assigned h⟩ := by
  intro u hu
  have hname := Expansion.splitAssignment?_append h
  have hfirst : ∃ t ps, Script.wordParts (name ++ ['=']) v = .literal (name ++ '=' :: t) :: ps := by
    unfold Script.wordParts
    split
    · exact ⟨v, [], by rw [List.append_assoc]; rfl⟩
    · rw [if_neg (by simp)]
      exact ⟨[], _, rfl⟩
  obtain ⟨t, ps, hparts⟩ := hfirst
  have hu' : u.parts = .literal (name ++ '=' :: t) :: ps := hu.trans hparts
  simp [Script.Word.isAssignment, hu', hname]

end

theorem calls_command (flag : DeclareFlag) : (QuotedWord.ofText flag.command).Calls := by
  cases flag <;> exact QuotedWord.calls_ofText (by decide) (by decide) (by decide)

/-- A variable with a valid name. -/
abbrev NamedVariable := { b : Text × Variable // Text.isName b.1 = true }

/-- The word after `export` or `readonly`. -/
def flaggedWord (b : NamedVariable) : QuotedWord :=
  match b.1.2.value with
  | some value => ⟨b.1.1 ++ ['='], value, Text.plain_assigned b.2⟩
  | none => .ofText b.1.1

/-- A variable with a flag as a line of a script. -/
def flaggedLine (flag : DeclareFlag) (b : NamedVariable) : Line :=
  .command (.ofText flag.command) [flaggedWord b] (calls_command flag)

theorem spell_flaggedLine (flag : DeclareFlag) (b : NamedVariable) :
    (flaggedLine flag b).spell = declaredLine flag b.1.1 b.1.2 := by
  have hcommand : Text.quote flag.command = flag.command := by
    cases flag <;> rfl
  have hname := Text.quote_of_isName b.2
  unfold flaggedLine flaggedWord declaredLine
  cases b.1.2.value with
  | none => simp [Line.spell, QuotedWord.spell, QuotedWord.ofText, hcommand, hname]
  | some value => simp [Line.spell, QuotedWord.spell, QuotedWord.ofText, hcommand]

/-- A value with the valid name of its variable. -/
abbrev NamedValue := { b : Text × Text // Text.isName b.1 = true }

/-- A variable and its value as a line of a script. -/
def assignedLine (b : NamedValue) : Line :=
  .assignment ⟨b.1.1 ++ ['='], b.1.2, Text.plain_assigned b.2⟩ (assigns_of_isName b.2 b.1.2)

theorem spell_assignedLine (b : NamedValue) : (assignedLine b).spell = valueLine b.1.1 b.1.2 := by
  simp [assignedLine, Line.spell, QuotedWord.spell, valueLine]

theorem valueListing_eq (vs : Variables) :
    valueListing vs = (listedValues vs.bindings.toList).flatMap fun b => valueLine b.1 b.2 := by
  unfold valueListing listedValues
  induction vs.bindings.toList with
  | nil => rfl
  | cons b l ih =>
      obtain ⟨name, value, exported, readOnly⟩ := b
      rw [List.flatMap_cons, ih]
      cases value with
      | none => rfl
      | some value => rfl

/-! ## What a line does -/

namespace Shell

variable {s : Shell} {name : Text} {value : Option Text} {flag : DeclareFlag} {depth : Nat}

theorem completes_updateVariables {f : Variables → Except Fault Variables} {vs : Variables}
    (h : f s.variables = .ok vs) :
    Completes (updateVariables f) s fun _ t => t = { s with «variables» := vs } := by
  unfold updateVariables
  apply completes_get_bind
  rw [h]
  exact completes_of_eq rfl rfl

/-- A name without a variable gets the flag and the value. -/
theorem completes_declareOperand {arg : Text} (hsplit : Commands.splitOperand arg = (name, value))
    (hname : Text.isName name = true) (hnew : s.variables.get? name = none) (hs : Unencumbered s) :
    Completes (declareOperand flag arg) s fun _ t => Unencumbered t ∧
      t.variables.bindings = s.variables.bindings.insert name (flag.mark value) := by
  have hassign : s.variables.assignWith name value (flag == .exported) (flag == .readOnly) =
      .ok { s.variables with bindings := s.variables.bindings.insert name (flag.mark value) } := by
    unfold Variables.assignWith
    simp [hnew, DeclareFlag.mark]
  unfold declareOperand
  simp only [hsplit, hname, Bool.not_true, Bool.false_eq_true, if_false]
  apply (completes_updateVariables hassign).bind
  rintro - _ rfl
  split
  · exact completes_modify ⟨hs.of_eq rfl rfl rfl, rfl⟩
  · exact completes_pure ⟨hs.of_eq rfl rfl rfl, rfl⟩

/-- An operand that starts as a name does is no option. -/
theorem takeOptions_name {allowed name rest : Text} (hname : Text.isName name = true) :
    Builtin.takeOptions allowed [name ++ rest] = .ok ([], [name ++ rest]) := by
  obtain ⟨c, r, rfl, hc, -⟩ := Text.exists_cons_of_isName hname
  have hdash : c ≠ '-' := by
    rintro rfl
    exact absurd hc (by decide)
  rw [List.cons_append]
  unfold Builtin.takeOptions
  split
  · simp_all
  · simp_all
  · simp_all
  · simp_all

theorem text_flaggedWord (b : NamedVariable) : ∃ rest, (flaggedWord b).text = b.1.1 ++ rest ∧
    Commands.splitOperand (flaggedWord b).text = (b.1.1, b.1.2.value) := by
  have hequals := Script.equals_notMem_of_isName b.2
  unfold flaggedWord
  cases b.1.2.value with
  | none =>
      refine ⟨[], (List.append_nil _).symm, ?_⟩
      show Commands.splitOperand b.1.1 = _
      rw [Commands.splitOperand, Script.cut?_eq_none hequals]
  | some value =>
      have htext : (b.1.1 ++ ['=']) ++ value = b.1.1 ++ '=' :: value := by simp
      refine ⟨'=' :: value, htext, ?_⟩
      show Commands.splitOperand ((b.1.1 ++ ['=']) ++ value) = _
      rw [htext, Commands.splitOperand, Expansion.cut?_append hequals]

/-- The line of a variable declares it. -/
theorem completes_flaggedLine {b : NamedVariable} {node : Script.Node}
    (hnode : (flaggedLine flag b).Writes node) (hnew : s.variables.get? b.1.1 = none)
    (hs : Unencumbered s) :
    Completes ((evaluatorOf (depth + 2)).node node {}) s fun _ t => Unencumbered t ∧
      t.variables.bindings = s.variables.bindings.insert b.1.1 (flag.mark b.1.2.value) := by
  obtain ⟨rest, htext, hsplit⟩ := text_flaggedWord b
  have haction : ∀ line, Completes (runDeclare flag [(flaggedWord b).text])
      { s with line, substitutionStatus := none } fun _ t => t.status = 0 ∧ Unencumbered t ∧
        t.variables.bindings = s.variables.bindings.insert b.1.1 (flag.mark b.1.2.value) := by
    intro line
    have hoptions : Builtin.takeOptions "p" [(flaggedWord b).text] = .ok ([], [(flaggedWord b).text]) := by
      rw [htext]
      exact takeOptions_name b.2
    unfold runDeclare
    rw [hoptions]
    have hdeclared : Completes (declareOperand flag (flaggedWord b).text)
        { s with line, substitutionStatus := none } _ :=
      completes_declareOperand hsplit b.2 hnew (hs.of_eq rfl rfl rfl)
    apply hdeclared.forM_singleton.bind
    rintro - t ⟨hs', ht⟩
    exact completes_modify ⟨rfl, hs'.of_eq rfl rfl rfl, ht⟩
  cases flag with
  | exported => exact completes_command hnode rfl rfl rfl (by decide) hs.functions haction
  | readOnly => exact completes_command hnode rfl rfl rfl (by decide) hs.functions haction

/-- The line of a value gives it to the variable. -/
theorem completes_assignedLine {b : NamedValue} {node : Script.Node} (hnode : (assignedLine b).Writes node)
    (hnew : s.variables.get? b.1.1 = none) (hs : Unencumbered s) :
    Completes ((evaluatorOf (depth + 2)).node node {}) s fun _ t => Unencumbered t ∧
      ∃ exported, t.variables.bindings = s.variables.bindings.insert b.1.1
        { value := some b.1.2, exported } := by
  apply completes_assignment hnode b.2
  intro line
  refine ⟨{ s.variables with
    bindings := s.variables.bindings.insert b.1.1
      { value := some b.1.2, exported := s.has .allexport } }, ?_, ?_, s.has .allexport, rfl⟩
  · unfold Variables.assignWith
    simp [hnew]
  · refine hs.of_eq ?_ ?_ rfl
    · dsimp only
      split <;> rfl
    · dsimp only
      split <;> rfl

/-! ## Whole listings -/

theorem flatMap_attachWith {α : Type} {P : α → Prop} (f : α → Text) (l : List α) (h : ∀ b ∈ l, P b) :
    ((l.attachWith P h).flatMap fun b => f b.1) = l.flatMap f := by
  rw [← List.flatMap_map]
  simp

/-- Lines that each give a variable of their own to a table that is empty at the start. What `v` makes of
a line may depend on the options that hold when it is run. -/
theorem completes_insertions {β : Type} {ev : Evaluator} {xs : List β} {line : β → Line} {name : β → Text}
    {v : β → Bool → Variable} (hkeys : (xs.map name).Nodup)
    (hline : ∀ b t node, (line b).Writes node → t.variables.get? (name b) = none → Unencumbered t →
      Completes (ev.node node {}) t fun _ u => Unencumbered u ∧ ∃ exported,
        u.variables.bindings = t.variables.bindings.insert (name b) (v b exported))
    (hs : Unencumbered s) (hempty : s.variables.bindings = .empty) :
    Completes (runText ev (xs.flatMap fun b => (line b).spell)) s fun _ t => ∀ x, ∃ exported,
      t.variables.get? x = (Table.find? x (xs.map fun b => (name b, b))).map fun b => v b exported := by
  let I (done : List β) (t : Shell) : Prop := Unencumbered t ∧ ∀ x, ∃ exported,
    t.variables.get? x = (Table.find? x (done.map fun b => (name b, b))).map fun b => v b exported
  have hrun : Completes (runText ev (xs.flatMap fun b => (line b).spell)) s fun _ t => I xs t := by
    refine completes_runText (fun done t line ht => ⟨ht.1.of_eq rfl rfl rfl, ht.2⟩)
      (fun done t ht => ht.1) ?_ ⟨hs, ?_⟩
    · rintro done b rest rfl t ⟨ht, hvars⟩ node hnode
      -- the names differ, so that the line is the first one for its variable
      have hfirst : Table.find? (name b) (done.map fun c => (name c, c)) = none := by
        apply Table.find?_eq_none
        rw [List.map_append, List.map_cons] at hkeys
        rw [List.map_map]
        exact fun hmem => (List.nodup_append.mp hkeys).2.2 _ hmem _ List.mem_cons_self rfl
      have hnew : t.variables.get? (name b) = none := by
        obtain ⟨exported, hget⟩ := hvars (name b)
        rw [hget, hfirst]
        rfl
      apply (hline b t node hnode hnew ht).mono
      rintro - u ⟨hu, exported, hbindings⟩
      refine ⟨hu, fun x => ?_⟩
      rw [List.map_append, List.map_singleton, Table.find?_append_singleton]
      by_cases hx : x = name b
      · subst hx
        refine ⟨exported, ?_⟩
        show u.variables.bindings.get? _ = _
        rw [hbindings, Table.get?_insert_self, if_pos rfl, hfirst]
        rfl
      · obtain ⟨exported, hget⟩ := hvars x
        refine ⟨exported, ?_⟩
        rw [if_neg hx, Option.or_none, ← hget]
        show u.variables.bindings.get? x = _
        rw [hbindings, Table.get?_insert_of_ne hx]
        rfl
    · intro x
      refine ⟨false, ?_⟩
      show s.variables.bindings.get? x = none
      rw [hempty]
      rfl
  exact hrun.mono fun _ t ht => ht.2

/-- A flagged listing is run: the variables are those that it lists, with the flag and their values. -/
theorem completes_flaggedListing {vs : Variables}
    (hnames : ∀ b ∈ vs.bindings.toList, Text.isName b.1 = true)
    (hkeys : (vs.bindings.toList.map Prod.fst).Nodup) (hs : Unencumbered s)
    (hempty : s.variables.bindings = .empty) :
    Completes (runText (evaluatorOf (depth + 2)) (flaggedListing flag vs)) s fun _ t => ∀ x,
      t.variables.get? x = ((vs.get? x).filter flag.isOn).map fun v => flag.mark v.value := by
  let flagged : List (Text × Variable) := vs.bindings.toList.filter fun b => flag.isOn b.2
  have hflagged : ∀ b ∈ flagged, Text.isName b.1 = true :=
    fun b hb => hnames b (List.mem_of_mem_filter hb)
  let lines : List NamedVariable := flagged.attachWith _ hflagged
  have hlisting : flaggedListing flag vs = lines.flatMap fun b => (flaggedLine flag b).spell := by
    simp only [spell_flaggedLine]
    exact (flatMap_attachWith (fun b => declaredLine flag b.1 b.2) flagged hflagged).symm
  have hnodup : (lines.map fun b => b.1.1).Nodup := by
    rw [List.attachWith_map_val hflagged]
    exact hkeys.sublist (List.filter_sublist.map Prod.fst)
  rw [hlisting]
  apply (completes_insertions (v := fun b _ => flag.mark b.1.2.value) hnodup
    (fun b t node hnode hnew ht => (completes_flaggedLine hnode hnew ht).mono
      fun _ u hu => ⟨hu.1, false, hu.2⟩) hs hempty).mono
  rintro - t ht x
  obtain ⟨-, hget⟩ := ht x
  have hlines := Table.find?_map (fun b : NamedVariable => flag.mark b.1.2.value)
    (lines.map fun b => (b.1.1, b)) x
  rw [List.map_map] at hlines
  have hall : lines.map (fun b => (b.1.1, flag.mark b.1.2.value)) =
      flagged.map fun b => (b.1, flag.mark b.2.value) :=
    List.attachWith_map_val hflagged (f := fun b => (b.1, flag.mark b.2.value))
  calc t.variables.get? x
      = Table.find? x (lines.map fun b => (b.1.1, flag.mark b.1.2.value)) := hget.trans hlines.symm
    _ = (Table.find? x flagged).map fun v => flag.mark v.value := by
        rw [hall]
        exact Table.find?_map (fun v : Variable => flag.mark v.value) flagged x
    _ = ((vs.get? x).filter flag.isOn).map fun v => flag.mark v.value :=
        congrArg _ (Table.find?_filter hkeys (fun v => flag.isOn v) x)

/-- A listing of values is run: every variable with a value gets it. -/
theorem completes_valueListing {vs : Variables}
    (hnames : ∀ b ∈ vs.bindings.toList, Text.isName b.1 = true)
    (hkeys : (vs.bindings.toList.map Prod.fst).Nodup) (hs : Unencumbered s)
    (hempty : s.variables.bindings = .empty) :
    Completes (runText (evaluatorOf (depth + 2)) (valueListing vs)) s fun _ t => ∀ x,
      t.value? x = vs.value? x := by
  let listed : List (Text × Text) := listedValues vs.bindings.toList
  have hlisted : ∀ b ∈ listed, Text.isName b.1 = true := by
    intro b hb
    obtain ⟨c, hc, hname⟩ := List.mem_map.mp (keys_listedValues.subset (List.mem_map_of_mem hb))
    exact hname ▸ hnames c hc
  let lines : List NamedValue := listed.attachWith _ hlisted
  have hlisting : valueListing vs = lines.flatMap fun b => (assignedLine b).spell := by
    simp only [spell_assignedLine]
    rw [valueListing_eq]
    exact (flatMap_attachWith (fun b => valueLine b.1 b.2) listed hlisted).symm
  have hnodup : (lines.map fun b => b.1.1).Nodup := by
    rw [List.attachWith_map_val hlisted]
    exact hkeys.sublist keys_listedValues
  rw [hlisting]
  apply (completes_insertions (v := fun b exported => { value := some b.1.2, exported }) hnodup
    (fun b t node => completes_assignedLine) hs hempty).mono
  rintro - t ht x
  obtain ⟨exported, hget⟩ := ht x
  have hlines := Table.find?_map (fun b : NamedValue => b.1.2) (lines.map fun b => (b.1.1, b)) x
  rw [List.map_map] at hlines
  have hall : lines.map Subtype.val = listed := List.attachWith_map_subtype_val hlisted
  calc t.value? x = (Table.find? x (lines.map fun b => (b.1.1, b))).map fun b => b.1.2 := by
        unfold value? Variables.value?
        rw [hget]
        cases Table.find? x (lines.map fun b => (b.1.1, b)) <;> rfl
    _ = Table.find? x (lines.map Subtype.val) := hlines.symm
    _ = vs.value? x := by
        rw [hall]
        exact find?_listedValues hkeys x

end Shell

/-! ## Listings as bytes -/

section

variable {vs : Variables} {flag : DeclareFlag} {name : Text}

theorem allAscii_of_isName (h : Text.isName name = true) : Text.AllAscii name :=
  fun c hc => Text.isAscii_of_isPlainChar (Text.plain_of_isName h c hc)

theorem survives_declaredLine (h : Text.isName name = true) (v : Variable) (u : Text) :
    Text.Survives (declaredLine flag name v ++ u) ↔
      (∀ value, v.value = some value → Text.Survives value) ∧ Text.Survives u := by
  have hname := allAscii_of_isName h
  have hcommand : Text.AllAscii (flag.command ++ " ".toList) := by
    cases flag <;> decide
  unfold declaredLine
  cases hvalue : v.value with
  | none =>
      have hline : Text.AllAscii (flag.command ++ " ".toList ++ name ++ "\n".toList) :=
        Text.allAscii_append.mpr ⟨Text.allAscii_append.mpr ⟨hcommand, hname⟩, by decide⟩
      rw [Text.survives_ascii_append hline]
      exact (and_iff_right nofun).symm
  | some value =>
      have hpre : Text.AllAscii (flag.command ++ " ".toList ++ name ++ "=".toList) :=
        Text.allAscii_append.mpr ⟨Text.allAscii_append.mpr ⟨hcommand, hname⟩, by decide⟩
      rw [Text.survives_quote_between hpre (by decide) (by decide)]
      exact and_congr_left' ⟨fun hv w hw => Option.some.inj hw ▸ hv, fun hv => hv value rfl⟩

theorem survives_flaggedListing (hnames : ∀ b ∈ vs.bindings.toList, Text.isName b.1 = true) :
    Text.Survives (flaggedListing flag vs) ↔ ∀ b ∈ vs.bindings.toList, flag.isOn b.2 = true →
      ∀ value, b.2.value = some value → Text.Survives value := by
  have hlines : ∀ b ∈ vs.bindings.toList.filter fun b => flag.isOn b.2, ∀ u,
      Text.Survives (declaredLine flag b.1 b.2 ++ u) ↔
        (∀ value, b.2.value = some value → Text.Survives value) ∧ Text.Survives u :=
    fun b hb => survives_declaredLine (hnames b (List.mem_of_mem_filter hb)) b.2
  refine (Text.survives_flatMap hlines).trans ?_
  simp only [List.mem_filter, and_imp]

theorem survives_valueListing (hnames : ∀ b ∈ vs.bindings.toList, Text.isName b.1 = true) :
    Text.Survives (valueListing vs) ↔ ∀ b ∈ vs.bindings.toList,
      ∀ value, b.2.value = some value → Text.Survives value := by
  apply Text.survives_flatMap
  rintro ⟨name, value, exported, readOnly⟩ hb u
  have hpre : Text.AllAscii (name ++ "=".toList) :=
    Text.allAscii_append.mpr ⟨allAscii_of_isName (hnames _ hb), by decide⟩
  cases value with
  | none => exact (and_iff_right nofun).symm
  | some value =>
      simp only [Option.some.injEq, forall_eq']
      exact Text.survives_quote_between hpre (by decide) (by decide) value u

end

/-! ## The round trip -/

/-- What is listed comes back. For each flag `export -p` or `readonly -p` writes the listing, and in any
shell without variables that runs it undisturbed the variables are then the listed ones, with that flag
and their values; for `set` they have the values that are listed. As bytes a listing is read as the same
text exactly if the bytes of every listed value are read as the value. -/
theorem listings_read_back (vs : Variables)
    (hnames : ∀ b ∈ vs.bindings.toList, Text.isName b.1 = true)
    (hkeys : (vs.bindings.toList.map Prod.fst).Nodup) :
    (∀ flag : DeclareFlag,
      (∀ s : Shell, s.variables = vs → (runDeclare flag ["-p"]).startedIn s =
        (do writeOut (flaggedListing flag vs); setStatus 0 : ShellM Unit).startedIn s) ∧
      (∀ depth (s : Shell), s.variables.bindings = .empty → Unencumbered s →
        Completes (runText (evaluatorOf (depth + 2)) (flaggedListing flag vs)) s fun _ t =>
          ∀ x, t.variables.get? x = ((vs.get? x).filter flag.isOn).map fun v => flag.mark v.value) ∧
      (Text.decode (Text.encode (flaggedListing flag vs)) = flaggedListing flag vs ↔
        ∀ b ∈ vs.bindings.toList, flag.isOn b.2 = true → ∀ value, b.2.value = some value →
          Text.decode (Text.encode value) = value)) ∧
    (∀ s : Shell, s.variables = vs → (runSet []).startedIn s =
      (do writeOut (valueListing vs); setStatus 0 : ShellM Unit).startedIn s) ∧
    (∀ depth (s : Shell), s.variables.bindings = .empty → Unencumbered s →
      Completes (runText (evaluatorOf (depth + 2)) (valueListing vs)) s fun _ t =>
        ∀ x, t.value? x = vs.value? x) ∧
    (Text.decode (Text.encode (valueListing vs)) = valueListing vs ↔
      ∀ b ∈ vs.bindings.toList, ∀ value, b.2.value = some value →
        Text.decode (Text.encode value) = value) := by
  refine ⟨fun flag => ⟨?_, ?_, survives_flaggedListing hnames⟩, ?_, ?_, survives_valueListing hnames⟩
  · rintro s rfl
    rfl
  · intro depth s hempty hs
    exact completes_flaggedListing hnames hkeys hs hempty
  · rintro s rfl
    rfl
  · intro depth s hempty hs
    exact completes_valueListing hnames hkeys hs hempty

/-- Two exported variables, one of them without a value, and one that is not exported. -/
theorem listings_read_back_exported :
    Completes (runText (evaluatorOf 2) "export EDITOR='vi -e'\nexport PAGER\n") {} fun _ t =>
      t.variables.get? "EDITOR" = some { value := some "vi -e", exported := true } ∧
      t.variables.get? "HOME" = none ∧
      t.variables.get? "PAGER" = some { exported := true } := by
  let vs : Variables := { bindings := ⟨[
    ("EDITOR", { value := some "vi -e", exported := true, readOnly := true }),
    ("HOME", { value := some "/root" }), ("PAGER", { exported := true })]⟩ }
  have hlisting : flaggedListing .exported vs = "export EDITOR='vi -e'\nexport PAGER\n" := by decide
  have hback := listings_read_back vs (by decide) (by decide)
  rw [← hlisting]
  have hs : Unencumbered {} := ⟨rfl, rfl, rfl⟩
  apply ((hback.1 .exported).2.1 0 {} rfl hs).mono
  rintro - t ht
  exact ⟨ht "EDITOR", ht "HOME", ht "PAGER"⟩

/-- For a disguised quote the bytes of the listing are those for a quote, and so a quote is the value that
comes back. -/
theorem not_listings_read_back :
    Text.decode (Text.encode (flaggedListing .exported
        { bindings := ⟨[("x", { value := some Text.disguisedQuote, exported := true })]⟩ })) =
      "export x=''\\'''\n" ∧
    Completes (runText evaluator "export x=''\\'''\n") {} (fun _ t => t.value? "x" = some "'".toList) ∧
    ¬ Completes (runText evaluator "export x=''\\'''\n") {}
      (fun _ t => t.value? "x" = some Text.disguisedQuote) := by
  let vs : Variables := { bindings := ⟨[("x", { value := some "'".toList, exported := true })]⟩ }
  have hlisting : flaggedListing .exported vs = "export x=''\\'''\n" := by decide
  have hascii : Text.AllAscii "export x=''\\'''\n" := by decide
  have hbytes : Text.encode (flaggedListing .exported
      { bindings := ⟨[("x", { value := some Text.disguisedQuote, exported := true })]⟩ }) =
        Text.encode "export x=''\\'''\n" := by decide
  have hquote : Completes (runText evaluator "export x=''\\'''\n") {} fun _ t =>
      t.value? "x" = some "'".toList := by
    rw [← hlisting, show evaluator = evaluatorOf (999999998 + 2) from rfl]
    have hnames : ∀ b ∈ vs.bindings.toList, Text.isName b.1 = true := by decide
    apply (completes_flaggedListing hnames (by decide) ⟨rfl, rfl, rfl⟩ rfl).mono
    rintro - t ht
    exact congrArg (·.bind (·.value)) (ht "x")
  refine ⟨?_, hquote, fun h => ?_⟩
  · rw [hbytes]
    exact Text.survives_of_ascii hascii
  · obtain ⟨-, t, hvalue, hvalue'⟩ := (hquote.and h).exists
    exact absurd (hvalue.symm.trans hvalue') (by decide)

end CommandShell
