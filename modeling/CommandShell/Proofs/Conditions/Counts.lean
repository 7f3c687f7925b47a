import CommandShell.Proofs.Conditions
import CommandShell.Proofs.Surroundings

/-!
# Short conditions

Up to four words need no grammar: their number says what they are, whatever the operands look like
(`byCount`). The readers of `condition` are made for rows of any length and decide by what stands next
to a word, so that the two can differ.

`condition_byCount` tells where they do. A word that wants another one after it (`Leads`) takes the
closing parenthesis for its operand, and `!` before a comparison operator is no negation, though there
is no second operand to compare. These rows are listed in `Misread`: there the count gives a value and
`condition` complains. For every other row they agree, with the same calls and the same results. Where
the count gives a complaint, `condition` has another text for it now and then.
-/

namespace CommandShell

open Host (Call Program)

/-- A call that looks at a file or at a descriptor, and changes nothing. -/
def Host.Call.looks : Call → Bool
  | .fileStatus .. | .access .. | .isTerminal _ => true
  | _ => false

/-- A program that only looks comes to a result. -/
theorem Host.Program.comes_of_looks {α : Type} {p : Program α}
    (hp : p.OnlyAsks fun c => c.looks = true) : ∃ es a, p.Comes es (.done a) := by
  have hreply : ∀ c : Call, c.looks = true → Nonempty (Host.Reply c) := by
    intro c hc
    cases c with
    | fileStatus path follow => exact ⟨.error .unknown⟩
    | access path permission => exact ⟨.error .unknown⟩
    | isTerminal fd => exact ⟨false⟩
    | _ => exact nomatch hc
  induction p with
  | done a => exact ⟨[], a, .here _⟩
  | call c k ih =>
      obtain ⟨r⟩ := hreply c hp.1
      obtain ⟨es, a, h⟩ := ih r (hp.2 r)
      exact ⟨⟨c, r⟩ :: es, a, .step h⟩

namespace Commands

open Shell

variable {α β : Type}

/-! ## What comes of a test -/

/-- A value of which `P` holds, or a complaint about the arguments if `c` allows it. -/
inductive Verdict (c : Prop) (P : α → Prop) : Except Stop α → Prop where
  | value {a : α} (h : P a) : Verdict c P (.ok a)
  | complaint (what : Text) (h : c) : Verdict c P (.error (.fault (.usage what) none))

/-- Every run does nothing but look, leaves the shell as it is and comes to a verdict. -/
structure Judges (c : Prop) (P : α → Prop) (x : ShellM α) : Prop where
  looks : OnlyAsks (fun call => call.looks = true) x
  always : ∀ s, (x.startedIn s).Always fun r => r.2 = s ∧ Verdict c P r.1

/-- Every run complains about the arguments. -/
abbrev Complains (x : ShellM α) : Prop := Judges True (fun _ => False) x

/-- Every run comes to a value. -/
abbrev Decides (x : ShellM α) : Prop := Judges False (fun _ => True) x

/-- The same program, or complaints on both sides. -/
def Agrees (x y : ShellM α) : Prop := x = y ∨ Complains x ∧ Complains y

namespace Judges

variable {c d : Prop} {P : α → Prop} {Q : β → Prop} {x : ShellM α}

protected theorem mono {P' : α → Prop} (h : Judges c P x) (hc : c → d) (hP : ∀ a, P a → P' a) :
    Judges d P' x := by
  refine ⟨h.looks, fun s => (h.always s).mono ?_⟩
  rintro ⟨r, t⟩ ⟨ht, hr⟩
  cases hr with
  | value ha => exact ⟨ht, .value (hP _ ha)⟩
  | complaint what h => exact ⟨ht, .complaint what (hc h)⟩

protected theorem pure {a : α} (h : P a) : Judges c P (pure a : ShellM α) :=
  ⟨.pure a, fun _ => ⟨rfl, .value h⟩⟩

protected theorem fail (what : Text) (h : c) : Judges c P (fail (.usage what) : ShellM α) :=
  ⟨.throw _, fun _ => ⟨rfl, .complaint what h⟩⟩

protected theorem ask {call : Call} (h : call.looks = true) :
    Judges c (fun _ => True) (ask call) :=
  ⟨.ask h, fun _ _ => ⟨rfl, .value trivial⟩⟩

protected theorem bind {f : α → ShellM β} (hx : Judges c P x) (hf : ∀ a, P a → Judges c Q (f a)) :
    Judges c Q (x >>= f) := by
  constructor
  · intro s
    refine Host.Program.OnlyAsks.bind_always ?_ (hx.looks s) (hx.always s)
    rintro ⟨r, t⟩ ⟨-, hr⟩
    cases hr with
    | value ha => exact (hf _ ha).looks t
    | complaint what h => exact trivial
  · intro s
    refine (Host.Program.always_bind _ _).mpr ((hx.always s).mono ?_)
    rintro ⟨r, t⟩ ⟨ht, hr⟩
    cases ht
    cases hr with
    | value ha => exact (hf _ ha).always t
    | complaint what h => exact ⟨rfl, .complaint what h⟩

/-- There is a run, so that a test does not both complain and come to a value. -/
theorem not_decides (hx : Complains x) : ¬ Decides x := by
  intro h
  obtain ⟨es, ⟨r, t⟩, hr⟩ := Host.Program.comes_of_looks (hx.looks {})
  obtain ⟨-, hc⟩ := (hx.always {}).of_comes hr
  obtain ⟨-, hd⟩ := (h.always {}).of_comes hr
  cases hc with
  | value hfalse => exact hfalse
  | complaint what _ =>
      cases hd with
      | complaint _ hfalse => exact hfalse

end Judges

theorem Complains.bind {x : ShellM α} (h : Complains x) (f : α → ShellM β) : Complains (x >>= f) :=
  Judges.bind h fun _ => False.elim

/-! ## Operators -/

/-- A word that spells an operator between two operands. -/
abbrev IsBinary (w : Text) : Prop := (BinaryTest.ofText? w).isSome = true

/-- A word that another one has to follow. -/
def Leads (w : Text) : Prop := w = ['!'] ∨ w = ['('] ∨ (UnaryTest.ofText? w).isSome = true

/-- Operators that compare numbers. -/
def BinaryTest.IsNumeric (op : BinaryTest) : Prop :=
  op ∈ [.eq, .ne, .gt, .ge, .lt, .le]

section

variable {c : Prop}

theorem judges_fileStatus (path : Text) (follow : Bool) :
    Judges c (fun _ => True) (fileStatus path follow) := by
  unfold fileStatus statusAt
  cases pathBytes? path with
  | none => exact .pure trivial
  | some bs =>
      have hlooks : (Host.Call.fileStatus bs follow).looks = true := rfl
      exact .ask hlooks

theorem judges_fileHas (path : Text) (follow : Bool) (p : Host.FileStatus → Bool) :
    Judges c (fun _ => True) (fileHas path follow p) := by
  apply Judges.bind (judges_fileStatus path follow)
  intro status _
  cases status with
  | ok st => exact .pure trivial
  | error e => exact .pure trivial

theorem judges_canAccess (path : Text) (permission : Host.Permission) :
    Judges c (fun _ => True) (canAccess path permission) := by
  unfold canAccess
  cases pathBytes? path with
  | none => exact .pure trivial
  | some bs => exact Judges.bind (.ask rfl) fun _ _ => .pure trivial

theorem judges_compareFiles (p : Option Host.FileStatus → Option Host.FileStatus → Bool)
    (a b : Text) : Judges c (fun _ => True) (compareFiles p a b) := by
  apply Judges.bind (judges_fileStatus a true)
  intro x _
  apply Judges.bind (judges_fileStatus b true)
  intro y _
  exact .pure trivial

theorem judges_testNumber (t : Text) (hc : c) : Judges c (fun _ => True) (testNumber t) := by
  unfold testNumber
  cases Numeral.int64? (Text.trim t) with
  | none => exact .fail _ hc
  | some n => exact .pure trivial

theorem judges_compareNumbers (p : Int → Int → Bool) (a b : Text) (hc : c) :
    Judges c (fun _ => True) (compareNumbers p a b) := by
  apply Judges.bind (judges_testNumber a hc)
  intro x _
  apply Judges.bind (judges_testNumber b hc)
  intro y _
  exact .pure trivial

theorem judges_isTerminal (n : Int) : Judges c (fun _ => True) (isTerminal n) := by
  cases n with
  | ofNat fd =>
      by_cases hfd : fd < 0x80000000
      · simp only [isTerminal, if_pos hfd]
        have hlooks : (Host.Call.isTerminal fd).looks = true := rfl
        exact .ask hlooks
      · simp only [isTerminal, if_neg hfd]
        exact .pure trivial
  | negSucc m => exact .pure trivial

end

/-- Only the test for a terminal may complain about its operand. -/
theorem UnaryTest.judges_eval (op : UnaryTest) (arg : Text) :
    Judges (op = .terminal) (fun _ => True) (op.eval arg) := by
  cases op with
  | nonEmpty => exact .pure trivial
  | empty => exact .pure trivial
  | readable => exact judges_canAccess arg .read
  | writable => exact judges_canAccess arg .write
  | executable => exact judges_canAccess arg .execute
  | terminal => exact (judges_testNumber arg rfl).bind fun n _ => judges_isTerminal n
  | _ => exact judges_fileHas arg _ _

/-- Only comparisons of numbers may complain about their operands. -/
theorem BinaryTest.judges_eval (op : BinaryTest) (a b : Text) :
    Judges op.IsNumeric (fun _ => True) (op.eval a b) := by
  unfold eval
  cases op with
  | same => exact .pure trivial
  | different => exact .pure trivial
  | newer => exact judges_compareFiles _ a b
  | older => exact judges_compareFiles _ a b
  | sameFile => exact judges_compareFiles _ a b
  | _ => exact judges_compareNumbers _ a b (by simp [IsNumeric])

/-- What spells a comparison is no sign, no other operator and no number. -/
theorem BinaryTest.word_cases {w : Text} {op : BinaryTest} (h : BinaryTest.ofText? w = some op) :
    w ≠ ['!'] ∧ w ≠ ['('] ∧ UnaryTest.ofText? w = none ∧ Numeral.int64? (Text.trim w) = none := by
  simp only [ofText?, Option.map_eq_some_iff] at h
  obtain ⟨e, he, -⟩ := h
  have hw := List.find?_some he
  have hmem := List.mem_of_find?_eq_some he
  rw [beq_iff_eq] at hw
  subst hw
  have hall : ∀ e ∈ table, e.1.toList ≠ ['!'] ∧ e.1.toList ≠ ['('] ∧
      UnaryTest.ofText? e.1.toList = none ∧ Numeral.int64? (Text.trim e.1.toList) = none := by
    decide
  exact hall e hmem

/-- A comparison of numbers complains about an operand that spells a comparison. -/
theorem BinaryTest.complains_eval {op : BinaryTest} (hop : op.IsNumeric) {a : Text}
    (ha : Numeral.int64? (Text.trim a) = none) (b : Text) : Complains (op.eval a b) := by
  -- the first operand is looked at first, whatever the comparison
  have hfail : ∀ p, Complains (compareNumbers p a b) := by
    intro p
    simp only [compareNumbers, testNumber, ha]
    exact Complains.bind (.fail _ trivial) _
  cases op with
  | eq => exact hfail _
  | ne => exact hfail _
  | gt => exact hfail _
  | ge => exact hfail _
  | lt => exact hfail _
  | le => exact hfail _
  | _ => simp [IsNumeric] at hop

/-- The test for a terminal complains about an operand that spells a comparison. -/
theorem UnaryTest.complains_eval_terminal {arg : Text}
    (h : Numeral.int64? (Text.trim arg) = none) : Complains (UnaryTest.terminal.eval arg) := by
  show Complains (testNumber arg >>= _)
  simp only [testNumber, h]
  exact Complains.bind (.fail _ trivial) _

/-! ## What the number of words says -/

/-- The opposite of a test. -/
def negated (x : ShellM Bool) : ShellM Bool := return !(← x)

/-- A word has to be there. -/
def ruleOne (a : Text) : ShellM Bool := return !a.isEmpty

/-- A property of the second word. -/
def unaryTest (op arg : Text) : ShellM Bool :=
  match UnaryTest.ofText? op with
  | some op => op.eval arg
  | none => fail (.usage (op ++ ": unexpected operator"))

/-- Two words. -/
def ruleTwo (a b : Text) : ShellM Bool :=
  if a = ['!'] then negated (ruleOne b) else unaryTest a b

/-- Three words, if they are a condition. -/
def ruleThree (a b c : Text) : Option (ShellM Bool) :=
  match BinaryTest.ofText? b with
  | some op => some (op.eval a c)
  | none =>
    if a = ['!'] then some (negated (ruleTwo b c))
    else if a = ['('] ∧ c = [')'] then some (ruleOne b)
    else none

/-- Four words, if they are a condition. -/
def ruleFour (a b c d : Text) : Option (ShellM Bool) :=
  if a = ['!'] then (ruleThree b c d).map negated
  else if a = ['('] ∧ d = [')'] then some (ruleTwo b c)
  else none

/-- What the number of words says of a condition, if it says something. -/
def byCount : List Text → Option (ShellM Bool)
  | [] => some (pure false)
  | [a] => some (ruleOne a)
  | [a, b] => some (ruleTwo a b)
  | [a, b, c] => ruleThree a b c
  | [a, b, c, d] => ruleFour a b c d
  | _ => none

/-- Rows of words that are read otherwise than their number says. -/
inductive Misread : List Text → Prop where
  /-- The second `!` looks for an operand, or is taken for one. -/
  | notNot {a : Text} (h : a = ['!'] ∨ IsBinary a) : Misread [['!'], ['!'], a]
  /-- The closing parenthesis is taken for an operand. -/
  | enclosed {a : Text} (h : Leads a) : Misread [['('], a, [')']]
  | enclosedNot {a : Text} (h : Leads a ∨ IsBinary a) : Misread [['('], ['!'], a, [')']]
  | enclosedUnary {a b : Text} {op : UnaryTest} (ha : UnaryTest.ofText? a = some op)
      (hop : op ≠ .terminal) (hb : IsBinary b) : Misread [['('], a, b, [')']]
  /-- `!` is taken for the first operand of the first of two comparisons. -/
  | notComparison {a b c : Text} {op : BinaryTest} (ha : IsBinary a)
      (hb : BinaryTest.ofText? b = some op) (hop : ¬ op.IsNumeric) : Misread [['!'], a, b, c]
  | not {a b c : Text} (h : Misread [a, b, c]) : Misread [['!'], a, b, c]

/-! ## Readers of few words -/

/-- A test, with the words after it. -/
def leaving (x : ShellM Bool) (rest : List Text) : Condition := x >>= fun v => pure (v, rest)

/-- A reader complains, or leaves that many words. -/
abbrev Leaves (k : Nat) (x : Condition) : Prop := Judges True (fun p => p.2.length = k) x

theorem Complains.leaves {x : Condition} (h : Complains x) (k : Nat) : Leaves k x :=
  Judges.mono h id fun _ => False.elim

/-- A reader takes the whole row for a test, or leaves a word of it and the test complains. -/
def Confirms (y : Condition) (x : ShellM Bool) : Prop :=
  y = leaving x [] ∨ Leaves 1 y ∧ Complains x

section

variable {n k : Nat} {a b c w : Text} {x : ShellM Bool} {rest args : List Text}

theorem leaves_leaving {d : Prop} (h : Judges d (fun _ => True) x) (rest : List Text) :
    Leaves rest.length (leaving x rest) := by
  have hx : Judges True (fun _ => True) x := h.mono (fun _ => trivial) fun _ h => h
  exact hx.bind fun _ _ => .pure rfl

theorem complains_negation_nil (n : Nat) : Complains (negation (n + 2) []) := by
  rw [negation_plain (.inl (by simp))]
  exact Judges.fail _ trivial

theorem leaves_conjunctionRest (h : rest.length ≤ 1) (v : Bool) (n : Nat) :
    Leaves rest.length (conjunctionRest (n + 3) v rest) := by
  by_cases hsign : rest.head? = some ['-', 'a']
  · obtain ⟨rest, rfl⟩ := List.head?_eq_some_iff.mp hsign
    obtain rfl : rest = [] := by simpa using h
    rw [conjunctionRest_sign]
    exact (complains_negation_nil n).bind _ |>.leaves _
  · rw [conjunctionRest_stop hsign]
    exact .pure rfl

theorem leaves_disjunctionRest (h : rest.length ≤ 1) (v : Bool) (n : Nat) :
    Leaves rest.length (disjunctionRest (n + 4) v rest) := by
  by_cases hsign : rest.head? = some ['-', 'o']
  · obtain ⟨rest, rfl⟩ := List.head?_eq_some_iff.mp hsign
    obtain rfl : rest = [] := by simpa using h
    rw [disjunctionRest_sign, conjunction_succ]
    exact ((complains_negation_nil n).bind _).bind _ |>.leaves _
  · rw [disjunctionRest_stop hsign]
    exact .pure rfl

/-- No connective can follow a row that leaves one word at most. -/
theorem Leaves.disjunction (hk : k ≤ 1) (h : Leaves k (negation (n + 3) args)) :
    Leaves k (disjunction (n + 5) args) := by
  have hconjunction : Leaves k (conjunction (n + 4) args) := by
    apply Judges.bind h
    rintro ⟨v, rest⟩ rfl
    exact leaves_conjunctionRest hk v n
  apply Judges.bind hconjunction
  rintro ⟨v, rest⟩ rfl
  exact leaves_disjunctionRest hk v n

theorem disjunction_of_leaving (h : negation (n + 1) args = leaving x rest)
    (hand : rest.head? ≠ some ['-', 'a']) (hor : rest.head? ≠ some ['-', 'o']) :
    disjunction (n + 3) args = leaving x rest := by
  rw [disjunction_succ, conjunction_succ, h]
  simp only [leaving, bind_assoc, pure_bind, conjunctionRest_stop hand, disjunctionRest_stop hor]

/-! ### A row from its first words -/

theorem negation_binary {op : BinaryTest} (h : BinaryTest.ofText? w = some op) (n : Nat) :
    negation (n + 2) (a :: w :: b :: rest) = leaving (op.eval a b) rest := by
  have hfollows : binaryFollows (a :: w :: b :: rest) = true := by
    simp [binaryFollows, h]
  rw [negation_plain (.inr hfollows), primary_binary h]
  rfl

theorem negation_unary {op : UnaryTest} (hop : UnaryTest.ofText? a = some op)
    (h : StandsAlone w rest) (n : Nat) :
    negation (n + 2) (a :: w :: rest) = leaving (op.eval w) rest := by
  have ha : (a :: w :: rest).head? ≠ some ['!'] := by
    rintro ha
    obtain rfl := Option.some.inj ha
    cases hop
  rw [negation_plain (.inl ha), primary_unary hop h]
  rfl

theorem negation_word (hleads : ¬ Leads a) (h : StandsAlone w rest) (n : Nat) :
    negation (n + 2) (a :: w :: rest) = leaving (ruleOne a) (w :: rest) := by
  simp only [Leads, not_or, Bool.not_eq_true, Option.isSome_eq_false_iff,
    Option.isNone_iff_eq_none] at hleads
  obtain ⟨hnot, hparen, hop⟩ := hleads
  rw [negation_plain (.inl (by simpa using hnot)), primary_plain hparen hop h]
  rfl

theorem negation_negated (h : negation n (w :: args) = leaving x rest)
    (hw : BinaryTest.ofText? w = none) :
    negation (n + 1) (['!'] :: w :: args) = leaving (negated x) rest := by
  rw [negation_not (by simp [binaryFollows, hw]), h]
  simp only [leaving, negated, bind_assoc, pure_bind]

theorem leaves_negated (h : Leaves k (negation n (w :: args))) (hw : BinaryTest.ofText? w = none) :
    Leaves k (negation (n + 1) (['!'] :: w :: args)) := by
  rw [negation_not (by simp [binaryFollows, hw])]
  exact Judges.bind h fun p hp => .pure hp

theorem negation_enclosed (h : StandsAlone w rest) (n : Nat) :
    negation (n + 2) (['('] :: w :: rest) =
      disjunction n (w :: rest) >>= fun p => closeParen p.1 p.2 := by
  rw [negation_plain (.inl (by simp)), primary_enclosed h]

theorem negation_closes (h : disjunction n (w :: rest) = leaving x ([')'] :: args))
    (hw : StandsAlone w rest) :
    negation (n + 2) (['('] :: w :: rest) = leaving x args := by
  rw [negation_enclosed hw, h]
  simp only [leaving, bind_assoc, pure_bind, closeParen]

theorem complains_enclosed (h : Leaves 0 (disjunction n (w :: rest))) (hw : StandsAlone w rest) :
    Complains (negation (n + 2) (['('] :: w :: rest)) := by
  rw [negation_enclosed hw]
  apply Judges.bind h
  rintro ⟨v, rest⟩ hrest
  obtain rfl := List.eq_nil_of_length_eq_zero hrest
  exact Judges.fail _ trivial

/-! ### One word -/

theorem negation_single (hw : w ≠ ['!']) (n : Nat) :
    negation (n + 2) [w] = leaving (ruleOne w) [] := by
  rw [negation_plain (.inl (by simpa using hw))]
  rfl

theorem complains_negation_not (n : Nat) : Complains (negation (n + 3) [['!']]) := by
  rw [negation_not rfl]
  exact (complains_negation_nil n).bind _

theorem decides_ruleOne (w : Text) : Decides (ruleOne w) := .pure trivial

theorem leaves_negation_single (w : Text) (n : Nat) : Leaves 0 (negation (n + 3) [w]) := by
  by_cases hw : w = ['!']
  · subst hw
    exact (complains_negation_not n).leaves 0
  · rw [negation_single hw]
    exact leaves_leaving (decides_ruleOne w) []

/-! ### A word before the closing parenthesis -/

theorem standsAlone_close (args : List Text) : StandsAlone [')'] args := .inl rfl

theorem negation_closed (h : ¬ Leads a) (n : Nat) :
    negation (n + 2) [a, [')']] = leaving (ruleOne a) [[')']] :=
  negation_word h (standsAlone_close []) n

theorem leaves_negation_closed (h : Leads a) (n : Nat) :
    Leaves 0 (negation (n + 7) [a, [')']]) := by
  rcases h with rfl | rfl | hop
  · exact leaves_negated (leaves_negation_single _ _) rfl
  -- `(` finds the closing parenthesis where its condition should be, and then none to close it
  · refine (complains_enclosed ?_ (standsAlone_close [])).leaves 0
    exact (leaves_negation_single _ _).disjunction (Nat.zero_le 1)
  · obtain ⟨op, hop⟩ := Option.isSome_iff_exists.mp hop
    rw [negation_unary hop (standsAlone_close [])]
    exact leaves_leaving (op.judges_eval _) []

theorem disjunction_closed (h : ¬ Leads a) (n : Nat) :
    disjunction (n + 4) [a, [')']] = leaving (ruleOne a) [[')']] :=
  disjunction_of_leaving (negation_closed h _) (by simp) (by simp)

/-! ### Two words -/

theorem Decides.negated (h : Decides x) : Decides (negated x) := Judges.bind h fun _ _ => .pure trivial

theorem Complains.negated (h : Complains x) : Complains (negated x) := h.bind _

theorem ruleTwo_unary {op : UnaryTest} (h : UnaryTest.ofText? a = some op) (b : Text) :
    ruleTwo a b = op.eval b := by
  have ha : a ≠ ['!'] := by
    rintro rfl
    cases h
  simp only [ruleTwo, if_neg ha, unaryTest, h]

theorem complains_ruleTwo (ha : a ≠ ['!']) (hop : UnaryTest.ofText? a = none) (b : Text) :
    Complains (ruleTwo a b) := by
  simp only [ruleTwo, if_neg ha, unaryTest, hop]
  exact .fail _ trivial

/-- `!` before a word that is `!` or a comparison operator is read as a word. -/
theorem leaves_negation_not (h : b = ['!'] ∨ IsBinary b) (n : Nat) :
    Leaves 1 (negation (n + 4) [['!'], b]) := by
  rcases h with rfl | hb
  · exact leaves_negated ((complains_negation_not n).leaves 1) rfl
  · have hfollows : binaryFollows [['!'], b] = true := hb
    rw [negation_plain (.inr hfollows), primary_plain (by simp) rfl (.inr rfl)]
    exact .pure rfl

/-- Two words are what their number says, unless a `!` begins them that is read as a word. -/
theorem confirms_two (h : ¬ (a = ['!'] ∧ (b = ['!'] ∨ IsBinary b))) (n : Nat) :
    Confirms (negation (n + 7) [a, b]) (ruleTwo a b) := by
  by_cases ha : a = ['!']
  · subst ha
    simp only [true_and, not_or, Bool.not_eq_true, Option.isSome_eq_false_iff,
      Option.isNone_iff_eq_none] at h
    exact .inl (negation_negated (negation_single h.1 _) h.2)
  · cases hop : UnaryTest.ofText? a with
    | some op =>
        rw [ruleTwo_unary hop]
        exact .inl (negation_unary hop (.inr rfl) _)
    | none =>
        refine .inr ⟨?_, complains_ruleTwo ha hop b⟩
        by_cases hparen : a = ['(']
        · subst hparen
          refine (complains_enclosed ?_ (.inr rfl)).leaves 1
          exact (leaves_negation_single b n).disjunction (Nat.zero_le 1)
        · have hleads : ¬ Leads a := by simp [Leads, ha, hparen, hop]
          rw [negation_word hleads (.inr rfl)]
          exact leaves_leaving (decides_ruleOne a) [b]

/-! ### Two words before the closing parenthesis -/

/-- A comparison, or a `!` before a word that wants another one, takes the closing parenthesis. -/
theorem leaves_disjunction_not (h : Leads a ∨ IsBinary a) (n : Nat) :
    Leaves 0 (disjunction (n + 10) [['!'], a, [')']]) := by
  refine Leaves.disjunction (Nat.zero_le 1) ?_
  cases ha : BinaryTest.ofText? a with
  | some op =>
      rw [negation_binary ha]
      exact leaves_leaving (op.judges_eval _ _) []
  | none =>
      have hleads : Leads a := by simpa [IsBinary, ha] using h
      exact leaves_negated (leaves_negation_closed hleads n) ha

theorem leaves_disjunction_binary (h : IsBinary b) (n : Nat) :
    Leaves 0 (disjunction (n + 5) [a, b, [')']]) := by
  obtain ⟨op, hop⟩ := Option.isSome_iff_exists.mp h
  refine Leaves.disjunction (Nat.zero_le 1) ?_
  rw [negation_binary hop]
  exact leaves_leaving (op.judges_eval _ _) []

theorem leaves_disjunction_closed (h : Leads a) (n : Nat) :
    Leaves 0 (disjunction (n + 9) [a, [')']]) :=
  (leaves_negation_closed h n).disjunction (Nat.zero_le 1)

theorem leaves_disjunction_paren (hb : BinaryTest.ofText? b = none) (n : Nat) :
    Leaves 0 (disjunction (n + 13) [['('], b, [')']]) := by
  refine Leaves.disjunction (Nat.zero_le 1) ?_
  by_cases hleads : Leads b
  · exact (complains_enclosed (leaves_disjunction_closed hleads n) (.inl hb)).leaves 0
  · rw [negation_closes (disjunction_closed hleads _) (.inl hb)]
    exact leaves_leaving (decides_ruleOne b) []

/-- A word that wants nothing is a condition, and a second one after it can only be a connective. -/
theorem judges_disjunction_word (h : ¬ Leads a) (hb : BinaryTest.ofText? b = none) (n : Nat) :
    Judges True (fun p => p.2 = [] ∨ p.2 = [b, [')']]) (disjunction (n + 5) [a, b, [')']]) := by
  have hclose : ∀ n, negation (n + 2) [[')']] = pure (true, []) :=
    fun n => negation_single (by simp) n
  rw [disjunction_succ, conjunction_succ, negation_word h (.inl hb)]
  simp only [leaving, ruleOne, pure_bind]
  by_cases hand : b = ['-', 'a']
  · subst hand
    rw [conjunctionRest_sign, hclose, pure_bind, conjunctionRest_stop (by simp), pure_bind,
      disjunctionRest_stop (by simp)]
    exact .pure (.inl rfl)
  · rw [conjunctionRest_stop (by simpa using hand), pure_bind]
    by_cases hor : b = ['-', 'o']
    · subst hor
      rw [disjunctionRest_sign, conjunction_succ, hclose, pure_bind,
        conjunctionRest_stop (by simp), pure_bind, disjunctionRest_stop (by simp)]
      exact .pure (.inl rfl)
    · rw [disjunctionRest_stop (by simpa using hor)]
      exact .pure (.inr rfl)

theorem leaves_enclosed_word (h : ¬ Leads a) (ha : BinaryTest.ofText? a = none)
    (hb : BinaryTest.ofText? b = none) (n : Nat) :
    Leaves 1 (negation (n + 7) [['('], a, b, [')']]) := by
  rw [negation_enclosed (.inl ha)]
  apply Judges.bind (judges_disjunction_word h hb n)
  rintro ⟨v, rest⟩ (hrest | hrest)
  · dsimp only at hrest
    subst hrest
    exact .fail _ trivial
  · dsimp only at hrest
    subst hrest
    -- what is left is `b )`, which closes the parentheses if `b` does
    by_cases hclose : b = [')']
    · subst hclose
      exact .pure rfl
    · have hfail : closeParen v [b, [')']] = fail (.usage "closing paren expected") := by
        unfold closeParen
        split
        · rename_i heq
          cases heq
        · rename_i heq
          cases heq
          exact absurd rfl hclose
        · rfl
      rw [hfail]
      exact .fail _ trivial

/-- Two words in parentheses are what their number says, unless one of them takes the closing one. -/
theorem confirms_enclosed_two (hnot : ¬ (a = ['!'] ∧ (Leads b ∨ IsBinary b)))
    (hunary : ∀ op, UnaryTest.ofText? a = some op → IsBinary b → op = .terminal) (n : Nat) :
    Confirms (negation (n + 15) [['('], a, b, [')']]) (ruleTwo a b) := by
  cases ha : BinaryTest.ofText? a with
  | some op =>
      -- `(` is the first operand of a comparison
      obtain ⟨hsign, -, hop, -⟩ := BinaryTest.word_cases ha
      refine .inr ⟨?_, complains_ruleTwo hsign hop b⟩
      rw [negation_binary ha]
      exact leaves_leaving (op.judges_eval _ _) [[')']]
  | none =>
      by_cases hsign : a = ['!']
      · subst hsign
        simp only [true_and, not_or, Bool.not_eq_true, Option.isSome_eq_false_iff,
          Option.isNone_iff_eq_none] at hnot
        refine .inl (negation_closes ?_ (.inl ha))
        refine disjunction_of_leaving ?_ (by simp) (by simp)
        exact negation_negated (negation_closed hnot.1 _) hnot.2
      · cases hop : UnaryTest.ofText? a with
        | some op =>
            -- a property of `b`, unless `b` is an operator that takes the parenthesis for its operand
            rw [ruleTwo_unary hop]
            cases hb : BinaryTest.ofText? b with
            | none =>
                refine .inl (negation_closes ?_ (.inl ha))
                exact disjunction_of_leaving (negation_unary hop (.inl hb) _) (by simp) (by simp)
            | some op' =>
                have hbinary : IsBinary b := by simp [IsBinary, hb]
                obtain rfl := hunary op hop hbinary
                refine .inr ⟨?_, UnaryTest.complains_eval_terminal (BinaryTest.word_cases hb).2.2.2⟩
                exact (complains_enclosed (leaves_disjunction_binary hbinary _) (.inl ha)).leaves 1
        | none =>
            -- two words of which the first is no operator are no condition, also in parentheses
            refine .inr ⟨?_, complains_ruleTwo hsign hop b⟩
            cases hb : BinaryTest.ofText? b with
            | some op =>
                have hbinary : IsBinary b := by simp [IsBinary, hb]
                exact (complains_enclosed (leaves_disjunction_binary hbinary _) (.inl ha)).leaves 1
            | none =>
                by_cases hparen : a = ['(']
                · subst hparen
                  exact (complains_enclosed (leaves_disjunction_paren hb n) (.inl ha)).leaves 1
                · have hleads : ¬ Leads a := by simp [Leads, hsign, hparen, hop]
                  exact leaves_enclosed_word hleads ha hb _

/-! ### Whole conditions -/

theorem condition_of_leaving {r : List Text} (hnot : w = ['!'] → r ≠ [])
    (h : ∀ n, negation (n + 16) (w :: b :: r) = leaving x []) : condition (w :: b :: r) = x := by
  obtain ⟨n, hn⟩ : ∃ n, conditionBound (w :: b :: r) = n + 18 :=
    ⟨6 * r.length, by simp only [conditionBound, List.length_cons]; omega⟩
  rw [condition_eq hnot, hn, disjunction_of_leaving (h n) (by simp) (by simp)]
  simp only [leaving, bind_assoc, pure_bind, endCondition, bind_pure]

theorem complains_condition {r : List Text} (hnot : w = ['!'] → r ≠ [])
    (h : ∀ n, Leaves 1 (negation (n + 16) (w :: b :: r))) : Complains (condition (w :: b :: r)) := by
  obtain ⟨n, hn⟩ : ∃ n, conditionBound (w :: b :: r) = n + 18 :=
    ⟨6 * r.length, by simp only [conditionBound, List.length_cons]; omega⟩
  rw [condition_eq hnot, hn]
  apply Judges.bind (Leaves.disjunction (Nat.le_refl 1) (h n))
  rintro ⟨v, rest⟩ hrest
  obtain ⟨extra, rfl⟩ := List.length_eq_one_iff.mp hrest
  exact Judges.fail _ trivial

theorem Confirms.negated (h : Confirms (negation n (w :: args)) x)
    (hw : BinaryTest.ofText? w = none) :
    Confirms (negation (n + 1) (['!'] :: w :: args)) (negated x) := by
  rcases h with h | ⟨hleaves, hx⟩
  · exact .inl (negation_negated h hw)
  · exact .inr ⟨leaves_negated hleaves hw, hx.negated⟩

theorem agrees_of_confirms {r : List Text} (hnot : w = ['!'] → r ≠ [])
    (h : ∀ n, Confirms (negation (n + 16) (w :: b :: r)) x) : Agrees (condition (w :: b :: r)) x := by
  -- the number of steps is only known in `condition`, so the case is chosen before `n` is
  by_cases hx : Complains x
  · refine .inr ⟨complains_condition hnot fun n => ?_, hx⟩
    rcases h n with hread | ⟨hleaves, -⟩
    · rw [hread]
      exact (hx.bind _).leaves 1
    · exact hleaves
  · refine .inl (condition_of_leaving hnot fun n => ?_)
    rcases h n with hread | ⟨-, hcomplains⟩
    · exact hread
    · exact absurd hcomplains hx

/-! ### What is not misread -/

theorem Leads.ofText?_eq_none (h : Leads a) : BinaryTest.ofText? a = none := by
  cases ha : BinaryTest.ofText? a with
  | none => rfl
  | some op =>
      obtain ⟨hnot, hparen, hop, -⟩ := BinaryTest.word_cases ha
      simp [Leads, hnot, hparen, hop] at h

theorem confirms_three (hm : ¬ Misread [a, b, c]) (h : ruleThree a b c = some x) (n : Nat) :
    Confirms (negation (n + 15) [a, b, c]) x := by
  unfold ruleThree at h
  cases hb : BinaryTest.ofText? b with
  | some op =>
      -- a comparison comes first, both by the number of words and for the readers
      rw [hb] at h
      obtain rfl := Option.some.inj h
      exact .inl (negation_binary hb _)
  | none =>
      simp only [hb] at h
      by_cases ha : a = ['!']
      · rw [if_pos ha] at h
        obtain rfl := Option.some.inj h
        subst ha
        -- the negated two words are read as two words are, as `b` is no operator
        refine Confirms.negated (confirms_two ?_ _) hb
        rintro ⟨rfl, hc⟩
        exact hm (.notNot hc)
      · rw [if_neg ha] at h
        by_cases hparens : a = ['('] ∧ c = [')']
        · rw [if_pos hparens] at h
          obtain rfl := Option.some.inj h
          obtain ⟨rfl, rfl⟩ := hparens
          have hleads : ¬ Leads b := fun hleads => hm (.enclosed hleads)
          exact .inl (negation_closes (disjunction_closed hleads _) (.inl hb))
        · rw [if_neg hparens] at h
          cases h

theorem agrees_two (a b : Text) : Agrees (condition [a, b]) (ruleTwo a b) := by
  by_cases ha : a = ['!']
  · subst ha
    refine .inl ?_
    show pure b.isEmpty = (pure !(!b.isEmpty) : ShellM Bool)
    rw [Bool.not_not]
  · refine agrees_of_confirms (fun h => absurd h ha) fun n => confirms_two ?_ _
    rintro ⟨h, -⟩
    exact ha h

theorem agrees_three (hm : ¬ Misread [a, b, c]) (h : ruleThree a b c = some x) :
    Agrees (condition [a, b, c]) x :=
  agrees_of_confirms (fun _ => List.cons_ne_nil _ _) fun _ => confirms_three hm h _

theorem agrees_four {d : Text} (hm : ¬ Misread [a, b, c, d]) (h : ruleFour a b c d = some x) :
    Agrees (condition [a, b, c, d]) x := by
  unfold ruleFour at h
  by_cases ha : a = ['!']
  · rw [if_pos ha] at h
    obtain ⟨y, hy, rfl⟩ := Option.map_eq_some_iff.mp h
    subst ha
    cases hb : BinaryTest.ofText? b with
    | none =>
        refine agrees_of_confirms (fun _ => List.cons_ne_nil _ _) fun n => ?_
        exact (confirms_three (fun hthree => hm (.not hthree)) hy _).negated hb
    | some op =>
        -- `! b c` is a comparison, and `d` is left; so the rest has to complain as well
        obtain ⟨hnot, hparen, -, hnumber⟩ := BinaryTest.word_cases hb
        refine .inr ⟨complains_condition (fun _ => List.cons_ne_nil _ _) fun n => ?_, ?_⟩
        · rw [negation_binary hb]
          exact leaves_leaving (op.judges_eval _ _) [d]
        · unfold ruleThree at hy
          cases hc : BinaryTest.ofText? c with
          | none => simp [hc, hnot, hparen] at hy
          | some op' =>
              rw [hc] at hy
              obtain rfl := Option.some.inj hy
              by_cases hop : op'.IsNumeric
              · exact (BinaryTest.complains_eval hop hnumber d).negated
              · exact absurd (.notComparison (by simp [IsBinary, hb]) hc hop) hm
  · rw [if_neg ha] at h
    by_cases hparens : a = ['('] ∧ d = [')']
    · rw [if_pos hparens] at h
      obtain rfl := Option.some.inj h
      obtain ⟨rfl, rfl⟩ := hparens
      refine agrees_of_confirms (fun _ => List.cons_ne_nil _ _) fun n => ?_
      apply confirms_enclosed_two
      · rintro ⟨rfl, hc⟩
        exact hm (.enclosedNot hc)
      · intro op hop hc
        by_cases hterminal : op = .terminal
        · exact hterminal
        · exact absurd (.enclosedUnary hop hterminal hc) hm
    · rw [if_neg hparens] at h
      cases h

/-! ### What is misread -/

theorem Misread.leaves_three (h : Misread [a, b, c]) (n : Nat) :
    BinaryTest.ofText? a = none ∧ Leaves 1 (negation (n + 15) [a, b, c]) := by
  cases h with
  | notNot h => exact ⟨rfl, leaves_negated (leaves_negation_not h _) rfl⟩
  | enclosed h =>
      refine ⟨rfl, ?_⟩
      exact (complains_enclosed (leaves_disjunction_closed h _) (.inl h.ofText?_eq_none)).leaves 1

theorem Misread.complains (h : Misread args) : Complains (condition args) := by
  cases h with
  | notNot h =>
      exact complains_condition (fun _ => List.cons_ne_nil _ _) fun n =>
        ((Misread.notNot h).leaves_three _).2
  | enclosed h =>
      exact complains_condition (fun _ => List.cons_ne_nil _ _) fun n =>
        ((Misread.enclosed h).leaves_three _).2
  | enclosedNot h =>
      refine complains_condition (fun _ => List.cons_ne_nil _ _) fun n => ?_
      exact (complains_enclosed (leaves_disjunction_not h _) (.inl rfl)).leaves 1
  | @enclosedUnary a b op ha hop hb =>
      have hleads : Leads a := .inr (.inr (by simp [ha]))
      have hstands : StandsAlone a [b, [')']] := .inl hleads.ofText?_eq_none
      refine complains_condition (fun _ => List.cons_ne_nil _ _) fun n => ?_
      exact (complains_enclosed (leaves_disjunction_binary hb _) hstands).leaves 1
  | @notComparison a b c op ha hb hop =>
      obtain ⟨op', hop'⟩ := Option.isSome_iff_exists.mp ha
      refine complains_condition (fun _ => List.cons_ne_nil _ _) fun n => ?_
      rw [negation_binary hop']
      exact leaves_leaving (op'.judges_eval _ _) [c]
  | not h =>
      refine complains_condition (fun _ => List.cons_ne_nil _ _) fun n => ?_
      obtain ⟨hfirst, hleaves⟩ := h.leaves_three n
      exact leaves_negated hleaves hfirst

theorem Misread.decides_three (h : Misread [a, b, c]) (hx : ruleThree a b c = some x) : Decides x := by
  cases h with
  | notNot h =>
      obtain rfl := Option.some.inj hx
      exact (decides_ruleOne _).negated.negated
  | enclosed h =>
      simp only [ruleThree, h.ofText?_eq_none] at hx
      obtain rfl := Option.some.inj hx
      exact decides_ruleOne _

theorem Misread.decides (h : Misread args) (hx : byCount args = some x) : Decides x := by
  cases h with
  | notNot h => exact (Misread.notNot h).decides_three hx
  | enclosed h => exact (Misread.enclosed h).decides_three hx
  | enclosedNot h =>
      obtain rfl := Option.some.inj hx
      exact (decides_ruleOne _).negated
  | @enclosedUnary a b op ha hop hb =>
      obtain rfl := Option.some.inj hx
      rw [ruleTwo_unary ha]
      exact (op.judges_eval b).mono (fun h => hop h) fun _ h => h
  | @notComparison a b c op ha hb hop =>
      have hthree : ruleThree a b c = some (op.eval a c) := by simp [ruleThree, hb]
      simp only [byCount, ruleFour, hthree] at hx
      obtain rfl := Option.some.inj hx
      exact Decides.negated ((op.judges_eval a c).mono (fun h => hop h) fun _ h => h)
  | not h =>
      obtain ⟨y, hy, rfl⟩ := Option.map_eq_some_iff.mp hx
      exact (h.decides_three hy).negated

end

/-- Up to four words are decided as their number says, except for those that are misread: there the
number gives a value, and `condition` complains. -/
theorem condition_byCount {args : List Text} {x : ShellM Bool} (h : byCount args = some x) :
    (Agrees (condition args) x ↔ ¬ Misread args) ∧
      (Misread args → Complains (condition args) ∧ Decides x) := by
  have hmisread : Misread args → Complains (condition args) ∧ Decides x :=
    fun hm => ⟨hm.complains, hm.decides h⟩
  refine ⟨⟨?_, ?_⟩, hmisread⟩
  · intro hagrees hm
    obtain ⟨hcomplains, hdecides⟩ := hmisread hm
    -- a test with a value is no complaint, so the two cannot agree
    rcases hagrees with heq | ⟨-, hx⟩
    · exact hcomplains.not_decides (heq ▸ hdecides)
    · exact hx.not_decides hdecides
  · intro hm
    match args, h with
    | [], h => exact .inl (Option.some.inj h)
    | [a], h => exact .inl (Option.some.inj h)
    | [a, b], h =>
        obtain rfl := Option.some.inj h
        exact agrees_two a b
    | [a, b, c], h => exact agrees_three hm h
    | [a, b, c, d], h => exact agrees_four hm h
    | _ :: _ :: _ :: _ :: _ :: _, h => cases h

/-- `! ( -a )` is false, as there is a word `-a`. -/
theorem condition_byCount_enclosed :
    byCount [['!'], ['('], ['-', 'a'], [')']] = some (negated (ruleOne ['-', 'a'])) ∧
      Agrees (condition [['!'], ['('], ['-', 'a'], [')']]) (negated (ruleOne ['-', 'a'])) := by
  have hcount : byCount [['!'], ['('], ['-', 'a'], [')']] = some (negated (ruleOne ['-', 'a'])) := rfl
  refine ⟨hcount, (condition_byCount hcount).1.mpr fun h => ?_⟩
  cases h with
  | notComparison ha _ _ => cases ha
  | not h =>
      cases h with
      | enclosed h => simp [Leads, show UnaryTest.ofText? ['-', 'a'] = none from rfl] at h

/-- `! ! =` is true by its number, as it says twice that `=` is not empty. It is no condition for the
shell. -/
theorem not_condition_byCount :
    ¬ ∀ args x, byCount args = some x → Agrees (condition args) x := by
  intro hall
  have hagrees := hall [['!'], ['!'], ['=']] (negated (ruleTwo ['!'] ['='])) rfl
  have hdecides : Decides (negated (ruleTwo ['!'] ['='])) := .pure trivial
  have hcomplains : condition [['!'], ['!'], ['=']] = fail (.usage "=: unexpected operator") := rfl
  rcases hagrees with heq | ⟨-, hx⟩
  · rw [← heq, hcomplains] at hdecides
    exact Judges.not_decides (.fail _ trivial) hdecides
  · exact hx.not_decides hdecides

end Commands

end CommandShell
