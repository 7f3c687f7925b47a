import CommandShell.Proofs.Reading.Characters

/-!
# Reading words and tokens takes a bounded number of steps

The functions that read words and commands call each other, so that one statement holds all of
them: with at least some steps for each unit of weight, a function ends with a value or a failure
other than a lack of steps, and a token weighs no more than what was read for it (`Suffices`). Here
its part about words and tokens is passed from `n` steps to `n + 1`.
-/

namespace CommandShell.Script

open Reader

variable {A : Table Text} {α β : Type}

/-- Of the weight `w` at least `k` was spent; a token may have been put back. -/
structure Consumes (A : Table Text) (w k : Nat) (j : Input) : Prop extends Sane A j where
  weight : j.weight + k ≤ w

/-- A token was read, and is in hand. -/
structure GotToken (A : Table Text) (w : Nat) (tk : Token) (j : Input) : Prop
    extends Lexing A j where
  weight : j.weight + tk.weight j.lvl ≤ w

/-- What pays for the parts of a word: they do themselves, or its first character will. -/
def Funded (A : Table Text) (ctx : WordContext) (ps : PartsSoFar) (k : Nat) (i : Input) : Prop :=
  ctx = .base →
    wordWeight i.lvl ps ≤ k ∨ Ready A i ∧ ∃ c, front i = some c ∧ isWordBreak c = false

/-- The parts of a word were read. -/
structure GotParts (A : Table Text) (ctx : WordContext) (i : Input) (k : Nat) (ps : List Part)
    (j : Input) : Prop extends Spends A i 0 j where
  word : ctx = .base → j.weight + wordWeight j.lvl ps ≤ i.weight + k

/-- A part was read that is no literal text. -/
structure GotPart (A : Table Text) (i : Input) (p : Part) (j : Input) : Prop
    extends Spends A i 0 j where
  part : p.Compound

/-- What a `$` stood for was read. -/
structure GotDollar (A : Table Text) (i : Input) (p : Option Part) (j : Input) : Prop
    extends Spends A i 0 j where
  part : p.elim (j.lvl = i.lvl) Part.Compound

/-- The token begins or continues a simple command. -/
def Token.InSimple (tk : Token) : Prop :=
  (∃ w, tk.kind = .word w) ∨ ∃ fd op, tk.kind = .redirect fd op

/-- A bound on the steps, by what is still to be read. -/
structure Suffices (A : Table Text) (n : Nat) : Prop where
  readParts : ∀ {ctx start depth ps k i}, Lexing A i → 20 * i.weight + 1 ≤ n →
    Funded A ctx ps k i → Ends (GotParts A ctx i k) (readParts ctx start n depth ps) i
  readDoubleQuoted : ∀ {start ps i}, Lexing A i → 20 * i.weight + 1 ≤ n →
    Ends (fun _ => Spends A i 0) (readDoubleQuoted start n ps) i
  readDollar : ∀ {q i}, Lexing A i → 20 * i.weight + 2 ≤ n →
    Ends (GotDollar A i) (readDollar n q) i
  readBracedParam : ∀ {q i}, Lexing A i → 20 * i.weight + 1 ≤ n →
    Ends (GotPart A i) (readBracedParam n q) i
  readArithmetic : ∀ {start depth ps i}, Lexing A i → 20 * i.weight + 1 ≤ n →
    Ends (fun _ => Spends A i 0) (readArithmetic start n depth ps) i
  readBackQuoted : ∀ {q start i}, Lexing A i → Bare i → 20 * i.weight + 2 ≤ n →
    Ends (GotPart A i) (readBackQuoted n q start) i
  readHereDocs : ∀ {reqs i}, Lexing A i → Bare i → 20 * (i.weight + reqs.length) + 1 ≤ n →
    Ends (fun _ => Spends A i 0) (readHereDocs n reqs) i
  readPending : ∀ {i}, Lexing A i → Bare i → 20 * i.weight + 2 ≤ n →
    Ends (fun _ => Spends A i 0) (readPending n) i
  nextToken : ∀ {i}, Sane A i → 20 * i.weight + 3 ≤ n →
    Ends (GotToken A i.weight) (nextToken n) i
  peekToken : ∀ {i}, Sane A i → 20 * i.weight + 4 ≤ n →
    Ends (fun tk j => Consumes A i.weight 0 j ∧ j.pushback = some tk) (peekToken n) i
  expectKeyword : ∀ {kw i}, Sane A i → 20 * i.weight + 4 ≤ n →
    Ends (fun _ => Consumes A i.weight 0) (expectKeyword kw n) i
  skipNewlines : ∀ {i}, Sane A i → 20 * i.weight + 5 ≤ n →
    Ends (fun _ => Consumes A i.weight 0) (skipNewlines n) i
  expandAlias : ∀ {w tk i}, GotToken A w tk i → 20 * w + 1 ≤ n →
    Ends (GotToken A w) (expandAlias n tk) i
  commandToken : ∀ {i}, Sane A i → 20 * i.weight + 4 ≤ n →
    Ends (GotToken A i.weight) (commandToken n) i
  parseTop : ∀ {i}, Sane A i → 20 * i.weight + 8 ≤ n →
    Ends (fun p j => Consumes A i.weight 0 j ∧ (p ≠ .done → Consumes A i.weight 1 j))
      (parseTop n) i
  parseAllFrom : ∀ {acc i}, Sane A i → 20 * i.weight + 9 ≤ n →
    Ends (fun _ => Consumes A i.weight 0) (parseAllFrom n acc) i
  parseSubstitution : ∀ {i}, Lexing A i → 20 * i.weight + 9 ≤ n →
    Ends (fun _ => Spends A i 0) (parseSubstitution n) i
  parseInner : ∀ {i}, Sane A i → 20 * i.weight + 8 ≤ n →
    Ends (fun _ => Consumes A i.weight 0) (parseInner n) i
  parseList : ∀ {top acc i}, Sane A i → 20 * i.weight + 7 ≤ n →
    Ends (fun _ => Consumes A i.weight 1) (parseList top n acc) i
  parseAndOr : ∀ {i}, Sane A i → 20 * i.weight + 6 ≤ n →
    Ends (fun _ => Consumes A i.weight 1) (parseAndOr n) i
  parseAndOrRest : ∀ {left i}, Sane A i → 20 * i.weight + 4 ≤ n →
    Ends (fun _ => Consumes A i.weight 0) (parseAndOrRest n left) i
  parsePipeline : ∀ {i}, Sane A i → 20 * i.weight + 5 ≤ n →
    Ends (fun _ => Consumes A i.weight 1) (parsePipeline n) i
  parseStages : ∀ {acc i}, Sane A i → 20 * i.weight + 4 ≤ n →
    Ends (fun _ => Consumes A i.weight 0) (parseStages n acc) i
  parseCommandAt : ∀ {w tk i}, GotToken A w tk i → 20 * w + 2 ≤ n →
    Ends (fun _ => Consumes A w 1) (parseCommandAt n tk) i
  closeCompound : ∀ {line body i}, Sane A i → 20 * i.weight + 5 ≤ n →
    Ends (fun _ => Consumes A i.weight 0) (closeCompound n line body) i
  parseSimple : ∀ {line assigns argv redirects w tk i}, GotToken A w tk i → 20 * w + 1 ≤ n →
    Ends (fun _ j => Consumes A w 0 j ∧ (tk.InSimple → Consumes A w 1 j))
      (parseSimple n line assigns argv redirects tk) i
  parseFunction : ∀ {name line i}, Sane A i → 20 * i.weight + 9 ≤ n →
    Ends (fun _ => Consumes A i.weight 0) (parseFunction n name line) i
  parseRedirect : ∀ {fd op i}, Sane A i → 20 * i.weight + 4 ≤ n →
    Ends (fun _ => Consumes A i.weight 0) (parseRedirect n fd op) i
  parseRedirects : ∀ {acc i}, Sane A i → 20 * i.weight + 4 ≤ n →
    Ends (fun _ => Consumes A i.weight 0) (parseRedirects n acc) i
  parseIf : ∀ {line i}, Sane A i → 20 * i.weight + 9 ≤ n →
    Ends (fun _ => Consumes A i.weight 0) (parseIf n line) i
  parseLoop : ∀ {isWhile line i}, Sane A i → 20 * i.weight + 9 ≤ n →
    Ends (fun _ => Consumes A i.weight 0) (parseLoop n isWhile line) i
  parseFor : ∀ {line i}, Sane A i → 20 * i.weight + 9 ≤ n →
    Ends (fun _ => Consumes A i.weight 0) (parseFor n line) i
  parseItems : ∀ {acc i}, Sane A i → 20 * i.weight + 4 ≤ n →
    Ends (fun _ => Consumes A i.weight 0) (parseItems n acc) i
  parseCase : ∀ {line i}, Sane A i → 20 * i.weight + 9 ≤ n →
    Ends (fun _ => Consumes A i.weight 0) (parseCase n line) i
  parseArms : ∀ {acc i}, Sane A i → 20 * i.weight + 6 ≤ n →
    Ends (fun _ => Consumes A i.weight 0) (parseArms n acc) i
  parsePatterns : ∀ {acc w tk i}, GotToken A w tk i → 20 * w + 1 ≤ n →
    Ends (fun _ => Consumes A w 1) (parsePatterns n acc tk) i

namespace Suffices

variable {n : Nat} {i : Input}

theorem readParts_succ (h : Suffices A n) {ctx : WordContext} {start depth k : Nat}
    {ps : PartsSoFar} (hi : Lexing A i) (hn : 20 * i.weight + 1 ≤ n + 1)
    (hk : Funded A ctx ps k i) :
    Ends (GotParts A ctx i k) (Script.readParts ctx start (n + 1) depth ps) i := by
  -- a character that was taken pays for any parts
  have hagain : ∀ {m ps' depth'}, Spends A i 1 m →
      (ctx = .base → m.weight + wordWeight m.lvl ps' ≤ i.weight) →
      Ends (GotParts A ctx i k) (Script.readParts ctx start n depth' ps') m := by
    intro m ps' depth' hm hword
    have hw := hm.weight
    refine (h.readParts hm.toLexing (by omega) fun _ => .inl (Nat.le_refl _)).mono fun t l hl => ?_
    refine ⟨(hm.trans hl.toSpends).le (by omega), fun hbase => ?_⟩
    have := hl.word hbase
    have := hword hbase
    omega
  unfold Script.readParts
  refine (peek_ends hi).bind fun c j hj => ?_
  cases c with
  | none =>
      refine .ite (fun _ => unterminated_ends hj.toSane) fun _ => ?_
      refine ⟨hj.spends, fun hbase => ?_⟩
      rcases hk hbase with hk | ⟨hready, c, hc, -⟩
      · rw [hj.weight, hj.lvl, wordWeight_sealed]
        omega
      · exact nomatch (hj.stays hready).trans hc
  | some c =>
      refine .ite (fun hend => ?_) fun hin => ?_
      · simp only [Bool.and_eq_true, decide_eq_true_eq] at hend
        refine ⟨hj.spends, fun hbase => ?_⟩
        rcases hk hbase with hk | ⟨hready, d, hd, hword⟩
        · rw [hj.weight, hj.lvl, wordWeight_sealed]
          omega
        · obtain rfl := Option.some.inj ((hj.stays hready).trans hd)
          exact nomatch hend.2.symm.trans hword
      have hbreak : ctx = .base → c ≠ ' ' := by
        rintro rfl rfl
        exact hin rfl
      refine hj.next_ends.bind ?_
      rintro _ l ⟨_, hl⟩
      have hlt := hl.lt
      have hlvl : ctx = .base → l.lvl = i.lvl :=
        fun hbase => hl.lvl fun h => hbreak hbase (Option.some.inj h)
      have hany : ∀ {m : Input} {ps'}, m.weight ≤ l.weight → m.lvl = l.lvl → ctx = .base →
          m.weight + wordWeight m.lvl ps' ≤ i.weight := by
        intro m ps' hm hsame hbase
        have := wordWeight_le m.lvl_pos ps'
        rw [hsame, hlvl hbase] at this ⊢
        omega
      have hliteral : ∀ {ps'}, Ends (GotParts A ctx i k)
          (Script.readParts ctx start n depth ps') l :=
        hagain hl.spends (hany (Nat.le_refl _) rfl)
      -- whatever else is read after the character
      have hmore : ∀ {m d}, Spends A l d m → Spends A i 1 m :=
        fun hm => (hl.spends.trans hm).le (by omega)
      have hcompound : ∀ {m d p}, Spends A l d m → Part.Compound p →
          Ends (GotParts A ctx i k) (Script.readParts ctx start n depth (p :: ps)) m :=
        fun hm hp => hagain (hmore hm) fun _ => by rw [hp]; exact (hmore hm).weight
      have hn' : 20 * l.weight + 2 ≤ n := by
        have := hl.spends.weight
        omega
      refine .ite (fun hclose => ?_) fun _ => ?_
      · cases depth with
        | zero =>
            refine ⟨hl.spends.le (Nat.zero_le 1), ?_⟩
            rintro rfl
            simp [WordContext.isParamArg] at hclose
        | succ depth => exact hagain hl.spends (hany (Nat.le_refl _) rfl)
      refine .ite (fun _ => hagain hl.spends (hany (Nat.le_refl _) rfl)) fun _ => ?_
      refine .ite (fun _ => ?_) fun _ => ?_
      · refine (next_ends hl.toLexing).bind fun d m hm => ?_
        have hml := hm.kept
        split
        · exact hagain (hmore hml) (hany hm.le (hm.lvl (by decide)))
        · refine .ite (fun _ => ?_) fun hkept => ?_
          · refine hagain (hmore hml) fun _ => ?_
            rw [wordWeight_escaped]
            exact (hmore hml).weight
          · refine hagain (hmore hml) ?_
            rintro rfl
            simp [WordContext.inQuotes] at hkept
        · exact hagain (hmore hml) (hany hm.le (hm.lvl (by decide)))
      refine .ite (fun _ => ?_) fun _ => ?_
      · refine (readSingleQuoted_ends hl.toLexing (by omega)).bind fun t m hm => ?_
        exact hcompound hm fun _ _ => rfl
      refine .ite (fun _ => ?_) fun _ => ?_
      · refine (h.readDoubleQuoted hl.toLexing (by omega)).bind fun t m hm => ?_
        exact hcompound hm fun _ _ => rfl
      refine .ite (fun _ => ?_) fun _ => ?_
      · refine (h.readDollar hl.toLexing hn').bind fun p m hm => ?_
        cases p with
        | some p => exact hcompound hm.toSpends hm.part
        | none => exact hagain (hmore hm.toSpends) (hany hm.weight hm.part)
      refine .ite (fun hback => ?_) fun _ => hliteral
      have hbare : Bare l := hl.outside (.inr (.inl (congrArg some hback)))
      refine (h.readBackQuoted hl.toLexing hbare hn').bind fun p m hm => ?_
      exact hcompound hm.toSpends hm.part

theorem readDoubleQuoted_succ (h : Suffices A n) {start : Nat} {ps : PartsSoFar}
    (hi : Lexing A i) (hn : 20 * i.weight + 1 ≤ n + 1) :
    Ends (fun _ => Spends A i 0) (Script.readDoubleQuoted start (n + 1) ps) i := by
  have hagain : ∀ {m ps'}, Spends A i 1 m →
      Ends (fun _ => Spends A i 0) (Script.readDoubleQuoted start n ps') m := by
    intro m ps' hm
    have hw := hm.weight
    exact hm.ends (h.readDoubleQuoted hm.toLexing (by omega)) (by omega)
  unfold Script.readDoubleQuoted
  refine (next_ends hi).bind fun c l hl => ?_
  have hmore : ∀ {c m d}, Took A i (some c) l → Spends A l d m → Spends A i 1 m :=
    fun hl hm => (hl.spends.trans hm).le (by omega)
  split
  · exact unterminated_ends hl.toSane
  · exact hl.spends.le (by omega)
  · refine (next_ends hl.toLexing).bind fun d m hm => ?_
    have hml := hmore hl hm.kept
    split
    · exact hagain hml
    · exact .ite (fun _ => hagain hml) fun _ => hagain hml
    · exact unterminated_ends hm.toSane
  · have hw := hl.spends.weight
    refine (h.readDollar hl.toLexing (by omega)).bind fun p m hm => ?_
    cases p with
    | some p => exact hagain (hmore hl hm.toSpends)
    | none => exact hagain (hmore hl hm.toSpends)
  · have hw := hl.spends.weight
    have hbare : Bare l := hl.outside (.inr (.inl rfl))
    refine (h.readBackQuoted hl.toLexing hbare (by omega)).bind fun p m hm => ?_
    exact hagain (hmore hl hm.toSpends)
  · exact hagain hl.spends

theorem readDollar_succ (h : Suffices A n) {q : Bool} (hi : Lexing A i)
    (hn : 20 * i.weight + 2 ≤ n + 1) :
    Ends (GotDollar A i) (Script.readDollar (n + 1) q) i := by
  unfold Script.readDollar
  refine (peek_ends hi).bind fun c j hj => ?_
  cases c with
  | none => exact ⟨hj.spends, hj.lvl⟩
  | some c =>
      have hmore : ∀ {l m d}, Took A i (some c) l → Spends A l d m → Spends A i 0 m :=
        fun hl hm => (hl.spends.trans hm).le (by omega)
      have hparam : ∀ {l name}, Spends A i 0 l →
          GotDollar A i (some (.param name .plain false [] q)) l := fun hl => ⟨hl, fun _ _ => rfl⟩
      refine .ite (fun _ => ?_) fun _ => ?_
      · refine hj.next_ends.bind ?_
        rintro _ l ⟨_, hl⟩
        have hw := hl.spends.weight
        refine (h.readBracedParam hl.toLexing (by omega)).bind fun p m hm => ?_
        exact ⟨hmore hl hm.toSpends, hm.part⟩
      refine .ite (fun _ => ?_) fun _ => ?_
      · refine hj.next_ends.bind ?_
        rintro _ l ⟨_, hl⟩
        have hw := hl.spends.weight
        refine optional_ends hl.toLexing (fun m hm => ?_) fun m hm => ?_
        · have hw' := hm.weight
          refine meets_line.mpr ?_
          refine (h.readArithmetic hm.toLexing (by omega)).bind fun ps o ho => ?_
          exact ⟨hmore hl (hm.trans ho), fun _ _ => rfl⟩
        · have hw' := hm.weight
          refine (h.parseSubstitution hm.toLexing (by omega)).bind fun body o ho => ?_
          exact ⟨hmore hl (hm.trans ho), fun _ _ => rfl⟩
      refine .ite (fun _ => ?_) fun _ => ?_
      · have hw := hj.weight
        refine (takeWhile_ends hj.toLexing (by omega)).bind fun t l hl => ?_
        exact hparam (hj.spends.trans hl)
      refine .ite (fun _ => ?_) fun _ => ⟨hj.spends, hj.lvl⟩
      refine hj.next_ends.bind ?_
      rintro _ l ⟨_, hl⟩
      exact hparam hl.kept

/-- What follows `${`, from the first character of the name on. -/
def readParamRest (n : Nat) (q isLength : Bool) (first : Char) : Reader Part := do
  let name ← readParamName n first
  let c ← nextOfParam
  if c = '\x7d' then
    return .param name (if isLength then .length else .plain) false [] q
  if isLength then badSubstitution
  let colon := c = ':'
  let c ← if colon then nextOfParam else pure c
  if colon && !("-=?+" : Text).contains c then badSubstitution
  let op ← readParamOp c
  let arg ← Script.readParts (.paramArg q) (← line) n 0 []
  return .param name op colon arg q

theorem readParamRest_ends (h : Suffices A n) {q isLength : Bool} {first : Char} {j : Input}
    (hj : Spends A i 1 j) (hn : 20 * i.weight + 1 ≤ n + 1) :
    Ends (GotPart A i) (readParamRest n q isLength first) j := by
  have hbad : ∀ {f : PUnit → Reader Part} {l}, Spends A i 1 l →
      Ends (GotPart A i) (badSubstitution >>= f) l := by
    intro f l hl
    have hfail : Ends (fun _ _ => False) (badSubstitution : Reader PUnit) l :=
      fail_ends hl.toSane (by decide)
    exact hfail.bind fun _ _ h => h.elim
  -- from the operator on
  have hop : ∀ {name : Text} {colon : Bool} {c l}, Spends A i 1 l →
      Ends (GotPart A i) (do
        let op ← readParamOp c
        let arg ← Script.readParts (.paramArg q) (← line) n 0 []
        return Part.param name op colon arg q) l := by
    intro name colon c l hl
    refine (readParamOp_ends hl.toLexing).bind fun op m hm => meets_line.mpr ?_
    have hm1 := hl.trans hm
    have hw := hm1.weight
    have hfunded : Funded A (.paramArg q) [] 0 m := fun h => nomatch h
    refine (h.readParts hm.toLexing (by omega) hfunded).bind fun arg o ho => ?_
    exact ⟨(hm1.trans ho.toSpends).le (by omega), fun _ _ => rfl⟩
  have hw := hj.weight
  refine (readParamName_ends hj.toLexing (by omega)).bind fun name k hk => ?_
  have hk1 := hj.trans hk
  refine (nextOfParam_ends hk.toLexing).bind fun c l hl => ?_
  have hl1 : Spends A i 1 l := (hk1.trans hl).le (by omega)
  refine .ite (fun _ => ⟨hl1.le (Nat.zero_le 1), fun _ _ => rfl⟩) fun _ => ?_
  refine .ite (fun _ => hbad hl1) fun _ => ?_
  refine .ite (fun _ => ?_) fun _ => ?_
  · refine (nextOfParam_ends hl.toLexing).bind fun d m hm => ?_
    have hm1 : Spends A i 1 m := (hl1.trans hm).le (by omega)
    refine .ite (fun _ => hbad hm1) fun _ => ?_
    exact hop hm1
  · refine .ite (fun _ => hbad hl1) fun _ => ?_
    exact hop hl1

theorem readBracedParam_succ (h : Suffices A n) {q : Bool} (hi : Lexing A i)
    (hn : 20 * i.weight + 1 ≤ n + 1) :
    Ends (GotPart A i) (Script.readBracedParam (n + 1) q) i := by
  have hrest : ∀ {isLength first j}, Spends A i 1 j →
      Ends (GotPart A i) (readParamRest n q isLength first) j :=
    fun hj => h.readParamRest_ends hj hn
  unfold Script.readBracedParam
  refine (nextOfParam_ends hi).bind fun first j hj => ?_
  refine .ite (fun _ => ?_) fun _ => hrest hj
  refine (peek_ends hj.toLexing).bind fun c k hk => ?_
  have hk1 := hj.trans hk.spends
  refine .ite (fun _ => ?_) fun _ => hrest hk1
  exact (nextOfParam_ends hk.toLexing).bind fun d l hl => hrest ((hk1.trans hl).le (by omega))

theorem readArithmetic_succ (h : Suffices A n) {start depth : Nat} {ps : PartsSoFar}
    (hi : Lexing A i) (hn : 20 * i.weight + 1 ≤ n + 1) :
    Ends (fun _ => Spends A i 0) (Script.readArithmetic start (n + 1) depth ps) i := by
  have hagain : ∀ {m depth' ps'}, Spends A i 1 m →
      Ends (fun _ => Spends A i 0) (Script.readArithmetic start n depth' ps') m := by
    intro m depth' ps' hm
    have hw := hm.weight
    exact hm.ends (h.readArithmetic hm.toLexing (by omega)) (by omega)
  unfold Script.readArithmetic
  refine (next_ends hi).bind fun c l hl => ?_
  have hmore : ∀ {c m d}, Took A i (some c) l → Spends A l d m → Spends A i 1 m :=
    fun hl hm => (hl.spends.trans hm).le (by omega)
  split
  · exact unterminated_ends hl.toSane
  · exact hagain hl.spends
  · cases depth with
    | succ depth => exact hagain hl.spends
    | zero =>
        refine (next_ends hl.toLexing).bind fun d m hm => ?_
        refine .ite (fun _ => ?_) fun _ => fail_ends hm.toSane (by decide)
        exact (hmore hl hm.kept).le (Nat.zero_le 1)
  · have hw := hl.spends.weight
    refine (h.readDollar hl.toLexing (by omega)).bind fun p m hm => ?_
    cases p with
    | some p => exact hagain (hmore hl hm.toSpends)
    | none => exact hagain (hmore hl hm.toSpends)
  · have hw := hl.spends.weight
    have hbare : Bare l := hl.outside (.inr (.inl rfl))
    refine (h.readBackQuoted hl.toLexing hbare (by omega)).bind fun p m hm => ?_
    exact hagain (hmore hl hm.toSpends)
  · refine (next_ends hl.toLexing).bind fun d m hm => ?_
    split
    · exact hagain (hmore hl hm.kept)
    · exact hagain (hmore hl hm.kept)
    · exact hagain (hmore hl hm.kept)
  · have hw := hl.spends.weight
    refine (readSingleQuoted_ends hl.toLexing (by omega)).bind fun t m hm => ?_
    exact hagain (hmore hl hm)
  · have hw := hl.spends.weight
    refine (h.readDoubleQuoted hl.toLexing (by omega)).bind fun t m hm => ?_
    exact hagain (hmore hl hm)
  · exact hagain hl.spends

theorem readBackQuoted_succ (h : Suffices A n) {q : Bool} {start : Nat} (hi : Lexing A i)
    (hb : Bare i) (hn : 20 * i.weight + 2 ≤ n + 1) :
    Ends (GotPart A i) (Script.readBackQuoted (n + 1) q start) i := by
  unfold Script.readBackQuoted
  refine meets_line.mpr (meets_get.mpr ?_)
  refine (readBackQuotedText_ends hi hb (by omega)).bind fun t j hj => meets_get.mpr ?_
  rw [hb.inUse hi.toSane]
  have hw := hj.weight
  rw [List.length_nil] at hw
  have hsub := hj.toSane.nested t i.line
  have hweight := hj.toSane.nested_weight t i.line
  have hscript : Ends _ (Script.parseAllFrom n []) _ :=
    h.parseAllFrom hsub.toSane (by omega)
  refine (withInput_ends hscript).bind ?_
  rintro a k ⟨ha, hk⟩
  have hlog := hj.toLexing.logged ha.proper
  rw [← hk] at hlog
  exact ⟨⟨hlog.toLexing, by have := hlog.weight; omega⟩, fun _ _ => rfl⟩

theorem readHereDocs_succ (h : Suffices A n) {reqs : List HereDocRequest} (hi : Lexing A i)
    (hb : Bare i) (hn : 20 * (i.weight + reqs.length) + 1 ≤ n + 1) :
    Ends (fun _ => Spends A i 0) (Script.readHereDocs (n + 1) reqs) i := by
  cases reqs with
  | nil => exact ⟨hi, Nat.le_refl _⟩
  | cons req reqs =>
      rw [List.length_cons] at hn
      unfold Script.readHereDocs
      refine meets_line.mpr (meets_get.mpr ?_)
      refine (readHereDocLines_ends hi hb (by omega)).bind fun raw j hj => meets_get.mpr ?_
      rw [hb.inUse hi.toSane]
      have hw := hj.weight
      rw [List.flatten_nil, List.length_nil] at hw
      -- the other bodies come after this one
      have hrest : ∀ {k : Input} {body}, Spends A j 0 k → Bare k →
          Ends (fun _ => Spends A i 0) (Script.readHereDocs n reqs)
            { k with bodies := body :: k.bodies } := by
        intro k body hk hbk
        have hwk := hk.weight
        have hk' : Spends A i 0 { k with bodies := body :: k.bodies } :=
          ⟨{ hk.toLexing with }, by show k.weight + 0 ≤ _; omega⟩
        have hwk' := hk'.weight
        exact hk'.ends (h.readHereDocs hk'.toLexing hbk (by omega)) (by omega)
      refine .ite (fun _ => hrest ⟨hj.toLexing, Nat.le_refl _⟩ hj.bare) fun _ => ?_
      have hsub := hj.toSane.nested raw i.line
      have hweight := hj.toSane.nested_weight raw i.line
      have hfunded : Funded A .hereDoc [] 0 (j.nested [] raw i.line) := fun h => nomatch h
      have hparts : Ends _ (Script.readParts .hereDoc i.line n 0 []) _ :=
        h.readParts hsub (by omega) hfunded
      refine (withInput_ends hparts).bind ?_
      rintro a k ⟨ha, hk⟩
      subst hk
      exact hrest (hj.toLexing.logged ha.proper) hj.bare

theorem readPending_succ (h : Suffices A n) (hi : Lexing A i) (hb : Bare i)
    (hn : 20 * i.weight + 2 ≤ n + 1) :
    Ends (fun _ => Spends A i 0) (Script.readPending (n + 1)) i := by
  unfold Script.readPending
  refine meets_get.mpr ?_
  have hw : { i with pending := [] }.weight + i.pending.length = i.weight := rfl
  have hi' : Lexing A { i with pending := [] } := { hi with }
  refine (h.readHereDocs hi' hb (by omega)).mono fun _ j hj => ?_
  exact ⟨hj.toLexing, by have := hj.weight; omega⟩

/-! ## Tokens -/

theorem endCapture_ends {Q : Text → Input → Prop} (h : ∀ t cs, Q t { i with captures := cs }) :
    Ends Q endCapture i := by
  unfold endCapture
  refine meets_get.mpr ?_
  split
  · exact h _ _
  · exact h [] i.captures

/-- A token that was put back is in hand again. -/
theorem gotToken_pushback {tk : Token} (hi : Sane A i) (hp : i.pushback = some tk) :
    GotToken A i.weight tk { i with pushback := none } := by
  refine ⟨{ hi with pushback := rfl }, ?_⟩
  show { i with pushback := none }.weight + tk.weight i.lvl ≤ i.weight
  have hlvl : { i with pushback := none }.lvl = i.lvl := rfl
  simp only [Input.weight, hlvl, hp, Option.elim]
  omega

theorem nextToken_pushback {tk : Token} (hp : i.pushback = some tk) (n : Nat) :
    (Script.nextToken (n + 1)).on i = (.ok tk, { i with pushback := none }) := by
  cases i
  cases hp
  rfl

theorem nextToken_succ (h : Suffices A n) (hi : Sane A i) (hn : 20 * i.weight + 3 ≤ n + 1) :
    Ends (GotToken A i.weight) (Script.nextToken (n + 1)) i := by
  cases hp : i.pushback with
  | some tk =>
      unfold Ends Meets
      rw [nextToken_pushback hp]
      exact gotToken_pushback hi hp
  | none =>
      have hi : Lexing A i := ⟨hi, hp⟩
      unfold Script.nextToken
      refine meets_get.mpr ?_
      rw [hp]
      refine (skipBlanks_ends hi (by omega)).bind fun _ j hj => meets_line.mpr ?_
      refine (peek_ends hj.toLexing).bind fun c k hk => ?_
      have hwj := hj.weight
      have hwk := hk.weight
      have hfront := hk.stays hj.toReady
      -- every token but a word and the end weighs one
      have hone : ∀ {m kind}, Spends A j 1 m → (∀ lvl, Token.weight lvl ⟨kind, j.line⟩ = 1) →
          GotToken A i.weight ⟨kind, j.line⟩ m := by
        intro m kind hm hkind
        have hwm := hm.weight
        exact ⟨hm.toLexing, by rw [hkind]; omega⟩
      have hredirect : ∀ {m fd}, Spends A i 0 m →
          Ends (GotToken A i.weight) (do return ⟨← readRedirectOp fd, j.line⟩) m := by
        intro m fd hm
        refine (readRedirectOp_ends hm.toLexing).bind ?_
        rintro kind l ⟨hl, op, hop⟩
        subst hop
        have hwl := (hm.trans hl).weight
        exact ⟨hl.toLexing, by show l.weight + 1 ≤ _; omega⟩
      have hoperator : ∀ {second one two c}, Peeked A j (some c) k →
          (∀ lvl, Token.weight lvl ⟨one, j.line⟩ = 1) →
          (∀ lvl, Token.weight lvl ⟨two, j.line⟩ = 1) →
          Ends (GotToken A i.weight) (do return ⟨← readOperator second one two, j.line⟩) k := by
        intro second one two c hk h1 h2
        refine (readOperator_ends hk).bind ?_
        rintro kind l ⟨hl, hkind⟩
        rcases hkind with rfl | rfl
        · exact hone hl h1
        · exact hone hl h2
      split
      · have hbare := bare_of_front hk.front_eq.symm
        refine (h.readPending hk.toLexing hbare (by omega)).bind fun _ l hl => ?_
        have hwl := hl.weight
        exact ⟨hl.toLexing, by show l.weight + 0 ≤ _; omega⟩
      · refine hk.next_ends.bind ?_
        rintro _ l ⟨_, hl⟩
        have hwl := hl.spends.weight
        have hbare : Bare l := hl.outside (.inr (.inr rfl))
        refine (h.readPending hl.toLexing hbare (by omega)).bind fun _ m hm => ?_
        exact hone (hl.spends.trans hm) fun _ => rfl
      · exact hoperator hk (fun _ => rfl) fun _ => rfl
      · exact hoperator hk (fun _ => rfl) fun _ => rfl
      · exact hoperator hk (fun _ => rfl) fun _ => rfl
      · refine hk.next_ends.bind ?_
        rintro _ l ⟨_, hl⟩
        exact hone hl.spends fun _ => rfl
      · refine hk.next_ends.bind ?_
        rintro _ l ⟨_, hl⟩
        exact hone hl.spends fun _ => rfl
      · exact hredirect ⟨hk.toLexing, by omega⟩
      · exact hredirect ⟨hk.toLexing, by omega⟩
      · rename_i c h1 h2 h3 h4 h5 h6 h7 h8
        have hword : isWordBreak c = false := by
          have h9 : c ≠ ' ' := fun h => hj.front_ne.1 (hfront ▸ congrArg some h)
          have h10 : c ≠ '\t' := fun h => hj.front_ne.2 (hfront ▸ congrArg some h)
          refine Bool.eq_false_iff.mpr fun h => ?_
          simp [isWordBreak] at h
          tauto
        have hready : Ready A { k with captures := [] :: k.captures } :=
          { hk with }
        have hfunded : Funded A .base [] 0 { k with captures := [] :: k.captures } :=
          fun _ => .inr ⟨hready, c, hk.front_eq.symm, hword⟩
        have hwk' : { k with captures := [] :: k.captures }.weight = k.weight := rfl
        have hparts : Ends _ (Script.readParts .base j.line n 0 []) _ :=
          h.readParts hready.toLexing (by omega) hfunded
        refine hparts.bind fun parts l hl => ?_
        have hwl := hl.word rfl
        refine Meets.bind
          (P := fun _ m => Lexing A m ∧ m.weight + wordWeight m.lvl parts ≤ i.weight)
          (endCapture_ends fun t cs => ?_) fun t m ⟨hm, hwm⟩ => ?_
        · refine ⟨{ hl.toLexing with }, ?_⟩
          show l.weight + wordWeight l.lvl parts ≤ i.weight
          omega
        · have htoken : ∀ {o}, Lexing A o → o.weight = m.weight → o.lvl = m.lvl →
              GotToken A i.weight ⟨.word (.mk t parts j.line), j.line⟩ o := by
            intro o ho hw hlvl
            refine ⟨ho, ?_⟩
            show o.weight + wordWeight o.lvl parts ≤ i.weight
            rw [hw, hlvl]
            exact hwm
          dsimp only
          split
          · refine (peek_ends hm).bind fun d o ho => ?_
            have hwo := ho.weight
            split
            · exact hredirect ⟨ho.toLexing, by omega⟩
            · exact hredirect ⟨ho.toLexing, by omega⟩
            · exact htoken ho.toLexing hwo ho.lvl
          · exact htoken hm rfl rfl

end Suffices

end CommandShell.Script
