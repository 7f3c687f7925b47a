import CommandShell.Proofs.Reading.Places

/-!
# Line numbers

The line counter tells how many newlines of the text were passed, at every place in it, and tokens,
commands and errors have the lines of the places where they begin (`lines_counted`). That needs aliases
without newlines in their texts, and the newlines that were dropped with the rest of a line are not
counted (`not_lines_counted`).

Words hold commands, and commands are made of words, so one statement says it of all functions that read
them (`Origin.ReadsRight`), and is passed from `n` steps to `n + 1`.
-/

namespace CommandShell.Script

open Reader

variable {α β : Type} {o : Origin} {tk : Token} {d n : Nat} {i j : Input}

namespace Origin

/-- The command that is read after its first token begins there. -/
theorem Has.begins {r : Reader Node} {node : Node} (h : o.Has tk i) (hstarts : tk.Starts n r)
    (hread : r.on i = (.ok node, j)) : o.Begins node :=
  .atToken h.hand.behind h.pushback hstarts hread .refl ((hstarts.onLine i).value hread)

/-- If the commands in it begin where they say, the whole command does. -/
theorem Has.reads_node {r : Reader Node} (h : o.Has tk i) (hstarts : tk.Starts n r)
    (hr : o.Reads o.Blames (fun node j => o.Holding j ∧ node.command.Every o.Marks false) r i) :
    o.Reads o.Blames (fun node j => o.Holding j ∧ node.Every o.Marks false) r i := by
  apply hr.with_run.mono
  rintro node j ⟨⟨hj, hnode⟩, hread⟩
  have hbegins := h.begins hstarts hread
  cases node
  exact ⟨hj, hbegins, hnode⟩

/-- With `n` steps, everything that is read begins where it says, and errors are blamed on the line
where what they are about begins. -/
structure ReadsRight (o : Origin) (n : Nat) : Prop where
  readParts : ∀ {ctx start depth ps i}, o.Vacant i → (∀ p ∈ ps, p.Every o.Marks false) →
    o.Reads (o.Strays start) (fun qs j => o.Vacant j ∧ ∀ p ∈ qs, p.Every o.Marks false)
      (readParts ctx start n depth ps) i
  readDoubleQuoted : ∀ {start ps i}, o.Vacant i → (∀ p ∈ ps, p.Every o.Marks false) →
    o.Reads (o.Strays start) (fun qs j => o.Vacant j ∧ ∀ p ∈ qs, p.Every o.Marks false)
      (readDoubleQuoted start n ps) i
  readDollar : ∀ {q i}, o.Vacant i →
    o.Reads o.Blames (fun p? j => o.Vacant j ∧ ∀ p ∈ p?, p.Every o.Marks false) (readDollar n q) i
  readBracedParam : ∀ {q i}, o.Vacant i →
    o.Reads o.Blames (fun p j => o.Vacant j ∧ p.Every o.Marks false) (readBracedParam n q) i
  readArithmetic : ∀ {start depth ps i}, o.Vacant i → (∀ p ∈ ps, p.Every o.Marks false) →
    o.Reads (o.Strays start) (fun qs j => o.Vacant j ∧ ∀ p ∈ qs, p.Every o.Marks false)
      (readArithmetic start n depth ps) i
  readBackQuoted : ∀ {q start i}, o.Vacant i →
    o.Reads (o.Strays start) (fun p j => o.Vacant j ∧ p.Every o.Marks false)
      (readBackQuoted n q start) i
  readHereDocs : ∀ {reqs i}, o.Vacant i → o.Reads o.Blames (fun _ j => o.Vacant j) (readHereDocs n reqs) i
  readPending : ∀ {i}, o.Vacant i → o.Reads o.Blames (fun _ j => o.Vacant j) (readPending n) i
  nextToken : ∀ {i}, o.Holding i → o.Reads o.Blames o.Has (nextToken n) i
  peekToken : ∀ {i}, o.Holding i → o.Reads o.Blames (fun _ j => o.Holding j) (peekToken n) i
  expectKeyword : ∀ {kw i}, o.Holding i →
    o.Reads o.Blames (fun _ j => o.Vacant j) (expectKeyword kw n) i
  skipNewlines : ∀ {i}, o.Holding i → o.Reads o.Blames (fun _ j => o.Holding j) (skipNewlines n) i
  expandAlias : ∀ {tk i}, o.Has tk i → o.Reads o.Blames o.Has (expandAlias n tk) i
  commandToken : ∀ {i}, o.Holding i → o.Reads o.Blames o.Has (commandToken n) i
  parseTop : ∀ {i}, o.Holding i →
    o.Reads o.Blames (fun p j => o.Holding j ∧ ∀ node, p = .command node → node.Every o.Marks false)
      (parseTop n) i
  parseAllFrom : ∀ {acc i}, o.Holding i → (∀ m ∈ acc, m.Every o.Marks false) →
    o.Reads o.Blames (fun ns _ => ∀ m ∈ ns, m.Every o.Marks false) (parseAllFrom n acc) i
  parseSubstitution : ∀ {i}, o.Vacant i →
    o.Reads o.Blames (fun node? j => o.Vacant j ∧ ∀ m ∈ node?, m.Every o.Marks false)
      (parseSubstitution n) i
  parseInner : ∀ {i}, o.Holding i →
    o.Reads o.Blames (fun node j => o.Holding j ∧ node.Every o.Marks false) (parseInner n) i
  parseList : ∀ {top acc i}, o.Holding i → (∀ m ∈ acc, m.Every o.Marks false) →
    o.Reads o.Blames (fun node j => o.Holding j ∧ node.Every o.Marks false) (parseList top n acc) i
  parseAndOr : ∀ {i}, o.Holding i →
    o.Reads o.Blames (fun node j => o.Holding j ∧ node.Every o.Marks false) (parseAndOr n) i
  parseAndOrRest : ∀ {left i}, o.Holding i → left.Every o.Marks false →
    o.Reads o.Blames (fun node j => o.Holding j ∧ node.Every o.Marks false) (parseAndOrRest n left) i
  parsePipeline : ∀ {i}, o.Holding i →
    o.Reads o.Blames (fun node j => o.Holding j ∧ node.Every o.Marks false) (parsePipeline n) i
  parseStages : ∀ {acc i}, o.Holding i → (∀ m ∈ acc, m.Every o.Marks false) →
    o.Reads o.Blames (fun ns j => o.Holding j ∧ ∀ m ∈ ns, m.Every o.Marks false) (parseStages n acc) i
  parseCommandAt : ∀ {tk i}, o.Has tk i →
    o.Reads o.Blames (fun node j => o.Holding j ∧ node.Every o.Marks false) (parseCommandAt n tk) i
  closeCompound : ∀ {line body i}, o.Holding i → body.Every o.Marks false →
    o.Reads o.Blames (fun node j => o.Holding j ∧ node.command.Every o.Marks false)
      (closeCompound n line body) i
  parseSimple : ∀ {line as ws rs tk i}, o.Has tk i → (∀ w ∈ as, w.Every o.Marks false) →
    (∀ w ∈ ws, w.Every o.Marks false) → (∀ r ∈ rs, r.Every o.Marks false) →
    (as = [] → ws = [] → rs = [] → tk.line = line) →
    o.Reads o.Blames (fun node j => o.Holding j ∧ node.command.Every o.Marks false)
      (parseSimple n line as ws rs tk) i
  parseFunction : ∀ {name tk i}, o.Holding i → o.Found tk → tk.kind = .word name →
    o.Reads o.Blames (fun node j => o.Holding j ∧ node.command.Every o.Marks false)
      (parseFunction n name tk.line) i
  parseRedirect : ∀ {fd op i}, o.Vacant i →
    o.Reads o.Blames (fun r j => o.Vacant j ∧ r.Every o.Marks false) (parseRedirect n fd op) i
  parseRedirects : ∀ {acc i}, o.Holding i → (∀ r ∈ acc, r.Every o.Marks false) →
    o.Reads o.Blames (fun rs j => o.Holding j ∧ ∀ r ∈ rs, r.Every o.Marks false)
      (parseRedirects n acc) i
  parseIf : ∀ {tk i}, o.Has tk i → tk.isKeyword "if" = true ∨ tk.isKeyword "elif" = true →
    o.Reads o.Blames (fun node j => o.Holding j ∧ node.Every o.Marks false) (parseIf n tk.line) i
  parseLoop : ∀ {isWhile tk i}, o.Has tk i →
    tk.isKeyword (if isWhile then "while" else "until") = true →
    o.Reads o.Blames (fun node j => o.Holding j ∧ node.Every o.Marks false)
      (parseLoop n isWhile tk.line) i
  parseFor : ∀ {tk i}, o.Has tk i → tk.isKeyword "for" = true →
    o.Reads o.Blames (fun node j => o.Holding j ∧ node.Every o.Marks false) (parseFor n tk.line) i
  parseItems : ∀ {acc i}, o.Holding i → (∀ w ∈ acc, w.Every o.Marks false) →
    o.Reads o.Blames (fun ws j => o.Holding j ∧ ∀ w ∈ ws, w.Every o.Marks false) (parseItems n acc) i
  parseCase : ∀ {tk i}, o.Has tk i → tk.isKeyword "case" = true →
    o.Reads o.Blames (fun node j => o.Holding j ∧ node.Every o.Marks false) (parseCase n tk.line) i
  parseArms : ∀ {acc i}, o.Holding i → (∀ a ∈ acc, a.Every o.Marks false) →
    o.Reads o.Blames (fun as j => o.Holding j ∧ ∀ a ∈ as, a.Every o.Marks false) (parseArms n acc) i
  parsePatterns : ∀ {acc tk i}, o.Has tk i → (∀ w ∈ acc, w.Every o.Marks false) →
    o.Reads o.Blames (fun ws j => o.Holding j ∧ ∀ w ∈ ws, w.Every o.Marks false)
      (parsePatterns n acc tk) i

namespace ReadsRight

theorem zero (o : Origin) : ReadsRight o 0 := by
  have hout : ∀ {α : Type} {Q : α → Input → Prop} {i : Input}, o.Holding i →
      o.Reads o.Blames Q outOfSteps i := fun hi => reads_outOfSteps (fun _ he => he) hi
  have hstray : ∀ {α : Type} {Q : α → Input → Prop} {start : Nat} {i : Input}, o.Vacant i →
      o.Reads (o.Strays start) Q outOfSteps i := fun hi => reads_outOfSteps (fun _ => .inl) hi.holding
  constructor
  all_goals intros
  all_goals first
    | exact hstray ‹o.Vacant _›
    | exact hout ‹o.Holding _›
    | exact hout (Vacant.holding ‹o.Vacant _›)
    | exact hout (Has.toVacant ‹o.Has _ _›).holding

variable (h : ReadsRight o n)
include h

/-! ## Words -/

theorem readParts_succ {ctx : WordContext} {start depth : Nat} {ps : PartsSoFar} (hi : o.Vacant i)
    (hps : ∀ p ∈ ps, p.Every o.Marks false) :
    o.Reads (o.Strays start) (fun qs j => o.Vacant j ∧ ∀ p ∈ qs, p.Every o.Marks false)
      (Script.readParts ctx start (n + 1) depth ps) i := by
  -- the rest of the word, with one more part or with one more character
  have hpart : ∀ {k depth' p}, o.Vacant k → p.Every o.Marks false →
      o.Reads (o.Strays start) (fun qs j => o.Vacant j ∧ ∀ p ∈ qs, p.Every o.Marks false)
        (Script.readParts ctx start n depth' (p :: ps)) k :=
    fun hk hp => h.readParts hk (List.forall_mem_cons.mpr ⟨hp, hps⟩)
  have hliteral : ∀ {k depth' c}, o.Vacant k →
      o.Reads (o.Strays start) (fun qs j => o.Vacant j ∧ ∀ p ∈ qs, p.Every o.Marks false)
        (Script.readParts ctx start n depth' (ps.literal c)) k :=
    fun hk => h.readParts hk (PartsSoFar.literal_every hps _)
  have hdone : ∀ {k}, o.Vacant k →
      o.Reads (o.Strays start) (fun qs j => o.Vacant j ∧ ∀ p ∈ qs, p.Every o.Marks false)
        (pure ps.sealed) k :=
    fun hk => ⟨hk, PartsSoFar.sealed_every hps⟩
  unfold Script.readParts
  refine (hi.reads start).bind fun c j hj => ?_
  cases c with
  | none => exact .ite (fun _ => reads_unterminated hj) fun _ => hdone hj
  | some c =>
      refine .ite (fun _ => hdone hj) fun _ => (hj.reads start).bind fun _ k hk => ?_
      refine .ite (fun _ => ?_) fun _ => .ite (fun _ => hliteral hk) fun _ => ?_
      · cases depth with
        | zero => exact hdone hk
        | succ depth => exact hliteral hk
      refine .ite (fun _ => ?_) fun _ => ?_
      · refine (hk.reads start).bind fun c l hl => ?_
        split
        · exact h.readParts hl hps
        · refine .ite (fun _ => ?_) fun _ => ?_
          · exact h.readParts hl (PartsSoFar.escaped_every hps _)
          · exact h.readParts hl (PartsSoFar.literal_every (PartsSoFar.literal_every hps _) _)
        · exact hliteral hl
      refine .ite (fun _ => (hk.reads start).bind fun t l hl => hpart hl trivial) fun _ => ?_
      refine .ite (fun _ => ?_) fun _ => .ite (fun _ => ?_) fun _ => .ite (fun _ => ?_) fun _ => hliteral hk
      · refine (h.readDoubleQuoted hk (List.forall_mem_nil _)).bind ?_
        rintro qs l ⟨hl, hqs⟩
        exact hpart hl (Part.everyOf_iff.mpr hqs)
      · refine ((h.readDollar hk).weaken fun _ => .inl).bind ?_
        rintro p l ⟨hl, hp⟩
        cases p with
        | some p => exact hpart hl (hp p rfl)
        | none => exact hliteral hl
      · refine (h.readBackQuoted hk).bind ?_
        rintro p l ⟨hl, hp⟩
        exact hpart hl hp

theorem readDoubleQuoted_succ {start : Nat} {ps : PartsSoFar} (hi : o.Vacant i)
    (hps : ∀ p ∈ ps, p.Every o.Marks false) :
    o.Reads (o.Strays start) (fun qs j => o.Vacant j ∧ ∀ p ∈ qs, p.Every o.Marks false)
      (Script.readDoubleQuoted start (n + 1) ps) i := by
  have hpart : ∀ {k p}, o.Vacant k → p.Every o.Marks false →
      o.Reads (o.Strays start) (fun qs j => o.Vacant j ∧ ∀ p ∈ qs, p.Every o.Marks false)
        (Script.readDoubleQuoted start n (p :: ps)) k :=
    fun hk hp => h.readDoubleQuoted hk (List.forall_mem_cons.mpr ⟨hp, hps⟩)
  have hliteral : ∀ {k c}, o.Vacant k →
      o.Reads (o.Strays start) (fun qs j => o.Vacant j ∧ ∀ p ∈ qs, p.Every o.Marks false)
        (Script.readDoubleQuoted start n (ps.literal c)) k :=
    fun hk => h.readDoubleQuoted hk (PartsSoFar.literal_every hps _)
  unfold Script.readDoubleQuoted
  refine (hi.reads start).bind fun c j hj => ?_
  split
  · exact reads_unterminated hj
  · exact ⟨hj, PartsSoFar.sealed_every hps⟩
  · refine (hj.reads start).bind fun c k hk => ?_
    split
    · exact h.readDoubleQuoted hk hps
    · refine .ite (fun _ => hliteral hk) fun _ => ?_
      exact h.readDoubleQuoted hk (PartsSoFar.literal_every (PartsSoFar.literal_every hps _) _)
    · exact reads_unterminated hk
  · refine ((h.readDollar hj).weaken fun _ => .inl).bind ?_
    rintro p k ⟨hk, hp⟩
    cases p with
    | some p => exact hpart hk (hp p rfl)
    | none => exact hliteral hk
  · refine (h.readBackQuoted hj).bind ?_
    rintro p k ⟨hk, hp⟩
    exact hpart hk hp
  · exact hliteral hj

theorem readDollar_succ {q : Bool} (hi : o.Vacant i) :
    o.Reads o.Blames (fun p? j => o.Vacant j ∧ ∀ p ∈ p?, p.Every o.Marks false)
      (Script.readDollar (n + 1) q) i := by
  have hsome : ∀ {k} {p : Part}, o.Vacant k → p.Every o.Marks false →
      o.Reads o.Blames (fun p? j => o.Vacant j ∧ ∀ p ∈ p?, p.Every o.Marks false) (pure (some p)) k :=
    fun hk hp => ⟨hk, fun _ h => Option.some.inj h ▸ hp⟩
  have hnone : ∀ {k}, o.Vacant k →
      o.Reads o.Blames (fun (p? : Option Part) j => o.Vacant j ∧ ∀ p ∈ p?, p.Every o.Marks false)
        (pure none) k :=
    fun hk => ⟨hk, fun _ h => nomatch h⟩
  unfold Script.readDollar
  refine hi.reads_any.bind fun c j hj => ?_
  cases c with
  | none => exact hnone hj
  | some c =>
      refine .ite (fun _ => ?_) fun _ => .ite (fun _ => ?_) fun _ => ?_
      · refine hj.reads_any.bind fun _ k hk => (h.readBracedParam hk).bind ?_
        rintro p l ⟨hl, hp⟩
        exact hsome hl hp
      · refine hj.reads_any.bind fun _ k hk => hk.reads_any.bind fun d l hl => ?_
        refine .ite (fun _ => ?_) fun _ => ?_
        · refine hl.reads_any.bind fun _ m hm => meets_line.mpr ?_
          -- the expression begins here, on the line that it is given
          refine Meets.bind (Reads.blames hm.toLocated (h.readArithmetic hm (List.forall_mem_nil _))
            fun _ _ => .arithmetic) ?_
          rintro ps p ⟨hp, hps⟩
          exact hsome hp (Part.everyOf_iff.mpr hps)
        · refine (h.parseSubstitution hl).bind ?_
          rintro body m ⟨hm, hbody⟩
          cases body with
          | none => exact hsome hm trivial
          | some body => exact hsome hm (hbody body rfl)
      · refine .ite (fun _ => hj.reads_any.bind fun t k hk => hsome hk trivial) fun _ => ?_
        exact .ite (fun _ => hj.reads_any.bind fun _ k hk => hsome hk trivial) fun _ => hnone hj

/-- What follows `${`, from the first character of the name on. -/
theorem readParamRest_reads {q isLength : Bool} {first : Char} (hi : o.Vacant i) :
    o.Reads o.Blames (fun p j => o.Vacant j ∧ p.Every o.Marks false)
      (Suffices.readParamRest n q isLength first) i := by
  have hbad : ∀ {f : PUnit → Reader Part} {k}, o.Vacant k →
      o.Reads o.Blames (fun p j => o.Vacant j ∧ p.Every o.Marks false) (badSubstitution >>= f) k :=
    fun hk => reads_fail hk.holding
  -- from the operator on: the word after it begins here, on the line that it is given
  have hop : ∀ {name : Text} {colon : Bool} {c k}, o.Vacant k →
      o.Reads o.Blames (fun p j => o.Vacant j ∧ p.Every o.Marks false) (do
        let op ← readParamOp c
        let arg ← Script.readParts (.paramArg q) (← Reader.line) n 0 []
        return Part.param name op colon arg q) k := by
    intro name colon c k hk
    refine hk.reads_any.bind fun op l hl => meets_line.mpr ?_
    refine Meets.bind (Reads.blames hl.toLocated (h.readParts hl (List.forall_mem_nil _))
      fun _ _ => .parts) ?_
    rintro arg m ⟨hm, harg⟩
    exact ⟨hm, Part.everyOf_iff.mpr harg⟩
  refine hi.reads_any.bind fun name j hj => hj.reads_any.bind fun c k hk => ?_
  refine .ite (fun _ => ⟨hk, trivial⟩) fun _ => .ite (fun _ => hbad hk) fun _ => ?_
  refine .ite (fun _ => ?_) fun _ => .ite (fun _ => hbad hk) fun _ => hop hk
  refine hk.reads_any.bind fun d l hl => ?_
  exact .ite (fun _ => hbad hl) fun _ => hop hl

theorem readBracedParam_succ {q : Bool} (hi : o.Vacant i) :
    o.Reads o.Blames (fun p j => o.Vacant j ∧ p.Every o.Marks false)
      (Script.readBracedParam (n + 1) q) i := by
  unfold Script.readBracedParam
  refine hi.reads_any.bind fun first j hj => ?_
  refine .ite (fun _ => ?_) fun _ => h.readParamRest_reads hj
  refine hj.reads_any.bind fun c k hk => ?_
  refine .ite (fun _ => ?_) fun _ => h.readParamRest_reads hk
  exact hk.reads_any.bind fun d l hl => h.readParamRest_reads hl

theorem readArithmetic_succ {start depth : Nat} {ps : PartsSoFar} (hi : o.Vacant i)
    (hps : ∀ p ∈ ps, p.Every o.Marks false) :
    o.Reads (o.Strays start) (fun qs j => o.Vacant j ∧ ∀ p ∈ qs, p.Every o.Marks false)
      (Script.readArithmetic start (n + 1) depth ps) i := by
  have hpart : ∀ {k depth' p}, o.Vacant k → p.Every o.Marks false →
      o.Reads (o.Strays start) (fun qs j => o.Vacant j ∧ ∀ p ∈ qs, p.Every o.Marks false)
        (Script.readArithmetic start n depth' (p :: ps)) k :=
    fun hk hp => h.readArithmetic hk (List.forall_mem_cons.mpr ⟨hp, hps⟩)
  have hliteral : ∀ {k depth' c}, o.Vacant k →
      o.Reads (o.Strays start) (fun qs j => o.Vacant j ∧ ∀ p ∈ qs, p.Every o.Marks false)
        (Script.readArithmetic start n depth' (ps.literal c)) k :=
    fun hk => h.readArithmetic hk (PartsSoFar.literal_every hps _)
  unfold Script.readArithmetic
  refine (hi.reads start).bind fun c j hj => ?_
  split
  · exact reads_unterminated hj
  · exact hliteral hj
  · cases depth with
    | succ depth => exact hliteral hj
    | zero =>
        refine (hj.reads start).bind fun d k hk => ?_
        refine .ite (fun _ => ⟨hk, PartsSoFar.sealed_every hps⟩) fun _ => ?_
        exact (reads_fail hk.holding).weaken fun _ => .inl
  · refine ((h.readDollar hj).weaken fun _ => .inl).bind ?_
    rintro p k ⟨hk, hp⟩
    cases p with
    | some p => exact hpart hk (hp p rfl)
    | none => exact hliteral hk
  · refine (h.readBackQuoted hj).bind ?_
    rintro p k ⟨hk, hp⟩
    exact hpart hk hp
  · refine (hj.reads start).bind fun d k hk => ?_
    split
    · exact h.readArithmetic hk hps
    · exact h.readArithmetic hk hps
    · exact h.readArithmetic hk (PartsSoFar.escaped_every hps _)
  · exact (hj.reads start).bind fun t k hk => hpart hk trivial
  · refine (h.readDoubleQuoted hj (List.forall_mem_nil _)).bind ?_
    rintro qs k ⟨hk, hqs⟩
    exact hpart hk (Part.everyOf_iff.mpr hqs)
  · exact hliteral hj

/-- The text in back-quotes is a text by itself, in which places are found too. -/
theorem readBackQuoted_succ {q : Bool} {start : Nat} (hi : o.Vacant i) :
    o.Reads (o.Strays start) (fun p j => o.Vacant j ∧ p.Every o.Marks false)
      (Script.readBackQuoted (n + 1) q start) i := by
  unfold Script.readBackQuoted
  refine meets_line.mpr (meets_get.mpr ?_)
  refine (hi.reads start).with_run.bind ?_
  rintro u j ⟨hj, hread⟩
  -- the places of the inner text begin where the quoted text was read from
  obtain ⟨S, l, d, hplace⟩ := hi.place
  have hsub := (vacant_nested (hplace.backQuoted hread)).holding
  have hscript := h.parseAllFrom hsub (List.forall_mem_nil _)
  refine meets_get.mpr (Meets.bind (reads_withInput hj (hscript.weaken fun _ => .inl)) ?_)
  rintro ⟨nodes, _⟩ k ⟨hnodes, hk⟩
  refine ⟨hk, ?_⟩
  show Part.Every o.Marks false (.command (Node.ofList nodes))
  cases hlist : Node.ofList nodes with
  | none => exact trivial
  | some node => exact Node.every_ofList (fun l r => .list l r) hnodes node hlist

/-- So is the body of a here-document. -/
theorem readHereDocs_succ {reqs : List HereDocRequest} (hi : o.Vacant i) :
    o.Reads o.Blames (fun _ j => o.Vacant j) (Script.readHereDocs (n + 1) reqs) i := by
  cases reqs with
  | nil => exact hi
  | cons req reqs =>
      have hkeep : ∀ {raw ps k}, o.Vacant k → (∀ p ∈ ps, p.Every o.Marks true) →
          o.Vacant { k with bodies := (req.ticket, .mk raw ps i.line) :: k.bodies } := by
        intro raw ps k hk hps
        obtain ⟨S, l, d, hplace⟩ := hk.place
        refine ⟨⟨⟨S, l, d, hplace.aside rfl id⟩, ?_⟩, hk.pushback⟩
        exact List.forall_mem_cons.mpr ⟨Part.everyOf_iff.mpr hps, hk.bodies⟩
      unfold Script.readHereDocs
      refine meets_line.mpr (meets_get.mpr ?_)
      refine hi.reads_any.with_run.bind ?_
      rintro raw j ⟨hj, hread⟩
      refine meets_get.mpr (.ite (fun _ => ?_) fun _ => ?_)
      · exact h.readHereDocs (hkeep hj (List.forall_mem_singleton.mpr trivial))
      obtain ⟨S, l, d, hplace⟩ := hi.place
      have hsub := vacant_nested (hplace.document hread)
      refine Meets.bind (reads_withInput hj (Reads.blames hsub.toLocated
        (h.readParts hsub (List.forall_mem_nil _)) fun _ _ hfails => .parts hfails)) ?_
      rintro ⟨ps, sub⟩ k ⟨⟨hsub', hps⟩, hk⟩
      refine h.readHereDocs (hkeep hk (Part.everyOf_iff.mp ?_))
      exact Part.EveryOf.fill (carries_marks hsub'.bodies false true) (Part.everyOf_iff.mpr hps)

theorem readPending_succ (hi : o.Vacant i) :
    o.Reads o.Blames (fun _ j => o.Vacant j) (Script.readPending (n + 1)) i := by
  unfold Script.readPending
  refine meets_get.mpr (h.readHereDocs (i := { i with pending := [] }) ?_)
  exact ⟨hi.toLocated.aside rfl id rfl, hi.pushback⟩

/-! ## Tokens -/

omit h in
theorem exists_endCapture (i : Input) : ∃ t, (endCapture.on i).1 = .ok t := by
  unfold endCapture
  rw [Reader.on_get]
  split
  · exact ⟨_, rfl⟩
  · exact ⟨_, rfl⟩

/-- A token is found where it is read. -/
theorem tokenHere_reads (hi : o.Vacant i) : o.Reads o.Blames o.Has (ReadersObey.tokenHere n) i := by
  have hword : o.Reads (o.Strays i.line) (fun tk j => o.Vacant j ∧
      ∀ w, tk.kind = .word w → w.Every o.Marks false) (ReadersObey.tokenHere n) i := by
    have hoperator : ∀ {j} {r : Reader TokenKind} [Obeys (o.wordLaw i.line) r], o.Vacant j →
        Gives TokenKind.IsOperator r → o.Reads (o.Strays i.line) (fun (tk : Token) j => o.Vacant j ∧
          ∀ w, tk.kind = .word w → w.Every o.Marks false) (do return ⟨← r, i.line⟩) j := by
      intro j r _ hj hr
      refine (hj.reads i.line).with_run.bind ?_
      rintro kind k ⟨hk, hread⟩
      exact ⟨hk, fun w hw => absurd hw (((hr j).value hread).ne_word w)⟩
    have hredirect : ∀ fd, Gives TokenKind.IsOperator (readRedirectOp fd) :=
      fun fd => gives_readRedirectOp fun _ => trivial
    have hpending : ∀ {j}, o.Vacant j →
        o.Reads (o.Strays i.line) (fun _ k => o.Vacant k) (Script.readPending n) j :=
      fun hj => (h.readPending hj).weaken fun _ => .inl
    unfold ReadersObey.tokenHere
    refine meets_line.mpr ((hi.reads i.line).bind fun c j hj => ?_)
    split
    · exact (hpending hj).bind fun _ k hk => ⟨hk, fun _ h => by cases h⟩
    · refine (hj.reads i.line).bind fun _ k hk => (hpending hk).bind fun _ l hl => ⟨hl, fun _ h => ?_⟩
      cases h
    · exact hoperator hj (gives_readOperator _ trivial trivial)
    · exact hoperator hj (gives_readOperator _ trivial trivial)
    · exact hoperator hj (gives_readOperator _ trivial trivial)
    · exact (hj.reads i.line).bind fun _ k hk => ⟨hk, fun _ h => by cases h⟩
    · exact (hj.reads i.line).bind fun _ k hk => ⟨hk, fun _ h => by cases h⟩
    · exact hoperator hj (hredirect none)
    · exact hoperator hj (hredirect none)
    · refine (hj.reads_aside fun _ => ⟨(), rfl⟩).bind ?_
      rintro _ k ⟨hk, -⟩
      refine (h.readParts hk (List.forall_mem_nil _)).bind ?_
      rintro ps l ⟨hl, hps⟩
      refine (hl.reads_aside exists_endCapture).bind ?_
      rintro t m ⟨hm, -⟩
      have hword : ∀ {p}, o.Vacant p → o.Reads (o.Strays i.line) (fun tk j => o.Vacant j ∧
          ∀ w, tk.kind = .word w → w.Every o.Marks false)
            (pure ⟨.word (.mk t ps i.line), i.line⟩ : Reader Token) p := by
        intro p hp
        refine ⟨hp, fun w hw => ?_⟩
        obtain rfl := TokenKind.word.inj hw
        exact Part.everyOf_iff.mpr hps
      dsimp only
      split
      · refine (hm.reads i.line).bind fun c p hp => ?_
        split
        · exact hoperator hp (hredirect _)
        · exact hoperator hp (hredirect _)
        · exact hword hp
      · exact hword hm
  refine (hword.blames hi.toLocated fun _ _ => .token).with_run.mono ?_
  rintro tk j ⟨⟨hj, hwords⟩, hread⟩
  obtain ⟨S, l, d, hplace⟩ := hi.place
  exact ⟨hj, ⟨S, l, d, i, n, j, hplace, hread, (tokenHere_line i).value hread, rfl⟩, hwords⟩

theorem nextToken_succ (hi : o.Holding i) : o.Reads o.Blames o.Has (Script.nextToken (n + 1)) i := by
  cases hp : i.pushback with
  | some tk =>
      unfold Reads Meets
      rw [Suffices.nextToken_pushback hp]
      have htk := hi.hand tk hp
      exact ⟨⟨hi.toLocated.aside rfl id rfl, rfl⟩, htk.behind.of_position rfl, htk.word⟩
  | none =>
      have hi : o.Vacant i := ⟨hi.toLocated, hp⟩
      unfold Reads Meets
      rw [ReadersObey.nextToken_on_fresh hp]
      exact hi.reads_any.bind fun _ j hj => h.tokenHere_reads hj

theorem peekToken_succ (hi : o.Holding i) :
    o.Reads o.Blames (fun _ j => o.Holding j) (Script.peekToken (n + 1)) i := by
  unfold Script.peekToken
  exact (h.nextToken hi).bind fun tk j hj => hj.pushed

theorem expectKeyword_succ {kw : Text} (hi : o.Holding i) :
    o.Reads o.Blames (fun _ j => o.Vacant j) (Script.expectKeyword kw (n + 1)) i := by
  unfold Script.expectKeyword
  refine (h.nextToken hi).bind fun tk j hj => ?_
  exact .ite (fun _ => hj.toVacant) fun _ => reads_unexpected hj.holding hj.hand.behind.found

theorem skipNewlines_succ (hi : o.Holding i) :
    o.Reads o.Blames (fun _ j => o.Holding j) (Script.skipNewlines (n + 1)) i := by
  unfold Script.skipNewlines
  refine (h.peekToken hi).bind fun tk j hj => .ite (fun _ => ?_) fun _ => hj
  exact (h.nextToken hj).bind fun _ k hk => h.skipNewlines hk.holding

/-- The text of an alias comes right after the token that names it. -/
theorem expandAlias_succ (hi : o.Has tk i) :
    o.Reads o.Blames o.Has (Script.expandAlias (n + 1) tk) i := by
  unfold Script.expandAlias
  cases hname : tk.literal?.filter fun name => !keywords.contains name with
  | none => exact hi
  | some name =>
      have hliteral : tk.literal? = some name := (Option.filter_eq_some_iff.mp hname).1
      have hlook := aliasText?_on name i
      generalize (if i.frames.any (fun f => f.name == name) then none else i.aliases.get? name)
        = text? at hlook
      refine meets_bind_of_ok hlook ?_
      cases text? with
      | none => exact hi
      | some text =>
          obtain ⟨S, l, d, hplace⟩ := hi.place
          -- the token is the one in hand, and reading has not moved on since it was found
          obtain ⟨S', l', d', k, m, j, hk, htk, -, hsame⟩ := hi.hand.behind
          have hpushed : o.Vacant ((pushAlias name text).on i).2 :=
            ⟨⟨⟨S, l, d, hplace.expanded hk htk hsame hliteral hlook⟩, hi.bodies⟩, hi.pushback⟩
          show o.Reads o.Blames o.Has (Script.nextToken n >>= Script.expandAlias n)
            ((pushAlias name text).on i).2
          exact (h.nextToken hpushed.holding).bind fun tk' p hp => h.expandAlias hp

theorem commandToken_succ (hi : o.Holding i) :
    o.Reads o.Blames o.Has (Script.commandToken (n + 1)) i := by
  unfold Script.commandToken
  have hblank : o.Holding (takeAliasBlank.on i).2 := hi.aside rfl (fun _ => rfl) rfl rfl
  show o.Reads o.Blames o.Has (Script.nextToken n >>= Script.expandAlias n) (takeAliasBlank.on i).2
  exact (h.nextToken hblank).bind fun tk j hj => h.expandAlias hj

/-! ## Lists -/

theorem parseTop_succ (hi : o.Holding i) :
    o.Reads o.Blames (fun p j => o.Holding j ∧ ∀ node, p = .command node → node.Every o.Marks false)
      (Script.parseTop (n + 1)) i := by
  have hstart : o.Holding (startLine.on i).2 := hi.aside rfl id rfl rfl
  unfold Script.parseTop
  refine Meets.bind (P := fun _ j => o.Holding j) hstart fun _ j hj => ?_
  refine (h.nextToken hj).bind fun tk k hk => ?_
  split
  · exact ⟨hk.holding, fun _ hp => by cases hp⟩
  · exact ⟨hk.holding, fun _ hp => by cases hp⟩
  · refine Meets.bind (P := fun _ l => o.Holding l) hk.pushed fun _ l hl => ?_
    refine (h.parseList hl (List.forall_mem_nil _)).bind ?_
    rintro node m ⟨hm, hnode⟩
    refine meets_get.mpr ⟨hm, ?_⟩
    rintro _ ⟨⟩
    exact Node.Every.fill (carries_marks hm.bodies false false) hnode

theorem parseAllFrom_succ {acc : List Node} (hi : o.Holding i)
    (hacc : ∀ m ∈ acc, m.Every o.Marks false) :
    o.Reads o.Blames (fun ns _ => ∀ m ∈ ns, m.Every o.Marks false)
      (Script.parseAllFrom (n + 1) acc) i := by
  unfold Script.parseAllFrom
  refine (h.parseTop hi).bind ?_
  rintro p j ⟨hj, hp⟩
  split
  · exact fun m hm => hacc m (List.mem_reverse.mp hm)
  · exact h.parseAllFrom hj hacc
  · exact h.parseAllFrom hj (List.forall_mem_cons.mpr ⟨hp _ rfl, hacc⟩)

theorem parseSubstitution_succ (hi : o.Vacant i) :
    o.Reads o.Blames (fun node? j => o.Vacant j ∧ ∀ m ∈ node?, m.Every o.Marks false)
      (Script.parseSubstitution (n + 1)) i := by
  unfold Script.parseSubstitution
  refine (h.skipNewlines hi.holding).bind fun _ j hj => (h.peekToken hj).bind fun tk k hk => ?_
  refine .ite (fun _ => ?_) fun _ => ?_
  · exact (h.nextToken hk).bind fun _ l hl => ⟨hl.toVacant, fun _ hm => by cases hm⟩
  · refine (h.parseInner hk).bind ?_
    rintro node l ⟨hl, hnode⟩
    refine (h.nextToken hl).bind fun tk m hm => .ite (fun _ => ?_) fun _ => ?_
    · exact ⟨hm.toVacant, fun _ h => Option.some.inj h ▸ hnode⟩
    · exact reads_unexpected hm.holding hm.hand.behind.found

theorem parseInner_succ (hi : o.Holding i) :
    o.Reads o.Blames (fun node j => o.Holding j ∧ node.Every o.Marks false)
      (Script.parseInner (n + 1)) i := by
  unfold Script.parseInner
  exact (h.skipNewlines hi).bind fun _ j hj => h.parseList hj (List.forall_mem_nil _)

theorem parseList_succ {top : Bool} {acc : List Node} (hi : o.Holding i)
    (hacc : ∀ m ∈ acc, m.Every o.Marks false) :
    o.Reads o.Blames (fun node j => o.Holding j ∧ node.Every o.Marks false)
      (Script.parseList top (n + 1) acc) i := by
  rw [parseList_eq]
  refine (h.parseAndOr hi).bind ?_
  rintro node j ⟨hj, hnode⟩
  refine (h.nextToken hj).bind fun tk k hk => ?_
  have hall : ∀ {node : Node}, node.Every o.Marks false →
      ∀ m ∈ node :: acc, m.Every o.Marks false := fun hnode => List.forall_mem_cons.mpr ⟨hnode, hacc⟩
  have hfinish : ∀ {node : Node} {l}, o.Holding l → node.Every o.Marks false →
      o.Reads o.Blames (fun node j => o.Holding j ∧ node.Every o.Marks false)
        (closeList (node :: acc)) l := by
    intro node l hl hnode
    unfold closeList
    split
    · rename_i list hlist
      refine ⟨hl, Node.every_ofList .list (fun m hm => ?_) list hlist⟩
      exact hall hnode m (List.mem_reverse.mp hm)
    · exact reads_fail hl
  -- what comes after a separator
  have hgoOn : ∀ {node : Node}, node.Every o.Marks false →
      o.Reads o.Blames (fun node j => o.Holding j ∧ node.Every o.Marks false)
        (continueList n top (node :: acc)) k := by
    intro node hnode
    refine .ite (fun _ => ?_) fun _ => ?_
    · refine (h.peekToken hk.holding).bind fun tk l hl => ?_
      split
      · exact (h.nextToken hl).bind fun _ m hm => hfinish hm.holding hnode
      · exact hfinish hl hnode
      · exact h.parseList hl (hall hnode)
    · refine (h.skipNewlines hk.holding).bind fun _ l hl => (h.peekToken hl).bind fun tk m hm => ?_
      exact .ite (fun _ => hfinish hm hnode) fun _ => h.parseList hm (hall hnode)
  split
  · exact hgoOn ⟨.background node, hnode⟩
  · exact hgoOn hnode
  · exact .ite (fun _ => hfinish hk.holding hnode) fun _ => hgoOn hnode
  · exact Meets.bind (P := fun _ l => o.Holding l) hk.pushed fun _ l hl => hfinish hl hnode
  · refine .ite (fun _ => reads_unexpected hk.holding hk.hand.behind.found) fun _ => ?_
    exact Meets.bind (P := fun _ l => o.Holding l) hk.pushed fun _ l hl => hfinish hl hnode

theorem parseAndOr_succ (hi : o.Holding i) :
    o.Reads o.Blames (fun node j => o.Holding j ∧ node.Every o.Marks false)
      (Script.parseAndOr (n + 1)) i := by
  unfold Script.parseAndOr
  refine (h.parsePipeline hi).bind ?_
  rintro first j ⟨hj, hfirst⟩
  exact h.parseAndOrRest hj hfirst

theorem parseAndOrRest_succ {left : Node} (hi : o.Holding i) (hleft : left.Every o.Marks false) :
    o.Reads o.Blames (fun node j => o.Holding j ∧ node.Every o.Marks false)
      (Script.parseAndOrRest (n + 1) left) i := by
  unfold Script.parseAndOrRest
  refine (h.nextToken hi).bind fun tk j hj => ?_
  split
  · refine (h.skipNewlines hj.holding).bind fun _ k hk => (h.parsePipeline hk).bind ?_
    rintro right l ⟨hl, hright⟩
    exact h.parseAndOrRest hl ⟨.and left right, hleft, hright⟩
  · refine (h.skipNewlines hj.holding).bind fun _ k hk => (h.parsePipeline hk).bind ?_
    rintro right l ⟨hl, hright⟩
    exact h.parseAndOrRest hl ⟨.or left right, hleft, hright⟩
  · exact Meets.bind (P := fun _ k => o.Holding k) hj.pushed fun _ k hk => ⟨hk, hleft⟩

/-! ## Pipelines -/

/-- The stages of a pipeline are in order, and so is the first one of them as a command by itself. -/
theorem readStages (negated : Bool) {line : Nat} (hi : o.Has tk i) :
    o.Reads o.Blames (fun node j => o.Holding j ∧ ∃ stages, (∀ m ∈ stages, m.Every o.Marks false) ∧
      node = if negated then .mk (.not (pipelineOf line stages)) line else pipelineOf line stages)
      (parsePipelineFrom n negated line tk) i := by
  rw [parsePipelineFrom_eq]
  refine (h.parseCommandAt hi).bind ?_
  rintro stage j ⟨hj, hstage⟩
  refine (h.parseStages hj (List.forall_mem_singleton.mpr hstage)).bind ?_
  rintro stages k ⟨hk, hstages⟩
  exact ⟨hk, stages, hstages, rfl⟩

omit h in
/-- A pipeline of one stage is that stage. -/
theorem every_pipelineOf {stages : List Node} {line : Nat}
    (hstages : ∀ m ∈ stages, m.Every o.Marks false)
    (hbegins : (pipelineOf line stages).line = line → o.Begins (pipelineOf line stages)) :
    (pipelineOf line stages).Every o.Marks false := by
  cases stages with
  | nil => exact ⟨hbegins rfl, trivial⟩
  | cons stage stages =>
      cases stages with
      | nil => exact hstages stage List.mem_cons_self
      | cons _ _ => exact ⟨hbegins rfl, Node.everyOf_iff.mpr hstages⟩

theorem parsePipeline_succ (hi : o.Holding i) :
    o.Reads o.Blames (fun node j => o.Holding j ∧ node.Every o.Marks false)
      (Script.parsePipeline (n + 1)) i := by
  rw [parsePipeline_eq]
  refine (h.commandToken hi).bind fun first j hj => .ite (fun hbang => ?_) fun hbang => ?_
  · have hrest : o.Reads o.Blames (fun node j => o.Holding j ∧ ∃ stages,
        (∀ m ∈ stages, m.Every o.Marks false) ∧
        node = .mk (.not (pipelineOf first.line stages)) first.line)
        (parseNegated n first.line) j :=
      (h.commandToken hj.holding).bind fun tk k hk => h.readStages true hk
    rw [hbang]
    refine Meets.mono hrest.with_run ?_
    rintro node k ⟨⟨hk, stages, hstages, rfl⟩, hread⟩
    -- a pipeline of several stages has the line of its `!`, not of its own first token
    refine ⟨hk, hj.begins (.negated hbang) hread, every_pipelineOf hstages ?_⟩
    exact fun hline => .afterBang hj.hand.behind hj.pushback hbang hread .refl hline
  · rw [eq_false_of_ne_true hbang]
    refine (h.readStages false hj).with_run.mono ?_
    rintro node k ⟨⟨hk, stages, hstages, rfl⟩, hread⟩
    exact ⟨hk, every_pipelineOf hstages fun _ => hj.begins .pipeline hread⟩

theorem parseStages_succ {acc : List Node} (hi : o.Holding i)
    (hacc : ∀ m ∈ acc, m.Every o.Marks false) :
    o.Reads o.Blames (fun ns j => o.Holding j ∧ ∀ m ∈ ns, m.Every o.Marks false)
      (Script.parseStages (n + 1) acc) i := by
  unfold Script.parseStages
  refine (h.nextToken hi).bind fun tk j hj => ?_
  split
  · refine (h.skipNewlines hj.holding).bind fun _ k hk => (h.commandToken hk).bind fun tk l hl => ?_
    refine (h.parseCommandAt hl).bind ?_
    rintro stage m ⟨hm, hstage⟩
    exact h.parseStages hm (List.forall_mem_cons.mpr ⟨hstage, hacc⟩)
  · refine Meets.bind (P := fun _ k => o.Holding k) hj.pushed fun _ k hk => ⟨hk, fun m hm => ?_⟩
    exact hacc m (List.mem_reverse.mp hm)

/-! ## Simple commands -/

theorem parseRedirect_succ {fd : Option Nat} {op : RedirectOp} (hi : o.Vacant i) :
    o.Reads o.Blames (fun r j => o.Vacant j ∧ r.Every o.Marks false)
      (Script.parseRedirect (n + 1) fd op) i := by
  unfold Script.parseRedirect
  refine (h.nextToken hi.holding).bind fun tk j hj => ?_
  split
  · rename_i w hw
    have hword : ∀ {r}, r = Redirect.word (fd.getD op.defaultFd) op w →
        o.Vacant j ∧ r.Every o.Marks false := fun hr => hr ▸ ⟨hj.toVacant, hj.hand.word w hw⟩
    have hdoc : ∀ strip, o.Reads o.Blames (fun (r : Redirect) j => o.Vacant j ∧ r.Every o.Marks false) (do
        let ticket ← requestHereDoc w.unquoted strip w.isQuoted
        return .hereDoc (fd.getD op.defaultFd) op (.pending ticket)) j :=
      fun strip => ⟨⟨hj.toLocated.aside rfl id rfl, hj.pushback⟩, trivial⟩
    cases op with
    | hereDoc => exact hdoc _
    | hereDocStrip => exact hdoc _
    | _ => exact hword rfl
  · exact reads_unexpected hj.holding hj.hand.behind.found

theorem parseRedirects_succ {acc : List Redirect} (hi : o.Holding i)
    (hacc : ∀ r ∈ acc, r.Every o.Marks false) :
    o.Reads o.Blames (fun rs j => o.Holding j ∧ ∀ r ∈ rs, r.Every o.Marks false)
      (Script.parseRedirects (n + 1) acc) i := by
  unfold Script.parseRedirects
  refine (h.nextToken hi).bind fun tk j hj => ?_
  split
  · refine (h.parseRedirect hj.toVacant).bind ?_
    rintro r k ⟨hk, hr⟩
    exact h.parseRedirects hk.holding (List.forall_mem_cons.mpr ⟨hr, hacc⟩)
  · refine Meets.bind (P := fun _ k => o.Holding k) hj.pushed fun _ k hk => ⟨hk, fun r hr => ?_⟩
    exact hacc r (List.mem_reverse.mp hr)

theorem closeCompound_succ {line : Nat} {body : Node} (hi : o.Holding i)
    (hbody : body.Every o.Marks false) :
    o.Reads o.Blames (fun node j => o.Holding j ∧ node.command.Every o.Marks false)
      (Script.closeCompound (n + 1) line body) i := by
  unfold Script.closeCompound
  refine (h.parseRedirects hi (List.forall_mem_nil _)).bind ?_
  rintro rs j ⟨hj, hrs⟩
  split
  · refine ⟨hj, ?_⟩
    cases body
    exact hbody.2
  · exact ⟨hj, hbody, Redirect.everyOf_iff.mpr hrs⟩

theorem parseSimple_succ {line : Nat} {as ws : List Word} {rs : List Redirect} (hi : o.Has tk i)
    (has : ∀ w ∈ as, w.Every o.Marks false) (hws : ∀ w ∈ ws, w.Every o.Marks false)
    (hrs : ∀ r ∈ rs, r.Every o.Marks false)
    (hfirst : as = [] → ws = [] → rs = [] → tk.line = line) :
    o.Reads o.Blames (fun node j => o.Holding j ∧ node.command.Every o.Marks false)
      (Script.parseSimple (n + 1) line as ws rs tk) i := by
  -- the next token, with the token in hand added to the command
  have hgoOn : ∀ {as ws rs j}, o.Holding j → (∀ w ∈ as, w.Every o.Marks false) →
      (∀ w ∈ ws, w.Every o.Marks false) → (∀ r ∈ rs, r.Every o.Marks false) →
      (as ≠ [] ∨ ws ≠ [] ∨ rs ≠ []) →
      o.Reads o.Blames (fun node j => o.Holding j ∧ node.command.Every o.Marks false) (do
        let tk ← Script.nextToken n
        if ← takeAliasBlank then
          let tk ← Script.expandAlias n tk
          Script.parseSimple n line as ws rs tk
        else Script.parseSimple n line as ws rs tk) j := by
    intro as ws rs j hj has hws hrs hne
    have hlater : ∀ {tk : Token}, as = [] → ws = [] → rs = [] → tk.line = line := by
      intro tk has hws hrs
      simp [has, hws, hrs] at hne
    refine (h.nextToken hj).bind fun tk k hk => ?_
    have hblank : o.Has tk (takeAliasBlank.on k).2 :=
      ⟨⟨hk.toLocated.aside rfl (fun _ => rfl) rfl, hk.pushback⟩,
        hk.hand.behind.of_position rfl, hk.hand.word⟩
    refine Meets.bind (P := fun _ l => o.Has tk l) hblank fun _ l hl => ?_
    refine .ite (fun _ => ?_) fun _ => h.parseSimple hl has hws hrs hlater
    exact (h.expandAlias hl).bind fun tk m hm => h.parseSimple hm has hws hrs hlater
  unfold Script.parseSimple
  dsimp only
  split
  · refine (h.parseRedirect hi.toVacant).bind ?_
    rintro r j ⟨hj, hr⟩
    refine hgoOn hj.holding has hws (List.forall_mem_cons.mpr ⟨hr, hrs⟩) ?_
    exact .inr (.inr (List.cons_ne_nil _ _))
  · rename_i w hw
    have hword := hi.hand.word w hw
    refine .ite (fun _ => ?_) fun _ => .ite (fun hnone => ?_) fun _ => ?_
    · refine hgoOn hi.holding (List.forall_mem_cons.mpr ⟨hword, has⟩) hws hrs ?_
      exact .inl (List.cons_ne_nil _ _)
    · refine (h.peekToken hi.holding).bind fun tk' j hj => .ite (fun _ => ?_) fun _ => ?_
      · simp only [Bool.and_eq_true, List.isEmpty_iff] at hnone
        have hline := hfirst hnone.1.2 hnone.1.1 hnone.2
        exact hline ▸ h.parseFunction hj hi.hand.behind.found hw
      · refine hgoOn hj has (List.forall_mem_singleton.mpr hword) hrs ?_
        exact .inr (.inl (List.cons_ne_nil _ _))
    · refine hgoOn hi.holding has (List.forall_mem_cons.mpr ⟨hword, hws⟩) hrs ?_
      exact .inr (.inl (List.cons_ne_nil _ _))
  · refine Meets.bind (P := fun _ j => o.Holding j) hi.pushed fun _ j hj => ⟨hj, ?_, ?_, ?_⟩
    · exact Word.everyOf_iff.mpr fun w hw => has w (List.mem_reverse.mp hw)
    · exact Word.everyOf_iff.mpr fun w hw => hws w (List.mem_reverse.mp hw)
    · exact Redirect.everyOf_iff.mpr fun r hr => hrs r (List.mem_reverse.mp hr)

theorem parseFunction_succ {name : Word} (hi : o.Holding i) (hfound : o.Found tk)
    (hname : tk.kind = .word name) :
    o.Reads o.Blames (fun node j => o.Holding j ∧ node.command.Every o.Marks false)
      (Script.parseFunction (n + 1) name tk.line) i := by
  unfold Script.parseFunction
  refine (h.nextToken hi).bind fun _ j hj => (h.nextToken hj.holding).bind fun tk' k hk => ?_
  refine .ite (fun _ => reads_unexpected hk.holding hk.hand.behind.found) fun _ => ?_
  split
  · exact reads_refused hk.holding hfound (.functionName hname)
  · refine (h.skipNewlines hk.holding).bind fun _ l hl => (h.commandToken hl).bind fun tk' m hm => ?_
    refine .ite (fun _ => ?_) fun _ => reads_unexpected hm.holding hm.hand.behind.found
    refine (h.parseCommandAt hm).bind ?_
    rintro body p ⟨hp, hbody⟩
    exact ⟨hp, hbody⟩

/-! ## Compound commands -/


theorem parseCommandAt_succ (hi : o.Has tk i) :
    o.Reads o.Blames (fun node j => o.Holding j ∧ node.Every o.Marks false)
      (Script.parseCommandAt (n + 1) tk) i := by
  have hclose : ∀ {r : Reader Node},
      o.Reads o.Blames (fun node j => o.Holding j ∧ node.Every o.Marks false) r i →
      o.Reads o.Blames (fun node j => o.Holding j ∧ node.command.Every o.Marks false) (do
        let body ← r
        Script.closeCompound n tk.line body) i := by
    intro r hr
    refine hr.bind ?_
    rintro body j ⟨hj, hbody⟩
    exact h.closeCompound hj hbody
  have hsimple : o.Reads o.Blames (fun node j => o.Holding j ∧ node.command.Every o.Marks false)
      (Script.parseSimple n tk.line [] [] [] tk) i :=
    h.parseSimple hi (List.forall_mem_nil _) (List.forall_mem_nil _) (List.forall_mem_nil _)
      fun _ _ _ => rfl
  have hunexpected : o.Reads o.Blames
      (fun (node : Node) j => o.Holding j ∧ node.command.Every o.Marks false) (unexpected tk) i :=
    reads_unexpected hi.holding hi.hand.behind.found
  have hparts : o.Reads o.Blames (fun node j => o.Holding j ∧ node.command.Every o.Marks false)
      (Script.parseCommandAt (n + 1) tk) i := by
    unfold Script.parseCommandAt
    dsimp only
    split
    · refine (h.parseInner hi.holding).bind ?_
      rintro body j ⟨hj, hbody⟩
      refine (h.nextToken hj).bind fun tk' k hk => .ite (fun _ => ?_) fun _ => ?_
      · exact reads_unexpected hk.holding hk.hand.behind.found
      refine (h.parseRedirects hk.holding (List.forall_mem_nil _)).bind ?_
      rintro rs l ⟨hl, hrs⟩
      exact ⟨hl, hbody, Redirect.everyOf_iff.mpr hrs⟩
    · exact hsimple
    · rename_i w hw
      split
      · exact hsimple
      · rename_i kw hkw
        have hkeyword : ∀ {kw' : Text}, kw = kw' → tk.isKeyword kw' = true := by
          rintro _ rfl
          simp [Token.isKeyword, Token.literal?, Token.word?, hw, hkw]
        refine .ite (fun heq => hclose (h.parseIf hi (.inl (hkeyword heq)))) fun _ => ?_
        refine .ite (fun heq => hclose (h.parseLoop hi (hkeyword heq))) fun _ => ?_
        refine .ite (fun heq => hclose (h.parseLoop hi (hkeyword heq))) fun _ => ?_
        refine .ite (fun heq => hclose (h.parseFor hi (hkeyword heq))) fun _ => ?_
        refine .ite (fun heq => hclose (h.parseCase hi (hkeyword heq))) fun _ => ?_
        refine .ite (fun heq => ?_) fun _ => .ite (fun _ => hunexpected) fun _ => hsimple
        have hbrace : o.Reads o.Blames (fun node j => o.Holding j ∧ node.command.Every o.Marks false)
            (parseBrace n tk.line) i := by
          refine (h.parseInner hi.holding).bind ?_
          rintro body j ⟨hj, hbody⟩
          exact (h.expectKeyword hj).bind fun _ k hk => ⟨hk.holding, hbody⟩
        have hsplit : (do
            let body ← Script.parseInner n
            Script.expectKeyword "\x7d" n
            Script.closeCompound n tk.line (.mk (.brace body) tk.line)) = (do
              let body ← parseBrace n tk.line
              Script.closeCompound n tk.line body) := by
          unfold parseBrace
          simp only [bind_assoc, pure_bind]
        rw [hsplit]
        exact hclose (hi.reads_node (.brace (hkeyword heq)) hbrace)
    · exact hunexpected
  exact hi.reads_node .command hparts

theorem parseIf_succ (hi : o.Has tk i)
    (hif : tk.isKeyword "if" = true ∨ tk.isKeyword "elif" = true) :
    o.Reads o.Blames (fun node j => o.Holding j ∧ node.Every o.Marks false)
      (Script.parseIf (n + 1) tk.line) i := by
  have hparts : o.Reads o.Blames (fun node j => o.Holding j ∧ node.command.Every o.Marks false)
      (Script.parseIf (n + 1) tk.line) i := by
    unfold Script.parseIf
    refine (h.parseInner hi.holding).bind ?_
    rintro cond j ⟨hj, hcond⟩
    refine (h.expectKeyword hj).bind fun _ k hk => (h.parseInner hk.holding).bind ?_
    rintro body l ⟨hl, hbody⟩
    refine (h.nextToken hl).bind fun tk' m hm => ?_
    refine .ite (fun helif => ?_) fun _ => .ite (fun _ => ?_) fun _ => .ite (fun _ => ?_) fun _ => ?_
    · refine (h.parseIf hm (.inr helif)).bind ?_
      rintro rest p ⟨hp, hrest⟩
      exact ⟨hp, hcond, hbody, hrest⟩
    · refine (h.parseInner hm.holding).bind ?_
      rintro rest p ⟨hp, hrest⟩
      exact (h.expectKeyword hp).bind fun _ q hq => ⟨hq.holding, hcond, hbody, hrest⟩
    · exact ⟨hm.holding, hcond, hbody⟩
    · exact reads_unexpected hm.holding hm.hand.behind.found
  exact hi.reads_node (.branches hif) hparts

theorem parseLoop_succ {isWhile : Bool} (hi : o.Has tk i)
    (hloop : tk.isKeyword (if isWhile then "while" else "until") = true) :
    o.Reads o.Blames (fun node j => o.Holding j ∧ node.Every o.Marks false)
      (Script.parseLoop (n + 1) isWhile tk.line) i := by
  have hparts : o.Reads o.Blames (fun node j => o.Holding j ∧ node.command.Every o.Marks false)
      (Script.parseLoop (n + 1) isWhile tk.line) i := by
    unfold Script.parseLoop
    refine (h.parseInner hi.holding).bind ?_
    rintro cond j ⟨hj, hcond⟩
    refine (h.expectKeyword hj).bind fun _ k hk => (h.parseInner hk.holding).bind ?_
    rintro body l ⟨hl, hbody⟩
    refine (h.expectKeyword hl).bind fun _ m hm => ⟨hm.holding, ?_⟩
    cases isWhile with
    | true => exact ⟨hcond, hbody⟩
    | false => exact ⟨hcond, hbody⟩
  exact hi.reads_node (.loop hloop) hparts

theorem parseFor_succ (hi : o.Has tk i) (hfor : tk.isKeyword "for" = true) :
    o.Reads o.Blames (fun node j => o.Holding j ∧ node.Every o.Marks false)
      (Script.parseFor (n + 1) tk.line) i := by
  have hrest : ∀ {var : Text} {items : Option (List Word)} {l}, o.Holding l →
      (∀ ws, items = some ws → ∀ w ∈ ws, w.Every o.Marks false) →
      o.Reads o.Blames (fun node j => o.Holding j ∧ node.command.Every o.Marks false) (do
        Script.skipNewlines n
        Script.expectKeyword "do" n
        let body ← Script.parseInner n
        Script.expectKeyword "done" n
        return Node.mk (.forIn var items body) tk.line) l := by
    intro var items l hl hitems
    refine (h.skipNewlines hl).bind fun _ m hm => (h.expectKeyword hm).bind fun _ p hp => ?_
    refine (h.parseInner hp.holding).bind ?_
    rintro body q ⟨hq, hbody⟩
    refine (h.expectKeyword hq).bind fun _ r hr => ⟨hr.holding, ?_⟩
    cases items with
    | none => exact hbody
    | some ws => exact ⟨Word.everyOf_iff.mpr (hitems ws rfl), hbody⟩
  have hparts : o.Reads o.Blames (fun node j => o.Holding j ∧ node.command.Every o.Marks false)
      (Script.parseFor (n + 1) tk.line) i := by
    unfold Script.parseFor
    refine (h.nextToken hi.holding).bind fun tk' j hj => ?_
    split
    · exact reads_refused hj.holding hj.hand.behind.found .loopVariable
    · refine (h.skipNewlines hj.holding).bind fun _ k hk => (h.nextToken hk).bind fun tk' l hl => ?_
      refine .ite (fun _ => ?_) fun _ => ?_
      · refine (h.parseItems hl.holding (List.forall_mem_nil _)).bind ?_
        rintro items m ⟨hm, hitems⟩
        exact hrest hm fun _ h => Option.some.inj h ▸ hitems
      · split
        · exact hrest hl.holding fun _ h => by cases h
        · refine Meets.bind (P := fun _ m => o.Holding m) hl.pushed fun _ m hm => ?_
          exact hrest hm fun _ h => by cases h
  exact hi.reads_node (.forIn hfor) hparts

theorem parseItems_succ {acc : List Word} (hi : o.Holding i)
    (hacc : ∀ w ∈ acc, w.Every o.Marks false) :
    o.Reads o.Blames (fun ws j => o.Holding j ∧ ∀ w ∈ ws, w.Every o.Marks false)
      (Script.parseItems (n + 1) acc) i := by
  unfold Script.parseItems
  refine (h.nextToken hi).bind fun tk j hj => ?_
  split
  · exact h.parseItems hj.holding (List.forall_mem_cons.mpr ⟨hj.hand.word _ ‹_›, hacc⟩)
  · exact ⟨hj.holding, fun w hw => hacc w (List.mem_reverse.mp hw)⟩
  · exact ⟨hj.holding, fun w hw => hacc w (List.mem_reverse.mp hw)⟩
  · exact reads_unexpected hj.holding hj.hand.behind.found

theorem parseCase_succ (hi : o.Has tk i) (hcase : tk.isKeyword "case" = true) :
    o.Reads o.Blames (fun node j => o.Holding j ∧ node.Every o.Marks false)
      (Script.parseCase (n + 1) tk.line) i := by
  have hparts : o.Reads o.Blames (fun node j => o.Holding j ∧ node.command.Every o.Marks false)
      (Script.parseCase (n + 1) tk.line) i := by
    unfold Script.parseCase
    refine (h.nextToken hi.holding).bind fun tk' j hj => ?_
    split
    · rename_i subject hsubject
      refine (h.skipNewlines hj.holding).bind fun _ k hk => (h.expectKeyword hk).bind fun _ l hl => ?_
      refine (h.parseArms hl.holding (List.forall_mem_nil _)).bind ?_
      rintro arms m ⟨hm, harms⟩
      exact ⟨hm, hj.hand.word subject hsubject, CaseArm.everyOf_iff.mpr harms⟩
    · exact reads_unexpected hj.holding hj.hand.behind.found
  exact hi.reads_node (.caseOf hcase) hparts

theorem parseArms_succ {acc : List CaseArm} (hi : o.Holding i)
    (hacc : ∀ a ∈ acc, a.Every o.Marks false) :
    o.Reads o.Blames (fun as j => o.Holding j ∧ ∀ a ∈ as, a.Every o.Marks false)
      (Script.parseArms (n + 1) acc) i := by
  rw [parseArms_eq]
  have hnext : ∀ {arm l}, o.Holding l → arm.Every o.Marks false →
      o.Reads o.Blames (fun as j => o.Holding j ∧ ∀ a ∈ as, a.Every o.Marks false)
        (continueArms n (arm :: acc)) l := by
    intro arm l hl harm
    have hall := List.forall_mem_cons.mpr ⟨harm, hacc⟩
    refine (h.nextToken hl).bind fun tk m hm => .ite (fun _ => ?_) fun _ => ?_
    · exact ⟨hm.holding, fun a ha => hall a (List.mem_reverse.mp ha)⟩
    · split
      · exact h.parseArms hm.holding hall
      · exact reads_unexpected hm.holding hm.hand.behind.found
  have harm : ∀ {tk l}, o.Has tk l →
      o.Reads o.Blames (fun as j => o.Holding j ∧ ∀ a ∈ as, a.Every o.Marks false)
        (parseArmFrom n acc tk) l := by
    intro tk l hl
    refine (h.parsePatterns hl (List.forall_mem_nil _)).bind ?_
    rintro patterns m ⟨hm, hpatterns⟩
    have hwords := Word.everyOf_iff.mpr hpatterns
    refine (h.skipNewlines hm).bind fun _ p hp => (h.peekToken hp).bind fun peeked q hq => ?_
    split
    · exact hnext hq hwords
    · refine .ite (fun _ => hnext hq hwords) fun _ => (h.parseInner hq).bind ?_
      rintro body r ⟨hr, hbody⟩
      exact hnext hr ⟨hwords, hbody⟩
  refine (h.skipNewlines hi).bind fun _ j hj => (h.nextToken hj).bind fun tk k hk => ?_
  refine .ite (fun _ => ?_) fun _ => .ite (fun _ => ?_) fun _ => harm hk
  · exact ⟨hk.holding, fun a ha => hacc a (List.mem_reverse.mp ha)⟩
  · exact (h.nextToken hk.holding).bind fun tk' l hl => harm hl

theorem parsePatterns_succ {acc : List Word} (hi : o.Has tk i)
    (hacc : ∀ w ∈ acc, w.Every o.Marks false) :
    o.Reads o.Blames (fun ws j => o.Holding j ∧ ∀ w ∈ ws, w.Every o.Marks false)
      (Script.parsePatterns (n + 1) acc tk) i := by
  unfold Script.parsePatterns
  split
  · rename_i w hw
    have hall := List.forall_mem_cons.mpr ⟨hi.hand.word w hw, hacc⟩
    refine (h.nextToken hi.holding).bind fun separator j hj => ?_
    split
    · exact (h.nextToken hj.holding).bind fun tk' k hk => h.parsePatterns hk hall
    · exact ⟨hj.holding, fun v hv => hall v (List.mem_reverse.mp hv)⟩
    · exact reads_unexpected hj.holding hj.hand.behind.found
  · exact reads_unexpected hi.holding hi.hand.behind.found

theorem succ : ReadsRight o (n + 1) where
  readParts := h.readParts_succ
  readDoubleQuoted := h.readDoubleQuoted_succ
  readDollar := h.readDollar_succ
  readBracedParam := h.readBracedParam_succ
  readArithmetic := h.readArithmetic_succ
  readBackQuoted := h.readBackQuoted_succ
  readHereDocs := h.readHereDocs_succ
  readPending := h.readPending_succ
  nextToken := h.nextToken_succ
  peekToken := h.peekToken_succ
  expectKeyword := h.expectKeyword_succ
  skipNewlines := h.skipNewlines_succ
  expandAlias := h.expandAlias_succ
  commandToken := h.commandToken_succ
  parseTop := h.parseTop_succ
  parseAllFrom := h.parseAllFrom_succ
  parseSubstitution := h.parseSubstitution_succ
  parseInner := h.parseInner_succ
  parseList := h.parseList_succ
  parseAndOr := h.parseAndOr_succ
  parseAndOrRest := h.parseAndOrRest_succ
  parsePipeline := h.parsePipeline_succ
  parseStages := h.parseStages_succ
  parseCommandAt := h.parseCommandAt_succ
  closeCompound := h.closeCompound_succ
  parseSimple := h.parseSimple_succ
  parseFunction := h.parseFunction_succ
  parseRedirect := h.parseRedirect_succ
  parseRedirects := h.parseRedirects_succ
  parseIf := h.parseIf_succ
  parseLoop := h.parseLoop_succ
  parseFor := h.parseFor_succ
  parseItems := h.parseItems_succ
  parseCase := h.parseCase_succ
  parseArms := h.parseArms_succ
  parsePatterns := h.parsePatterns_succ

end ReadsRight

/-- Everything that is read begins where it says, and errors are blamed on the lines where what they
are about begins. -/
theorem readsRight (o : Origin) (n : Nat) : o.ReadsRight n := by
  induction n with
  | zero => exact .zero o
  | succ n ih => exact ih.succ

theorem firstToken_reads (o : Origin) (n : Nat) (hi : o.Holding i) :
    o.Reads o.Blames o.Behind (firstToken n) i := by
  have hstart : o.Holding (startLine.on i).2 := hi.aside rfl id rfl rfl
  refine Meets.bind (P := fun _ j => o.Holding j) hstart fun _ j hj => ?_
  refine ((o.readsRight (n + 3)).nextToken hj).bind fun tk k hk => ?_
  refine Meets.bind (P := fun _ l => o.Holding l) hk.pushed fun _ l hl => ?_
  exact ((o.readsRight n).commandToken hl).mono fun _ _ hm => hm.hand.behind

/-! ## Sequences of calls -/

/-- After the calls so far reading is at a place in the text. -/
theorem Walked.holding (h : o.Walked i d) : o.Holding i := by
  induction h with
  | start => exact Vacant.holding ⟨⟨⟨_, _, _, .between .start⟩, List.forall_mem_nil _⟩, rfl⟩
  | @token i j d r _ hread ih =>
      have hcall := (o.readsRight i.stepBound).nextToken ih
      rw [readToken_on] at hread
      unfold Reads Meets at hcall
      rw [hread] at hcall
      cases r with
      | ok tk => exact hcall.holding
      | error e => exact hcall.2
  | @command i j d r _ hread ih =>
      have hcall := (o.readsRight i.stepBound).parseTop ih
      rw [parseCommand_on] at hread
      unfold Reads Meets at hcall
      rw [hread] at hcall
      cases r with
      | ok p => exact hcall.1
      | error e => exact hcall.2
  | dropped h ih =>
      exact Vacant.holding ⟨⟨⟨_, _, _, .between h.dropped⟩, ih.bodies⟩, rfl⟩

end Origin

theorem exists_stepBound (i : Input) : ∃ n, i.stepBound = n + 4 := by
  apply Nat.exists_eq_add_of_le'
  unfold Input.stepBound
  dsimp only
  omega

/-- A call was made. -/
theorem Origin.Walked.called (h : o.Walked i d) : o.Walked (parseCommand.on i).2 d :=
  .command h rfl

end CommandShell.Script
