import CommandShell.Proofs.Trees.CommandLines

/-!
# Laws of reading

All text that a script is read from goes through few operations: a character is looked at, taken or
put back, and the text of an alias is started. Everything else that the functions of the grammar do
leaves the text alone (`Aside`). So what these operations obey, and sequences of readers that do, is
obeyed by every function (`readersObey`).

One law is that a reader stops for an error, or because it needs a line: no jump ever comes from
reading a script (`parseCommand_faults`).

A law may speak of two runs, one of which has other lines after those of the other one. What leaves
the text alone makes no difference between them.
-/

namespace CommandShell.Script

open Reader

variable {α β : Type}

/-! ## Readers that leave the text alone -/

/-- The input with other lines after its own. -/
def Input.followedBy (i : Input) (more : List Text) (closed : Bool) : Input :=
  { i with queue := i.queue ++ more, closed }

/-- The text that is left, how far reading came in it, and the aliases that matter for it. -/
def Input.position (i : Input) :
    List AliasFrame × Text × List Text × Bool × Bool × Text × Nat × Table Text × List Text :=
  (i.frames, i.current, i.queue, i.closed, i.atEnd, i.unread, i.line, i.aliases, i.within)

/-- A reader that leaves the text alone, and does the same when other lines follow. -/
class Aside (r : Reader α) : Prop where
  position : ∀ i, (r.on i).2.position = i.position
  /-- No alias was read to its end. -/
  aliasBlank : ∀ i, i.aliasBlank = false → (r.on i).2.aliasBlank = false
  followedBy : ∀ i more closed,
    r.on (i.followedBy more closed) = ((r.on i).1, (r.on i).2.followedBy more closed)

instance aside_pure (a : α) : Aside (pure a : Reader α) :=
  ⟨fun _ => rfl, fun _ h => h, fun _ _ _ => rfl⟩

instance aside_throw (e : Halt) : Aside (throw e : Reader α) :=
  ⟨fun _ => rfl, fun _ h => h, fun _ _ _ => rfl⟩

instance aside_fail (f : Fault) : Aside (fail f : Reader α) := aside_throw _

instance aside_failAt (line : Nat) (f : Fault) : Aside (failAt line f : Reader α) := aside_throw _

instance aside_unterminated (what : Text) (line : Nat) :
    Aside (unterminated what line : Reader α) := aside_throw _

instance aside_unexpected (tk : Token) (expecting : Option Text) :
    Aside (unexpected tk expecting : Reader α) := aside_throw _

instance aside_badSubstitution : Aside (badSubstitution : Reader α) := aside_throw _

instance aside_outOfSteps : Aside (outOfSteps : Reader α) := aside_throw _

instance aside_line : Aside line := ⟨fun _ => rfl, fun _ h => h, fun _ _ _ => rfl⟩

instance aside_startCapture : Aside startCapture := ⟨fun _ => rfl, fun _ h => h, fun _ _ _ => rfl⟩

instance aside_endCapture : Aside endCapture where
  position i := by
    unfold endCapture
    rw [Reader.on_get]
    split
    · rfl
    · rfl
  aliasBlank i h := by
    unfold endCapture
    rw [Reader.on_get]
    split
    · exact h
    · exact h
  followedBy i more closed := by
    have hsame : (i.followedBy more closed).captures = i.captures := rfl
    unfold endCapture
    rw [Reader.on_get, Reader.on_get, hsame]
    cases i.captures with
    | nil => rfl
    | cons c cs => rfl

instance aside_takeAliasBlank : Aside takeAliasBlank :=
  ⟨fun _ => rfl, fun _ _ => rfl, fun _ _ _ => rfl⟩

/-- The text of an alias that is not being read. -/
theorem aliasText?_on (name : Text) (i : Input) :
    (aliasText? name).on i
      = (.ok (if i.frames.any (fun f => f.name == name) then none else i.aliases.get? name),
        i) := by
  unfold aliasText?
  rw [Reader.on_get]
  split
  · rfl
  · rfl

instance aside_aliasText? (name : Text) : Aside (aliasText? name) where
  position i := by rw [aliasText?_on]
  aliasBlank i h := by rw [aliasText?_on]; exact h
  followedBy i more closed := by rw [aliasText?_on, aliasText?_on]; rfl

instance aside_pushToken (tk : Token) : Aside (pushToken tk) :=
  ⟨fun _ => rfl, fun _ h => h, fun _ _ _ => rfl⟩

instance aside_requestHereDoc (delimiter : Text) (stripTabs quoted : Bool) :
    Aside (requestHereDoc delimiter stripTabs quoted) :=
  ⟨fun _ => rfl, fun _ h => h, fun _ _ _ => rfl⟩

/-- Takes the token that was put back. -/
def takePushback : Reader (Option Token) := do
  let i ← get
  set { i with pushback := none }
  return i.pushback

instance aside_takePushback : Aside takePushback := ⟨fun _ => rfl, fun _ h => h, fun _ _ _ => rfl⟩

/-- Takes the here-documents that wait for the end of the line. -/
def takePending : Reader (List HereDocRequest) := do
  let i ← get
  set { i with pending := [] }
  return i.pending

instance aside_takePending : Aside takePending := ⟨fun _ => rfl, fun _ h => h, fun _ _ _ => rfl⟩

/-- Keeps the body of a here-document. -/
def keepBody (ticket : Nat) (w : Word) : Reader Unit :=
  modify fun i => { i with bodies := (ticket, w) :: i.bodies }

instance aside_keepBody (ticket : Nat) (w : Word) : Aside (keepBody ticket w) :=
  ⟨fun _ => rfl, fun _ h => h, fun _ _ _ => rfl⟩

/-- Asks for the primary prompt for the next line. -/
def startLine : Reader Unit := modify fun i => { i with primary := true }

instance aside_startLine : Aside startLine := ⟨fun _ => rfl, fun _ h => h, fun _ _ _ => rfl⟩

/-- The bodies of here-documents that were read. -/
def bodiesRead : Reader Bodies := do return (← get).bodies

instance aside_bodiesRead : Aside bodiesRead := ⟨fun _ => rfl, fun _ h => h, fun _ _ _ => rfl⟩

/-- The aliases in whose text the next character stands. -/
def aliasesInUse : Reader (List Text) := do return (← get).inUse

instance aside_aliasesInUse : Aside aliasesInUse := ⟨fun _ => rfl, fun _ h => h, fun _ _ _ => rfl⟩

/-- Reads a text that was found in the input. -/
def readNested (within : List Text) (t : Text) (line : Nat) (r : Reader α) :
    Reader (α × Input) := do
  let i ← get
  withInput (i.nested within t line) r

instance aside_readNested (within : List Text) (t : Text) (line : Nat) (r : Reader α) :
    Aside (readNested within t line r) where
  position i := by
    unfold readNested
    rw [Reader.on_get, Reader.on_withInput]
    generalize r.on _ = outcome
    obtain ⟨o, j⟩ := outcome
    cases o with
    | ok a => rfl
    | error e => rfl
  aliasBlank i h := by
    unfold readNested
    rw [Reader.on_get, Reader.on_withInput]
    generalize r.on _ = outcome
    obtain ⟨o, j⟩ := outcome
    cases o with
    | ok a => exact h
    | error e => exact h
  followedBy i more closed := by
    unfold readNested
    rw [Reader.on_get, Reader.on_get, Reader.on_withInput, Reader.on_withInput]
    -- the text inside knows nothing of the lines around it
    show (match r.on (i.nested within t line) with
      | (.ok a, j) => _
      | (.error e, j) => _) = _
    generalize r.on (i.nested within t line) = outcome
    obtain ⟨o, j⟩ := outcome
    cases o with
    | ok a => rfl
    | error e => rfl

theorem Aside.bind {x : Reader α} {f : α → Reader β} (hx : Aside x) (hf : ∀ a, Aside (f a)) :
    Aside (x >>= f) where
  position i := by
    have h := hx.position i
    rw [Reader.on_bind]
    generalize x.on i = outcome at h
    obtain ⟨o, j⟩ := outcome
    cases o with
    | ok a => exact ((hf a).position j).trans h
    | error e => exact h
  aliasBlank i hi := by
    have h := hx.aliasBlank i hi
    rw [Reader.on_bind]
    generalize x.on i = outcome at h
    obtain ⟨o, j⟩ := outcome
    cases o with
    | ok a => exact (hf a).aliasBlank j h
    | error e => exact h
  followedBy i more closed := by
    rw [Reader.on_bind, Reader.on_bind, hx.followedBy]
    generalize x.on i = outcome
    obtain ⟨o, j⟩ := outcome
    cases o with
    | ok a => exact (hf a).followedBy j more closed
    | error e => rfl

/-! ## Readers that stop for errors -/

/-- A reader that stops for nothing but an error, or because it needs a line. -/
class Faults (r : Reader α) : Prop where
  fault : ∀ i s, (r.on i).1 = .error (.stop s) → s.isJump = false

/-- A reader that never stops. -/
theorem faults_of_ok {r : Reader α} (h : ∀ i, ∃ a, (r.on i).1 = .ok a) : Faults r := by
  constructor
  intro i s hs
  obtain ⟨a, ha⟩ := h i
  cases ha.symm.trans hs

instance faults_pure (a : α) : Faults (pure a : Reader α) := faults_of_ok fun _ => ⟨a, rfl⟩

theorem faults_throw {s : Stop} (h : s.isJump = false) : Faults (throw (.stop s) : Reader α) := by
  constructor
  intro i s' hs
  cases hs
  exact h

instance faults_fail (f : Fault) : Faults (fail f : Reader α) := faults_throw rfl

instance faults_failAt (line : Nat) (f : Fault) : Faults (failAt line f : Reader α) :=
  faults_throw rfl

instance faults_unterminated (what : Text) (line : Nat) :
    Faults (unterminated what line : Reader α) := faults_failAt _ _

instance faults_unexpected (tk : Token) (expecting : Option Text) :
    Faults (unexpected tk expecting : Reader α) := faults_failAt _ _

instance faults_badSubstitution : Faults (badSubstitution : Reader α) := faults_fail _

instance faults_outOfSteps : Faults (outOfSteps : Reader α) := faults_fail _

instance faults_line : Faults line := faults_of_ok fun i => ⟨i.line, rfl⟩

instance faults_startCapture : Faults startCapture := faults_of_ok fun _ => ⟨(), rfl⟩

instance faults_endCapture : Faults endCapture := by
  refine faults_of_ok fun i => ?_
  unfold endCapture
  rw [Reader.on_get]
  split
  · exact ⟨_, rfl⟩
  · exact ⟨_, rfl⟩

instance faults_takeAliasBlank : Faults takeAliasBlank := faults_of_ok fun i => ⟨i.aliasBlank, rfl⟩

instance faults_aliasText? (name : Text) : Faults (aliasText? name) :=
  faults_of_ok fun i => ⟨_, congrArg Prod.fst (aliasText?_on name i)⟩

instance faults_pushToken (tk : Token) : Faults (pushToken tk) := faults_of_ok fun _ => ⟨(), rfl⟩

instance faults_requestHereDoc (delimiter : Text) (stripTabs quoted : Bool) :
    Faults (requestHereDoc delimiter stripTabs quoted) :=
  faults_of_ok fun i => ⟨i.nextTicket, rfl⟩

instance faults_takePushback : Faults takePushback := faults_of_ok fun i => ⟨i.pushback, rfl⟩

instance faults_takePending : Faults takePending := faults_of_ok fun i => ⟨i.pending, rfl⟩

instance faults_keepBody (ticket : Nat) (w : Word) : Faults (keepBody ticket w) :=
  faults_of_ok fun _ => ⟨(), rfl⟩

instance faults_startLine : Faults startLine := faults_of_ok fun _ => ⟨(), rfl⟩

instance faults_bodiesRead : Faults bodiesRead := faults_of_ok fun i => ⟨i.bodies, rfl⟩

instance faults_aliasesInUse : Faults aliasesInUse := faults_of_ok fun i => ⟨i.inUse, rfl⟩

/-! ## Laws -/

/-- A law that readers of characters may obey, with what makes it one: the operations on characters
obey it, readers that do nothing, failures without a line, and sequences of readers that do. -/
structure CharLaw where
  Obeyed : {α : Type} → Reader α → Prop
  pure : ∀ {α : Type} (a : α), Obeyed (pure a)
  fail : ∀ {α : Type} (f : Fault), Obeyed (Reader.fail f : Reader α)
  bind : ∀ {α β : Type} {x : Reader α} {f : α → Reader β}, Obeyed x → (∀ a, Obeyed (f a)) →
    Obeyed (x >>= f)
  peek : Obeyed Reader.peek
  next : Obeyed Reader.next
  putBack : Obeyed (Reader.putBack '\\')

/-- A law that all readers may obey: it is also obeyed by readers that leave the text alone, and by
the reading of a text by itself. -/
structure Law extends CharLaw where
  aside : ∀ {α : Type} (r : Reader α) [Aside r] [Faults r], Obeyed r
  nested : ∀ {α : Type} (within : List Text) (t : Text) (line : Nat) {r : Reader α}, Obeyed r →
    Obeyed (readNested within t line r)
  /-- The text that is started is that of the alias. -/
  expand : ∀ {α : Type} (name : Text) {x y : Reader α}, Obeyed x → Obeyed y →
    Obeyed (do
      match ← aliasText? name with
      | none => x
      | some text =>
        pushAlias name text
        y)
  pure a := aside (Pure.pure a)
  fail f := aside (Reader.fail f)

instance : Coe Law CharLaw := ⟨Law.toCharLaw⟩

/-- The reader obeys the law. -/
class Obeys (L : CharLaw) (r : Reader α) : Prop where
  holds : L.Obeyed r

section

variable {L : CharLaw}

instance obeys_pure (a : α) : Obeys L (pure a : Reader α) := ⟨L.pure a⟩

instance obeys_fail (f : Fault) : Obeys L (fail f : Reader α) := ⟨L.fail f⟩

instance obeys_badSubstitution : Obeys L (badSubstitution : Reader α) := obeys_fail _

instance obeys_outOfSteps : Obeys L (outOfSteps : Reader α) := obeys_fail _

instance obeys_bind {x : Reader α} {f : α → Reader β} [hx : Obeys L x]
    [hf : ∀ a, Obeys L (f a)] : Obeys L (x >>= f) := ⟨L.bind hx.holds fun a => (hf a).holds⟩

protected theorem Obeys.bind {x : Reader α} {f : α → Reader β} (hx : Obeys L x)
    (hf : ∀ a, Obeys L (f a)) : Obeys L (x >>= f) := obeys_bind

instance obeys_ite {c : Prop} [Decidable c] {x y : Reader α} [hx : Obeys L x] [hy : Obeys L y] :
    Obeys L (if c then x else y) := by
  split
  · exact hx
  · exact hy

protected theorem Obeys.ite {c : Prop} [Decidable c] {x y : Reader α} (hx : Obeys L x)
    (hy : Obeys L y) : Obeys L (if c then x else y) := obeys_ite

instance obeys_peek : Obeys L peek := ⟨L.peek⟩

instance obeys_next : Obeys L next := ⟨L.next⟩

instance obeys_putBack : Obeys L (putBack '\\') := ⟨L.putBack⟩

/-! ## Small readers -/

instance obeys_nextOfParam : Obeys L nextOfParam := by
  refine .bind inferInstance fun c => ?_
  split <;> infer_instance

instance obeys_takeWhile (p : Char → Bool) (n : Nat) (acc : Text) :
    Obeys L (takeWhile p n acc) := by
  induction n generalizing acc with
  | zero => exact obeys_outOfSteps
  | succ n ih =>
      refine .bind inferInstance fun c => ?_
      split <;> infer_instance

instance obeys_skipComment (n : Nat) : Obeys L (skipComment n) := by
  induction n with
  | zero => exact obeys_outOfSteps
  | succ n ih =>
      refine .bind inferInstance fun c => ?_
      split <;> infer_instance

instance obeys_skipBlanks (n : Nat) : Obeys L (skipBlanks n) := by
  induction n with
  | zero => exact obeys_outOfSteps
  | succ n ih =>
      refine .bind inferInstance fun c => ?_
      split <;> infer_instance

instance obeys_readSingleQuoted (start n : Nat) (acc : Text)
    [∀ what, Obeys L (unterminated what start : Reader Text)] :
    Obeys L (readSingleQuoted start n acc) := by
  induction n generalizing acc with
  | zero => exact obeys_outOfSteps
  | succ n ih =>
      refine .bind inferInstance fun c => ?_
      split <;> infer_instance

instance obeys_readBackQuotedText (inQuotes : Bool) (start n : Nat) (acc : Text)
    [∀ what, Obeys L (unterminated what start : Reader Text)] :
    Obeys L (readBackQuotedText inQuotes start n acc) := by
  induction n generalizing acc with
  | zero => exact obeys_outOfSteps
  | succ n ih =>
      refine .bind inferInstance fun c => ?_
      split
      · infer_instance
      · refine .bind inferInstance fun d => ?_
        split <;> infer_instance
      · infer_instance
      · infer_instance

instance obeys_readRawLine (n : Nat) (acc : Text) : Obeys L (readRawLine n acc) := by
  induction n generalizing acc with
  | zero => exact obeys_outOfSteps
  | succ n ih =>
      refine .bind inferInstance fun c => ?_
      split <;> infer_instance

instance obeys_readHereDocLines (req : HereDocRequest) (n : Nat) (acc : List Text) :
    Obeys L (readHereDocLines req n acc) := by
  induction n generalizing acc with
  | zero => exact obeys_outOfSteps
  | succ n ih =>
      refine .bind inferInstance fun l => ?_
      split <;> infer_instance

instance obeys_readRedirectOp (fd : Option Nat) : Obeys L (readRedirectOp fd) := by
  refine .bind inferInstance fun c => ?_
  split
  · refine .bind inferInstance fun c => ?_
    split <;> infer_instance
  · refine .bind inferInstance fun c => ?_
    split <;> infer_instance
  · infer_instance

instance obeys_readOperator (second : Char) (one two : TokenKind) :
    Obeys L (readOperator second one two) := by
  unfold readOperator
  infer_instance

instance obeys_readParamOp (c : Char) : Obeys L (readParamOp c) := by
  unfold readParamOp
  split <;> infer_instance

instance obeys_readParamName (n : Nat) (first : Char) : Obeys L (readParamName n first) := by
  unfold readParamName
  infer_instance

instance obeys_closeList (acc : List Node) : Obeys L (closeList acc) := by
  unfold closeList
  split <;> infer_instance

end

variable {L : Law}

instance obeys_aside (r : Reader α) [Aside r] [Faults r] : Obeys L r := ⟨L.aside r⟩

instance obeys_readNested (within : List Text) (t : Text) (line : Nat) (r : Reader α)
    [h : Obeys L r] : Obeys L (readNested within t line r) := ⟨L.nested within t line h.holds⟩

/-! ## The functions of the grammar -/

/-- With `n` steps every function obeys the law. -/
structure ReadersObey (L : Law) (n : Nat) : Prop where
  readParts : ∀ ctx start depth ps, Obeys L (readParts ctx start n depth ps)
  readDoubleQuoted : ∀ start ps, Obeys L (readDoubleQuoted start n ps)
  readDollar : ∀ q, Obeys L (readDollar n q)
  readBracedParam : ∀ q, Obeys L (readBracedParam n q)
  readArithmetic : ∀ start depth ps, Obeys L (readArithmetic start n depth ps)
  readBackQuoted : ∀ q start, Obeys L (readBackQuoted n q start)
  readHereDocs : ∀ reqs, Obeys L (readHereDocs n reqs)
  readPending : Obeys L (readPending n)
  nextToken : Obeys L (nextToken n)
  peekToken : Obeys L (peekToken n)
  expectKeyword : ∀ kw, Obeys L (expectKeyword kw n)
  skipNewlines : Obeys L (skipNewlines n)
  expandAlias : ∀ tk, Obeys L (expandAlias n tk)
  commandToken : Obeys L (commandToken n)
  parseTop : Obeys L (parseTop n)
  parseAllFrom : ∀ acc, Obeys L (parseAllFrom n acc)
  parseSubstitution : Obeys L (parseSubstitution n)
  parseInner : Obeys L (parseInner n)
  parseList : ∀ top acc, Obeys L (parseList top n acc)
  parseAndOr : Obeys L (parseAndOr n)
  parseAndOrRest : ∀ left, Obeys L (parseAndOrRest n left)
  parsePipeline : Obeys L (parsePipeline n)
  parseStages : ∀ acc, Obeys L (parseStages n acc)
  parseCommandAt : ∀ tk, Obeys L (parseCommandAt n tk)
  closeCompound : ∀ line body, Obeys L (closeCompound n line body)
  parseSimple : ∀ line assigns argv redirects tk,
    Obeys L (parseSimple n line assigns argv redirects tk)
  parseFunction : ∀ name line, Obeys L (parseFunction n name line)
  parseRedirect : ∀ fd op, Obeys L (parseRedirect n fd op)
  parseRedirects : ∀ acc, Obeys L (parseRedirects n acc)
  parseIf : ∀ line, Obeys L (parseIf n line)
  parseLoop : ∀ isWhile line, Obeys L (parseLoop n isWhile line)
  parseFor : ∀ line, Obeys L (parseFor n line)
  parseItems : ∀ acc, Obeys L (parseItems n acc)
  parseCase : ∀ line, Obeys L (parseCase n line)
  parseArms : ∀ acc, Obeys L (parseArms n acc)
  parsePatterns : ∀ acc tk, Obeys L (parsePatterns n acc tk)

namespace ReadersObey

theorem zero (L : Law) : ReadersObey L 0 := by
  constructor <;> intros <;> exact obeys_aside outOfSteps

variable {n : Nat}

/-! ### Words -/

theorem readParts_succ (h : ReadersObey L n) (ctx : WordContext) (start depth : Nat)
    (ps : PartsSoFar) : Obeys L (Script.readParts ctx start (n + 1) depth ps) := by
  have hparts := h.readParts
  have hdouble := h.readDoubleQuoted
  have hdollar := h.readDollar
  have hback := h.readBackQuoted
  unfold Script.readParts
  refine .bind inferInstance fun c => ?_
  cases c with
  | none => infer_instance
  | some c =>
      repeat' first
        | infer_instance
        | refine Obeys.ite ?_ ?_
        | refine Obeys.bind inferInstance fun _ => ?_
        | split

theorem readDoubleQuoted_succ (h : ReadersObey L n) (start : Nat) (ps : PartsSoFar) :
    Obeys L (Script.readDoubleQuoted start (n + 1) ps) := by
  have hdouble := h.readDoubleQuoted
  have hdollar := h.readDollar
  have hback := h.readBackQuoted
  unfold Script.readDoubleQuoted
  repeat' first
    | infer_instance
    | refine Obeys.bind inferInstance fun _ => ?_
    | split

theorem readDollar_succ (h : ReadersObey L n) (q : Bool) :
    Obeys L (Script.readDollar (n + 1) q) := by
  have hbraced := h.readBracedParam
  have harith := h.readArithmetic
  have hsub := h.parseSubstitution
  unfold Script.readDollar
  repeat' first
    | infer_instance
    | refine Obeys.ite ?_ ?_
    | refine Obeys.bind inferInstance fun _ => ?_
    | split

theorem readBracedParam_succ (h : ReadersObey L n) (q : Bool) :
    Obeys L (Script.readBracedParam (n + 1) q) := by
  have hparts := h.readParts
  unfold Script.readBracedParam
  repeat' first
    | infer_instance
    | refine Obeys.ite ?_ ?_
    | refine Obeys.bind inferInstance fun _ => ?_

theorem readArithmetic_succ (h : ReadersObey L n) (start depth : Nat) (ps : PartsSoFar) :
    Obeys L (Script.readArithmetic start (n + 1) depth ps) := by
  have harith := h.readArithmetic
  have hdollar := h.readDollar
  have hback := h.readBackQuoted
  have hdouble := h.readDoubleQuoted
  unfold Script.readArithmetic
  repeat' first
    | infer_instance
    | refine Obeys.bind inferInstance fun _ => ?_
    | split

/-- The text in back-quotes is read by itself. -/
theorem readBackQuoted_eq (n : Nat) (q : Bool) (start : Nat) :
    Script.readBackQuoted (n + 1) q start = (do
      let line ← line
      let within ← aliasesInUse
      let t ← readBackQuotedText q start n []
      let (nodes, _) ← readNested within t line (Script.parseAllFrom n [])
      return .command (Node.ofList nodes)) :=
  rfl

theorem readBackQuoted_succ (h : ReadersObey L n) (q : Bool) (start : Nat) :
    Obeys L (Script.readBackQuoted (n + 1) q start) := by
  have hall := h.parseAllFrom
  rw [readBackQuoted_eq]
  infer_instance

/-- Reads the text of a here-document for parts, unless it is quoted. -/
def readBody (n : Nat) (req : HereDocRequest) (start : Nat) (within : List Text) (raw : Text) :
    Reader (List Part) := do
  if req.quoted then return [.singleQuoted raw]
  else
    let (parts, sub) ← readNested within raw start (Script.readParts .hereDoc start n 0 [])
    return Part.fillAll sub.bodies parts

instance aside_readBody (n : Nat) (req : HereDocRequest) (start : Nat) (within : List Text)
    (raw : Text) : Aside (readBody n req start within raw) := by
  unfold readBody
  split
  · infer_instance
  · exact (aside_readNested _ _ _ _).bind fun _ => aside_pure _

theorem readBody_obeys (h : ReadersObey L n) (req : HereDocRequest) (start : Nat)
    (within : List Text) (raw : Text) : Obeys L (readBody n req start within raw) := by
  have hparts := h.readParts
  unfold readBody
  infer_instance

theorem readHereDocs_cons (n : Nat) (req : HereDocRequest) (reqs : List HereDocRequest) :
    Script.readHereDocs (n + 1) (req :: reqs) = (do
      let start ← line
      let within ← aliasesInUse
      let raw ← readHereDocLines req n []
      let parts ← readBody n req start within raw
      keepBody req.ticket (.mk raw parts start)
      Script.readHereDocs n reqs) := by
  unfold readBody
  conv_lhs => unfold Script.readHereDocs
  cases req.quoted with
  | true => rfl
  | false =>
      simp only [Bool.false_eq_true, if_false, bind_assoc, pure_bind]
      rfl

theorem readHereDocs_succ (h : ReadersObey L n) (reqs : List HereDocRequest) :
    Obeys L (Script.readHereDocs (n + 1) reqs) := by
  have hdocs := h.readHereDocs
  have hbody := h.readBody_obeys
  cases reqs with
  | nil => exact obeys_aside (pure ())
  | cons req reqs =>
      rw [readHereDocs_cons]
      infer_instance

/-! ### Tokens -/

theorem readPending_eq (n : Nat) :
    Script.readPending (n + 1) = (do Script.readHereDocs n (← takePending)) :=
  rfl

theorem readPending_succ (h : ReadersObey L n) : Obeys L (Script.readPending (n + 1)) := by
  have hdocs := h.readHereDocs
  rw [readPending_eq]
  infer_instance

/-- Reads the token that starts here. -/
def tokenHere (n : Nat) : Reader Token := do
  let line ← line
  let kind : TokenKind ← do
    match ← peek with
    | none =>
      Script.readPending n
      pure .endOfInput
    | some '\n' =>
      let _ ← next
      Script.readPending n
      pure .newline
    | some ';' => readOperator ';' .semi .doubleSemi
    | some '&' => readOperator '&' .amp .andIf
    | some '|' => readOperator '|' .pipe .orIf
    | some '(' => let _ ← next; pure .leftParen
    | some ')' => let _ ← next; pure .rightParen
    | some '<' | some '>' => readRedirectOp none
    | some _ =>
      startCapture
      let parts ← Script.readParts .base line n 0 []
      let w := Word.mk (← endCapture) parts line
      match descriptorNumber? w with
      | some fd =>
        match ← peek with
        | some '<' | some '>' => readRedirectOp (some fd)
        | _ => pure (.word w)
      | none => pure (.word w)
  return ⟨kind, line⟩

/-- Reads a token from the text. -/
def freshToken (n : Nat) : Reader Token := do
  skipBlanks n
  tokenHere n

theorem nextToken_eq (n : Nat) :
    Script.nextToken (n + 1) = (do
      match ← takePushback with
      | some tk => return tk
      | none => freshToken n) := by
  funext i
  cases hp : i.pushback with
  | some tk =>
      cases i
      cases hp
      rfl
  | none =>
      cases i
      cases hp
      rfl

/-- With no token put back one is read from the text. -/
theorem nextToken_on_fresh {i : Input} (hp : i.pushback = none) (n : Nat) :
    (Script.nextToken (n + 1)).on i = (freshToken n).on i := by
  rw [nextToken_eq]
  cases i
  cases hp
  rfl

theorem tokenHere_obeys (h : ReadersObey L n) : Obeys L (tokenHere n) := by
  have hpending := h.readPending
  have hparts := h.readParts
  unfold tokenHere
  repeat' first
    | infer_instance
    | refine Obeys.bind inferInstance fun _ => ?_
    | split
    | dsimp only

theorem nextToken_succ (h : ReadersObey L n) : Obeys L (Script.nextToken (n + 1)) := by
  have hhere := h.tokenHere_obeys
  rw [nextToken_eq]
  refine .bind inferInstance fun t => ?_
  cases t with
  | some tk => infer_instance
  | none => exact obeys_bind

theorem peekToken_succ (h : ReadersObey L n) : Obeys L (Script.peekToken (n + 1)) := by
  have hnext := h.nextToken
  exact obeys_bind

theorem expectKeyword_succ (h : ReadersObey L n) (kw : Text) :
    Obeys L (Script.expectKeyword kw (n + 1)) := by
  have hnext := h.nextToken
  exact obeys_bind

theorem skipNewlines_succ (h : ReadersObey L n) : Obeys L (Script.skipNewlines (n + 1)) := by
  have hpeek := h.peekToken
  have hnext := h.nextToken
  have hnewlines := h.skipNewlines
  exact obeys_bind

theorem expandAlias_succ (h : ReadersObey L n) (tk : Token) :
    Obeys L (Script.expandAlias (n + 1) tk) := by
  have hnext := h.nextToken.holds
  unfold Script.expandAlias
  split
  · infer_instance
  · rename_i name _
    exact ⟨L.expand name (L.aside (pure tk)) (L.bind hnext fun tk => (h.expandAlias tk).holds)⟩

theorem commandToken_succ (h : ReadersObey L n) : Obeys L (Script.commandToken (n + 1)) := by
  have hnext := h.nextToken
  have halias := h.expandAlias
  exact obeys_bind

/-! ### Commands -/

theorem parseTop_eq (n : Nat) :
    Script.parseTop (n + 1) = (do
      startLine
      let tk ← Script.nextToken n
      match tk.kind with
      | .endOfInput => return .done
      | .newline => return .empty
      | _ =>
        pushToken tk
        let node ← Script.parseList true n []
        return .command (node.fill (← bodiesRead))) :=
  rfl

theorem parseTop_succ (h : ReadersObey L n) : Obeys L (Script.parseTop (n + 1)) := by
  have hnext := h.nextToken
  have hlist := h.parseList
  rw [parseTop_eq]
  refine .bind inferInstance fun _ => .bind inferInstance fun tk => ?_
  split <;> infer_instance

theorem parseAllFrom_succ (h : ReadersObey L n) (acc : List Node) :
    Obeys L (Script.parseAllFrom (n + 1) acc) := by
  have htop := h.parseTop
  have hall := h.parseAllFrom
  refine .bind inferInstance fun p => ?_
  split <;> infer_instance

theorem parseSubstitution_succ (h : ReadersObey L n) :
    Obeys L (Script.parseSubstitution (n + 1)) := by
  have hnewlines := h.skipNewlines
  have hpeek := h.peekToken
  have hnext := h.nextToken
  have hinner := h.parseInner
  exact obeys_bind

theorem parseInner_succ (h : ReadersObey L n) : Obeys L (Script.parseInner (n + 1)) := by
  have hnewlines := h.skipNewlines
  have hlist := h.parseList
  exact obeys_bind

theorem parseList_succ (h : ReadersObey L n) (top : Bool) (acc : List Node) :
    Obeys L (Script.parseList top (n + 1) acc) := by
  have handor := h.parseAndOr
  have hnext := h.nextToken
  have hpeek := h.peekToken
  have hnewlines := h.skipNewlines
  have hlist := h.parseList
  rw [parseList_eq]
  unfold continueList
  repeat' first
    | infer_instance
    | refine Obeys.bind inferInstance fun _ => ?_
    | split

theorem parseAndOr_succ (h : ReadersObey L n) : Obeys L (Script.parseAndOr (n + 1)) := by
  have hpipeline := h.parsePipeline
  have hrest := h.parseAndOrRest
  exact obeys_bind

theorem parseAndOrRest_succ (h : ReadersObey L n) (left : Node) :
    Obeys L (Script.parseAndOrRest (n + 1) left) := by
  have hnext := h.nextToken
  have hnewlines := h.skipNewlines
  have hpipeline := h.parsePipeline
  have hrest := h.parseAndOrRest
  refine .bind inferInstance fun tk => ?_
  split <;> infer_instance

theorem parsePipeline_succ (h : ReadersObey L n) : Obeys L (Script.parsePipeline (n + 1)) := by
  have htoken := h.commandToken
  have hcommand := h.parseCommandAt
  have hstages := h.parseStages
  exact obeys_bind

theorem parseStages_succ (h : ReadersObey L n) (acc : List Node) :
    Obeys L (Script.parseStages (n + 1) acc) := by
  have hnext := h.nextToken
  have hnewlines := h.skipNewlines
  have htoken := h.commandToken
  have hcommand := h.parseCommandAt
  have hstages := h.parseStages
  refine .bind inferInstance fun tk => ?_
  split <;> infer_instance

theorem parseCommandAt_succ (h : ReadersObey L n) (tk : Token) :
    Obeys L (Script.parseCommandAt (n + 1) tk) := by
  have hinner := h.parseInner
  have hnext := h.nextToken
  have hredirects := h.parseRedirects
  have hsimple := h.parseSimple
  have hif := h.parseIf
  have hloop := h.parseLoop
  have hfor := h.parseFor
  have hcase := h.parseCase
  have hclose := h.closeCompound
  have hkeyword := h.expectKeyword
  unfold Script.parseCommandAt
  repeat' first
    | infer_instance
    | refine Obeys.bind inferInstance fun _ => ?_
    | split

theorem closeCompound_succ (h : ReadersObey L n) (line : Nat) (body : Node) :
    Obeys L (Script.closeCompound (n + 1) line body) := by
  have hredirects := h.parseRedirects
  refine .bind inferInstance fun redirects => ?_
  split <;> infer_instance

theorem parseSimple_succ (h : ReadersObey L n) (line : Nat) (assigns argv : List Word)
    (redirects : List Redirect) (tk : Token) :
    Obeys L (Script.parseSimple (n + 1) line assigns argv redirects tk) := by
  have hnext := h.nextToken
  have halias := h.expandAlias
  have hsimple := h.parseSimple
  have hredirect := h.parseRedirect
  have hpeek := h.peekToken
  have hfunction := h.parseFunction
  unfold Script.parseSimple
  split <;> infer_instance

theorem parseFunction_succ (h : ReadersObey L n) (name : Word) (line : Nat) :
    Obeys L (Script.parseFunction (n + 1) name line) := by
  have hnext := h.nextToken
  have hnewlines := h.skipNewlines
  have htoken := h.commandToken
  have hcommand := h.parseCommandAt
  unfold Script.parseFunction
  repeat' first
    | infer_instance
    | refine Obeys.bind inferInstance fun _ => ?_
    | split

theorem parseRedirect_succ (h : ReadersObey L n) (fd : Option Nat) (op : RedirectOp) :
    Obeys L (Script.parseRedirect (n + 1) fd op) := by
  have hnext := h.nextToken
  unfold Script.parseRedirect
  repeat' first
    | infer_instance
    | refine Obeys.bind inferInstance fun _ => ?_
    | split

theorem parseRedirects_succ (h : ReadersObey L n) (acc : List Redirect) :
    Obeys L (Script.parseRedirects (n + 1) acc) := by
  have hnext := h.nextToken
  have hredirect := h.parseRedirect
  have hredirects := h.parseRedirects
  refine .bind inferInstance fun tk => ?_
  split <;> infer_instance

theorem parseIf_succ (h : ReadersObey L n) (line : Nat) :
    Obeys L (Script.parseIf (n + 1) line) := by
  have hinner := h.parseInner
  have hkeyword := h.expectKeyword
  have hnext := h.nextToken
  have hif := h.parseIf
  exact obeys_bind

theorem parseLoop_succ (h : ReadersObey L n) (isWhile : Bool) (line : Nat) :
    Obeys L (Script.parseLoop (n + 1) isWhile line) := by
  have hinner := h.parseInner
  have hkeyword := h.expectKeyword
  exact obeys_bind

theorem parseFor_succ (h : ReadersObey L n) (line : Nat) :
    Obeys L (Script.parseFor (n + 1) line) := by
  have hnext := h.nextToken
  have hnewlines := h.skipNewlines
  have hitems := h.parseItems
  have hkeyword := h.expectKeyword
  have hinner := h.parseInner
  unfold Script.parseFor
  repeat' first
    | infer_instance
    | refine Obeys.bind inferInstance fun _ => ?_
    | split

theorem parseItems_succ (h : ReadersObey L n) (acc : List Word) :
    Obeys L (Script.parseItems (n + 1) acc) := by
  have hnext := h.nextToken
  have hitems := h.parseItems
  refine .bind inferInstance fun tk => ?_
  split <;> infer_instance

theorem parseCase_succ (h : ReadersObey L n) (line : Nat) :
    Obeys L (Script.parseCase (n + 1) line) := by
  have hnext := h.nextToken
  have hnewlines := h.skipNewlines
  have hkeyword := h.expectKeyword
  have harms := h.parseArms
  refine .bind inferInstance fun tk => ?_
  split <;> infer_instance

theorem parseArms_succ (h : ReadersObey L n) (acc : List CaseArm) :
    Obeys L (Script.parseArms (n + 1) acc) := by
  have hnewlines := h.skipNewlines
  have hnext := h.nextToken
  have hpatterns := h.parsePatterns
  have hpeek := h.peekToken
  have hinner := h.parseInner
  have harms := h.parseArms
  rw [parseArms_eq]
  unfold parseArmFrom continueArms
  repeat' first
    | infer_instance
    | refine Obeys.bind inferInstance fun _ => ?_
    | split

theorem parsePatterns_succ (h : ReadersObey L n) (acc : List Word) (tk : Token) :
    Obeys L (Script.parsePatterns (n + 1) acc tk) := by
  have hnext := h.nextToken
  have hpatterns := h.parsePatterns
  unfold Script.parsePatterns
  split
  · refine .bind inferInstance fun separator => ?_
    split <;> infer_instance
  · infer_instance

theorem succ (h : ReadersObey L n) : ReadersObey L (n + 1) where
  readParts := h.readParts_succ
  readDoubleQuoted := h.readDoubleQuoted_succ
  readDollar := h.readDollar_succ
  readBracedParam := h.readBracedParam_succ
  readArithmetic := h.readArithmetic_succ
  readBackQuoted := h.readBackQuoted_succ
  readHereDocs := h.readHereDocs_succ
  readPending := h.readPending_succ
  nextToken := h.nextToken_succ
  peekToken := h.peekToken_succ
  expectKeyword := h.expectKeyword_succ
  skipNewlines := h.skipNewlines_succ
  expandAlias := h.expandAlias_succ
  commandToken := h.commandToken_succ
  parseTop := h.parseTop_succ
  parseAllFrom := h.parseAllFrom_succ
  parseSubstitution := h.parseSubstitution_succ
  parseInner := h.parseInner_succ
  parseList := h.parseList_succ
  parseAndOr := h.parseAndOr_succ
  parseAndOrRest := h.parseAndOrRest_succ
  parsePipeline := h.parsePipeline_succ
  parseStages := h.parseStages_succ
  parseCommandAt := h.parseCommandAt_succ
  closeCompound := h.closeCompound_succ
  parseSimple := h.parseSimple_succ
  parseFunction := h.parseFunction_succ
  parseRedirect := h.parseRedirect_succ
  parseRedirects := h.parseRedirects_succ
  parseIf := h.parseIf_succ
  parseLoop := h.parseLoop_succ
  parseFor := h.parseFor_succ
  parseItems := h.parseItems_succ
  parseCase := h.parseCase_succ
  parseArms := h.parseArms_succ
  parsePatterns := h.parsePatterns_succ

end ReadersObey

/-- Every function obeys the law, with any number of steps. -/
theorem readersObey (L : Law) (n : Nat) : ReadersObey L n := by
  induction n with
  | zero => exact .zero L
  | succ n ih => exact ih.succ

section

variable (n line : Nat)

instance obeys_readPending : Obeys L (readPending n) := (readersObey L n).readPending

instance obeys_tokenHere : Obeys L (ReadersObey.tokenHere n) := (readersObey L n).tokenHere_obeys

instance obeys_nextToken : Obeys L (nextToken n) := (readersObey L n).nextToken

instance obeys_parseInner : Obeys L (parseInner n) := (readersObey L n).parseInner

instance obeys_expectKeyword (kw : Text) : Obeys L (expectKeyword kw n) :=
  (readersObey L n).expectKeyword kw

instance obeys_parseRedirect (fd : Option Nat) (op : RedirectOp) :
    Obeys L (parseRedirect n fd op) := (readersObey L n).parseRedirect fd op

instance obeys_parseIf : Obeys L (parseIf n line) := (readersObey L n).parseIf line

instance obeys_parseLoop (isWhile : Bool) : Obeys L (parseLoop n isWhile line) :=
  (readersObey L n).parseLoop isWhile line

instance obeys_parseFor : Obeys L (parseFor n line) := (readersObey L n).parseFor line

instance obeys_parseCase : Obeys L (parseCase n line) := (readersObey L n).parseCase line

end

/-! ## What reading stops for -/

/-- A reader that stops for nothing but a line that it needs. -/
def StopsForLines (r : Reader α) : Prop := ∀ i e, (r.on i).1 = .error e → e = .needLine

namespace StopsForLines

theorem of_ok {r : Reader α} (h : ∀ i, ∃ a, (r.on i).1 = .ok a) : StopsForLines r := by
  intro i e he
  obtain ⟨a, ha⟩ := h i
  cases ha.symm.trans he

theorem pure (a : α) : StopsForLines (Pure.pure a : Reader α) := of_ok fun _ => ⟨a, rfl⟩

theorem get : StopsForLines (MonadState.get : Reader Input) := of_ok fun i => ⟨i, rfl⟩

theorem set (i : Input) : StopsForLines (MonadStateOf.set i : Reader Unit) :=
  of_ok fun _ => ⟨(), rfl⟩

theorem modify (f : Input → Input) : StopsForLines (modify f : Reader Unit) :=
  of_ok fun _ => ⟨(), rfl⟩

protected theorem bind {x : Reader α} {f : α → Reader β} (hx : StopsForLines x)
    (hf : ∀ a, StopsForLines (f a)) : StopsForLines (x >>= f) := by
  intro i e he
  have h := hx i
  rw [Reader.on_bind] at he
  generalize x.on i = outcome at h he
  obtain ⟨r, j⟩ := outcome
  cases r with
  | ok a => exact hf a j e he
  | error e' =>
      cases he
      exact h e rfl

theorem fill : StopsForLines fill := by
  have hline : StopsForLines fillLine := by
    refine .bind .get fun i => ?_
    split
    · exact .pure _
    · split
      · exact .set _
      · split
        · exact .set _
        · intro i e he
          cases he
          rfl
  exact .bind (.modify _) fun _ => hline

theorem peek : StopsForLines peek := by
  refine .bind .get fun i => ?_
  split
  · exact .pure _
  · refine .bind .fill fun _ => .bind .get fun i => ?_
    split
    · exact .pure _
    · exact .pure _

theorem next : StopsForLines next := by
  have hnote : ∀ c, StopsForLines (note c) := fun _ => .modify _
  refine .bind .get fun i => ?_
  split
  · exact .bind (.set _) fun _ => .bind (hnote _) fun _ => .pure _
  · refine .bind .fill fun _ => .bind .get fun i => ?_
    split
    · split
      · exact .bind (.set _) fun _ => .bind (hnote _) fun _ => .pure _
      · exact .bind (.set _) fun _ => .bind (hnote _) fun _ => .pure _
    · split
      · exact .bind (.set _) fun _ => .bind (hnote _) fun _ => .pure _
      · exact .pure _

end StopsForLines

namespace Faults

protected theorem bind {x : Reader α} {f : α → Reader β} (hx : Faults x) (hf : ∀ a, Faults (f a)) :
    Faults (x >>= f) := by
  constructor
  intro i s hs
  have h := hx.fault i s
  rw [Reader.on_bind] at hs
  generalize x.on i = outcome at h hs
  obtain ⟨r, j⟩ := outcome
  cases r with
  | ok a => exact (hf a).fault j s hs
  | error e =>
      cases hs
      exact h rfl

theorem of_stopsForLines {r : Reader α} (h : StopsForLines r) : Faults r := by
  constructor
  intro i s hs
  cases h i _ hs

theorem readNested (within : List Text) (t : Text) (line : Nat) {r : Reader α} (h : Faults r) :
    Faults (Script.readNested within t line r) := by
  constructor
  intro i s hs
  have hr := h.fault (i.nested within t line) s
  unfold Script.readNested at hs
  rw [Reader.on_get, Reader.on_withInput] at hs
  generalize r.on (i.nested within t line) = outcome at hr hs
  obtain ⟨o, j⟩ := outcome
  cases o with
  | ok a => cases hs
  | error e =>
      cases hs
      exact hr rfl

end Faults

/-- No reader stops for a jump. -/
def faultLaw : Law where
  Obeyed := Faults
  aside _ _ h := h
  nested := Faults.readNested
  bind := Faults.bind
  peek := .of_stopsForLines .peek
  next := .of_stopsForLines .next
  putBack := .of_stopsForLines (.modify _)
  expand name x y hx hy := by
    refine .bind (faults_aliasText? name) fun text => ?_
    cases text with
    | none => exact hx
    | some text => exact .bind (.of_stopsForLines (.modify _)) fun _ => hy

theorem parseCommand_faults : Faults parseCommand :=
  .bind (.of_stopsForLines .get) fun i => (readersObey faultLaw i.stepBound).parseTop.holds

end CommandShell.Script
