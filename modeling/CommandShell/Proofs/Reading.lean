import CommandShell.Script.Grammar

/-!
# Outcomes of readers

A reader takes an input to a value or a failure, and to the input that is left. `Meets` says what
holds of them, and is computed along the way the reader is put together.

Reading is bounded by a number of steps. A reader refines another one when both come to the same,
unless the first one runs out of steps; the functions of the grammar refine themselves as the number
of steps grows (`refines_of_le`). So an outcome that is not a lack of steps is the only one that
there is.
-/

namespace CommandShell.Script

open Reader

variable {α β : Type}

/-- The failure of a reader that ran out of steps. -/
def Halt.outOfSteps : Halt := .stop (.ofFault (.internal "reader did not finish"))

/-- What a reader comes to on an input, and the input that is left. -/
abbrev Reader.on (r : Reader α) (i : Input) : Except Halt α × Input := r.run.run i

theorem Reader.on_bind (x : Reader α) (f : α → Reader β) (i : Input) :
    (x >>= f).on i = match x.on i with
      | (.ok a, j) => (f a).on j
      | (.error e, j) => (.error e, j) := by
  show (let (r, j) := x.on i; ExceptT.bindCont f r j) = _
  generalize x.on i = outcome
  obtain ⟨r, j⟩ := outcome
  cases r with
  | ok a => rfl
  | error e => rfl

theorem Reader.on_get (f : Input → Reader α) (i : Input) : (get >>= f).on i = (f i).on i := rfl

theorem readToken_on (i : Input) : readToken.on i = (nextToken i.stepBound).on i := by
  unfold readToken
  rw [Reader.on_get]

theorem parseCommand_on (i : Input) : parseCommand.on i = (parseTop i.stepBound).on i := by
  unfold parseCommand
  rw [Reader.on_get]

/-! ## Conditions on outcomes -/

/-- Values satisfy `Q` together with the input that is left, and failures satisfy `E`. -/
def Meets (E : Halt → Input → Prop) (Q : α → Input → Prop) (r : Reader α) (i : Input) : Prop :=
  match r.on i with
  | (.ok a, j) => Q a j
  | (.error e, j) => E e j

section

variable {E : Halt → Input → Prop} {Q : α → Input → Prop} {i : Input}

theorem meets_bind {Q : β → Input → Prop} {x : Reader α} {f : α → Reader β} :
    Meets E Q (x >>= f) i ↔ Meets E (fun a j => Meets E Q (f a) j) x i := by
  unfold Meets
  rw [Reader.on_bind]
  generalize x.on i = outcome
  obtain ⟨r, j⟩ := outcome
  cases r with
  | ok a => rfl
  | error e => rfl

theorem Meets.mono {Q Q' : α → Input → Prop} {r : Reader α} (h : Meets E Q r i)
    (hQ : ∀ a j, Q a j → Q' a j) : Meets E Q' r i := by
  unfold Meets at h ⊢
  generalize r.on i = outcome at h
  obtain ⟨r, j⟩ := outcome
  cases r with
  | ok a => exact hQ a j h
  | error e => exact h

/-- A sequence, with what its first part meets. -/
theorem Meets.bind {P : α → Input → Prop} {Q : β → Input → Prop} {x : Reader α}
    {f : α → Reader β} (hx : Meets E P x i) (hf : ∀ a j, P a j → Meets E Q (f a) j) :
    Meets E Q (x >>= f) i :=
  meets_bind.mpr (hx.mono hf)

theorem Meets.ite {c : Prop} [Decidable c] {x y : Reader α} (hx : c → Meets E Q x i)
    (hy : ¬ c → Meets E Q y i) : Meets E Q (if c then x else y) i := by
  split
  · exact hx ‹c›
  · exact hy ‹¬ c›

theorem meets_get {f : Input → Reader α} :
    Meets E Q (get >>= f) i ↔ Meets E Q (f i) i := .rfl

theorem meets_line {f : Nat → Reader α} :
    Meets E Q (line >>= f) i ↔ Meets E Q (f i.line) i := .rfl

theorem Meets.value {r : Reader α} (h : Meets E Q r i) {a : α} {j : Input}
    (hr : r.on i = (.ok a, j)) : Q a j := by
  unfold Meets at h
  rw [hr] at h
  exact h

theorem Meets.failure {r : Reader α} (h : Meets E Q r i) {e : Halt} {j : Input}
    (hr : r.on i = (.error e, j)) : E e j := by
  unfold Meets at h
  rw [hr] at h
  exact h

end

/-! ## More steps -/

/-- The second reader comes to the same as the first one, unless that runs out of steps. -/
class Refines (r r' : Reader α) : Prop where
  agrees : ∀ i, (r.on i).1 = .error .outOfSteps ∨ r'.on i = r.on i

instance refines_refl (r : Reader α) : Refines r r := ⟨fun _ => .inr rfl⟩

theorem refines_outOfSteps (r : Reader α) : Refines outOfSteps r := ⟨fun _ => .inl rfl⟩

theorem Refines.trans {r₁ r₂ r₃ : Reader α} (h : Refines r₁ r₂) (h' : Refines r₂ r₃) :
    Refines r₁ r₃ := by
  constructor
  intro i
  rcases h.agrees i with hout | heq
  · exact .inl hout
  · rcases h'.agrees i with hout | heq'
    · exact .inl (heq ▸ hout)
    · exact .inr (heq'.trans heq)

/-- An outcome that is not a lack of steps. -/
theorem Refines.on_eq {r r' : Reader α} (h : Refines r r') {i : Input}
    {o : Except Halt α × Input} (ho : r.on i = o) (hout : o.1 ≠ .error .outOfSteps) :
    r'.on i = o := by
  rcases h.agrees i with h | h
  · exact absurd (ho ▸ h) hout
  · exact h.trans ho

instance refines_bind {x y : Reader α} {f g : α → Reader β} [hx : Refines x y]
    [hf : ∀ a, Refines (f a) (g a)] : Refines (x >>= f) (y >>= g) := by
  constructor
  intro i
  have hxi := hx.agrees i
  rw [Reader.on_bind, Reader.on_bind]
  generalize y.on i = v at hxi
  generalize x.on i = u at hxi
  rcases hxi with hout | rfl
  · obtain ⟨r, j⟩ := u
    dsimp only at hout
    subst hout
    exact .inl rfl
  · obtain ⟨r, j⟩ := v
    cases r with
    | ok a => exact (hf a).agrees j
    | error e => exact .inr rfl

protected theorem Refines.bind {x y : Reader α} {f g : α → Reader β} (hx : Refines x y)
    (hf : ∀ a, Refines (f a) (g a)) : Refines (x >>= f) (y >>= g) := refines_bind

instance refines_ite {c : Prop} [Decidable c] {x y x' y' : Reader α} [hx : Refines x x']
    [hy : Refines y y'] : Refines (if c then x else y) (if c then x' else y') := by
  split
  · exact hx
  · exact hy

theorem Reader.on_withInput (i : Input) (r : Reader α) (s : Input) :
    (withInput i r).on s = match r.on i with
      | (.ok a, j) => (.ok (a, j), { s with expanded := j.expanded })
      | (.error e, j) => (.error e, { s with expanded := j.expanded }) := rfl

protected theorem Refines.ite {c : Prop} [Decidable c] {x y x' y' : Reader α} (hx : Refines x x')
    (hy : Refines y y') : Refines (if c then x else y) (if c then x' else y') := refines_ite

instance refines_withInput {r r' : Reader α} (i : Input) [h : Refines r r'] :
    Refines (withInput i r) (withInput i r') := by
  constructor
  intro s
  rw [Reader.on_withInput, Reader.on_withInput]
  rcases h.agrees i with hout | heq
  · generalize r.on i = u at hout
    obtain ⟨u, j⟩ := u
    dsimp only at hout
    subst hout
    exact .inl rfl
  · exact .inr (by rw [heq])

/-- A function that is given one step more. -/
abbrev Grows (f : Nat → Reader α) (n : Nat) : Prop := Refines (f n) (f (n + 1))

theorem refines_of_le {f : Nat → Reader α} (h : ∀ n, Grows f n) {m n : Nat} (hmn : m ≤ n) :
    Refines (f m) (f n) := by
  induction hmn with
  | refl => exact refines_refl _
  | step _ ih => exact ih.trans (h _)

/-! ## The functions of the grammar

Each function is unfolded once on both sides. What it calls is given one step more there, so the two
bodies are related piece by piece; a match on a character is split on both sides, where the cases
that differ contradict each other.
-/

theorem takeWhile_grows (p : Char → Bool) (n : Nat) (acc : Text) :
    Refines (takeWhile p n acc) (takeWhile p (n + 1) acc) := by
  induction n generalizing acc with
  | zero => exact refines_outOfSteps _
  | succ n ih =>
      refine .bind inferInstance fun c => ?_
      cases c with
      | none => infer_instance
      | some c => infer_instance

theorem skipComment_grows (n : Nat) : Refines (skipComment n) (skipComment (n + 1)) := by
  induction n with
  | zero => exact refines_outOfSteps _
  | succ n ih =>
      refine .bind inferInstance fun c => ?_
      cases c with
      | none => infer_instance
      | some c => infer_instance

theorem skipBlanks_grows (n : Nat) : Refines (skipBlanks n) (skipBlanks (n + 1)) := by
  induction n with
  | zero => exact refines_outOfSteps _
  | succ n ih =>
      have hcomment := skipComment_grows n
      refine .bind inferInstance fun c => ?_
      split <;> infer_instance

theorem readSingleQuoted_grows (start n : Nat) (acc : Text) :
    Refines (readSingleQuoted start n acc) (readSingleQuoted start (n + 1) acc) := by
  induction n generalizing acc with
  | zero => exact refines_outOfSteps _
  | succ n ih =>
      refine .bind inferInstance fun c => ?_
      split <;> infer_instance

theorem readBackQuotedText_grows (inQuotes : Bool) (start n : Nat) (acc : Text) :
    Refines (readBackQuotedText inQuotes start n acc)
      (readBackQuotedText inQuotes start (n + 1) acc) := by
  induction n generalizing acc with
  | zero => exact refines_outOfSteps _
  | succ n ih =>
      refine .bind inferInstance fun c => ?_
      split
      · infer_instance
      · -- what a backslash does depends on the character after it
        refine .bind inferInstance fun d => ?_
        split <;> (try split) <;> first | contradiction | infer_instance
      · infer_instance
      · infer_instance

theorem readRawLine_grows (n : Nat) (acc : Text) :
    Refines (readRawLine n acc) (readRawLine (n + 1) acc) := by
  induction n generalizing acc with
  | zero => exact refines_outOfSteps _
  | succ n ih =>
      refine .bind inferInstance fun c => ?_
      split <;> (try split) <;> first | contradiction | infer_instance

theorem readHereDocLines_grows (req : HereDocRequest) (n : Nat) (acc : List Text) :
    Refines (readHereDocLines req n acc) (readHereDocLines req (n + 1) acc) := by
  induction n generalizing acc with
  | zero => exact refines_outOfSteps _
  | succ n ih =>
      have hline := readRawLine_grows n []
      refine .bind inferInstance fun l => ?_
      cases l with
      | none => infer_instance
      | some l => infer_instance

theorem readParamName_grows (n : Nat) (first : Char) :
    Refines (readParamName n first) (readParamName (n + 1) first) := by
  have hname := fun p => takeWhile_grows p n []
  exact refines_ite

/-! ## The long functions of the grammar by their parts

What the functions for lists, pipelines and arms do once they have read what they start with. What is
proved of one of them is proved of its parts, which several of its branches share.
-/

section

variable (n : Nat)

/-- Makes a list of the commands read so far, which are in reverse order. -/
def closeList (acc : List Node) : Reader Node :=
  match Node.ofList acc.reverse with
  | some list => return list
  | none => fail (.internal "empty command list")

/-- Reads on after a separator: the list ends there, or goes on with a further command. -/
def continueList (top : Bool) (acc : List Node) : Reader Node := do
  if top then
    let tk ← peekToken n
    match tk.kind with
    | .newline =>
      let _ ← nextToken n
      closeList acc
    | .endOfInput => closeList acc
    | _ => parseList top n acc
  else
    skipNewlines n
    if (← peekToken n).endsList then closeList acc else parseList top n acc

theorem parseList_eq (top : Bool) (acc : List Node) :
    parseList top (n + 1) acc = (do
      let node ← parseAndOr n
      let tk ← nextToken n
      match tk.kind with
      | .amp => continueList n top (.mk (.background node) node.line :: acc)
      | .semi => continueList n top (node :: acc)
      | .newline => if top then closeList (node :: acc) else continueList n top (node :: acc)
      | .endOfInput =>
        pushToken tk
        closeList (node :: acc)
      | _ =>
        if top then unexpected tk
        else
          pushToken tk
          closeList (node :: acc)) :=
  rfl

/-- Reads a pipeline from the first token of its first stage on. -/
def parsePipelineFrom (negated : Bool) (line : Nat) (tk : Token) : Reader Node := do
  let stage ← parseCommandAt n tk
  let stages ← parseStages n [stage]
  let node := match stages with
    | [single] => single
    | stages => .mk (.pipeline stages) line
  return if negated then .mk (.not node) line else node

theorem parsePipeline_eq :
    parsePipeline (n + 1) = (do
      let first ← commandToken n
      if first.isKeyword "!" then
        let tk ← commandToken n
        parsePipelineFrom n (first.isKeyword "!") first.line tk
      else parsePipelineFrom n (first.isKeyword "!") first.line first) :=
  rfl

/-- Reads on after the commands of an arm: the arms end there, or a further one follows. -/
def continueArms (acc : List CaseArm) : Reader (List CaseArm) := do
  let tk ← nextToken n
  if tk.isKeyword "esac" then return acc.reverse
  match tk.kind with
  | .doubleSemi => parseArms n acc
  | _ => unexpected tk (some ";;")

/-- Reads an arm from the first token of its patterns on, and the arms after it. -/
def parseArmFrom (acc : List CaseArm) (tk : Token) : Reader (List CaseArm) := do
  let patterns ← parsePatterns n [] tk
  skipNewlines n
  let peeked ← peekToken n
  match peeked.kind with
  | .doubleSemi => continueArms n (.mk patterns none :: acc)
  | _ =>
    if peeked.isKeyword "esac" then continueArms n (.mk patterns none :: acc)
    else
      let body ← parseInner n
      continueArms n (.mk patterns (some body) :: acc)

theorem parseArms_eq (acc : List CaseArm) :
    parseArms (n + 1) acc = (do
      skipNewlines n
      let tk ← nextToken n
      if tk.isKeyword "esac" then return acc.reverse
      if tk.isLeftParen then
        let tk ← nextToken n
        parseArmFrom n acc tk
      else parseArmFrom n acc tk) :=
  rfl

end

end CommandShell.Script
