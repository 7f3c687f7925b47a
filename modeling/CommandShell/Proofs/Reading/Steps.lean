import CommandShell.Proofs.Reading

/-!
# More steps change no outcome

The functions that read words and commands call each other. `ReadersGrow n` says of all of them that
one step more than `n` changes nothing but a lack of steps, and it is passed from `n` to `n + 1`
function by function.
-/

namespace CommandShell.Script

open Reader

/-- With one step more than `n`, every function comes to the same or was out of steps. -/
structure ReadersGrow (n : Nat) : Prop where
  readParts : ∀ ctx start depth ps,
    Refines (readParts ctx start n depth ps) (readParts ctx start (n + 1) depth ps)
  readDoubleQuoted : ∀ start ps,
    Refines (readDoubleQuoted start n ps) (readDoubleQuoted start (n + 1) ps)
  readDollar : ∀ q, Refines (readDollar n q) (readDollar (n + 1) q)
  readBracedParam : ∀ q, Refines (readBracedParam n q) (readBracedParam (n + 1) q)
  readArithmetic : ∀ start depth ps,
    Refines (readArithmetic start n depth ps) (readArithmetic start (n + 1) depth ps)
  readBackQuoted : ∀ q start, Refines (readBackQuoted n q start) (readBackQuoted (n + 1) q start)
  readHereDocs : ∀ reqs, Refines (readHereDocs n reqs) (readHereDocs (n + 1) reqs)
  readPending : Refines (readPending n) (readPending (n + 1))
  nextToken : Refines (nextToken n) (nextToken (n + 1))
  peekToken : Refines (peekToken n) (peekToken (n + 1))
  expectKeyword : ∀ kw, Refines (expectKeyword kw n) (expectKeyword kw (n + 1))
  skipNewlines : Refines (skipNewlines n) (skipNewlines (n + 1))
  expandAlias : ∀ tk, Refines (expandAlias n tk) (expandAlias (n + 1) tk)
  commandToken : Refines (commandToken n) (commandToken (n + 1))
  parseTop : Refines (parseTop n) (parseTop (n + 1))
  parseAllFrom : ∀ acc, Refines (parseAllFrom n acc) (parseAllFrom (n + 1) acc)
  parseSubstitution : Refines (parseSubstitution n) (parseSubstitution (n + 1))
  parseInner : Refines (parseInner n) (parseInner (n + 1))
  parseList : ∀ top acc, Refines (parseList top n acc) (parseList top (n + 1) acc)
  parseAndOr : Refines (parseAndOr n) (parseAndOr (n + 1))
  parseAndOrRest : ∀ left, Refines (parseAndOrRest n left) (parseAndOrRest (n + 1) left)
  parsePipeline : Refines (parsePipeline n) (parsePipeline (n + 1))
  parseStages : ∀ acc, Refines (parseStages n acc) (parseStages (n + 1) acc)
  parseCommandAt : ∀ tk, Refines (parseCommandAt n tk) (parseCommandAt (n + 1) tk)
  closeCompound : ∀ line body,
    Refines (closeCompound n line body) (closeCompound (n + 1) line body)
  parseSimple : ∀ line assigns argv redirects tk,
    Refines (parseSimple n line assigns argv redirects tk)
      (parseSimple (n + 1) line assigns argv redirects tk)
  parseFunction : ∀ name line,
    Refines (parseFunction n name line) (parseFunction (n + 1) name line)
  parseRedirect : ∀ fd op, Refines (parseRedirect n fd op) (parseRedirect (n + 1) fd op)
  parseRedirects : ∀ acc, Refines (parseRedirects n acc) (parseRedirects (n + 1) acc)
  parseIf : ∀ line, Refines (parseIf n line) (parseIf (n + 1) line)
  parseLoop : ∀ isWhile line, Refines (parseLoop n isWhile line) (parseLoop (n + 1) isWhile line)
  parseFor : ∀ line, Refines (parseFor n line) (parseFor (n + 1) line)
  parseItems : ∀ acc, Refines (parseItems n acc) (parseItems (n + 1) acc)
  parseCase : ∀ line, Refines (parseCase n line) (parseCase (n + 1) line)
  parseArms : ∀ acc, Refines (parseArms n acc) (parseArms (n + 1) acc)
  parsePatterns : ∀ acc tk, Refines (parsePatterns n acc tk) (parsePatterns (n + 1) acc tk)

namespace ReadersGrow

theorem zero : ReadersGrow 0 := by
  constructor <;> intros <;> exact refines_outOfSteps _

variable {n : Nat}

/-! ## Words

A function is unfolded once on both sides and taken apart along its sequences, branches and matches.
-/

theorem readParts_succ (h : ReadersGrow n) (ctx : WordContext) (start depth : Nat)
    (ps : PartsSoFar) :
    Refines (Script.readParts ctx start (n + 1) depth ps)
      (Script.readParts ctx start (n + 2) depth ps) := by
  have hparts := h.readParts
  have hdouble := h.readDoubleQuoted
  have hdollar := h.readDollar
  have hback := h.readBackQuoted
  have hsingle := readSingleQuoted_grows start n
  unfold Script.readParts
  refine .bind inferInstance fun c => ?_
  cases c with
  | none => infer_instance
  | some c =>
      repeat' first
        | infer_instance
        | refine Refines.ite ?_ ?_
        | refine Refines.bind inferInstance fun _ => ?_
        | (split <;> try split)

theorem readDoubleQuoted_succ (h : ReadersGrow n) (start : Nat) (ps : PartsSoFar) :
    Refines (Script.readDoubleQuoted start (n + 1) ps)
      (Script.readDoubleQuoted start (n + 2) ps) := by
  have hdouble := h.readDoubleQuoted
  have hdollar := h.readDollar
  have hback := h.readBackQuoted
  unfold Script.readDoubleQuoted
  repeat' first
    | infer_instance
    | refine Refines.bind inferInstance fun _ => ?_
    | split

theorem readDollar_succ (h : ReadersGrow n) (q : Bool) :
    Refines (Script.readDollar (n + 1) q) (Script.readDollar (n + 2) q) := by
  have hbraced := h.readBracedParam
  have harith := h.readArithmetic
  have hsub := h.parseSubstitution
  have htake := fun p => takeWhile_grows p n []
  refine .bind inferInstance fun x => ?_
  split <;> infer_instance

theorem readBracedParam_succ (h : ReadersGrow n) (q : Bool) :
    Refines (Script.readBracedParam (n + 1) q) (Script.readBracedParam (n + 2) q) := by
  have hparts := h.readParts
  have hname := readParamName_grows n
  unfold Script.readBracedParam
  repeat' first
    | infer_instance
    | refine Refines.ite ?_ ?_
    | refine Refines.bind inferInstance fun _ => ?_

theorem readArithmetic_succ (h : ReadersGrow n) (start depth : Nat) (ps : PartsSoFar) :
    Refines (Script.readArithmetic start (n + 1) depth ps)
      (Script.readArithmetic start (n + 2) depth ps) := by
  have harith := h.readArithmetic
  have hdollar := h.readDollar
  have hback := h.readBackQuoted
  have hdouble := h.readDoubleQuoted
  have hsingle := fun start => readSingleQuoted_grows start n []
  unfold Script.readArithmetic
  repeat' first
    | infer_instance
    | refine Refines.bind inferInstance fun _ => ?_
    | split

theorem readBackQuoted_succ (h : ReadersGrow n) (q : Bool) (start : Nat) :
    Refines (Script.readBackQuoted (n + 1) q start) (Script.readBackQuoted (n + 2) q start) := by
  have hall := h.parseAllFrom
  have htext := fun q start => readBackQuotedText_grows q start n []
  exact refines_bind

theorem readHereDocs_succ (h : ReadersGrow n) (reqs : List HereDocRequest) :
    Refines (Script.readHereDocs (n + 1) reqs) (Script.readHereDocs (n + 2) reqs) := by
  have hdocs := h.readHereDocs
  have hparts := h.readParts
  have hlines := fun req => readHereDocLines_grows req n []
  cases reqs with
  | nil => exact refines_refl _
  | cons req reqs => exact refines_bind

/-! ## Tokens -/

theorem readPending_succ (h : ReadersGrow n) :
    Refines (Script.readPending (n + 1)) (Script.readPending (n + 2)) := by
  have hdocs := h.readHereDocs
  exact refines_bind

theorem nextToken_succ (h : ReadersGrow n) :
    Refines (Script.nextToken (n + 1)) (Script.nextToken (n + 2)) := by
  have hpending := h.readPending
  have hparts := h.readParts
  have hblanks := skipBlanks_grows n
  unfold Script.nextToken
  repeat' first
    | infer_instance
    | refine Refines.bind inferInstance fun _ => ?_
    | split

theorem peekToken_succ (h : ReadersGrow n) :
    Refines (Script.peekToken (n + 1)) (Script.peekToken (n + 2)) := by
  have hnext := h.nextToken
  exact refines_bind

theorem expectKeyword_succ (h : ReadersGrow n) (kw : Text) :
    Refines (Script.expectKeyword kw (n + 1)) (Script.expectKeyword kw (n + 2)) := by
  have hnext := h.nextToken
  exact refines_bind

theorem skipNewlines_succ (h : ReadersGrow n) :
    Refines (Script.skipNewlines (n + 1)) (Script.skipNewlines (n + 2)) := by
  have hpeek := h.peekToken
  have hnext := h.nextToken
  have hnewlines := h.skipNewlines
  exact refines_bind

theorem expandAlias_succ (h : ReadersGrow n) (tk : Token) :
    Refines (Script.expandAlias (n + 1) tk) (Script.expandAlias (n + 2) tk) := by
  have hnext := h.nextToken
  have halias := h.expandAlias
  unfold Script.expandAlias
  split
  · infer_instance
  · refine .bind inferInstance fun t => ?_
    cases t with
    | none => infer_instance
    | some t => infer_instance

theorem commandToken_succ (h : ReadersGrow n) :
    Refines (Script.commandToken (n + 1)) (Script.commandToken (n + 2)) := by
  have hnext := h.nextToken
  have halias := h.expandAlias
  exact refines_bind

/-! ## Commands -/

theorem parseTop_succ (h : ReadersGrow n) :
    Refines (Script.parseTop (n + 1)) (Script.parseTop (n + 2)) := by
  have hnext := h.nextToken
  have hlist := h.parseList
  refine .bind inferInstance fun _ => .bind inferInstance fun tk => ?_
  split <;> infer_instance

theorem parseAllFrom_succ (h : ReadersGrow n) (acc : List Node) :
    Refines (Script.parseAllFrom (n + 1) acc) (Script.parseAllFrom (n + 2) acc) := by
  have htop := h.parseTop
  have hall := h.parseAllFrom
  refine .bind inferInstance fun x => ?_
  split <;> infer_instance

theorem parseSubstitution_succ (h : ReadersGrow n) :
    Refines (Script.parseSubstitution (n + 1)) (Script.parseSubstitution (n + 2)) := by
  have hnewlines := h.skipNewlines
  have hpeek := h.peekToken
  have hnext := h.nextToken
  have hinner := h.parseInner
  exact refines_bind

theorem parseInner_succ (h : ReadersGrow n) :
    Refines (Script.parseInner (n + 1)) (Script.parseInner (n + 2)) := by
  have hnewlines := h.skipNewlines
  have hlist := h.parseList
  exact refines_bind

theorem parseList_succ (h : ReadersGrow n) (top : Bool) (acc : List Node) :
    Refines (Script.parseList top (n + 1) acc) (Script.parseList top (n + 2) acc) := by
  have handor := h.parseAndOr
  have hnext := h.nextToken
  have hpeek := h.peekToken
  have hnewlines := h.skipNewlines
  have hlist := h.parseList
  unfold Script.parseList
  repeat' first
    | infer_instance
    | refine Refines.bind inferInstance fun _ => ?_
    | split

theorem parseAndOr_succ (h : ReadersGrow n) :
    Refines (Script.parseAndOr (n + 1)) (Script.parseAndOr (n + 2)) := by
  have hpipeline := h.parsePipeline
  have hrest := h.parseAndOrRest
  exact refines_bind

theorem parseAndOrRest_succ (h : ReadersGrow n) (left : Node) :
    Refines (Script.parseAndOrRest (n + 1) left) (Script.parseAndOrRest (n + 2) left) := by
  have hnext := h.nextToken
  have hnewlines := h.skipNewlines
  have hpipeline := h.parsePipeline
  have hrest := h.parseAndOrRest
  refine .bind inferInstance fun x => ?_
  split <;> infer_instance

theorem parsePipeline_succ (h : ReadersGrow n) :
    Refines (Script.parsePipeline (n + 1)) (Script.parsePipeline (n + 2)) := by
  have htoken := h.commandToken
  have hcommand := h.parseCommandAt
  have hstages := h.parseStages
  exact refines_bind

theorem parseStages_succ (h : ReadersGrow n) (acc : List Node) :
    Refines (Script.parseStages (n + 1) acc) (Script.parseStages (n + 2) acc) := by
  have hnext := h.nextToken
  have hnewlines := h.skipNewlines
  have htoken := h.commandToken
  have hcommand := h.parseCommandAt
  have hstages := h.parseStages
  refine .bind inferInstance fun x => ?_
  split <;> infer_instance

theorem parseCommandAt_succ (h : ReadersGrow n) (tk : Token) :
    Refines (Script.parseCommandAt (n + 1) tk) (Script.parseCommandAt (n + 2) tk) := by
  have hinner := h.parseInner
  have hnext := h.nextToken
  have hredirects := h.parseRedirects
  have hsimple := h.parseSimple
  have hif := h.parseIf
  have hloop := h.parseLoop
  have hfor := h.parseFor
  have hcase := h.parseCase
  have hclose := h.closeCompound
  have hkeyword := h.expectKeyword
  unfold Script.parseCommandAt
  repeat' first
    | infer_instance
    | refine Refines.bind inferInstance fun _ => ?_
    | split

theorem closeCompound_succ (h : ReadersGrow n) (line : Nat) (body : Node) :
    Refines (Script.closeCompound (n + 1) line body) (Script.closeCompound (n + 2) line body) := by
  have hredirects := h.parseRedirects
  exact refines_bind

theorem parseSimple_succ (h : ReadersGrow n) (line : Nat) (assigns argv : List Word)
    (redirects : List Redirect) (tk : Token) :
    Refines (Script.parseSimple (n + 1) line assigns argv redirects tk)
      (Script.parseSimple (n + 2) line assigns argv redirects tk) := by
  have hnext := h.nextToken
  have halias := h.expandAlias
  have hsimple := h.parseSimple
  have hredirect := h.parseRedirect
  have hpeek := h.peekToken
  have hfunction := h.parseFunction
  unfold Script.parseSimple
  split <;> infer_instance

theorem parseFunction_succ (h : ReadersGrow n) (name : Word) (line : Nat) :
    Refines (Script.parseFunction (n + 1) name line) (Script.parseFunction (n + 2) name line) := by
  have hnext := h.nextToken
  have hnewlines := h.skipNewlines
  have htoken := h.commandToken
  have hcommand := h.parseCommandAt
  refine .bind inferInstance fun x => ?_
  split <;> infer_instance

theorem parseRedirect_succ (h : ReadersGrow n) (fd : Option Nat) (op : RedirectOp) :
    Refines (Script.parseRedirect (n + 1) fd op) (Script.parseRedirect (n + 2) fd op) := by
  have hnext := h.nextToken
  exact refines_bind

theorem parseRedirects_succ (h : ReadersGrow n) (acc : List Redirect) :
    Refines (Script.parseRedirects (n + 1) acc) (Script.parseRedirects (n + 2) acc) := by
  have hnext := h.nextToken
  have hredirect := h.parseRedirect
  have hredirects := h.parseRedirects
  refine .bind inferInstance fun x => ?_
  split <;> infer_instance

theorem parseIf_succ (h : ReadersGrow n) (line : Nat) :
    Refines (Script.parseIf (n + 1) line) (Script.parseIf (n + 2) line) := by
  have hinner := h.parseInner
  have hkeyword := h.expectKeyword
  have hnext := h.nextToken
  have hif := h.parseIf
  exact refines_bind

theorem parseLoop_succ (h : ReadersGrow n) (isWhile : Bool) (line : Nat) :
    Refines (Script.parseLoop (n + 1) isWhile line) (Script.parseLoop (n + 2) isWhile line) := by
  have hinner := h.parseInner
  have hkeyword := h.expectKeyword
  exact refines_bind

theorem parseFor_succ (h : ReadersGrow n) (line : Nat) :
    Refines (Script.parseFor (n + 1) line) (Script.parseFor (n + 2) line) := by
  have hnext := h.nextToken
  have hnewlines := h.skipNewlines
  have hitems := h.parseItems
  have hkeyword := h.expectKeyword
  have hinner := h.parseInner
  unfold Script.parseFor
  repeat' first
    | infer_instance
    | refine Refines.bind inferInstance fun _ => ?_
    | split

theorem parseItems_succ (h : ReadersGrow n) (acc : List Word) :
    Refines (Script.parseItems (n + 1) acc) (Script.parseItems (n + 2) acc) := by
  have hnext := h.nextToken
  have hitems := h.parseItems
  refine .bind inferInstance fun x => ?_
  split <;> infer_instance

theorem parseCase_succ (h : ReadersGrow n) (line : Nat) :
    Refines (Script.parseCase (n + 1) line) (Script.parseCase (n + 2) line) := by
  have hnext := h.nextToken
  have hnewlines := h.skipNewlines
  have hkeyword := h.expectKeyword
  have harms := h.parseArms
  refine .bind inferInstance fun x => ?_
  split <;> infer_instance

theorem parseArms_succ (h : ReadersGrow n) (acc : List CaseArm) :
    Refines (Script.parseArms (n + 1) acc) (Script.parseArms (n + 2) acc) := by
  have hnewlines := h.skipNewlines
  have hnext := h.nextToken
  have hpatterns := h.parsePatterns
  have hpeek := h.peekToken
  have hinner := h.parseInner
  have harms := h.parseArms
  unfold Script.parseArms
  repeat' first
    | infer_instance
    | refine Refines.bind inferInstance fun _ => ?_
    | split

theorem parsePatterns_succ (h : ReadersGrow n) (acc : List Word) (tk : Token) :
    Refines (Script.parsePatterns (n + 1) acc tk) (Script.parsePatterns (n + 2) acc tk) := by
  have hnext := h.nextToken
  have hpatterns := h.parsePatterns
  unfold Script.parsePatterns
  split
  · refine .bind inferInstance fun separator => ?_
    split <;> infer_instance
  · infer_instance

theorem succ (h : ReadersGrow n) : ReadersGrow (n + 1) where
  readParts := h.readParts_succ
  readDoubleQuoted := h.readDoubleQuoted_succ
  readDollar := h.readDollar_succ
  readBracedParam := h.readBracedParam_succ
  readArithmetic := h.readArithmetic_succ
  readBackQuoted := h.readBackQuoted_succ
  readHereDocs := h.readHereDocs_succ
  readPending := h.readPending_succ
  nextToken := h.nextToken_succ
  peekToken := h.peekToken_succ
  expectKeyword := h.expectKeyword_succ
  skipNewlines := h.skipNewlines_succ
  expandAlias := h.expandAlias_succ
  commandToken := h.commandToken_succ
  parseTop := h.parseTop_succ
  parseAllFrom := h.parseAllFrom_succ
  parseSubstitution := h.parseSubstitution_succ
  parseInner := h.parseInner_succ
  parseList := h.parseList_succ
  parseAndOr := h.parseAndOr_succ
  parseAndOrRest := h.parseAndOrRest_succ
  parsePipeline := h.parsePipeline_succ
  parseStages := h.parseStages_succ
  parseCommandAt := h.parseCommandAt_succ
  closeCompound := h.closeCompound_succ
  parseSimple := h.parseSimple_succ
  parseFunction := h.parseFunction_succ
  parseRedirect := h.parseRedirect_succ
  parseRedirects := h.parseRedirects_succ
  parseIf := h.parseIf_succ
  parseLoop := h.parseLoop_succ
  parseFor := h.parseFor_succ
  parseItems := h.parseItems_succ
  parseCase := h.parseCase_succ
  parseArms := h.parseArms_succ
  parsePatterns := h.parsePatterns_succ

end ReadersGrow

/-- One step more changes no outcome of any function. -/
theorem readersGrow (n : Nat) : ReadersGrow n := by
  induction n with
  | zero => exact .zero
  | succ n ih => exact ih.succ

end CommandShell.Script
