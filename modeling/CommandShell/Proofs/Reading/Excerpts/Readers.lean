import CommandShell.Proofs.Reading.Excerpts
import CommandShell.Proofs.Reading.Words

/-!
# Excerpts and the functions of the grammar

Every function of the grammar gives the same on an excerpt as where the excerpt stands, further down.
-/

namespace CommandShell.Script

open Reader

variable {α β : Type} {d : Nat}

/-- Without aliases every reader keeps to the lines. -/
theorem keepsLines_of_obeys {r : Reader α} (h : ∀ L : Law, Obeys L r) (S : Text) (start : Nat) :
    KeepsLines .empty S start r :=
  (h (linedLaw (A := .empty) nofun S start)).holds

/-- Reads a backslash between tokens. Before the end of a line it continues the line, and any other one
is put back. -/
def readBackslash (n : Nat) : Reader Unit := do
  let _ ← next
  if (← peek) = some '\n' then
    let _ ← next
    skipBlanks n
  else putBack '\\'

theorem readBackslash_on {n : Nat} {i j k : Input} {o : Option Char}
    (hj : next.on i = (.ok (some '\\'), j)) (hk : peek.on j = (.ok o, k)) :
    (readBackslash n).on i = (if o = some '\n' then do
      let _ ← next
      skipBlanks n
    else putBack '\\').on k := by
  unfold readBackslash
  rw [Reader.on_bind, hj]
  dsimp only
  rw [Reader.on_bind, hk]

theorem Alone.putBack {i : Input} (h : Alone i) : Alone ((Reader.putBack '\\').on i).2 :=
  .of_lined { h.lined with unread := List.forall_mem_cons.mpr ⟨rfl, h.lined.unread⟩ } h.closed

/-- What none of the characters that end words is. -/
theorem forall_wordBreak {p : Char → Bool} (h : (" \t\n;&|<>()" : Text).all (fun c => !p c) = true)
    (c : Char) (hc : isWordBreak c = true) : p c = false :=
  (Bool.not_eq_true' _).mp (List.all_eq_true.mp h c (List.contains_iff_mem.mp hc))

namespace Mirrors

variable {f : α → α} {g : β → β} {x y : Reader α}

/-! ## Small readers -/

theorem takeWhile {p : Char → Bool} (hp : ∀ c, isWordBreak c = true → p c = false) (n : Nat)
    (acc : Text) : Mirrors d (fun t => t) (Script.takeWhile p n acc) (Script.takeWhile p n acc) := by
  induction n generalizing acc with
  | zero => exact .throw _ _
  | succ n ih =>
      refine .peek (fun c => ?_) (fun b hb => ?_)
      · exact .ite (.bind .next fun _ => ih _) (.pure rfl)
      · cases b with
        | none => exact (Mirrors.pure rfl).on _
        | some c =>
            dsimp only
            rw [if_neg (by simp [hp c (hb c rfl)])]
            exact (Mirrors.pure rfl).on _

theorem skipComment (n : Nat) :
    Mirrors d (fun u => u) (Script.skipComment n) (Script.skipComment n) := by
  induction n with
  | zero => exact .throw _ _
  | succ n ih =>
      refine .peek (fun c => ?_) (fun b hb => ?_)
      · exact .ite (.pure rfl) (.bind .next fun _ => ih)
      · cases b with
        | none => exact (Mirrors.pure rfl).on _
        | some c =>
            dsimp only
            split
            · exact (Mirrors.pure rfl).on _
            · exact .next fun _ => keepsLines_of_obeys fun _ => inferInstance

/-- A character that was taken is put back, as if it had not been. -/
theorem since_putBack {i j k l : Input} (hi : Since i j ['\\']) (hsame : Same j k)
    (hl : (putBack '\\').on k = (.ok (), l)) : Since i l [] := by
  cases hl
  refine .refl ?_ ?_ ?_
  · rw [hi.ahead, ← hsame.ahead]
    rfl
  · show k.captures.map (List.drop 1) = i.captures
    rw [hsame.captures, hi.captures, List.map_map]
    exact (List.map_congr_left fun c _ => rfl).trans (List.map_id _)
  · exact Nat.le_trans hi.nextTicket (Nat.le_of_eq hsame.nextTicket.symm)

theorem excerpt_putBack {rest : Text} {i s : Input} (h : Excerpt d rest i s) :
    Excerpt d rest ((putBack '\\').on i).2 ((putBack '\\').on s).2 where
  toAlike := { h.toAlike with }
  long := h.long.putBack
  short := h.short.putBack
  ahead := congrArg ('\\' :: ·) h.ahead
  line := h.line

theorem readBackslash {n : Nat}
    (ih : Mirrors d (fun u => u) (Script.skipBlanks n) (Script.skipBlanks n)) :
    MirrorsBefore '\\' d (fun u => u) (Script.readBackslash n) (Script.readBackslash n) where
  keeps := keepsLines_of_obeys fun L => by unfold Script.readBackslash; infer_instance
  tracks rest i s hrest hcut hhead := by
    obtain ⟨r, hs⟩ := List.head?_eq_some_iff.mp hhead
    obtain ⟨j, s₁, hj, hs₁, hcut₁, hahead, hi₁, hi₂⟩ := hcut.next_on hs
    obtain ⟨k, s₂, hk, hs₂, hcut₂, hsame, hsame'⟩ := hcut₁.peek_on
    have hstep : InStep d rest i s k s₂ :=
      ⟨hcut₂, ['\\'] ++ [], hi₁.trans hsame.since, hi₂.trans hsame'.since⟩
    have hx := readBackslash_on (n := n) hj hk
    have hy := readBackslash_on (n := n) hs₁ hs₂
    -- a character that is put back undoes the steps before it
    have hback : j.ahead.head? ≠ some '\n' → s₁.ahead.head? ≠ some '\n' →
        Tracks d (fun u => u) rest (Script.readBackslash n) (Script.readBackslash n) i s := by
      intro hleft hright
      rw [if_neg hleft] at hx
      rw [if_neg hright] at hy
      exact .of_ok hx hy
        ⟨excerpt_putBack hcut₂, [], since_putBack hi₁ hsame rfl, since_putBack hi₂ hsame' rfl⟩
    cases r with
    | cons c r =>
        have hhead : j.ahead.head? = some c := by rw [hcut₁.ahead, hahead]; rfl
        by_cases hc : c = '\n'
        · rw [if_pos (by rw [hhead, hc])] at hx
          rw [if_pos (by rw [hahead, hc]; rfl)] at hy
          exact ((Mirrors.bind .next fun _ => ih).tracks rest k s₂ hrest hcut₂).after hstep hx hy
        · refine hback ?_ ?_
          · rw [hhead]
            exact fun h => hc (Option.some.inj h)
          · rw [hahead]
            exact fun h => hc (Option.some.inj h)
    | nil =>
        have hhead : j.ahead.head? = rest.head? := by rw [hcut₁.ahead, hahead]; rfl
        rw [hahead, if_neg nofun] at hy
        by_cases hc : rest.head? = some '\n'
        · rw [if_pos (hhead.trans hc)] at hx
          have hend : MirrorsAtEnd (some '\n') d (fun u => u)
              (Reader.next >>= fun _ => Script.skipBlanks n) (putBack '\\') :=
            .next fun _ => keepsLines_of_obeys fun _ => inferInstance
          exact (hend.tracks rest k s₂ hrest hcut₂ ⟨hsame'.ahead.trans hahead, hc⟩).after hstep hx hy
        · exact hback (by rw [hhead]; exact hc) (by rw [hahead]; nofun)

theorem skipBlanks (n : Nat) :
    Mirrors d (fun u => u) (Script.skipBlanks n) (Script.skipBlanks n) := by
  induction n with
  | zero => exact .throw _ _
  | succ n ih =>
      refine .peekBefore (fun c => ?_) (fun b hb => ?_)
      · split
        · exact (Mirrors.bind .next fun _ => ih).on _
        · exact (Mirrors.bind .next fun _ => ih).on _
        · exact (Mirrors.bind (skipComment n) fun _ => ih).on _
        · rename_i heq
          cases heq
          exact readBackslash ih
        · exact (Mirrors.pure rfl).on _
      · split
        · exact .next fun _ => keepsLines_of_obeys fun _ => inferInstance
        · exact .next fun _ => keepsLines_of_obeys fun _ => inferInstance
        · exact absurd (hb '#' rfl) (by decide)
        · exact absurd (hb '\\' rfl) (by decide)
        · exact (Mirrors.pure rfl).on _

theorem readSingleQuoted (start start' n : Nat) (acc : Text) :
    Mirrors d (fun t => t) (Script.readSingleQuoted start n acc)
      (Script.readSingleQuoted start' n acc) := by
  induction n generalizing acc with
  | zero => exact .throw _ _
  | succ n ih =>
      refine .bind .next fun c => ?_
      split
      · exact .pure rfl
      · exact ih _
      · exact .throw _ _

theorem readBackQuotedText (q : Bool) (start start' n : Nat) (acc : Text) :
    Mirrors d (fun t => t) (Script.readBackQuotedText q start n acc)
      (Script.readBackQuotedText q start' n acc) := by
  induction n generalizing acc with
  | zero => exact .throw _ _
  | succ n ih =>
      refine .bind .next fun c => ?_
      split
      · exact .pure rfl
      · refine .bind .next fun c => ?_
        split
        · exact ih _
        · exact .ite (ih _) (ih _)
        · exact .throw _ _
      · exact ih _
      · exact .throw _ _

theorem readRawLine (n : Nat) (acc : Text) :
    Mirrors d (fun t => t) (Script.readRawLine n acc) (Script.readRawLine n acc) := by
  induction n generalizing acc with
  | zero => exact .throw _ _
  | succ n ih =>
      refine .bind .next fun c => ?_
      split
      · exact .pure rfl
      · exact ih _
      · exact .pure rfl

theorem readHereDocLines (req : HereDocRequest) (n : Nat) (acc : List Text) :
    Mirrors d (fun t => t) (Script.readHereDocLines req n acc)
      (Script.readHereDocLines req n acc) := by
  induction n generalizing acc with
  | zero => exact .throw _ _
  | succ n ih =>
      refine .bind (readRawLine n []) fun l => ?_
      cases l with
      | none => exact .pure rfl
      | some l => exact .ite (.pure rfl) (ih _)

theorem nextOfParam : Mirrors d (fun c => c) Script.nextOfParam Script.nextOfParam := by
  refine .bind .next fun c => ?_
  cases c with
  | none => exact .throw _ _
  | some c => exact .pure rfl

theorem readParamName (n : Nat) (first : Char) :
    Mirrors d (fun t => t) (Script.readParamName n first) (Script.readParamName n first) := by
  refine .ite ?_ (.ite ?_ (.ite (.pure rfl) (.throw _ _)))
  · exact .bind (takeWhile (forall_wordBreak rfl) n []) fun _ => .pure rfl
  · exact .bind (takeWhile (forall_wordBreak rfl) n []) fun _ => .pure rfl

/-- A second character is taken if it is the one that makes a longer operator. -/
theorem optional {c : Char} {x y x' y' : Reader β}
    (htwo : Mirrors d g x y) (hone : Mirrors d g x' y') :
    Mirrors d g
      (do
        if (← Reader.peek) = some c then
          let _ ← Reader.next
          x
        else x')
      (do
        if (← Reader.peek) = some c then
          let _ ← Reader.next
          y
        else y') := by
  refine .peek (fun c => .ite (.bind .next fun _ => htwo) hone) (fun b hb => ?_)
  rw [if_neg (c := none = some c) nofun]
  split
  · rename_i heq
    subst heq
    exact .next fun _ => htwo.keeps
  · exact hone.on _

theorem readOperator (second : Char) {one two : TokenKind} (hone : one = one.down d)
    (htwo : two = two.down d) :
    Mirrors d (TokenKind.down d) (Script.readOperator second one two)
      (Script.readOperator second one two) :=
  .bind .next fun _ => optional (.pure htwo) (.pure hone)

theorem readParamOp (c : Char) :
    Mirrors d (fun o => o) (Script.readParamOp c) (Script.readParamOp c) := by
  unfold Script.readParamOp
  split
  · exact .pure rfl
  · exact .pure rfl
  · exact .pure rfl
  · exact .pure rfl
  · exact optional (.pure rfl) (.pure rfl)
  · exact optional (.pure rfl) (.pure rfl)
  · exact .throw _ _

theorem readRedirectOp (fd : Option Nat) :
    Mirrors d (TokenKind.down d) (Script.readRedirectOp fd) (Script.readRedirectOp fd) := by
  have hop : ∀ op : RedirectOp, Mirrors d (TokenKind.down d)
      ((pure op : Reader RedirectOp) >>= fun op => pure (TokenKind.redirect fd op))
      ((pure op : Reader RedirectOp) >>= fun op => pure (TokenKind.redirect fd op)) :=
    fun op => .bind (f := fun o => o) (.pure rfl) fun _ => .pure rfl
  have hkeeps : ∀ op : RedirectOp, ∀ c : Option Char, ∀ S start, KeepsLines .empty S start
      ((pure op : Reader RedirectOp) >>= fun op => pure (TokenKind.redirect fd op)) :=
    fun op _ => (hop op).keeps
  refine .bind .next fun c => ?_
  split
  · refine .peek (fun c => ?_) (fun b hb => ?_)
    · split
      · exact .bind .next fun _ => optional (hop _) (hop _)
      · exact .bind .next fun _ => hop _
      · exact .bind .next fun _ => hop _
      · exact hop _
    · split
      · exact .next fun _ => (optional (hop .hereDocStrip) (hop .hereDoc)).keeps
      · exact .next (hkeeps _)
      · exact .next (hkeeps _)
      · exact (hop _).on _
  · refine .peek (fun c => ?_) (fun b hb => ?_)
    · split
      · exact .bind .next fun _ => hop _
      · exact .bind .next fun _ => hop _
      · exact .bind .next fun _ => hop _
      · exact hop _
    · split
      · exact .next (hkeeps _)
      · exact .next (hkeeps _)
      · exact .next (hkeeps _)
      · exact (hop _).on _
  · exact .bind (f := fun o => o) (.throw _ _) fun _ => .pure rfl

end Mirrors

theorem MirrorsAtEnd.readRedirectOp (c : Char) (fd : Option Nat) {g : TokenKind → TokenKind}
    {y : Reader TokenKind} : MirrorsAtEnd (some c) d g (Script.readRedirectOp fd) y := by
  refine .next fun c => keepsLines_of_obeys fun L => ?_
  repeat' first
    | infer_instance
    | refine Obeys.bind inferInstance fun _ => ?_
    | split

/-! ## The functions of the grammar -/

/-- What is read where a command may start, `d` lines further down. -/
def Parsed.down (d : Nat) : Parsed → Parsed
  | .command n => .command (n.down d)
  | p => p

/-- With `n` steps every function of the grammar gives the same further down. -/
structure ReadersMirror (d n : Nat) : Prop where
  readParts : ∀ ctx start start' depth ⦃ps ps'⦄, ps' = Part.downAll d ps →
    Mirrors d (Part.downAll d) (readParts ctx start n depth ps) (readParts ctx start' n depth ps')
  readDoubleQuoted : ∀ start start' ⦃ps ps'⦄, ps' = Part.downAll d ps →
    Mirrors d (Part.downAll d) (readDoubleQuoted start n ps) (readDoubleQuoted start' n ps')
  readDollar : ∀ q, Mirrors d (Option.map (Part.down d)) (readDollar n q) (readDollar n q)
  readBracedParam : ∀ q, Mirrors d (Part.down d) (readBracedParam n q) (readBracedParam n q)
  readArithmetic : ∀ start start' depth ⦃ps ps'⦄, ps' = Part.downAll d ps →
    Mirrors d (Part.downAll d) (readArithmetic start n depth ps) (readArithmetic start' n depth ps')
  readBackQuoted : ∀ q start start',
    Mirrors d (Part.down d) (readBackQuoted n q start) (readBackQuoted n q start')
  /-- Only what was asked for is read. -/
  readHereDocs : ∀ reqs rest i s, AtBreak rest → Excerpt d rest i s → (i.nextTicket = 0 → reqs = []) →
    Tracks d (fun u => u) rest (readHereDocs n reqs) (readHereDocs n reqs) i s
  readPending : Mirrors d (fun u => u) (readPending n) (readPending n)
  nextToken : Mirrors d (Token.down d) (nextToken n) (nextToken n)
  peekToken : Mirrors d (Token.down d) (peekToken n) (peekToken n)
  expectKeyword : ∀ kw, Mirrors d (fun u => u) (expectKeyword kw n) (expectKeyword kw n)
  skipNewlines : Mirrors d (fun u => u) (skipNewlines n) (skipNewlines n)
  expandAlias : ∀ tk, Mirrors d (Token.down d) (expandAlias n tk) (expandAlias n (tk.down d))
  commandToken : Mirrors d (Token.down d) (commandToken n) (commandToken n)
  parseTop : Mirrors d (Parsed.down d) (parseTop n) (parseTop n)
  parseAllFrom : ∀ acc,
    Mirrors d (Node.downAll d) (parseAllFrom n acc) (parseAllFrom n (Node.downAll d acc))
  parseSubstitution :
    Mirrors d (Option.map (Node.down d)) (parseSubstitution n) (parseSubstitution n)
  parseInner : Mirrors d (Node.down d) (parseInner n) (parseInner n)
  parseList : ∀ top acc,
    Mirrors d (Node.down d) (parseList top n acc) (parseList top n (Node.downAll d acc))
  parseAndOr : Mirrors d (Node.down d) (parseAndOr n) (parseAndOr n)
  parseAndOrRest : ∀ left,
    Mirrors d (Node.down d) (parseAndOrRest n left) (parseAndOrRest n (left.down d))
  parsePipeline : Mirrors d (Node.down d) (parsePipeline n) (parsePipeline n)
  parseStages : ∀ acc,
    Mirrors d (Node.downAll d) (parseStages n acc) (parseStages n (Node.downAll d acc))
  parseCommandAt : ∀ tk,
    Mirrors d (Node.down d) (parseCommandAt n tk) (parseCommandAt n (tk.down d))
  closeCompound : ∀ line body, Mirrors d (Node.down d) (closeCompound n line body)
    (closeCompound n (line + d) (body.down d))
  parseSimple : ∀ line as ws rs tk, Mirrors d (Node.down d) (parseSimple n line as ws rs tk)
    (parseSimple n (line + d) (Word.downAll d as) (Word.downAll d ws) (Redirect.downAll d rs)
      (tk.down d))
  parseFunction : ∀ name line, Mirrors d (Node.down d) (parseFunction n name line)
    (parseFunction n (name.down d) (line + d))
  parseRedirect : ∀ fd op,
    Mirrors d (Redirect.down d) (parseRedirect n fd op) (parseRedirect n fd op)
  parseRedirects : ∀ acc,
    Mirrors d (Redirect.downAll d) (parseRedirects n acc) (parseRedirects n (Redirect.downAll d acc))
  parseIf : ∀ line, Mirrors d (Node.down d) (parseIf n line) (parseIf n (line + d))
  parseLoop : ∀ isWhile line,
    Mirrors d (Node.down d) (parseLoop n isWhile line) (parseLoop n isWhile (line + d))
  parseFor : ∀ line, Mirrors d (Node.down d) (parseFor n line) (parseFor n (line + d))
  parseItems : ∀ acc,
    Mirrors d (Word.downAll d) (parseItems n acc) (parseItems n (Word.downAll d acc))
  parseCase : ∀ line, Mirrors d (Node.down d) (parseCase n line) (parseCase n (line + d))
  parseArms : ∀ acc,
    Mirrors d (CaseArm.downAll d) (parseArms n acc) (parseArms n (CaseArm.downAll d acc))
  parsePatterns : ∀ acc tk, Mirrors d (Word.downAll d) (parsePatterns n acc tk)
    (parsePatterns n (Word.downAll d acc) (tk.down d))

/-- Reads on after the first character of a part was taken. -/
def readPartFrom (ctx : WordContext) (start n depth : Nat) (ps : PartsSoFar) (c : Char) :
    Reader (List Part) := do
  let q := ctx.inQuotes
  if ctx.isParamArg && c = '\x7d' then
    match depth with
    | 0 => return ps.sealed
    | depth + 1 => readParts ctx start n depth (ps.literal c)
  else if ctx.isParamArg && c = '\x7b' then
    readParts ctx start n (depth + 1) (ps.literal c)
  else if c = '\\' then
    match ← next with
    | some '\n' => readParts ctx start n depth ps
    | some d =>
      if !q || d = '$' || d = '\x60' || d = '\\'
          || (!ctx.isHereDoc && (d = '"' || d = '\x7d')) then
        readParts ctx start n depth (ps.escaped d)
      else readParts ctx start n depth ((ps.literal '\\').literal d)
    | none => readParts ctx start n depth (ps.literal '\\')
  else if c = '\'' && !q then
    let t ← readSingleQuoted start n []
    readParts ctx start n depth (.singleQuoted t :: ps)
  else if c = '"' && !ctx.isHereDoc then
    let inner ← readDoubleQuoted start n []
    readParts ctx start n depth (.doubleQuoted inner :: ps)
  else if c = '$' then
    match ← readDollar n q with
    | some p => readParts ctx start n depth (p :: ps)
    | none => readParts ctx start n depth (ps.literal '$')
  else if c = '\x60' then
    let p ← readBackQuoted n q start
    readParts ctx start n depth (p :: ps)
  else readParts ctx start n depth (ps.literal c)

theorem readParts_eq (ctx : WordContext) (start n depth : Nat) (ps : PartsSoFar) :
    readParts ctx start (n + 1) depth ps = (do
      match ← peek with
      | none =>
        if ctx.isParamArg then unterminated "parameter expansion" start else return ps.sealed
      | some c =>
        if ctx = .base && isWordBreak c then return ps.sealed
        else
          let _ ← next
          readPartFrom ctx start n depth ps c) :=
  rfl

namespace ReadersMirror

variable {n : Nat}

theorem zero : ReadersMirror d 0 := by
  constructor
  all_goals intros
  case readHereDocs => exact fun _ => ⟨.outOfSteps, rfl⟩
  all_goals exact .throw _ _

/-! ### Words -/

theorem readPartFrom (h : ReadersMirror d n) (ctx : WordContext) (start start' depth : Nat)
    (ps : PartsSoFar) (c : Char) :
    Mirrors d (Part.downAll d) (readPartFrom ctx start n depth ps c)
      (readPartFrom ctx start' n depth (Part.downAll d ps) c) := by
  have hparts := h.readParts ctx start start'
  have hliteral := fun depth c ps => hparts depth (PartsSoFar.literal_down c ps)
  unfold Script.readPartFrom
  refine .ite ?_ (.ite (hliteral _ _ _) (.ite ?_ (.ite ?_ (.ite ?_ (.ite ?_ (.ite ?_ ?_))))))
  · cases depth with
    | zero => exact .pure (PartsSoFar.sealed_down ps)
    | succ depth => exact hliteral _ _ _
  · refine .bind .next fun c => ?_
    split
    · exact hparts _ rfl
    · refine .ite (hparts _ (PartsSoFar.escaped_down _ _)) (hparts _ ?_)
      rw [PartsSoFar.literal_down, PartsSoFar.literal_down]
    · exact hliteral _ _ _
  · exact .bind (.readSingleQuoted start start' n []) fun t => hparts _ rfl
  · exact .bind (h.readDoubleQuoted start start' rfl) fun inner => hparts _ rfl
  · refine .bind (h.readDollar _) fun p => ?_
    cases p with
    | none => exact hliteral _ _ _
    | some p => exact hparts _ rfl
  · exact .bind (h.readBackQuoted _ start start') fun p => hparts _ rfl
  · exact hliteral _ _ _

theorem readParts_succ (h : ReadersMirror d n) (ctx : WordContext) (start start' depth : Nat)
    {ps ps' : PartsSoFar} (hps : ps' = Part.downAll d ps) :
    Mirrors d (Part.downAll d) (Script.readParts ctx start (n + 1) depth ps)
      (Script.readParts ctx start' (n + 1) depth ps') := by
  subst hps
  rw [readParts_eq, readParts_eq]
  have hfrom := h.readPartFrom ctx start start' depth ps
  have hdone : Mirrors d (Part.downAll d) (pure ps.sealed)
      (pure (PartsSoFar.sealed (Part.downAll d ps))) := .pure (PartsSoFar.sealed_down ps)
  refine .peek (fun c => .ite hdone (.bind .next fun _ => hfrom c)) (fun b hb => ?_)
  cases b with
  | none => exact (Mirrors.ite (.throw _ _) hdone).on _
  | some c =>
      -- only a word of a command ends before what follows the excerpt
      dsimp only
      by_cases hbase : ctx = .base
      · subst hbase
        rw [if_pos (by simp [hb c rfl])]
        exact hdone.on _
      · rw [if_neg (by simp [hbase])]
        exact .next fun _ => (hfrom c).keeps

theorem readDoubleQuoted_succ (h : ReadersMirror d n) (start start' : Nat) {ps ps' : PartsSoFar}
    (hps : ps' = Part.downAll d ps) :
    Mirrors d (Part.downAll d) (Script.readDoubleQuoted start (n + 1) ps)
      (Script.readDoubleQuoted start' (n + 1) ps') := by
  subst hps
  have hparts := h.readDoubleQuoted start start'
  have hliteral := fun c ps => hparts (PartsSoFar.literal_down c ps)
  refine .bind .next fun c => ?_
  split
  · exact .throw _ _
  · exact .pure (PartsSoFar.sealed_down ps)
  · refine .bind .next fun c => ?_
    split
    · exact hparts rfl
    · refine .ite (hliteral _ _) (hparts ?_)
      rw [PartsSoFar.literal_down, PartsSoFar.literal_down]
    · exact .throw _ _
  · refine .bind (h.readDollar _) fun p => ?_
    cases p with
    | none => exact hliteral _ _
    | some p => exact hparts rfl
  · exact .bind (h.readBackQuoted _ start start') fun p => hparts rfl
  · exact hliteral _ _

theorem readDollar_succ (h : ReadersMirror d n) (q : Bool) :
    Mirrors d (Option.map (Part.down d)) (Script.readDollar (n + 1) q)
      (Script.readDollar (n + 1) q) := by
  have hopen : Mirrors d (Option.map (Part.down d))
      (do
        if (← peek) = some '(' then
          let _ ← next
          return some (.arithmetic (← Script.readArithmetic (← line) n 0 []))
        else return some (.command (← Script.parseSubstitution n)))
      (do
        if (← peek) = some '(' then
          let _ ← next
          return some (.arithmetic (← Script.readArithmetic (← line) n 0 []))
        else return some (.command (← Script.parseSubstitution n))) := by
    refine .optional ?_ ?_
    · exact .bind .line fun l => .bind (h.readArithmetic l (l + d) 0 rfl) fun _ => .pure rfl
    · refine .bind h.parseSubstitution fun body => ?_
      cases body with
      | none => exact .pure rfl
      | some body => exact .pure rfl
  refine .peek (fun c => .ite ?_ (.ite ?_ (.ite ?_ (.ite ?_ (.pure rfl))))) (fun b hb => ?_)
  · exact .bind .next fun _ => .bind (h.readBracedParam q) fun _ => .pure rfl
  · exact .bind .next fun _ => hopen
  · exact .bind (.takeWhile (forall_wordBreak rfl) n []) fun _ => .pure rfl
  · exact .bind .next fun _ => .pure rfl
  · -- only a parenthesis goes with the dollar sign before it
    cases b with
    | none => exact (Mirrors.pure rfl).on _
    | some c =>
        dsimp only
        by_cases hc : c = '('
        · subst hc
          exact .next fun _ => hopen.keeps
        · have hbrace : c ≠ '\x7b' :=
            ne_of_beq_false (forall_wordBreak (p := (· == '\x7b')) rfl c (hb c rfl))
          have hname : Text.isNameStart c = false := forall_wordBreak rfl c (hb c rfl)
          have hparam : (Text.isDigit c || isSpecialParam c) = false :=
            forall_wordBreak (p := fun c => Text.isDigit c || isSpecialParam c) rfl c (hb c rfl)
          rw [if_neg hbrace, if_neg hc, hname, hparam]
          exact (Mirrors.pure rfl).on _

theorem readBracedParam_succ (h : ReadersMirror d n) (q : Bool) :
    Mirrors d (Part.down d) (Script.readBracedParam (n + 1) q)
      (Script.readBracedParam (n + 1) q) := by
  have hrest : ∀ isLength first, Mirrors d (Part.down d)
      (Suffices.readParamRest n q isLength first) (Suffices.readParamRest n q isLength first) := by
    intro isLength first
    have hbad : ∀ {f f' : PUnit → Reader Part}, Mirrors d (Part.down d) (badSubstitution >>= f)
        (badSubstitution >>= f') := .throw _ _
    have hop : ∀ (name : Text) (colon : Bool) (c : Char), Mirrors d (Part.down d)
        (do
          let op ← readParamOp c
          let arg ← Script.readParts (.paramArg q) (← line) n 0 []
          return Part.param name op colon arg q)
        (do
          let op ← readParamOp c
          let arg ← Script.readParts (.paramArg q) (← line) n 0 []
          return Part.param name op colon arg q) := fun name colon c =>
      .bind (.readParamOp c) fun op => .bind .line fun l =>
        .bind (h.readParts _ l (l + d) 0 rfl) fun arg => .pure rfl
    refine .bind (.readParamName n first) fun name => .bind .nextOfParam fun c => ?_
    refine .ite (.pure rfl) (.ite hbad (.ite ?_ (.ite hbad (hop _ _ _))))
    exact .bind .nextOfParam fun c => .ite hbad (hop _ _ _)
  refine .bind .nextOfParam fun first => .ite ?_ (hrest _ _)
  refine .peek (fun c => ?_) (fun b hb => ?_)
  · exact .ite (.bind .nextOfParam fun d => hrest _ _) (hrest _ _)
  · -- what ends a word does not close the braces
    cases b with
    | none => exact (Mirrors.bind .nextOfParam fun d => hrest _ _).on _
    | some c =>
        have hc : (some c == some '\x7d') = false :=
          forall_wordBreak (p := fun c => some c == some '\x7d') rfl c (hb c rfl)
        rw [bne, hc]
        exact (Mirrors.bind .nextOfParam fun d => hrest _ _).on _

theorem readArithmetic_succ (h : ReadersMirror d n) (start start' depth : Nat) {ps ps' : PartsSoFar}
    (hps : ps' = Part.downAll d ps) :
    Mirrors d (Part.downAll d) (Script.readArithmetic start (n + 1) depth ps)
      (Script.readArithmetic start' (n + 1) depth ps') := by
  subst hps
  have hparts := h.readArithmetic start start'
  have hliteral := fun depth c ps => hparts depth (PartsSoFar.literal_down c ps)
  refine .bind .next fun c => ?_
  split
  · exact .throw _ _
  · exact hliteral _ _ _
  · cases depth with
    | succ depth => exact hliteral _ _ _
    | zero => exact .bind .next fun c => .ite (.pure (PartsSoFar.sealed_down ps)) (.throw _ _)
  · refine .bind (h.readDollar _) fun p => ?_
    cases p with
    | none => exact hliteral _ _ _
    | some p => exact hparts _ rfl
  · exact .bind (h.readBackQuoted _ start start') fun p => hparts _ rfl
  · refine .bind .next fun c => ?_
    split
    · exact hparts _ rfl
    · exact hparts _ rfl
    · exact hparts _ (PartsSoFar.escaped_down _ _)
  · exact .bind (.readSingleQuoted start start' n []) fun t => hparts _ rfl
  · exact .bind (h.readDoubleQuoted start start' rfl) fun inner => hparts _ rfl
  · exact hliteral _ _ _

theorem readBackQuoted_succ (h : ReadersMirror d n) (q : Bool) (start start' : Nat) :
    Mirrors d (Part.down d) (Script.readBackQuoted (n + 1) q start)
      (Script.readBackQuoted (n + 1) q start') := by
  rw [ReadersObey.readBackQuoted_eq, ReadersObey.readBackQuoted_eq]
  refine .bind .line fun l => .aliasesInUse (.bind (.readBackQuotedText q start start' n []) ?_)
  intro t
  refine .nested (f := Node.downAll d) (h := fun nodes _ => Part.command (Node.ofList nodes))
    (k := fun nodes _ => Part.command (Node.ofList nodes)) (h.parseAllFrom [])
    (fun nodes j s _ => ?_) t l
  cases nodes with
  | nil => rfl
  | cons node nodes => exact congrArg Part.command (Node.ofList_down (node :: nodes))

end ReadersMirror

end CommandShell.Script
