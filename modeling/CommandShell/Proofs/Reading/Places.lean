import CommandShell.Proofs.Reading.LineEnds

/-!
# Places in a text

Where a token or a command of a text begins is a state of reading that text. A text is read by calls,
each of which reads a token or a command line, or drops the rest of a line (`Origin.Walked`); the places
in it are the states that such calls come through (`Origin.Place`). At every place the line counter tells
how many newlines of the text were passed (`Origin.Place.lined`).

A token is found at a place, and a command is what is read from its first token on (`Origin.Begins`). The
line that an error is blamed on is that of a token that does not fit, or that of the place where something
begins that is not closed (`Origin.Blames`).

While the characters of a word are read no token has been put back (`Origin.Vacant`). Between tokens one
may have been, and then it is the token right before what is left (`Origin.Holding`).
-/

namespace CommandShell.Script

open Reader

variable {α β : Type} {A : Table Text} {S t : Text} {start line l d n : Nat} {i j k : Input}

/-! ## Runs -/

/-- A value comes with the run that came to it. -/
theorem Meets.with_run {E : Halt → Input → Prop} {Q : α → Input → Prop} {r : Reader α}
    (h : Meets E Q r i) : Meets E (fun a j => Q a j ∧ r.on i = (.ok a, j)) r i := by
  unfold Meets at h ⊢
  generalize r.on i = outcome at h
  obtain ⟨a, j⟩ := outcome
  cases a with
  | ok a => exact ⟨h, rfl⟩
  | error e => exact h

theorem shows_run (r : Reader α) (i : Input) : Shows (fun a j => r.on i = (.ok a, j)) r i := by
  unfold Shows Meets
  generalize r.on i = outcome
  obtain ⟨a, j⟩ := outcome
  cases a with
  | ok a => rfl
  | error e => trivial

/-! ## Lines that are left -/

/-- What is left of the text `t` starts on the line `l`, if `d` newlines before it are left out. -/
def Input.StartsOn (t : Text) (line d : Nat) (i : Input) (l : Nat) : Prop :=
  ∃ p, t = p ++ i.left ∧ l + d = line + p.count '\n'

theorem Lined.startsOn (h : Lined A S start i) {p : Text} (ht : t = p ++ S)
    (hd : start + d = line + p.count '\n') : i.StartsOn t line d i.line := by
  obtain ⟨q, hq, hcount⟩ := h.passed
  refine ⟨p ++ q, ?_, ?_⟩
  · rw [ht, hq, List.append_assoc]
  · rw [List.count_append]
    omega

theorem Input.StartsOn.of_lined (h : i.StartsOn t line d l) (hj : Lined A i.left l j) :
    j.StartsOn t line d j.line := by
  obtain ⟨p, hp, hd⟩ := h
  exact hj.startsOn hp hd

theorem Lined.readToken (hA : ∀ b ∈ A.toList, '\n' ∉ b.2) (h : Lined A S start i) :
    Lined A S start (readToken.on i).2 := by
  rw [readToken_on]
  exact (readersObey (linedLaw hA S start) i.stepBound).nextToken.holds i h

/-- A text that was found in the input is a text of lines of its own. -/
theorem Lined.nested (hi : Lined A S start i) (hj : j.aliases = A) (u : Text) (l : Nat) :
    Lined A u l (j.nested i.inUse u l) := by
  obtain rfl := hj
  refine { lined_ofText j.aliases u l with within := fun hA => ?_ }
  show i.inUse = []
  rw [Input.inUse, (hi.quiet hA).1, hi.within hA]
  rfl

/-! ## Places -/

/-- A text to be read, the number of its first line, and the aliases that are known. -/
structure Origin where
  aliases : Table Text
  text : Text
  line : Nat

namespace Origin

/-- The states of reading a text by calls that read a token or a command line, or drop the rest of a
line, with the number of newlines that were dropped so far. -/
inductive Walked (o : Origin) : Input → Nat → Prop
  | start : Walked o (.ofText o.text o.line o.aliases) 0
  /-- A token was read, or could not be read. -/
  | token {i j : Input} {d : Nat} {r : Except Halt Token} (h : Walked o i d)
    (hread : readToken.on i = (r, j)) : Walked o j d
  /-- A command line was read, or could not be read. -/
  | command {i j : Input} {d : Nat} {r : Except Halt Parsed} (h : Walked o i d)
    (hread : parseCommand.on i = (r, j)) : Walked o j d
  | dropped {i : Input} {d : Nat} (h : Walked o i d) :
    Walked o i.discardLine (d + i.current.count '\n')

/-- The places in a text. `Place o S l d i` says that reading came to the input `i` in the text `S`,
which starts on the line `l`, and left out `d` newlines before it. What is in back-quotes is a text by
itself, and so is the body of a here-document. -/
inductive Place (o : Origin) : Text → Nat → Nat → Input → Prop
  | between {i : Input} {d : Nat} (h : Walked o i d) : Place o o.text o.line d i
  | next {S : Text} {l d : Nat} {i : Input} (h : Place o S l d i) : Place o S l d (next.on i).2
  | peek {S : Text} {l d : Nat} {i : Input} (h : Place o S l d i) : Place o S l d (peek.on i).2
  | putBack {S : Text} {l d : Nat} {i : Input} (h : Place o S l d i) :
    Place o S l d ((putBack '\\').on i).2
  /-- Something else changed than what is left of the text. -/
  | aside {S : Text} {l d : Nat} {i j : Input} (h : Place o S l d i)
    (hsame : j.position = i.position) (hblank : i.aliasBlank = false → j.aliasBlank = false) :
    Place o S l d j
  /-- The token that was just read is an alias, and its text comes next. -/
  | expanded {S S' : Text} {l l' d d' n : Nat} {i j k : Input} {tk : Token} {name text : Text}
    (h : Place o S l d i) (hk : Place o S' l' d' k)
    (htk : (ReadersObey.tokenHere n).on k = (.ok tk, j)) (hsame : i.position = j.position)
    (hname : tk.literal? = some name) (htext : (aliasText? name).on i = (.ok (some text), i)) :
    Place o S l d ((pushAlias name text).on i).2
  /-- What was in back-quotes is read. -/
  | backQuoted {S u : Text} {l d n start : Nat} {q : Bool} {i j : Input} (h : Place o S l d i)
    (hread : (readBackQuotedText q start n []).on i = (.ok u, j)) :
    Place o u i.line 0 (j.nested i.inUse u i.line)
  /-- The body of a here-document is read. -/
  | document {S u : Text} {l d n : Nat} {req : HereDocRequest} {i j : Input} (h : Place o S l d i)
    (hread : (readHereDocLines req n []).on i = (.ok u, j)) :
    Place o u i.line 0 (j.nested i.inUse u i.line)

variable {o : Origin}

/-- What is left after the calls so far is a text, and it starts on the line of the counter. -/
theorem Walked.lined (hA : ∀ b ∈ o.aliases.toList, '\n' ∉ b.2) (h : o.Walked i d) :
    i.StartsOn o.text o.line d i.line ∧ Lined o.aliases i.left i.line i := by
  induction h with
  | start =>
      have hlined := lined_ofText o.aliases o.text o.line
      exact ⟨hlined.startsOn (List.nil_append o.text).symm rfl, hlined.restart⟩
  | token _ hread ih =>
      have hj := ih.2.readToken hA
      rw [hread] at hj
      exact ⟨ih.1.of_lined hj, hj.restart⟩
  | command _ hread ih =>
      have hj := ih.2.parseCommand hA
      rw [hread] at hj
      exact ⟨ih.1.of_lined hj, hj.restart⟩
  | @dropped i d _ ih =>
      obtain ⟨p, hp, hd⟩ := ih.1
      refine ⟨⟨p ++ i.current, ?_, ?_⟩, ih.2.discardLine⟩
      · rw [List.append_assoc]
        exact hp
      · show i.line + (d + i.current.count '\n') = _
        rw [List.count_append]
        omega

/-- At every place what is left is a text, and it starts on the line of the counter. -/
theorem Place.lined (hA : ∀ b ∈ o.aliases.toList, '\n' ∉ b.2) (h : o.Place S l d i) :
    i.StartsOn S l d i.line ∧ Lined o.aliases i.left i.line i := by
  -- what keeps to the lines keeps the counter right
  have hstep : ∀ {S l d} {i j : Input}, i.StartsOn S l d i.line ∧ Lined o.aliases i.left i.line i →
      Lined o.aliases i.left i.line j → j.StartsOn S l d j.line ∧ Lined o.aliases j.left j.line j :=
    fun hi hj => ⟨hi.1.of_lined hj, hj.restart⟩
  -- a text that was read is a text of its own, on the line where reading it began
  have hnested : ∀ {i j : Input} {r : Reader Text} [Obeys (linedLaw hA i.left i.line) r] {u : Text},
      Lined o.aliases i.left i.line i → r.on i = (.ok u, j) →
      (j.nested i.inUse u i.line).StartsOn u i.line 0 i.line ∧
        Lined o.aliases u i.line (j.nested i.inUse u i.line) := by
    intro i j r hr u hi hread
    have hj : Lined o.aliases i.left i.line (r.on i).2 := hr.holds i hi
    rw [hread] at hj
    have hu := hi.nested hj.aliases u i.line
    exact ⟨hu.startsOn (List.nil_append u).symm rfl, hu⟩
  induction h with
  | between h => exact h.lined hA
  | next _ ih => exact hstep ih (keepsLines_next _ ih.2)
  | peek _ ih => exact hstep ih (keepsLines_peek _ ih.2)
  | putBack _ ih =>
      exact hstep ih { ih.2 with unread := List.forall_mem_cons.mpr ⟨rfl, ih.2.unread⟩ }
  | aside _ hsame hblank ih => exact hstep ih (ih.2.of_position hsame hblank)
  | @expanded _ _ _ _ _ _ _ i _ _ _ name text _ _ _ _ _ htext ih _ =>
      rw [aliasText?_on] at htext
      have hmem := ih.2.mem_of_expanded (Except.ok.inj (Prod.mk.inj htext).1)
      exact hstep ih (ih.2.pushAlias (List.ne_nil_of_mem hmem) (hA _ hmem))
  | backQuoted _ hread ih =>
      obtain ⟨hstarts, hlined⟩ := hnested ih.2 hread
      exact ⟨hstarts, hlined.restart⟩
  | document _ hread ih =>
      obtain ⟨hstarts, hlined⟩ := hnested ih.2 hread
      exact ⟨hstarts, hlined.restart⟩

end Origin

/-! ## Tokens -/

/-- The token has the line `l`, and so has the word that it is. -/
structure Token.HasLine (tk : Token) (l : Nat) : Prop where
  line : tk.line = l
  word : ∀ t ps l', tk.kind = .word (.mk t ps l') → l' = l

theorem TokenKind.IsOperator.ne_word {kind : TokenKind} (h : kind.IsOperator) (w : Word) :
    kind ≠ .word w := by
  rintro rfl
  exact h

/-- A token, and the word that it is, has the line that it is read on. -/
theorem tokenHere_line (i : Input) :
    Shows (fun tk _ => tk.HasLine i.line) (ReadersObey.tokenHere n) i := by
  have hplain : ∀ kind, (∀ w, kind ≠ .word w) →
      Gives (fun tk : Token => tk.HasLine i.line) (pure ⟨kind, i.line⟩) :=
    fun kind hkind => gives_pure ⟨rfl, fun _ _ _ hw => absurd hw (hkind _)⟩
  have hword : ∀ t ps, Gives (fun tk : Token => tk.HasLine i.line)
      (pure ⟨.word (.mk t ps i.line), i.line⟩) := by
    refine fun t ps => gives_pure ⟨rfl, fun _ _ _ hw => ?_⟩
    cases hw
    rfl
  have hoperator : ∀ {r : Reader TokenKind}, Gives TokenKind.IsOperator r →
      Gives (fun tk : Token => tk.HasLine i.line) (do return ⟨← r, i.line⟩) :=
    fun hr j => (hr j).bind fun kind k hkind => hplain kind hkind.ne_word k
  have hredirect : ∀ fd, Gives TokenKind.IsOperator (readRedirectOp fd) :=
    fun fd => gives_readRedirectOp fun _ => trivial
  unfold ReadersObey.tokenHere
  refine meets_line.mpr ?_
  apply Gives.after
  intro c
  split
  · exact .after fun _ => hplain _ fun _ h => by cases h
  · exact .after fun _ => .after fun _ => hplain _ fun _ h => by cases h
  · exact hoperator (gives_readOperator _ trivial trivial)
  · exact hoperator (gives_readOperator _ trivial trivial)
  · exact hoperator (gives_readOperator _ trivial trivial)
  · exact .after fun _ => hplain _ fun _ h => by cases h
  · exact .after fun _ => hplain _ fun _ h => by cases h
  · exact hoperator (hredirect none)
  · exact hoperator (hredirect none)
  · refine .after fun _ => .after fun parts => .after fun t => ?_
    dsimp only
    split
    · refine .after fun d => ?_
      split
      · exact hoperator (hredirect _)
      · exact hoperator (hredirect _)
      · exact hword t parts
    · exact hword t parts

namespace Origin

/-- The token was found at a place in the text, and has the line of that place. -/
def Found (o : Origin) (tk : Token) : Prop :=
  ∃ S l d k n j, o.Place S l d k ∧ (ReadersObey.tokenHere n).on k = (.ok tk, j) ∧
    tk.HasLine k.line

/-- The token was found, and is the one right before what is left. -/
def Behind (o : Origin) (tk : Token) (i : Input) : Prop :=
  ∃ S l d k n j, o.Place S l d k ∧ (ReadersObey.tokenHere n).on k = (.ok tk, j) ∧
    tk.HasLine k.line ∧ i.position = j.position

variable {o : Origin} {tk : Token}

theorem Behind.found (h : o.Behind tk i) : o.Found tk := by
  obtain ⟨S, l, d, k, n, j, hk, hread, hline, -⟩ := h
  exact ⟨S, l, d, k, n, j, hk, hread, hline⟩

theorem Behind.of_position (h : o.Behind tk i) (hsame : j.position = i.position) :
    o.Behind tk j := by
  obtain ⟨S, l, d, k, n, m, hk, hread, hline, hm⟩ := h
  exact ⟨S, l, d, k, n, m, hk, hread, hline, hsame.trans hm⟩

end Origin

/-! ## Lines of commands -/

/-- The commands that are read have the line `l`. -/
abbrev OnLine (l : Nat) (r : Reader Node) : Prop := Gives (fun node => node.line = l) r

theorem parseIf_line (n line : Nat) : OnLine line (parseIf n line) := by
  cases n with
  | zero => exact gives_fail _
  | succ n =>
      unfold parseIf
      refine .after fun cond => .after fun _ => .after fun body => .after fun tk => ?_
      refine .ite (.after fun _ => gives_pure rfl) (.ite ?_ (.ite (gives_pure rfl) ?_))
      · exact .after fun _ => .after fun _ => gives_pure rfl
      · exact fun _ => trivial

theorem parseLoop_line (n line : Nat) (isWhile : Bool) :
    OnLine line (parseLoop n isWhile line) := by
  cases n with
  | zero => exact gives_fail _
  | succ n =>
      unfold parseLoop
      exact .after fun _ => .after fun _ => .after fun _ => .after fun _ => gives_pure rfl

theorem parseFor_line (n line : Nat) : OnLine line (parseFor n line) := by
  cases n with
  | zero => exact gives_fail _
  | succ n =>
      have hrest : ∀ var items, OnLine line (do
          skipNewlines n
          expectKeyword "do" n
          let body ← parseInner n
          expectKeyword "done" n
          return .mk (.forIn var items body) line) := fun _ _ =>
        .after fun _ => .after fun _ => .after fun _ => .after fun _ => gives_pure rfl
      unfold parseFor
      refine .after fun tk => ?_
      split
      · exact fun _ => trivial
      · refine .after fun _ => .after fun tk => .ite (.after fun _ => hrest _ _) ?_
        dsimp only
        split
        · exact hrest _ _
        · exact .after fun _ => hrest _ _

theorem parseCase_line (n line : Nat) : OnLine line (parseCase n line) := by
  cases n with
  | zero => exact gives_fail _
  | succ n =>
      unfold parseCase
      refine .after fun tk => ?_
      split
      · exact .after fun _ => .after fun _ => .after fun _ => gives_pure rfl
      · exact fun _ => trivial

theorem closeCompound_line (n line : Nat) {body : Node} (h : body.line = line) :
    OnLine line (closeCompound n line body) := by
  cases n with
  | zero => exact gives_fail _
  | succ n =>
      unfold closeCompound
      refine .after fun redirects => ?_
      split
      · exact gives_pure h
      · exact gives_pure rfl

theorem parseFunction_line (n line : Nat) (name : Word) :
    OnLine line (parseFunction n name line) := by
  cases n with
  | zero => exact gives_fail _
  | succ n =>
      unfold parseFunction
      refine .after fun _ => .after fun tk => .ite (fun _ => trivial) ?_
      split
      · exact fun _ => trivial
      · refine .after fun _ => .after fun tk => .ite (.after fun _ => gives_pure rfl) ?_
        exact fun _ => trivial

theorem parseSimple_line (n line : Nat) (assigns argv : List Word) (redirects : List Redirect)
    (tk : Token) :
    OnLine line (parseSimple n line assigns argv redirects tk) := by
  induction n generalizing assigns argv redirects tk with
  | zero => exact gives_fail _
  | succ n ih =>
      have hgoOn : ∀ assigns argv redirects, OnLine line (do
          let tk ← nextToken n
          if ← takeAliasBlank then
            let tk ← expandAlias n tk
            parseSimple n line assigns argv redirects tk
          else parseSimple n line assigns argv redirects tk) := fun _ _ _ =>
        .after fun _ => .after fun _ => .ite (.after fun _ => ih _ _ _ _) (ih _ _ _ _)
      unfold parseSimple
      dsimp only
      split
      · exact .after fun _ => hgoOn _ _ _
      · refine .ite (hgoOn _ _ _) (.ite (.after fun _ => .ite ?_ (hgoOn _ _ _)) (hgoOn _ _ _))
        exact parseFunction_line n line _
      · exact .after fun _ => gives_pure rfl

/-- A command has the line of its first token. -/
theorem parseCommandAt_line (n : Nat) (tk : Token) :
    OnLine tk.line (parseCommandAt n tk) := by
  cases n with
  | zero => exact gives_fail _
  | succ n =>
      have hsimple := parseSimple_line n tk.line [] [] [] tk
      have hcompound : ∀ {r : Reader Node}, OnLine tk.line r →
          OnLine tk.line (do
            let body ← r
            closeCompound n tk.line body) := fun hr i =>
        (hr i).bind fun _ k hbody => closeCompound_line n tk.line hbody k
      unfold parseCommandAt
      dsimp only
      split
      · refine .after fun _ => .after fun tk' => .ite (fun _ => trivial) ?_
        exact .after fun _ => gives_pure rfl
      · exact hsimple
      · split
        · exact hsimple
        · refine .ite (hcompound (parseIf_line n _)) ?_
          refine .ite (hcompound (parseLoop_line n _ _)) ?_
          refine .ite (hcompound (parseLoop_line n _ _)) ?_
          refine .ite (hcompound (parseFor_line n _)) (.ite (hcompound (parseCase_line n _)) ?_)
          refine .ite (.after fun _ => .after fun _ => closeCompound_line n _ rfl) ?_
          exact .ite (fun _ => trivial) hsimple
      · exact fun _ => trivial

/-- The stages of a pipeline start with the first one so far. -/
theorem parseStages_head (n : Nat) {acc : List Node} {first : Node}
    (h : acc.getLast? = some first) :
    Gives (fun stages => stages.head? = some first) (parseStages n acc) := by
  induction n generalizing acc with
  | zero => exact gives_fail _
  | succ n ih =>
      unfold parseStages
      refine .after fun tk => ?_
      split
      · refine .after fun _ => .after fun tk => .after fun stage => ih ?_
        rw [List.getLast?_cons, h]
        rfl
      · refine .after fun _ => gives_pure ?_
        rw [List.head?_reverse, h]

theorem parsePipelineFrom_line (n : Nat) (negated : Bool) (line : Nat) (tk : Token)
    (htk : negated = false → tk.line = line) :
    OnLine line (parsePipelineFrom n negated line tk) := by
  intro i
  refine (parseCommandAt_line n tk i).bind fun stage j hstage => ?_
  have hlast : [stage].getLast? = some stage := rfl
  refine (parseStages_head n hlast j).bind fun stages k hstages => ?_
  cases negated with
  | true => exact rfl
  | false =>
      obtain ⟨rest, rfl⟩ := List.head?_eq_some_iff.mp hstages
      cases rest with
      | nil => exact hstage.trans (htk rfl)
      | cons _ _ => exact rfl

/-- A pipeline has the line of its first token, after the replacement of aliases. -/
theorem parsePipeline_line (n : Nat) (i : Input) :
    Shows (fun node _ => ∃ tk k, (commandToken n).on i = (.ok tk, k) ∧ node.line = tk.line)
      (parsePipeline (n + 1)) i := by
  rw [parsePipeline_eq]
  refine (shows_run _ i).bind fun tk k htk => .ite (fun hbang => ?_) fun _ => ?_
  · have hline : OnLine tk.line (do
        let tk' ← commandToken n
        parsePipelineFrom n (tk.isKeyword "!") tk.line tk') :=
      .after fun tk' => parsePipelineFrom_line n _ tk.line tk' fun h =>
        absurd (hbang.symm.trans h) Bool.true_eq_false.mp
    exact (hline k).mono fun _ _ hnode => ⟨tk, k, htk, hnode⟩
  · have hline := parsePipelineFrom_line n (tk.isKeyword "!") tk.line tk fun _ => rfl
    exact (hline k).mono fun _ _ hnode => ⟨tk, k, htk, hnode⟩

theorem parseAndOrRest_line (n : Nat) (left : Node) :
    OnLine left.line (parseAndOrRest n left) := by
  induction n generalizing left with
  | zero => exact gives_fail _
  | succ n ih =>
      unfold parseAndOrRest
      refine .after fun tk => ?_
      split
      · exact .after fun _ => .after fun right => ih (.mk (.and left right) left.line)
      · exact .after fun _ => .after fun right => ih (.mk (.or left right) left.line)
      · exact .after fun _ => gives_pure rfl

theorem parseAndOr_line (n : Nat) (i : Input) :
    Shows (fun node _ => ∃ tk k, (commandToken n).on i = (.ok tk, k) ∧ node.line = tk.line)
      (parseAndOr (n + 2)) i := by
  unfold parseAndOr
  refine (parsePipeline_line n i).bind ?_
  rintro first j ⟨tk, k, htk, hfirst⟩
  exact (parseAndOrRest_line (n + 1) first j).mono fun _ _ hline => ⟨tk, k, htk, hline.trans hfirst⟩

/-- The commands so far, last first, start with one on the line `l`. -/
def StartOn (l : Nat) (acc : List Node) : Prop :=
  ∃ first, acc.getLast? = some first ∧ first.line = l

theorem StartOn.cons {l : Nat} {acc : List Node} (h : StartOn l acc) (node : Node) :
    StartOn l (node :: acc) := by
  obtain ⟨first, hfirst, hline⟩ := h
  refine ⟨first, ?_, hline⟩
  rw [List.getLast?_cons, hfirst]
  rfl

/-- Commands in a row have the line of the first. -/
theorem closeList_line {l : Nat} {acc : List Node} (h : StartOn l acc) :
    OnLine l (closeList acc) := by
  obtain ⟨first, hfirst, hline⟩ := h
  have hfold : ∀ (ns : List Node) (n : Node),
      (ns.foldl (fun left right => .mk (.list left right) left.line) n).line = n.line := by
    intro ns
    induction ns with
    | nil => exact fun _ => rfl
    | cons m ns ih => exact fun n => ih (.mk (.list n m) n.line)
  obtain ⟨rest, hrest⟩ := List.head?_eq_some_iff.mp (List.head?_reverse.trans hfirst)
  unfold closeList
  rw [hrest]
  exact gives_pure ((hfold rest first).trans hline)

theorem continueList_line {l : Nat} {acc : List Node} (h : StartOn l acc)
    (hmore : OnLine l (parseList true n acc)) : OnLine l (continueList n true acc) := by
  refine .ite (.after fun tk => ?_) (.after fun _ => .after fun _ => .ite ?_ hmore)
  · split
    · exact .after fun _ => closeList_line h
    · exact closeList_line h
    · exact hmore
  · exact closeList_line h

/-- What comes after the first command of a list, or after a further one. -/
theorem afterAndOr_line {l : Nat} {acc : List Node} {node : Node}
    (h : ∀ m : Node, m.line = node.line → StartOn l (m :: acc))
    (hmore : ∀ acc, StartOn l acc → OnLine l (parseList true n acc)) :
    OnLine l (do
      let tk ← nextToken n
      match tk.kind with
      | .amp => continueList n true (.mk (.background node) node.line :: acc)
      | .semi => continueList n true (node :: acc)
      | .newline => if true then closeList (node :: acc) else continueList n true (node :: acc)
      | .endOfInput =>
        pushToken tk
        closeList (node :: acc)
      | _ =>
        if true then unexpected tk
        else
          pushToken tk
          closeList (node :: acc)) := by
  have hnode := h node rfl
  refine .after fun tk => ?_
  split
  · exact continueList_line (h _ rfl) (hmore _ (h _ rfl))
  · exact continueList_line hnode (hmore _ hnode)
  · exact closeList_line hnode
  · exact .after fun _ => closeList_line hnode
  · exact fun _ => trivial

theorem parseList_line_of_startOn (n : Nat) {l : Nat} {acc : List Node} (h : StartOn l acc) :
    OnLine l (parseList true n acc) := by
  induction n generalizing acc with
  | zero => exact gives_fail _
  | succ n ih =>
      rw [parseList_eq]
      refine .after fun node => afterAndOr_line (fun m _ => h.cons m) fun acc hacc => ih hacc

theorem parseList_line (n : Nat) (i : Input) :
    Shows (fun node _ => ∃ tk k, (commandToken n).on i = (.ok tk, k) ∧ node.line = tk.line)
      (parseList true (n + 3) []) i := by
  rw [parseList_eq]
  refine (parseAndOr_line n i).bind ?_
  rintro node j ⟨tk, k, htk, hnode⟩
  have hstart : ∀ m : Node, m.line = node.line → StartOn tk.line [m] :=
    fun m hm => ⟨m, rfl, hm.trans hnode⟩
  have hline := afterAndOr_line hstart fun acc hacc => parseList_line_of_startOn (n + 2) hacc
  exact (hline j).mono fun _ _ hlist => ⟨tk, k, htk, hlist⟩

theorem fill_line (bs : Bodies) (node : Node) : (node.fill bs).line = node.line := by
  cases node
  rfl

/-- Reads the first token of a command line, after the replacement of aliases. -/
def firstToken (n : Nat) : Reader Token := do
  startLine
  pushToken (← nextToken (n + 3))
  commandToken n

/-- The command of a line has the line of its first token. -/
theorem parseTop_line (n : Nat) (i : Input) :
    Shows (fun p _ => ∀ node, p = .command node →
      ∃ tk k, (firstToken n).on i = (.ok tk, k) ∧ node.line = tk.line) (parseTop (n + 4)) i := by
  rw [ReadersObey.parseTop_eq]
  refine (shows_run _ i).bind fun _ j hj => (shows_run _ j).bind fun tk k hk => ?_
  split
  · exact fun _ hp => by cases hp
  · exact fun _ hp => by cases hp
  · refine (shows_run _ k).bind fun _ l hl => (parseList_line n l).bind ?_
    rintro node m ⟨tk', q, hfirst, hline⟩ _ ⟨⟩
    refine ⟨tk', q, ?_, (fill_line _ node).trans hline⟩
    unfold firstToken
    simp only [Reader.on_bind, hj, hk, hl, hfirst]

/-! ## Commands -/

/-- Reads what follows `{`. -/
def parseBrace (n line : Nat) : Reader Node := do
  let body ← parseInner n
  expectKeyword "\x7d" n
  return .mk (.brace body) line

/-- Reads what follows `!`. -/
def parseNegated (n line : Nat) : Reader Node := do
  let tk ← commandToken n
  parsePipelineFrom n true line tk

/-- The readers of a command that starts with the token. -/
inductive Token.Starts (n : Nat) (tk : Token) : Reader Node → Prop
  | command : Starts n tk (parseCommandAt n tk)
  | branches (h : tk.isKeyword "if" = true ∨ tk.isKeyword "elif" = true) :
    Starts n tk (parseIf n tk.line)
  | loop {isWhile : Bool} (h : tk.isKeyword (if isWhile then "while" else "until") = true) :
    Starts n tk (parseLoop n isWhile tk.line)
  | forIn (h : tk.isKeyword "for" = true) : Starts n tk (parseFor n tk.line)
  | caseOf (h : tk.isKeyword "case" = true) : Starts n tk (parseCase n tk.line)
  | brace (h : tk.isKeyword "\x7b" = true) : Starts n tk (parseBrace n tk.line)
  | pipeline : Starts n tk (parsePipelineFrom n false tk.line tk)
  | negated (h : tk.isKeyword "!" = true) : Starts n tk (parseNegated n tk.line)

/-- The second command is the first one with here-documents filled in. -/
inductive Node.FillsTo (node : Node) : Node → Prop
  | refl : FillsTo node node
  | fill {m : Node} (h : FillsTo node m) (bs : Bodies) : FillsTo node (m.fill bs)

theorem Token.Starts.onLine {tk : Token} {r : Reader Node} (h : tk.Starts n r) : OnLine tk.line r := by
  cases h with
  | command => exact parseCommandAt_line n tk
  | branches _ => exact parseIf_line n tk.line
  | loop _ => exact parseLoop_line n tk.line _
  | forIn _ => exact parseFor_line n tk.line
  | caseOf _ => exact parseCase_line n tk.line
  | brace _ => exact .after fun _ => .after fun _ => gives_pure rfl
  | pipeline => exact parsePipelineFrom_line n false tk.line tk fun _ => rfl
  | negated _ => exact .after fun tk' => parsePipelineFrom_line n true tk.line tk' fun h => by cases h

namespace Origin

/-- The command begins where it says. It is what is read from its first token on, and has the line of
that token; but a pipeline after `!` has the line of the `!`. Commands that are joined have the line of
the first one. -/
inductive Begins (o : Origin) : Node → Prop
  | atToken {tk : Token} {n : Nat} {r : Reader Node} {i j : Input} {m node : Node}
    (htk : o.Behind tk i) (hfree : i.pushback = none) (hstarts : tk.Starts n r)
    (hread : r.on i = (.ok m, j)) (hfill : m.FillsTo node) (hline : node.line = tk.line) :
    Begins o node
  | afterBang {tk : Token} {n : Nat} {i j : Input} {m node : Node} (htk : o.Behind tk i)
    (hfree : i.pushback = none) (hbang : tk.isKeyword "!" = true)
    (hread : (parseNegated n tk.line).on i = (.ok (.mk (.not m) tk.line), j))
    (hfill : m.FillsTo node) (hline : node.line = tk.line) : Begins o node
  | and (left right : Node) : Begins o (.mk (.and left right) left.line)
  | or (left right : Node) : Begins o (.mk (.or left right) left.line)
  | list (left right : Node) : Begins o (.mk (.list left right) left.line)
  | background (body : Node) : Begins o (.mk (.background body) body.line)

variable {o : Origin}

/-- Filling in here-documents does not change where a command begins. -/
theorem Begins.fill {node : Node} (h : o.Begins node) (bs : Bodies) : o.Begins (node.fill bs) := by
  cases h with
  | atToken htk hfree hstarts hread hfill hline =>
      exact .atToken htk hfree hstarts hread (.fill hfill bs) ((fill_line bs _).trans hline)
  | afterBang htk hfree hbang hread hfill hline =>
      exact .afterBang htk hfree hbang hread (.fill hfill bs) ((fill_line bs _).trans hline)
  | and left right =>
      rw [← fill_line bs left]
      exact .and (left.fill bs) (right.fill bs)
  | or left right =>
      rw [← fill_line bs left]
      exact .or (left.fill bs) (right.fill bs)
  | list left right =>
      rw [← fill_line bs left]
      exact .list (left.fill bs) (right.fill bs)
  | background body =>
      rw [← fill_line bs body]
      exact .background (body.fill bs)

/-- The condition that a command begins where it says, inside here-documents and outside of them. -/
abbrev Marks (o : Origin) : Bool → Node → Prop := fun _ => o.Begins

/-- What was read begins where it says with the bodies of its here-documents, too. -/
theorem carries_marks {bs : Bodies} (hbs : ∀ b ∈ bs, b.2.Every o.Marks true) (d d' : Bool) :
    Carries bs o.Marks o.Marks d d' where
  fill _ hn := hn.fill bs
  inDoc _ hn := hn
  bodies := hbs

end Origin

/-! ## Errors -/

/-- What is wrong with a token. -/
inductive Token.Refused (tk : Token) : Fault → Prop
  | unexpected (expecting : Option Text) : Refused tk (.malformed (unexpectedMessage tk expecting))
  | loopVariable :
    Refused tk (.malformed ("bad for loop variable " ++ tk.kind.describe))
  | functionName {w : Word} (hw : tk.kind = .word w) :
    Refused tk (.malformed ("bad function name \"" ++ w.text ++ "\""))

/-- Something begins here, but reading it fails: a token, the word after an operator in `${…}` or the
body of a here-document, or an arithmetic expression. -/
inductive FailsFrom (i : Input) (e : Halt) : Prop
  | token {n : Nat} {j : Input} (h : (ReadersObey.tokenHere n).on i = (.error e, j))
  | parts {ctx : WordContext} {n : Nat} {j : Input}
    (h : (readParts ctx i.line n 0 []).on i = (.error e, j))
  | arithmetic {n : Nat} {j : Input} (h : (readArithmetic i.line n 0 []).on i = (.error e, j))

/-- The failure is blamed on no line, unless something that started on the line `start` is not closed. -/
def Halt.Opens (start : Nat) (e : Halt) : Prop :=
  ∀ f l, e = .stop (.fault f (some l)) → l = start ∧ ∃ what, f = .malformed ("unterminated " ++ what)

namespace Origin

/-- An error that is blamed on a line is blamed on that of a token that does not fit, or on that of the
place from which on something is not closed. -/
def Blames (o : Origin) (e : Halt) : Prop :=
  ∀ f l, e = .stop (.fault f (some l)) → (∃ tk, o.Found tk ∧ tk.line = l ∧ tk.Refused f) ∨
    ∃ S l' d k what, o.Place S l' d k ∧ k.line = l ∧ FailsFrom k e ∧
      f = .malformed ("unterminated " ++ what)

/-- The failure is that of a word that starts on the given line, or of something in it. -/
def Strays (o : Origin) (start : Nat) (e : Halt) : Prop := o.Blames e ∨ e.Opens start

variable {o : Origin} {tk : Token} {e : Halt}

theorem Blames.of_opens (h : ∀ start, e.Opens start) : o.Blames e := by
  intro f l he
  have hl := (h l f l he).1
  have hnext := (h (l + 1) f l he).1
  omega

/-- Something that begins at the place is not closed. -/
theorem Strays.blames (hk : o.Place S l d k) (h : o.Strays k.line e) (hfails : FailsFrom k e) :
    o.Blames e := by
  rcases h with h | h
  · exact h
  · intro f l' he
    obtain ⟨rfl, what, hf⟩ := h f l' he
    exact .inr ⟨_, _, _, k, what, hk, rfl, hfails, hf⟩

/-! ## What is known while a text is read -/

/-- Reading came to a place in the text, and the commands in the bodies of here-documents that were
read begin where they say. -/
structure Located (o : Origin) (i : Input) : Prop where
  place : ∃ S l d, o.Place S l d i
  bodies : ∀ b ∈ i.bodies, b.2.Every o.Marks true

/-- No token was put back. -/
structure Vacant (o : Origin) (i : Input) : Prop extends o.Located i where
  pushback : i.pushback = none

/-- The token is the one right before what is left, and the commands in it begin where they say. -/
structure InHand (o : Origin) (tk : Token) (i : Input) : Prop where
  behind : o.Behind tk i
  word : ∀ w, tk.kind = .word w → w.Every o.Marks false

/-- A token that was put back is in hand. -/
structure Holding (o : Origin) (i : Input) : Prop extends o.Located i where
  hand : ∀ tk, i.pushback = some tk → o.InHand tk i

/-- The token was just read. -/
structure Has (o : Origin) (tk : Token) (i : Input) : Prop extends o.Vacant i where
  hand : o.InHand tk i

theorem Vacant.holding (h : o.Vacant i) : o.Holding i where
  toLocated := h.toLocated
  hand _ htk := nomatch h.pushback.symm.trans htk

/-- Something else changed than what is left of the text. -/
theorem Located.aside (h : o.Located i) (hsame : j.position = i.position)
    (hblank : i.aliasBlank = false → j.aliasBlank = false) (hbodies : j.bodies = i.bodies) :
    o.Located j where
  place := by
    obtain ⟨S, l, d, hi⟩ := h.place
    exact ⟨S, l, d, hi.aside hsame hblank⟩
  bodies := hbodies ▸ h.bodies

theorem Holding.aside (h : o.Holding i) (hsame : j.position = i.position)
    (hblank : i.aliasBlank = false → j.aliasBlank = false) (hbodies : j.bodies = i.bodies)
    (hpushback : j.pushback = i.pushback) : o.Holding j where
  toLocated := h.toLocated.aside hsame hblank hbodies
  hand tk htk := by
    have htk := h.hand tk (hpushback.symm.trans htk)
    exact ⟨htk.behind.of_position hsame, htk.word⟩

/-- A text that was found is read from its start. -/
theorem vacant_nested {within : List Text} {u : Text} (h : o.Place S l d (i.nested within u line)) :
    o.Vacant (i.nested within u line) where
  place := ⟨S, l, d, h⟩
  bodies _ hb := nomatch hb
  pushback := rfl

/-- A reader of characters comes from a place to a place, and stops for a line that it needs only. -/
theorem Vacant.taken {E : Halt → Prop} {r : Reader α} [hr : Steady r] (hstops : StopsForLines r)
    (hE : E .needLine) (hi : o.Vacant i)
    (hplace : ∀ {S l d}, o.Place S l d i → o.Place S l d (r.on i).2) :
    Meets (fun e j => E e ∧ o.Vacant j) (fun _ j => o.Vacant j) r i := by
  have hdocs := hr.docs i
  have hj : o.Vacant (r.on i).2 := by
    obtain ⟨hpushback, -, hbodies, -⟩ := by simpa [Input.docs] using hdocs
    obtain ⟨S, l, d, hi'⟩ := hi.place
    exact ⟨⟨⟨S, l, d, hplace hi'⟩, hbodies ▸ hi.bodies⟩, hpushback.trans hi.pushback⟩
  have hfails := hstops i
  unfold Meets
  generalize r.on i = outcome at hj hfails
  obtain ⟨a, j⟩ := outcome
  cases a with
  | ok a => exact hj
  | error e =>
      obtain rfl := hfails e rfl
      exact ⟨hE, hj⟩

theorem opens_needLine (start : Nat) : Halt.needLine.Opens start := fun _ _ he => nomatch he

/-- While a word is read that starts on the line `start`, only what is left of the text changes. -/
def wordLaw (o : Origin) (start : Nat) : CharLaw where
  Obeyed r := ∀ i, o.Vacant i →
    Meets (fun e j => e.Opens start ∧ o.Vacant j) (fun _ j => o.Vacant j) r i
  pure _ _ hi := hi
  fail _ _ hi := ⟨fun _ _ he => (nomatch he), hi⟩
  bind hx hf i hi := (hx i hi).bind fun a j hj => hf a j hj
  peek _ hi := hi.taken .peek (opens_needLine start) .peek
  next _ hi := hi.taken .next (opens_needLine start) .next
  putBack _ hi := hi.taken (.modify _) (opens_needLine start) .putBack

instance obeys_unterminated {start : Nat} (what : Text) :
    Obeys (o.wordLaw start) (unterminated what start : Reader α) := by
  refine ⟨fun i hi => ⟨fun f l he => ?_, hi⟩⟩
  cases he
  exact ⟨rfl, what, rfl⟩

/-- Values satisfy `Q` together with the input that is left. Failures satisfy `E`, and a token that was
put back is in hand after them. -/
abbrev Reads (o : Origin) (E : Halt → Prop) (Q : α → Input → Prop) (r : Reader α) (i : Input) : Prop :=
  Meets (fun e j => E e ∧ o.Holding j) Q r i

theorem Reads.weaken {E E' : Halt → Prop} {Q : α → Input → Prop} {r : Reader α}
    (h : o.Reads E Q r i) (hE : ∀ e, E e → E' e) : o.Reads E' Q r i := by
  unfold Reads Meets at h ⊢
  generalize r.on i = outcome at h
  obtain ⟨a, j⟩ := outcome
  cases a with
  | ok a => exact h
  | error e => exact ⟨hE e h.1, h.2⟩

/-- Characters of a word are taken. -/
theorem Vacant.reads (start : Nat) {r : Reader α} [hr : Obeys (o.wordLaw start) r] (hi : o.Vacant i) :
    o.Reads (o.Strays start) (fun _ j => o.Vacant j) r i := by
  have h := hr.holds i hi
  unfold Reads Meets at h ⊢
  generalize r.on i = outcome at h
  obtain ⟨a, j⟩ := outcome
  cases a with
  | ok a => exact h
  | error e => exact ⟨.inr h.1, h.2.holding⟩

/-- Characters are taken by a reader that never blames a line. -/
theorem Vacant.reads_any {r : Reader α} [hr : ∀ start, Obeys (o.wordLaw start) r] (hi : o.Vacant i) :
    o.Reads o.Blames (fun _ j => o.Vacant j) r i := by
  have h := fun start => (hr start).holds i hi
  unfold Reads Meets at h ⊢
  generalize r.on i = outcome at h
  obtain ⟨a, j⟩ := outcome
  cases a with
  | ok a => exact h 0
  | error e => exact ⟨.of_opens fun start => (h start).1, (h 0).2.holding⟩

/-- The text that is left is not touched. -/
theorem Vacant.reads_aside {E : Halt → Prop} {r : Reader α} [ha : Aside r] [hr : Steady r]
    (hok : ∀ i, ∃ a, (r.on i).1 = .ok a) (hi : o.Vacant i) :
    o.Reads E (fun _ j => o.Vacant j ∧ j.position = i.position) r i := by
  have hj := hi.taken (E := fun _ => True) (.of_ok hok) trivial (r := r)
    fun h => h.aside (ha.position i) (ha.aliasBlank i)
  have hsame := ha.position i
  obtain ⟨a, hvalue⟩ := hok i
  unfold Reads Meets at hj ⊢
  generalize r.on i = outcome at hj hsame hvalue
  obtain ⟨r, j⟩ := outcome
  cases hvalue
  exact ⟨hj, hsame⟩

variable {E : Halt → Prop} {Q : α → Input → Prop}

theorem reads_fail {f : Fault} (hi : o.Holding i) : o.Reads o.Blames Q (fail f) i :=
  ⟨fun _ _ he => (nomatch he), hi⟩

theorem reads_outOfSteps (hE : ∀ e, o.Blames e → E e) (hi : o.Holding i) : o.Reads E Q outOfSteps i :=
  (reads_fail hi).weaken hE

theorem reads_unterminated {what : Text} {start : Nat} (hi : o.Vacant i) :
    o.Reads (o.Strays start) Q (unterminated what start) i := by
  refine ⟨.inr fun f l he => ?_, hi.holding⟩
  cases he
  exact ⟨rfl, what, rfl⟩

/-- The token is refused. -/
theorem reads_refused {f : Fault} (hi : o.Holding i) (htk : o.Found tk) (hf : tk.Refused f) :
    o.Reads o.Blames Q (failAt tk.line f) i := by
  refine ⟨fun f' l he => ?_, hi⟩
  cases he
  exact .inl ⟨tk, htk, rfl, hf⟩

theorem reads_unexpected {expecting : Option Text} (hi : o.Holding i) (htk : o.Found tk) :
    o.Reads o.Blames Q (unexpected tk expecting) i :=
  reads_refused hi htk (.unexpected expecting)

/-- The token is put back. -/
theorem Has.pushed (h : o.Has tk i) : o.Holding ((pushToken tk).on i).2 where
  toLocated := h.toLocated.aside rfl id rfl
  hand tk' htk' := by
    cases htk'
    exact ⟨h.hand.behind.of_position rfl, h.hand.word⟩

/-- A text that was found is read by itself. -/
theorem reads_withInput {P : α → Input → Prop} {sub : Input} {r : Reader α} (hi : o.Vacant i)
    (hr : o.Reads E P r sub) :
    o.Reads E (fun a j => P a.1 a.2 ∧ o.Vacant j) (withInput sub r) i := by
  have hlogged : ∀ uses, o.Vacant { i with expanded := uses } := fun uses =>
    ⟨hi.toLocated.aside rfl id rfl, hi.pushback⟩
  unfold Reads Meets at hr ⊢
  rw [Reader.on_withInput]
  generalize r.on sub = outcome at hr
  obtain ⟨a, j⟩ := outcome
  cases a with
  | ok a => exact ⟨hr, hlogged _⟩
  | error e => exact ⟨hr.1, (hlogged _).holding⟩

/-- What begins at the place is blamed if it is not closed. -/
theorem Reads.blames {r : Reader α} (hi : o.Located i) (h : o.Reads (o.Strays i.line) Q r i)
    (hfails : ∀ e j, r.on i = (.error e, j) → FailsFrom i e) : o.Reads o.Blames Q r i := by
  obtain ⟨S, l, d, hplace⟩ := hi.place
  unfold Reads Meets at h ⊢
  generalize r.on i = outcome at h hfails
  obtain ⟨a, j⟩ := outcome
  cases a with
  | ok a => exact h
  | error e => exact ⟨h.1.blames hplace (hfails e j rfl), h.2⟩

end Origin

end CommandShell.Script
