import CommandShell.Proofs.Reading.AliasedWords

/-!
# Aliases are replaced by their words

On a line of plain words the reader replaces a word by the words of its alias where a command may start,
and goes on inside the text of the alias with a mark that says whether the next word is looked up too.
`substitute` says the same of words alone: a text is done when its words are, and what comes after it is
looked up as the text says. The arguments that are read are the words that `substitute` gives
(`aliases_substituted`).

What is read depends on the blank of the outermost of the aliases that end at one place. So the blank of
an inner one is lost if the outer one has none (`not_aliases_substituted`).
-/

namespace CommandShell.Script

open Reader

variable {α β : Type} {A : Table Text} {active : List Text} {rest t w text : Text} {i j : Input}

/-! ## The rule -/

/-- Whether a text ends in a blank. -/
def endsBlank (t : Text) : Bool := t.getLast?.any isBlank

/-- The text that replaces a word where a command may start, in the texts of the given aliases. -/
def replacement? (A : Table Text) (active : List Text) (w : Text) : Option Text :=
  if keywords.contains w || active.contains w then none else A.get? w

/-- The aliases that are not being expanded. -/
def idle (A : Table Text) (active : List Text) : List (Text × Text) :=
  A.toList.filter fun b => !active.contains b.1

theorem lookedUp {checked : Bool}
    (h : (if checked then replacement? A active w else none) = some text) :
    checked = true ∧ replacement? A active w = some text := by
  split at h
  · exact ⟨‹_›, h⟩
  · contradiction

theorem get?_of_replacement? (h : replacement? A active w = some text) : A.get? w = some text := by
  unfold replacement? at h
  split at h
  · contradiction
  · exact h

theorem mem_of_replacement? (h : replacement? A active w = some text) : (w, text) ∈ A.toList :=
  Table.mem_of_get? (get?_of_replacement? h)

theorem idle_lt (h : replacement? A active w = some text) :
    (idle A (w :: active)).length < (idle A active).length := by
  unfold replacement? at h
  split at h
  · contradiction
  rename_i hfree
  obtain ⟨-, hactive⟩ : keywords.contains w = false ∧ active.contains w = false := by
    simpa using hfree
  have hmem : (w, text) ∈ idle A active :=
    List.mem_filter.mpr ⟨Table.mem_of_get? h, by simpa using hactive⟩
  have hsub : idle A (w :: active) = (idle A active).filter fun b => decide (b.1 ≠ w) := by
    unfold idle
    rw [List.filter_filter]
    refine List.filter_congr fun b _ => ?_
    simp
  rw [hsub]
  exact List.length_filter_lt_length_iff_exists.mpr ⟨_, hmem, by simp⟩

/-- What words come to when each word that is looked up is replaced by the words of its alias, unless
that alias is being expanded (`active`). The first word is looked up if `checked` says so, and so is the
word after an alias whose text ends in a blank; with `inherits` also the word after an alias whose text
ends with such an alias. The second result tells whether the word after the given ones is looked up. -/
def substitute (A : Table Text) (inherits : Bool) (active : List Text) (checked : Bool) :
    List Text → List Text × Bool
  | [] => ([], checked)
  | w :: ws =>
    match _h : if checked then replacement? A active w else none with
    | none =>
      let after := substitute A inherits active false ws
      (w :: after.1, after.2)
    | some text =>
      let inner := substitute A inherits (w :: active) true (wordsOf text)
      let after := substitute A inherits active (endsBlank text || (inherits && inner.2)) ws
      (inner.1 ++ after.1, after.2)
termination_by ws => ((idle A active).length, ws.length)
decreasing_by
  all_goals first
    | exact Prod.Lex.right _ (by simp)
    | skip
  exact Prod.Lex.left _ _ (idle_lt (lookedUp _h).2)

section

variable {inherits checked : Bool} {ws : List Text}

theorem substitute_cons (h : (if checked then replacement? A active w else none) = none) :
    substitute A inherits active checked (w :: ws) =
      (w :: (substitute A inherits active false ws).1, (substitute A inherits active false ws).2) := by
  rw [substitute]
  split
  · rfl
  · rename_i htext
    exact absurd (h.symm.trans htext) (Option.some_ne_none _).symm

theorem substitute_unchecked : substitute A inherits active false (w :: ws) =
    (w :: (substitute A inherits active false ws).1, (substitute A inherits active false ws).2) :=
  substitute_cons rfl

theorem substitute_kept (h : replacement? A active w = none) :
    substitute A inherits active true (w :: ws) =
      (w :: (substitute A inherits active false ws).1, (substitute A inherits active false ws).2) :=
  substitute_cons h

theorem substitute_nil : substitute A inherits active checked [] = ([], checked) := by rw [substitute]

theorem substitute_replaced (h : replacement? A active w = some text) :
    substitute A inherits active true (w :: ws) =
      let inner := substitute A inherits (w :: active) true (wordsOf text)
      let after := substitute A inherits active (endsBlank text || (inherits && inner.2)) ws
      (inner.1 ++ after.1, after.2) := by
  rw [substitute]
  split
  · rename_i hnone
    exact absurd (h.symm.trans hnone) (Option.some_ne_none _)
  · rename_i text' htext
    obtain rfl := Option.some.inj (h.symm.trans htext)
    rfl

end

/-! ## Reading arguments -/

/-- Every alias stands for plain words, one at least. -/
def PlainAliases (A : Table Text) : Prop := ∀ b ∈ A.toList, PlainWords b.2 ∧ wordsOf b.2 ≠ []

instance (A : Table Text) : Decidable (PlainAliases A) :=
  List.decidableBAll (fun b : Text × Text => PlainWords b.2 ∧ wordsOf b.2 ≠ []) A.toList

/-- Each of the words is one run of unquoted characters, and these are the texts. -/
def AreWords (us : List Word) (out : List Text) : Prop := us.map Word.literal? = out.map some

theorem Word.literal?_of_parts {W : Word} (h : W.parts = [.literal w]) : W.literal? = some w := by
  rw [Word.literal?, h]

/-- With enough steps the further arguments of a simple command come to `Q`. -/
def ReadsOn (argv : List Word) (i : Input) (Q : Node → Input → Prop) : Prop :=
  ∀ line, Obtains (readSimpleOn line [] argv) i Q

/-- The place after the words of the text that is read first. -/
def Spot.Past (s : Spot) (more : Bool) (s' : Spot) : Prop :=
  ∃ u, (∀ c ∈ u, isBlank c = true) ∧ s' = (s.moved u).marked more

/-- The reader is in the texts of the given aliases, and these words are left of the one that is read
first. -/
structure Facing (A : Table Text) (rest : Text) (active : List Text) (checked : Bool)
    (ws : List Text) (s : Spot) (i : Input) : Prop extends At A rest s i where
  names : s.names = active
  mark : s.blank = checked
  plain : s.Plain
  words : wordsOf s.ahead = ws

/-- The words of the text that is read first are read as the given arguments. -/
def Supplies (A : Table Text) (rest : Text) (active : List Text) (checked : Bool) (ws out : List Text)
    (more : Bool) : Prop :=
  ∀ s i argv Q, Facing A rest active checked ws s i → argv ≠ [] →
    (∀ s' j us, At A rest s' j → s.Past more s' → AreWords us out → ReadsOn (us.reverse ++ argv) j Q) →
    ReadsOn argv i Q

/-- A word that is looked up and the words after it are read as the given arguments, whatever is done
with the first of these. -/
def SuppliesFrom (A : Table Text) (rest : Text) (active : List Text) (w : Text) (ws out : List Text)
    (more : Bool) : Prop :=
  ∀ s j argv (Q Q' : Node → Input → Prop) tk (g : Nat → Token → Reader Node),
    Facing A rest active false ws s j → tk.HasParts [.literal w] →
    (∀ tk' w' W k s', tk'.kind = .word W → W.parts = [.literal w'] → out.head? = some w' →
      At A rest s' k → s'.Plain → ReadsOn (W :: argv) k Q' → Obtains (fun n => g n tk') k Q) →
    (∀ s' k us, At A rest s' k → s.Past more s' → AreWords us out →
      ReadsOn (us.reverse ++ argv) k Q') →
    Obtains (fun n => expandAlias n tk >>= g n) j Q

section

variable {s : Spot} {tk : Token} {W : Word} {argv : List Word} {line n : Nat}
  {Q : Node → Input → Prop}

theorem At.takeAliasBlank_on (h : At A rest s j) :
    takeAliasBlank.on j = (.ok s.blank, { j with aliasBlank := false }) := by
  rw [← h.blank]
  rfl

theorem At.unmarked (h : At A rest s j) :
    At A rest (s.marked false) { j with aliasBlank := false } := { h with blank := rfl }

theorem Token.literal?_of_hasParts (h : tk.HasParts [.literal w]) : tk.literal? = some w := by
  obtain ⟨t, l, hkind⟩ := h
  rw [Token.literal?, Token.word?, hkind]
  rfl

theorem At.aliasText?_on (h : At A rest s j) (w : Text) :
    (aliasText? w).on j = (.ok (if s.names.contains w then none else A.get? w), j) := by
  have hany : (j.frames.any fun f => f.name == w) = s.names.contains w := by
    rw [h.frames, Spot.names, List.contains_eq_any_beq, List.any_map]
    exact List.any_congr rfl fun f => Bool.beq_comm
  unfold aliasText?
  rw [Reader.on_get, hany, h.aliases]
  split
  · rfl
  · rfl

theorem keywordless_of_hasParts (h : tk.HasParts [.literal w]) :
    (tk.literal?.filter fun name => !keywords.contains name) =
      if keywords.contains w then none else some w := by
  rw [Token.literal?_of_hasParts h, Option.filter]
  cases keywords.contains w <;> rfl

/-- A word that the rule keeps is kept. -/
theorem At.expandAlias_kept (h : At A rest s j) (htk : tk.HasParts [.literal w])
    (hnone : replacement? A s.names w = none) (n : Nat) :
    (expandAlias (n + 1) tk).on j = (.ok tk, j) := by
  rw [expandAlias, keywordless_of_hasParts htk]
  unfold replacement? at hnone
  cases hkey : keywords.contains w with
  | true => rfl
  | false =>
      rw [hkey, Bool.false_or] at hnone
      simp only [Bool.false_eq_true, if_false]
      rw [Reader.on_bind, h.aliasText?_on, hnone]
      rfl

/-- The text that the rule puts in place of a word is read next. -/
theorem At.expandAlias_replaced (h : At A rest s j) (htk : tk.HasParts [.literal w])
    (hsome : replacement? A s.names w = some text) (n : Nat) :
    (expandAlias (n + 1) tk).on j = (do
      pushAlias w text
      expandAlias n (← nextToken n) : Reader Token).on j := by
  rw [expandAlias, keywordless_of_hasParts htk]
  unfold replacement? at hsome
  cases hkey : keywords.contains w with
  | true =>
      rw [hkey] at hsome
      contradiction
  | false =>
      rw [hkey, Bool.false_or] at hsome
      simp only [Bool.false_eq_true, if_false]
      rw [Reader.on_bind, h.aliasText?_on, hsome]

/-- The place where the reader starts on the text of an alias. -/
def Spot.entered (s : Spot) (w text : Text) : Spot :=
  { s with frames := { name := w, rest := text, endsBlank := endsBlank text, spent := false } :: s.frames }

theorem Spot.Plain.entered (h : s.Plain) (ht : PlainWords text) (w : Text) :
    (s.entered w text).Plain := by
  refine ⟨fun f hf => ?_, h.line⟩
  rcases List.mem_cons.mp hf with rfl | hf
  · exact ht
  · exact h.frames f hf

theorem At.pushAlias_on (h : At A rest s j) (w text : Text) :
    ∃ k, (pushAlias w text).on j = (.ok (), k) ∧ At A rest (s.entered w text) k := by
  refine ⟨_, rfl, { h with frames := congrArg (_ :: ·) h.frames, unspent := fun f hf => ?_ }⟩
  rcases List.mem_cons.mp hf with rfl | hf
  · rfl
  · exact h.unspent f hf

/-- A word is a further argument. -/
theorem obtains_argument (hkind : tk.kind = .word W) (hargv : argv ≠ [])
    (h : Obtains (readSimpleOn line [] (W :: argv)) i Q) :
    Obtains (fun n => parseSimple n line [] argv [] tk) i Q := by
  apply Obtains.step
  unfold parseSimple
  simp only [hkind, List.isEmpty_eq_false_iff.mpr hargv, Bool.false_and, Bool.false_eq_true, if_false]
  exact h

theorem Obtains.shift {f : Nat → Reader α} {Q : α → Input → Prop} (h : Obtains f i Q) :
    Obtains (fun n => f (n + 1)) i Q := by
  obtain ⟨a, j, ha, N, hN⟩ := h
  exact ⟨a, j, ha, N, fun n hn => hN (n + 1) (by omega)⟩

section

variable {ws out inner : List Text} {checked more : Bool}

theorem Facing.unmarked (h : Facing A rest active checked ws s i) :
    Facing A rest active false ws (s.marked false) { i with aliasBlank := false } :=
  { At.unmarked h.toAt with
    names := h.names
    mark := rfl
    plain := h.plain.marked false
    words := h.words }

/-- The first of the words is the next token. -/
theorem Facing.readsWord (h : Facing A rest active checked (w :: ws) s i) (hrest : AtLineEnd rest) :
    ∃ u tk j, tk.HasParts [.literal w] ∧ Facing A rest active checked ws (s.moved u) j ∧
      ReadsNext tk j i := by
  obtain ⟨u, hw, hu⟩ := exists_of_wordsOf h.words
  obtain ⟨tk, j, htk, hplain, hj, hread⟩ := h.toAt.readsWord h.plain hw hrest
  refine ⟨u, tk, j, htk, { hj with names := ?_, mark := ?_, plain := hplain, words := ?_ }, hread⟩
  · rw [s.names_moved, h.names]
  · rw [s.blank_moved, h.mark]
  · rw [s.ahead_moved, hu]

/-- The place after the further words of a text is the place after all of them. -/
theorem Spot.Past.of_moved {u : Text} {b : Bool} {s' : Spot} (h : ((s.moved u).marked b).Past more s') :
    s.Past more s' := by
  obtain ⟨v, hv, rfl⟩ := h
  exact ⟨v, hv, by simp⟩

theorem supplies_nil : Supplies A rest active checked [] [] checked := by
  intro s i argv Q hi hargv hend
  have hpast : s.Past checked s := by
    refine ⟨s.ahead, wordsOf_eq_nil_iff.mp hi.words, ?_⟩
    rw [s.moved_ahead, ← hi.mark]
    rfl
  exact hend s i [] hi.toAt hpast rfl

/-- The word is an argument, and those after it are read. -/
theorem Supplies.readsOn (h : Supplies A rest active false ws out more)
    (hj : Facing A rest active false ws s j) (hparts : W.parts = [.literal w])
    (hend : ∀ s' k us, At A rest s' k → s.Past more s' → AreWords us (w :: out) →
      ReadsOn (us.reverse ++ argv) k Q) : ReadsOn (W :: argv) j Q := by
  refine h s j (W :: argv) Q hj (List.cons_ne_nil _ _) fun s' k us hk hpast hus => ?_
  have hall : AreWords (W :: us) (w :: out) := by
    unfold AreWords at hus ⊢
    rw [List.map_cons, List.map_cons, Word.literal?_of_parts hparts, hus]
  have hon := hend s' k (W :: us) hk hpast hall
  rwa [List.reverse_cons, List.append_assoc] at hon

/-- A word that is not looked up is an argument. -/
theorem Supplies.cons_unchecked (hrest : AtLineEnd rest)
    (h : Supplies A rest active false ws out more) :
    Supplies A rest active false (w :: ws) (w :: out) more := by
  intro s i argv Q hi hargv hend line
  obtain ⟨u, tk, j, ⟨t, l, hkind⟩, hj, hread⟩ := hi.readsWord hrest
  apply hread.obtains
  apply Obtains.after hj.takeAliasBlank_on
  rw [hj.mark]
  simp only [Bool.false_eq_true, if_false]
  refine obtains_argument hkind hargv (h.readsOn hj.unmarked rfl ?_ line)
  exact fun s' k us hk hpast => hend s' k us hk hpast.of_moved

/-- A word whose turn it is to be looked up is read. -/
theorem SuppliesFrom.supplies (hrest : AtLineEnd rest)
    (h : SuppliesFrom A rest active w ws out more) : Supplies A rest active true (w :: ws) out more := by
  intro s i argv Q hi hargv hend line
  obtain ⟨u, tk, j, htk, hj, hread⟩ := hi.readsWord hrest
  apply hread.obtains
  apply Obtains.after hj.takeAliasBlank_on
  rw [hj.mark]
  simp only [if_true]
  refine h ((s.moved u).marked false) _ argv Q Q tk _ hj.unmarked htk ?_ ?_
  · exact fun tk' w' W k s' hkind _ _ _ _ hon => obtains_argument hkind hargv (hon line)
  · exact fun s' k us hk hpast => hend s' k us hk hpast.of_moved

/-- A word that no alias replaces is an argument. -/
theorem SuppliesFrom.of_kept (hnone : replacement? A active w = none)
    (h : Supplies A rest active false ws out more) :
    SuppliesFrom A rest active w ws (w :: out) more := by
  intro s j argv Q Q' tk g hj htk hg hend
  obtain ⟨t, l, hkind⟩ := id htk
  rw [← hj.names] at hnone
  apply Obtains.step
  refine Obtains.bind (P := fun tk' k => tk' = tk ∧ k = j)
    ⟨tk, j, ⟨rfl, rfl⟩, 0, fun n _ => hj.expandAlias_kept htk hnone n⟩ ?_
  rintro tk' k ⟨rfl, rfl⟩
  exact (hg tk' w _ k s hkind rfl rfl hj.toAt hj.plain (h.readsOn hj rfl hend)).shift

theorem Facing.entered (h : Facing A rest active false ws s j) (hplain : PlainWords text) (w : Text) :
    ∃ k, (pushAlias w text).on j = (.ok (), k) ∧
      Facing A rest (w :: active) false (wordsOf text) (s.entered w text) k := by
  obtain ⟨k, hpush, hk⟩ := h.toAt.pushAlias_on w text
  have hnames : (s.entered w text).names = w :: active := by
    rw [← h.names]
    rfl
  exact ⟨k, hpush, { hk with
    names := hnames
    mark := h.mark
    plain := h.plain.entered hplain w
    words := rfl }⟩

/-- The words of an alias are read in its place, and then those after it. -/
theorem SuppliesFrom.of_replaced {w' : Text} {ws' : List Text} {ends : Bool} (hrest : AtLineEnd rest)
    (hsome : replacement? A active w = some text) (hplain : PlainWords text)
    (hwords : wordsOf text = w' :: ws')
    (hinner : SuppliesFrom A rest (w :: active) w' ws' inner ends) (hne : inner ≠ [])
    (hafter : Supplies A rest active (endsBlank text) ws out more) :
    SuppliesFrom A rest active w ws (inner ++ out) more := by
  intro s j argv Q Q' tk g hj htk hg hend
  obtain ⟨k, hpush, hk⟩ := hj.entered hplain w
  rw [hwords] at hk
  rw [← hj.names] at hsome
  obtain ⟨u, tk', l, htk', hl, hread⟩ := hk.readsWord hrest
  have hentered : ∀ n, (expandAlias (n + 1) tk >>= g (n + 1)).on j =
      (nextToken n >>= fun tk' => expandAlias n tk' >>= g (n + 1)).on k := fun n => by
    rw [Reader.on_bind, hj.expandAlias_replaced htk hsome, ← Reader.on_bind, bind_assoc,
      Reader.on_bind, hpush, bind_assoc]
  suffices h : Obtains (fun n => nextToken n >>= fun tk' => expandAlias n tk' >>= g (n + 1)) k Q by
    obtain ⟨a, m, ha, N, hN⟩ := h
    exact Obtains.step ⟨a, m, ha, N, fun n hn => (hentered n).trans (hN n hn)⟩
  apply hread.obtains
  refine hinner _ l argv Q Q' tk' (fun n => g (n + 1)) hl htk' ?_ ?_
  · intro tk' w' W k s' hkind hparts hhead hk hplain' hon
    refine (hg tk' w' W k s' hkind hparts ?_ hk hplain' hon).shift
    rw [List.head?_append, hhead]
    rfl
  · rintro _ k us hk ⟨v, hv, rfl⟩ hus line
    have hargv : us.reverse ++ argv ≠ [] := by
      intro hnil
      obtain rfl := List.reverse_eq_nil_iff.mp (List.append_eq_nil_iff.mp hnil).1
      exact hne (List.map_eq_nil_iff.mp hus.symm)
    -- what is left of the text of the alias is blank, and the mark tells of that text
    refine hk.obtains_leaving hv fun m hm => ?_
    have hfacing : Facing A rest active (endsBlank text) ws (s.marked (endsBlank text)) m :=
      { hm with names := hj.names, mark := rfl, plain := hj.plain.marked _, words := hj.words }
    refine hafter _ m _ Q' hfacing hargv (fun s' m us' hm hpast hus' => ?_) line
    have hall : AreWords (us ++ us') (inner ++ out) := by
      unfold AreWords at hus hus' ⊢
      rw [List.map_append, List.map_append, hus, hus']
    have hon := hend s' m (us ++ us') hm (by simpa [Spot.Past] using hpast) hall
    rwa [List.reverse_append, List.append_assoc] at hon

theorem substitute_ne_nil (hA : PlainAliases A) {inherits checked : Bool} (hne : ws ≠ []) :
    (substitute A inherits active checked ws).1 ≠ [] := by
  fun_induction substitute A inherits active checked ws with
  | case1 => exact absurd rfl hne
  | case2 => exact List.cons_ne_nil _ _
  | case3 active checked w ws text h inner after ih _ =>
      obtain ⟨-, hsome⟩ := lookedUp h
      have hinner := ih (hA _ (mem_of_replacement? hsome)).2
      exact fun hnil => hinner (List.append_eq_nil_iff.mp hnil).1

/-- What the rule makes of the words of a text is what is read. -/
theorem supplies_substitute (hA : PlainAliases A) (hrest : AtLineEnd rest) (active : List Text)
    (checked : Bool) (ws : List Text) :
    let r := substitute A false active checked ws
    Supplies A rest active checked ws r.1 r.2 ∧
      ∀ w ws', checked = true → ws = w :: ws' → SuppliesFrom A rest active w ws' r.1 r.2 := by
  fun_induction substitute A false active checked ws with
  | case1 active checked => exact ⟨supplies_nil, fun _ _ _ h => absurd h (List.cons_ne_nil _ _).symm⟩
  | case2 active checked w ws h after ih =>
      cases checked with
      | false => exact ⟨ih.1.cons_unchecked hrest, fun _ _ h => absurd h Bool.false_ne_true⟩
      | true =>
          have hfrom := SuppliesFrom.of_kept h ih.1
          refine ⟨hfrom.supplies hrest, ?_⟩
          rintro _ _ - ⟨rfl, rfl⟩
          exact hfrom
  | case3 active checked w ws text h inner after ih1 ih2 =>
      obtain ⟨rfl, hsome⟩ := lookedUp h
      obtain ⟨hplain, hwords⟩ := hA _ (mem_of_replacement? hsome)
      obtain ⟨w', ws', hcons⟩ := List.exists_cons_of_ne_nil hwords
      have hafter : Supplies A rest active (endsBlank text) ws after.1 after.2 := by
        simpa [after] using ih2.1
      have hfrom := SuppliesFrom.of_replaced hrest hsome hplain hcons (ih1.2 w' ws' rfl hcons)
        (substitute_ne_nil hA hwords) hafter
      refine ⟨hfrom.supplies hrest, ?_⟩
      rintro _ _ - ⟨rfl, rfl⟩
      exact hfrom

end

end

/-! ## The command -/

/-- A simple command of these arguments and nothing else. -/
def IsCommandOf (out : List Text) (n : Node) : Prop :=
  ∃ argv line, n = .mk (.simple [] argv []) line ∧ AreWords argv out

/-- The command starts with a word that is no keyword and no assignment. -/
def Calls (out : List Text) : Prop :=
  ∀ w ∈ out.head?, w ∉ keywords ∧ Text.splitAssignment? w = none

instance (out : List Text) : Decidable (Calls out) :=
  inferInstanceAs (Decidable (∀ w ∈ out.head?, w ∉ keywords ∧ Text.splitAssignment? w = none))

section

variable {s : Spot} {u : Text} {b : Bool} {tk : Token} {W : Word} {argv : List Word} {out : List Text}

/-- The arguments end with the line. -/
theorem At.readsOn_end (hi : At A rest ⟨[], u, b⟩ i) (hblank : ∀ c ∈ u, isBlank c = true)
    (hrest : AtLineEnd rest) : ReadsOn argv i fun n j =>
      (∃ line, n = .mk (.simple [] argv.reverse []) line) ∧ LineOver j := by
  intro line
  obtain ⟨tk, j, hkind, hj, hbodies, hread⟩ := hi.lineOver hblank hrest
  have hsimple : Obtains (fun n => parseSimple n line [] argv [] tk) { j with aliasBlank := false }
      fun n j => (∃ line, n = .mk (.simple [] argv.reverse []) line) ∧ LineOver j := by
    have hover : LineOver { j with aliasBlank := false, pushback := some tk } :=
      LineOver.pushed (j := { j with aliasBlank := false }) hkind hj hbodies
    apply Obtains.step
    unfold parseSimple
    rcases hkind with h | h
    all_goals
      simp only [h]
      exact .after rfl (obtains_pure ⟨⟨line, rfl⟩, hover⟩)
  have hnone : tk.literal? = none := by
    rcases hkind with h | h <;> rw [Token.literal?, Token.word?, h] <;> rfl
  apply hread.obtains
  apply Obtains.after (show takeAliasBlank.on j = (.ok j.aliasBlank, _) from rfl)
  cases j.aliasBlank with
  | false => exact hsimple
  | true =>
      apply Obtains.step
      simp only [if_true, expandAlias, hnone]
      exact hsimple.shift

/-- A word that calls a command starts a simple command. -/
theorem At.obtains_commandAt {Q : Node → Input → Prop} {w : Text} (hi : At A rest s i)
    (hplain : s.Plain) (hrest : AtLineEnd rest) (hkind : tk.kind = .word W)
    (hparts : W.parts = [.literal w]) (hw : w ∉ keywords ∧ Text.splitAssignment? w = none)
    (hon : ReadsOn [W] i Q) : Obtains (fun n => parseCommandAt n tk) i Q := by
  have hsimple : tk.StartsSimple := by
    refine .inr ⟨W, hkind, fun kw hkw => ?_⟩
    obtain rfl : w = kw := Option.some.inj ((Word.literal?_of_parts hparts).symm.trans hkw)
    have hstarters : ∀ kw ∈ compoundStarters, kw ∈ keywords := by decide
    have henders : ∀ kw ∈ listEnders, kw ∈ keywords := by decide
    exact ⟨fun h => hw.1 (hstarters w h), fun h => hw.1 (henders w h)⟩
  have hassign : W.isAssignment = false := by simp [Word.isAssignment, hparts, hw.2]
  obtain ⟨next, j, ⟨hparen, hj⟩, hread⟩ := hi.obtains_noParen hplain hrest
  have hread : ReadsNext next j i := hread
  apply Obtains.step
  simp only [parseCommandAt_simple hsimple]
  apply Obtains.step
  unfold parseSimple
  simp only [hkind, hassign, List.isEmpty_nil, Bool.and_false, Bool.false_eq_true, if_false,
    Bool.and_self, if_true]
  -- a parenthesis would make the word the name of a function
  apply hread.obtains_peek
  simp only [hparen, Bool.false_eq_true, if_false]
  exact (readsNext_pushed hj next).obtains (hread.of_obtains (hon tk.line))

theorem obtains_commandToken {Q : β → Input → Prop} {g : Nat → Token → Reader β}
    (h : Obtains (fun n => nextToken n >>= fun tk => expandAlias n tk >>= g (n + 1))
      { i with aliasBlank := false } Q) : Obtains (fun n => commandToken n >>= g n) i Q := by
  apply Obtains.step
  simp only [commandToken, bind_assoc]
  exact .after rfl h

/-- What gives the token back that ends the line is done. -/
theorem LineOver.obtains_back {g : Nat → Token → Reader β} {b : β} (h : LineOver i)
    (hg : ∀ n tk, tk.kind.EndsLine → g n tk = (do pushToken tk; return b)) :
    Obtains (fun n => nextToken n >>= g n) i fun a j => a = b ∧ LineOver j := by
  obtain ⟨tk, j, hkind, hj, hbodies, hread⟩ := h
  apply hread.obtains
  simp only [fun n => hg n tk hkind]
  exact .after rfl (obtains_pure ⟨rfl, .pushed hkind hj hbodies⟩)

theorem LineOver.obtains_stages {n : Node} (h : LineOver i) :
    Obtains (fun m => parseStages m [n]) i fun ns j => ns = [n] ∧ LineOver j := by
  apply Obtains.step
  unfold parseStages
  apply h.obtains_back
  rintro m tk (hkind | hkind) <;> simp only [hkind] <;> rfl

/-- A line of plain words is one pipeline of one command. -/
theorem At.obtains_pipeline {w : Text} (hA : PlainAliases A) (hrest : AtLineEnd rest)
    (hj : At A rest ⟨[], u, b⟩ j) (hplain : PlainWords u) (htk : tk.HasParts [.literal w])
    (hcalls : Calls (substitute A false [] true (w :: wordsOf u)).1) :
    Obtains parsePipeline { j with pushback := some tk } fun n k =>
      IsCommandOf (substitute A false [] true (w :: wordsOf u)).1 n ∧ LineOver k := by
  obtain ⟨-, hfrom⟩ := supplies_substitute hA hrest [] true (w :: wordsOf u)
  have hunmarked : At A rest ⟨[], u, false⟩ { j with aliasBlank := false } := hj.unmarked
  have hfacing : Facing A rest [] false (wordsOf u) ⟨[], u, false⟩ { j with aliasBlank := false } :=
    { hunmarked with names := rfl, mark := rfl, plain := ⟨nofun, hplain⟩, words := rfl }
  apply Obtains.step
  simp only [parsePipeline_eq]
  apply obtains_commandToken
  apply (readsNext_pushed hunmarked.pushback tk).obtains
  refine hfrom w (wordsOf u) rfl rfl ⟨[], u, false⟩ _ [] _ (fun n k =>
    IsCommandOf (substitute A false [] true (w :: wordsOf u)).1 n ∧ LineOver k) tk _ hfacing htk ?_ ?_
  · intro tk' w' W k s' hkind hparts hhead hk hplain' hon
    have hw := hcalls w' hhead
    have hbang : tk'.isKeyword "!" = false := by
      refine beq_eq_false_iff_ne.mpr fun h => hw.1 ?_
      have hliteral : tk'.literal? = some w' := by
        rw [Token.literal?, Token.word?, hkind]
        exact Word.literal?_of_parts hparts
      obtain rfl := Option.some.inj (hliteral.symm.trans h)
      decide
    simp only [hbang, Bool.false_eq_true, if_false]
    refine Obtains.shift (f := fun n => parsePipelineFrom n false tk'.line tk') ?_
    refine (hk.obtains_commandAt hplain' hrest hkind hparts hw hon).bind ?_
    rintro n m ⟨hn, hm⟩
    apply hm.obtains_stages.bind
    rintro _ m ⟨rfl, hm⟩
    exact obtains_pure ⟨hn, hm⟩
  · rintro _ k us hk ⟨v, hv, rfl⟩ hus line
    refine (At.readsOn_end hk hv hrest line).mono ?_
    rintro n m ⟨⟨l, rfl⟩, hm⟩
    exact ⟨⟨us, l, by simp, hus⟩, hm⟩

theorem obtains_andOr {P : Node → Prop} (h : Obtains parsePipeline i fun n j => P n ∧ LineOver j) :
    Obtains parseAndOr i fun n j => P n ∧ LineOver j := by
  apply Obtains.step
  unfold parseAndOr
  apply h.bind
  rintro n j ⟨hn, hj⟩
  apply Obtains.step
  unfold parseAndOrRest
  refine Obtains.mono (P := fun m k => m = n ∧ LineOver k) (hj.obtains_back ?_) ?_
  · rintro m tk (hkind | hkind) <;> simp only [hkind]
  · rintro m k ⟨rfl, hk⟩
    exact ⟨hn, hk⟩

/-- A line that is one pipeline is a list of one command. -/
theorem obtains_list {P : Node → Prop} (h : Obtains parsePipeline i fun n j => P n ∧ LineOver j) :
    Obtains (fun n => parseList true n []) i fun n j => P n ∧ j.bodies = [] := by
  apply Obtains.step
  simp only [parseList_eq]
  apply (obtains_andOr h).bind
  rintro n j ⟨hn, tk, k, hkind, hk, hbodies, hread⟩
  apply hread.obtains
  rcases hkind with h | h
  · simp only [h, if_true]
    exact obtains_pure ⟨hn, hbodies⟩
  · simp only [h]
    exact .after rfl (obtains_pure ⟨hn, hbodies⟩)

theorem At.obtains_parseTop (hA : PlainAliases A) (hrest : AtLineEnd rest) {t : Text}
    (hi : At A rest ⟨[], t, b⟩ i) (hplain : PlainWords t) (hne : wordsOf t ≠ [])
    (hcalls : Calls (substitute A false [] true (wordsOf t)).1) :
    Obtains parseTop i fun p _ => ∃ n, p = .command n ∧
      IsCommandOf (substitute A false [] true (wordsOf t)).1 n := by
  have hprimary : At A rest ⟨[], t, b⟩ { i with primary := true } := { hi with }
  obtain ⟨w, ws, hwords⟩ := List.exists_cons_of_ne_nil hne
  obtain ⟨u, hw, rfl⟩ := exists_of_wordsOf hwords
  obtain ⟨tk, j, htk, hspot, hj, hread⟩ := hprimary.readsWord ⟨nofun, hplain⟩ hw hrest
  obtain ⟨text, l, hkind⟩ := id htk
  rw [hwords] at hcalls ⊢
  apply Obtains.step
  unfold parseTop
  show Obtains (fun n => nextToken n >>= _) { i with primary := true } _
  apply hread.obtains
  simp only [hkind]
  apply Obtains.after rfl
  apply (obtains_list (hj.obtains_pipeline hA hrest hspot.line htk hcalls)).bind
  rintro n k ⟨hn, hk⟩
  have hfill : n.fill k.bodies = n := by rw [hk, n.fill_nil]
  apply Obtains.after (Reader.on_get _ k)
  exact obtains_pure ⟨n, by rw [hfill], hn⟩

end

/-! ## Blanks at the end of aliases -/

/-- No alias whose text does not end in a blank ends with one whose text does. -/
def BlanksShow (A : Table Text) : Prop :=
  ∀ b ∈ A.toList, endsBlank b.2 = false →
    ∀ w ∈ (wordsOf b.2).getLast?, ∀ text ∈ A.get? w, endsBlank text = false

instance (A : Table Text) : Decidable (BlanksShow A) :=
  inferInstanceAs (Decidable (∀ b ∈ A.toList, endsBlank b.2 = false →
    ∀ w ∈ (wordsOf b.2).getLast?, ∀ text ∈ A.get? w, endsBlank text = false))

section

variable {inherits checked : Bool} {ws : List Text}

/-- After words that do not end with an alias whose text ends in a blank, no word is looked up. -/
theorem substitute_unmarked (hA : PlainAliases A) (hshow : BlanksShow A) (hne : ws ≠ [])
    (hlast : ∀ w ∈ ws.getLast?, ∀ text ∈ A.get? w, endsBlank text = false) :
    (substitute A inherits active checked ws).2 = false := by
  fun_induction substitute A inherits active checked ws with
  | case1 => exact absurd rfl hne
  | case2 active checked w ws h after ih =>
      cases ws with
      | nil => simp [after, substitute]
      | cons w' ws => exact ih (List.cons_ne_nil _ _) (by simpa using hlast)
  | case3 active checked w ws text h inner after ih1 ih2 =>
      obtain ⟨-, hsome⟩ := lookedUp h
      have hmem := mem_of_replacement? hsome
      cases ws with
      | nil =>
          have hblank : endsBlank text = false :=
            hlast w rfl text (get?_of_replacement? hsome)
          have hinner : inner.2 = false := ih1 (hA _ hmem).2 (hshow _ hmem hblank)
          simp [after, substitute, hblank, hinner]
      | cons w' ws => exact ih2 (List.cons_ne_nil _ _) (by simpa using hlast)

/-- Then the blank of an alias counts for the word after wherever the alias stands. -/
theorem substitute_inherits (hA : PlainAliases A) (hshow : BlanksShow A) :
    substitute A true active checked ws = substitute A false active checked ws := by
  fun_induction substitute A true active checked ws with
  | case1 => rw [substitute]
  | case2 active checked w ws h after ih =>
      rw [substitute_cons h, ← ih]
  | case3 active checked w ws text h inner after ih1 ih2 =>
      obtain ⟨rfl, hsome⟩ := lookedUp h
      have hmem := mem_of_replacement? hsome
      have hmark : (endsBlank text || (true && inner.2)) = endsBlank text := by
        cases hblank : endsBlank text with
        | true => rfl
        | false => exact substitute_unmarked hA hshow (hA _ hmem).2 (hshow _ hmem hblank)
      rw [hmark] at ih2
      have hafter : after = substitute A false active (endsBlank text) ws :=
        (congrArg (substitute A true active · ws) hmark).trans ih2
      have hinner : inner = substitute A false (w :: active) true (wordsOf text) := ih1
      rw [substitute_replaced hsome, hafter, hinner]
      simp only [Bool.false_and, Bool.or_false]

end

/-! ## The theorem -/

/-- Plain words start no script of their own. -/
theorem PlainWords.plain (h : PlainWords t) : Script.Plain t := by
  have hbackQuote : ¬ (isBlank '\x60' = true ∨ isWordChar '\x60' = true) := by decide
  have hnewline : ¬ (isBlank '\n' = true ∨ isWordChar '\n' = true) := by decide
  intro c hc
  have htests := h.chars c hc
  constructor
  · rintro rfl
    exact hbackQuote htests
  · rintro rfl
    exact hnewline htests

/-- A line of plain words is read as a simple command, where each alias stands for plain words, one at
least, and the first word that remains is no keyword and no assignment. Its arguments are what the words
of the line come to when the word after an alias is looked up if the text of that alias ends in a blank.
When no text without a blank at its end ends with an alias whose text has one, they are what the words
come to when the word after is looked up also if such an alias is the last word of that text. -/
theorem aliases_substituted (hA : PlainAliases A) (hplain : PlainWords t) (hne : wordsOf t ≠ [])
    (hrest : AtLineEnd rest) (hcalls : Calls (substitute A false [] true (wordsOf t)).1) (line : Nat) :
    ∃ n j, parseCommand.on (.ofText (t ++ rest) line A) = (.ok (.command n), j) ∧
      IsCommandOf (substitute A false [] true (wordsOf t)).1 n ∧
      (BlanksShow A → IsCommandOf (substitute A true [] true (wordsOf t)).1 n) := by
  have hsane : Sane A (.ofText (t ++ rest) line A) := (ahead_ofText A (t ++ rest) line).toSane
  have hread := (at_ofText A t rest line).obtains_parseTop hA hrest hplain hne hcalls
  obtain ⟨p, j, hp, n, rfl, hn⟩ := hread.parseCommand_on (fun b hb => (hA b hb).1.plain) hsane
  refine ⟨n, j, hp, hn, fun hshow => ?_⟩
  rw [substitute_inherits hA hshow]
  exact hn

/-- An alias `o` that names the alias `i`, and an alias for the word after. -/
def chained (outer inner : Text) : Table Text := .ofList [("o", outer), ("i", inner), ("w", "x")]

theorem substitute_chained {inherits : Bool} {outer inner : Text} (ho : wordsOf outer = [("i" : Text)])
    (hi : wordsOf inner = [("echo" : Text)]) :
    (substitute (chained outer inner) inherits [] true [("o" : Text), ("w" : Text)]).1 =
      [("echo" : Text), if endsBlank outer || (inherits && endsBlank inner) then "x" else "w"] := by
  have hinner : substitute (chained outer inner) inherits [("o" : Text)] true (wordsOf outer) =
      ([("echo" : Text)], endsBlank inner) := by
    have hlook : replacement? (chained outer inner) [("o" : Text)] "i" = some inner := rfl
    have hkept : replacement? (chained outer inner) [("i" : Text), ("o" : Text)] "echo" = none := rfl
    rw [ho, substitute_replaced hlook, hi, substitute_kept hkept, substitute_nil]
    simp [substitute_nil]
  have hlook : replacement? (chained outer inner) [] "o" = some outer := rfl
  rw [substitute_replaced hlook, hinner]
  dsimp only
  cases endsBlank outer || (inherits && endsBlank inner) with
  | false =>
      rw [substitute_unchecked, substitute_nil]
      rfl
  | true =>
      have hlook : replacement? (chained outer inner) [] "w" = some ("x" : Text) := rfl
      have hwords : wordsOf ("x" : Text) = [("x" : Text)] := by decide +kernel
      have hkept : replacement? (chained outer inner) [("w" : Text)] "x" = none := rfl
      rw [substitute_replaced hlook, hwords, substitute_kept hkept]
      simp [substitute_nil]

theorem wordsOf_line : wordsOf "o w" = [("o" : Text), ("w" : Text)] := by decide +kernel

/-- The alias `o` ends in a blank, so the word after it is replaced. -/
theorem aliases_substituted_chained : ∃ n j,
    parseCommand.on (.ofText "o w" 1 (chained "i " "echo")) = (.ok (.command n), j) ∧
      IsCommandOf [("echo" : Text), ("x" : Text)] n := by
  have hall : ∀ inherits, (substitute (chained "i " "echo") inherits [] true (wordsOf "o w")).1 =
      [("echo" : Text), ("x" : Text)] := fun inherits => by
    rw [wordsOf_line, substitute_chained (by decide +kernel) (by decide +kernel)]
    rfl
  have hcalls : Calls (substitute (chained "i " "echo") false [] true (wordsOf "o w")).1 := by
    rw [hall]
    decide +kernel
  obtain ⟨n, j, hread, -, hshow⟩ := aliases_substituted (A := chained "i " "echo") (t := "o w")
    (by decide +kernel) (by decide +kernel) (by decide +kernel) atLineEnd_nil hcalls 1
  refine ⟨n, j, hread, ?_⟩
  rw [← hall true]
  exact hshow (by decide +kernel)

/-- The arguments of a simple command that are plain words. -/
def Parsed.arguments : Parsed → List (Option Text)
  | .command (.mk (.simple _ argv _) _) => argv.map Word.literal?
  | _ => []

/-- The blank of an alias does not count when the alias around it ends without one. -/
theorem not_aliases_substituted : ¬ ∀ (A : Table Text) (t : Text), PlainAliases A → PlainWords t →
    wordsOf t ≠ [] → Calls (substitute A true [] true (wordsOf t)).1 →
    ∃ n j, parseCommand.on (.ofText t 1 A) = (.ok (.command n), j) ∧
      IsCommandOf (substitute A true [] true (wordsOf t)).1 n := by
  intro h
  have hall : (substitute (chained "i" "echo ") true [] true (wordsOf "o w")).1 =
      [("echo" : Text), ("x" : Text)] := by
    rw [wordsOf_line, substitute_chained (by decide +kernel) (by decide +kernel)]
    rfl
  have hcalls : Calls (substitute (chained "i" "echo ") true [] true (wordsOf "o w")).1 := by
    rw [hall]
    decide +kernel
  obtain ⟨n, j, hread, argv, line, rfl, hargv⟩ := h (chained "i" "echo ") "o w" (by decide +kernel)
    (by decide +kernel) (by decide +kernel) hcalls
  have hcode : (parseCommand.on (.ofText "o w" 1 (chained "i" "echo "))).1.toOption.map
      Parsed.arguments = some [some ("echo" : Text), some ("w" : Text)] := by
    decide +kernel
  rw [hread] at hcode
  rw [hall] at hargv
  exact absurd (hargv.symm.trans (Option.some.inj hcode)) (by decide +kernel)

end CommandShell.Script
