import CommandShell.Commands.Settings
import CommandShell.Proofs.EveryRun

/-!
# What `set` changes

`set` reads all its arguments before it changes anything. They are options and what comes after the
options (`Invocation`), and they are read as what they are written as (`read_eq_ok_iff`): other
arguments are refused.

A `set` that fails changes nothing, and legal arguments fail only if something is listed and cannot be
written. A `set` that succeeds leaves the options that its words make from left to right, but for one
thing: job control goes off again if there is no terminal for it (`Changed`). The positional parameters
are replaced if there are operands or `--`. This is `runSet_all_or_nothing`.
-/

namespace CommandShell

/-- The calls that set what is done with a signal. -/
inductive Host.SetsDisposition : Host.Event → Prop where
  | asked (n : Signal) (d old : Host.Disposition) : SetsDisposition ⟨.setDisposition n d, old⟩

namespace ShellOption

theorem ofLetter?_letter (o : ShellOption) : ofLetter? o.letter = some o := by
  cases o <;> rfl

theorem ofName?_name (o : ShellOption) : ofName? o.name = some o := by
  cases o <;> rfl

theorem letter_of_ofLetter? {c : Char} {o : ShellOption} (h : ofLetter? c = some o) :
    o.letter = c := by
  have hfound := List.find?_some h
  exact beq_iff_eq.mp hfound

theorem name_of_ofName? {t : Text} {o : ShellOption} (h : ofName? t = some o) : o.name = t := by
  have hfound := List.find?_some h
  exact beq_iff_eq.mp hfound

end ShellOption

namespace Commands

open Host (Event)
open Shell

/-! ## The words of `set` -/

/-- An option that `set` may change. -/
abbrev Changeable := { o : ShellOption // o.settable = true }

/-- The sign that turns options on or off. -/
def signOf (on : Bool) : Char := if on then '-' else '+'

/-- Words that turn options on or off: a sign with letters, or a sign with `o` and a name. -/
inductive OptionWords where
  | cluster (on : Bool) (first : Changeable) (others : List Changeable)
  | named (on : Bool) (o : Changeable)

namespace OptionWords

/-- How they are written. -/
def words : OptionWords → List Text
  | cluster on first others => [signOf on :: (first :: others).map fun o => o.1.letter]
  | named on o => [[signOf on, 'o'], o.1.name]

/-- The options after them, the letters taken from left to right. -/
def apply (options : CommandShell.Options) : OptionWords → CommandShell.Options
  | cluster on first others => (first :: others).foldl (fun os o => os.set o.1 on) options
  | named on o => options.set o.1 on

end OptionWords

/-- A word that stands for itself. -/
def IsOperand (t : Text) : Prop := t = [] ∨ t = ['+'] ∨ ∃ c rest, t = c :: rest ∧ c ≠ '-' ∧ c ≠ '+'

/-- What comes after the options. -/
inductive Ending where
  | nothing
  /-- After `--` everything is an operand. -/
  | marked (params : List Text)
  /-- The same after `-`, which turns off tracing besides. -/
  | dash (params : List Text)
  | operands (first : Text) (h : IsOperand first) (others : List Text)
  /-- A last `-o` or `+o` without a name lists the options. -/
  | listing (on : Bool)

namespace Ending

/-- How it is written. -/
def words : Ending → List Text
  | nothing => []
  | marked params => "--" :: params
  | dash params => "-" :: params
  | operands first _ others => first :: others
  | listing on => [[signOf on, 'o']]

/-- The new positional parameters: there are some if there are operands or `--`. -/
def params? : Ending → Option (List Text)
  | marked params => some params
  | dash (p :: params) => some (p :: params)
  | operands first _ others => some (first :: others)
  | _ => none

/-- Whether the options are listed, and then whether as commands. -/
def listing? : Ending → Option Bool
  | listing on => some (!on)
  | _ => none

/-- The options after it. -/
def apply (options : CommandShell.Options) : Ending → CommandShell.Options
  | dash _ => (options.set .xtrace false).set .verbose false
  | _ => options

end Ending

/-- Arguments of `set`: options and what comes after them. -/
structure Invocation where
  options : List OptionWords
  ending : Ending

namespace Invocation

/-- How they are written. -/
def words (c : Invocation) : List Text := c.options.flatMap OptionWords.words ++ c.ending.words

/-- The options after them. -/
def apply (c : Invocation) (options : CommandShell.Options) : CommandShell.Options :=
  c.ending.apply (c.options.foldl OptionWords.apply options)

/-- What they ask for. -/
def settings (c : Invocation) (s : Settings) : Settings where
  options := c.apply s.options
  params := c.ending.params?.or s.params
  listing := c.ending.listing?.or s.listing

end Invocation

/-! ## Reading the words -/

variable {s s' : Settings} {on : Bool}

theorem toggle_eq_ok_iff {o : Option ShellOption} {spelled : Text} :
    s.toggle o on spelled = .ok s' ↔
      ∃ c : Changeable, o = some c.1 ∧ s' = { s with options := s.options.set c.1 on } := by
  constructor
  · intro h
    cases o with
    | none => cases h
    | some o =>
        simp only [Settings.toggle] at h
        split at h
        · rename_i hset
          cases h
          exact ⟨⟨o, hset⟩, rfl, rfl⟩
        · cases h
  · rintro ⟨⟨o, hset⟩, rfl, rfl⟩
    simp only [Settings.toggle, hset, if_true]

theorem signOf_beq (on : Bool) : (signOf on == '-') = on := by
  cases on <;> rfl

/-- Letters after a sign are read one by one. -/
theorem cluster_eq_ok_iff {letters : Text} :
    Settings.cluster (signOf on) s letters = .ok s' ↔
      ∃ os : List Changeable, letters = os.map (fun o => o.1.letter) ∧
        s' = { s with options := os.foldl (fun options o => options.set o.1 on) s.options } := by
  induction letters generalizing s with
  | nil =>
      -- no letter is left
      constructor
      · intro h
        cases h
        exact ⟨[], rfl, rfl⟩
      · rintro ⟨os, hos, rfl⟩
        obtain rfl := List.map_eq_nil_iff.mp hos.symm
        rfl
  | cons c letters ih =>
      simp only [Settings.cluster, signOf_beq]
      constructor
      · intro h
        cases htoggle : s.toggle (ShellOption.ofLetter? c) on [signOf on, c] with
        | error e =>
            rw [htoggle] at h
            cases h
        | ok s₁ =>
            rw [htoggle] at h
            obtain ⟨o, ho, rfl⟩ := toggle_eq_ok_iff.mp htoggle
            obtain ⟨os, rfl, rfl⟩ := ih.mp h
            obtain rfl := ShellOption.letter_of_ofLetter? ho
            exact ⟨o :: os, rfl, rfl⟩
      · rintro ⟨os, hos, rfl⟩
        obtain ⟨o, os, rfl, rfl, rfl⟩ := List.map_eq_cons_iff.mp hos.symm
        have htoggle : s.toggle (ShellOption.ofLetter? o.1.letter) on [signOf on, o.1.letter] =
            .ok { s with options := s.options.set o.1 on } :=
          toggle_eq_ok_iff.mpr ⟨o, ShellOption.ofLetter?_letter o.1, rfl⟩
        rw [htoggle]
        exact ih.mpr ⟨os, rfl, rfl⟩

theorem isCluster_iff {t : Text} :
    Settings.isCluster t = true ↔ ∃ on letters, t = signOf on :: letters ∧ letters ≠ [] := by
  constructor
  · intro h
    unfold Settings.isCluster at h
    split at h
    · exact ⟨true, _, rfl, List.cons_ne_nil _ _⟩
    · exact ⟨false, _, rfl, List.cons_ne_nil _ _⟩
    · cases h
  · rintro ⟨on, letters, rfl, hne⟩
    obtain ⟨c, rest, rfl⟩ := List.exists_cons_of_ne_nil hne
    cases on <;> rfl

/-- Operands are told from options by their beginning. -/
theorem isOperand_iff {t : Text} :
    IsOperand t ↔ t ≠ "-" ∧ Settings.isCluster t = false := by
  match t with
  | [] => exact ⟨fun _ => ⟨nofun, rfl⟩, fun _ => .inl rfl⟩
  | [c] =>
      have hone : Settings.isCluster [c] = false := by
        unfold Settings.isCluster
        split <;> simp_all
      by_cases hminus : c = '-'
      · subst hminus
        simp [IsOperand, hone]
      · by_cases hplus : c = '+'
        · subst hplus
          simp [IsOperand, hone]
        · simp [IsOperand, hone, hminus, hplus]
  | c :: d :: rest =>
      by_cases hminus : c = '-'
      · simp [IsOperand, hminus, Settings.isCluster]
      · by_cases hplus : c = '+'
        · simp [IsOperand, hplus, Settings.isCluster]
        · simp [IsOperand, hminus, hplus, Settings.isCluster]

/-- A sign with something after it that does not end the options. -/
theorem read_sign {letters : Text} (hne : letters ≠ []) (hdash : letters ≠ ['-']) (rest : List Text) :
    s.read ((signOf on :: letters) :: rest) =
      if letters = ['o'] then
        match rest with
        | name :: rest =>
          s.toggle (ShellOption.ofName? name) on ([signOf on, 'o', ' '] ++ name) >>= (·.read rest)
        | [] => .ok { s with listing := some (!on) }
      else Settings.cluster (signOf on) s letters >>= (·.read rest) := by
  have hcluster := isCluster_iff.mpr ⟨on, letters, rfl, hne⟩
  have hmarker : signOf on :: letters ≠ "--" := fun h => hdash (List.cons.inj h).2
  have hsign : signOf on :: letters ≠ "-" := fun h => hne (List.cons.inj h).2
  rw [Settings.read.eq_def]
  dsimp only
  rw [if_neg hmarker, if_neg hsign, if_pos hcluster]
  cases rest with
  | nil => cases on <;> rfl
  | cons name rest => cases on <;> rfl

theorem letter_ne (o : ShellOption) : o.letter ≠ 'o' ∧ o.letter ≠ '-' := by
  cases o <;> decide

/-- Options are read one after the other. -/
theorem read_words (w : OptionWords) (rest : List Text) :
    s.read (w.words ++ rest) = Settings.read { s with options := w.apply s.options } rest := by
  cases w with
  | cluster on first others =>
      -- no option has the letter `o` or `-`, so the word is neither `-o` nor `--`
      obtain ⟨ho, hdash⟩ := letter_ne first.1
      have hread : Settings.cluster (signOf on) s ((first :: others).map fun o => o.1.letter) =
          .ok { s with options := (OptionWords.cluster on first others).apply s.options } :=
        cluster_eq_ok_iff.mpr ⟨first :: others, rfl, rfl⟩
      show s.read ((signOf on :: _) :: rest) = _
      have hne : ∀ c, first.1.letter ≠ c → (first :: others).map (fun o => o.1.letter) ≠ [c] :=
        fun c hc h => hc (List.cons.inj h).1
      have hnonempty : (first :: others).map (fun o => o.1.letter) ≠ [] := by simp
      rw [read_sign hnonempty (hne _ hdash), if_neg (hne _ ho), hread]
      rfl
  | named on o =>
      have htoggle : s.toggle (ShellOption.ofName? o.1.name) on ([signOf on, 'o', ' '] ++ o.1.name) =
          .ok { s with options := s.options.set o.1 on } :=
        toggle_eq_ok_iff.mpr ⟨o, ShellOption.ofName?_name o.1, rfl⟩
      show s.read ([signOf on, 'o'] :: o.1.name :: rest) = _
      rw [read_sign (by simp) (by simp), if_pos rfl]
      dsimp only
      rw [htoggle]
      rfl

theorem read_ending (e : Ending) : s.read e.words = .ok (Invocation.settings ⟨[], e⟩ s) := by
  cases e with
  | nothing => rfl
  | marked params =>
      rw [Ending.words, Settings.read.eq_def]
      rfl
  | dash params => cases params <;> rfl
  | operands first h others =>
      obtain ⟨hdash, hcluster⟩ := isOperand_iff.mp h
      have hmarker : first ≠ "--" := by
        rintro rfl
        cases hcluster
      rw [Ending.words, Settings.read.eq_def]
      dsimp only
      rw [if_neg hmarker, if_neg hdash, hcluster]
      rfl
  | listing on => cases on <;> rfl

/-- What the words of `set` ask for. -/
theorem read_eq_ok_iff {args : List Text} :
    s.read args = .ok s' ↔ ∃ c : Invocation, args = c.words ∧ s' = c.settings s := by
  constructor
  · intro h
    -- in each case the reader has told the first arguments apart, and they become the first option
    -- words or the ending
    fun_induction Settings.read s args with
    | case1 s =>
        cases h
        exact ⟨⟨[], .nothing⟩, rfl, rfl⟩
    | case2 s rest =>
        cases h
        exact ⟨⟨[], .marked rest⟩, rfl, rfl⟩
    | case3 s rest =>
        cases h
        refine ⟨⟨[], .dash rest⟩, rfl, ?_⟩
        cases rest <;> rfl
    | case4 s sign name rest _ _ hcluster ih =>
        obtain ⟨on, letters, hsign, -⟩ := isCluster_iff.mp hcluster
        obtain ⟨rfl, -⟩ := List.cons.inj hsign
        rw [signOf_beq] at h
        cases htoggle : s.toggle (ShellOption.ofName? name) on ([signOf on, 'o', ' '] ++ name) with
        | error e =>
            rw [htoggle] at h
            cases h
        | ok s₁ =>
            rw [htoggle] at h
            obtain ⟨o, ho, rfl⟩ := toggle_eq_ok_iff.mp htoggle
            obtain ⟨⟨ws, e⟩, rfl, rfl⟩ := ih _ h
            obtain rfl := ShellOption.name_of_ofName? ho
            exact ⟨⟨.named on o :: ws, e⟩, rfl, rfl⟩
    | case5 s sign _ _ hcluster =>
        obtain ⟨on, letters, hsign, -⟩ := isCluster_iff.mp hcluster
        obtain ⟨rfl, -⟩ := List.cons.inj hsign
        cases h
        refine ⟨⟨[], .listing on⟩, rfl, ?_⟩
        cases on <;> rfl
    | case6 s rest sign letters hletters _ _ hcluster ih =>
        obtain ⟨on, letters', hsign, hne⟩ := isCluster_iff.mp hcluster
        obtain ⟨rfl, rfl⟩ := List.cons.inj hsign
        cases hread : Settings.cluster (signOf on) s letters with
        | error e =>
            rw [hread] at h
            cases h
        | ok s₁ =>
            rw [hread] at h
            obtain ⟨os, rfl, rfl⟩ := cluster_eq_ok_iff.mp hread
            obtain ⟨⟨ws, e⟩, rfl, rfl⟩ := ih _ h
            obtain ⟨first, others, rfl⟩ := List.exists_cons_of_ne_nil (mt List.map_eq_nil_iff.mpr hne)
            exact ⟨⟨.cluster on first others :: ws, e⟩, rfl, rfl⟩
    | case7 s rest _ _ hcluster => cases hcluster
    | case8 s arg rest _ hdash hcluster =>
        cases h
        have hoperand : IsOperand arg := isOperand_iff.mpr ⟨hdash, by simpa using hcluster⟩
        exact ⟨⟨[], .operands arg hoperand rest⟩, rfl, rfl⟩
  · rintro ⟨⟨ws, e⟩, rfl, rfl⟩
    -- the settings change with each of the option words
    induction ws generalizing s with
    | nil => exact read_ending e
    | cons w ws ih =>
        simp only [Invocation.words, List.flatMap_cons, List.append_assoc]
        rw [read_words]
        exact ih

/-! ## Job control -/

/-- The shell has seen a terminal. -/
def SeesTerminal (es : List Event) : Prop := ∃ fd, (⟨.isTerminal fd, true⟩ : Event) ∈ es

theorem seesTerminal_append {es es' : List Event} :
    SeesTerminal (es ++ es') ↔ SeesTerminal es ∨ SeesTerminal es' := by
  simp only [SeesTerminal, List.mem_append, exists_or]

theorem not_seesTerminal_of_setsDisposition {es : List Event}
    (h : ∀ e ∈ es, Host.SetsDisposition e) : ¬ SeesTerminal es := by
  rintro ⟨fd, hfd⟩
  cases h _ hfd

theorem not_seesTerminal_of_writesTo {fd : Nat} {es : List Event}
    (h : ∀ e ∈ es, Host.WritesTo fd e) : ¬ SeesTerminal es := by
  rintro ⟨fd, hfd⟩
  cases h _ hfd

/-- Job control is turned on by a shell that needs a terminal for it and sees none. -/
structure LosesMonitor (s : Shell) (options : CommandShell.Options) (es : List Event) : Prop where
  turnedOn : options.has .monitor = true
  offBefore : s.has .monitor = false
  terminal : s.terminal = none
  isSubshell : s.isSubshell = false
  unseen : ¬ SeesTerminal es

/-- The options after a change of them: job control goes off again where it cannot be. -/
structure Changed (s : Shell) (options : CommandShell.Options) (es : List Event)
    (after : CommandShell.Options) : Prop where
  lost : LosesMonitor s options es → after = options.set .monitor false
  kept : ¬ LosesMonitor s options es → after = options

section

variable {s t : Shell} {options after : CommandShell.Options} {es es' : List Event}

/-- It only matters whether a terminal was seen. -/
theorem Changed.congr (h : Changed s options es after) (hes : SeesTerminal es ↔ SeesTerminal es') :
    Changed s options es' after := by
  have hlost : LosesMonitor s options es' ↔ LosesMonitor s options es := by
    constructor
    · rintro ⟨hon, hoff, hterminal, hsubshell, hunseen⟩
      exact ⟨hon, hoff, hterminal, hsubshell, mt hes.mp hunseen⟩
    · rintro ⟨hon, hoff, hterminal, hsubshell, hunseen⟩
      exact ⟨hon, hoff, hterminal, hsubshell, mt hes.mpr hunseen⟩
  exact ⟨fun hl => h.lost (hlost.mp hl), fun hk => h.kept (mt hlost.mpr hk)⟩

theorem everyRun_findTerminal :
    EveryRun findTerminal s fun es r t => t = s ∧
      ∃ found, r = .ok found ∧ (found.isSome = true ↔ SeesTerminal es) := by
  apply EveryRun.ask_bind
  intro reply
  cases reply with
  | error e => exact .pure ⟨rfl, none, rfl, by simp [SeesTerminal]⟩
  | ok fd =>
      apply EveryRun.ask_bind
      intro isTerminal
      cases isTerminal with
      | true => exact .pure ⟨rfl, some fd, rfl, by simp [SeesTerminal]⟩
      | false => exact .pure ⟨rfl, none, rfl, by simp [SeesTerminal]⟩

theorem everyRun_setUpJobControl :
    EveryRun setUpJobControl s fun es r t => r = .ok () ∧ t.variables = s.variables ∧
      (SeesTerminal es → t.options = s.options) ∧
      (¬ SeesTerminal es → t.options = s.options.set .monitor false) := by
  apply everyRun_findTerminal.bind
  · rintro es e t ⟨-, found, h, -⟩
    cases h
  · rintro es found t ⟨rfl, _, h, hfound⟩
    cases h
    cases found with
    | some fd =>
        refine .of_eq rfl ⟨rfl, rfl, fun _ => rfl, fun hunseen => ?_⟩
        rw [List.append_nil] at hunseen
        exact absurd (hfound.mp rfl) hunseen
    | none =>
        -- without a terminal the option goes off
        refine .of_eq rfl ⟨rfl, rfl, fun hseen => ?_, fun _ => rfl⟩
        rw [List.append_nil] at hseen
        cases hfound.mpr hseen

theorem everyRun_refreshSignals :
    EveryRun refreshSignals s fun es r t => Unchanged Host.SetsDisposition s es t ∧ r = .ok () := by
  apply EveryRun.get_bind
  refine EveryRun.forM ?_ _ s
  rintro ⟨n, d⟩ s
  apply EveryRun.ask_bind
  intro old
  exact .pure ⟨.single (.asked n d old) s, rfl⟩

theorem everyRun_applyOptions (options : CommandShell.Options) :
    EveryRun (applyOptions options) s fun es r t =>
      r = .ok () ∧ t.variables = s.variables ∧ Changed s options es t.options := by
  apply EveryRun.get_bind
  refine EveryRun.modify_bind ?_
  dsimp only
  split
  · rename_i hdiffers
    apply EveryRun.get_bind
    dsimp only
    -- a terminal is looked for just where job control may be lost
    split
    · rename_i hneeds
      apply everyRun_setUpJobControl.bind
      · rintro es e t ⟨h, -⟩
        cases h
      · rintro es _ t ⟨-, hvariables, hseen, hunseen⟩
        apply everyRun_refreshSignals.mono
        rintro es' r u ⟨hrefresh, hr⟩
        obtain rfl := hrefresh.state
        simp only [Bool.and_eq_true, Option.isNone_iff_eq_none, Bool.not_eq_true'] at hneeds
        obtain ⟨⟨hturnedOn, hterminal⟩, hisSubshell⟩ := hneeds
        rw [hturnedOn] at hdiffers
        have hoffBefore : s.has .monitor = false := by simpa using hdiffers
        have hchanged : Changed s options es u.options := by
          refine ⟨fun hlost => hunseen hlost.unseen, fun hkept => ?_⟩
          by_cases h : SeesTerminal es
          · exact hseen h
          · exact absurd ⟨hturnedOn, hoffBefore, hterminal, hisSubshell, h⟩ hkept
        refine ⟨hr, hvariables, hchanged.congr ?_⟩
        simp [seesTerminal_append, not_seesTerminal_of_setsDisposition hrefresh.events]
    · rename_i hneeds
      -- job control goes off, or nothing is in its way
      apply everyRun_refreshSignals.mono
      rintro es r t ⟨hrefresh, hr⟩
      obtain rfl := hrefresh.state
      refine ⟨hr, rfl, ?_, fun _ => rfl⟩
      intro hlost
      exact absurd (by simp [hlost.turnedOn, hlost.terminal, hlost.isSubshell]) hneeds
  · rename_i hsame
    -- job control is as before, so it is not turned on
    refine .pure ⟨rfl, rfl, ?_, fun _ => rfl⟩
    intro hlost
    exact absurd (by simp [hlost.turnedOn, hlost.offBefore]) hsame

/-- The options and the parameters that `set` leaves. -/
structure Applied (s : Shell) (settings : Settings) (es : List Event) (t : Shell) : Prop where
  options : Changed s settings.options es t.options
  params : t.variables = (settings.params.map s.variables.withParams).getD s.variables

/-- What `set` does once the options are listed. -/
def replace (options : CommandShell.Options) (params : Option (List Text)) : ShellM Unit := do
  applyOptions options
  params.elim (pure ()) fun params => modifyVariables (·.withParams params)

/-- Options are listed before anything is changed. -/
theorem applySettings_eq (settings : Settings) : applySettings settings =
    settings.listing.elim (replace settings.options settings.params) fun asCommands =>
      writeOut (optionListing settings.options asCommands) >>= fun _ =>
        replace settings.options settings.params := by
  obtain ⟨options, params, listing⟩ := settings
  cases params <;> cases listing <;> rfl

theorem everyRun_replace (settings : Settings) :
    EveryRun (replace settings.options settings.params) s fun es r t =>
      r = .ok () ∧ Applied s settings es t := by
  apply (everyRun_applyOptions settings.options).bind
  · rintro es e t ⟨h, -⟩
    cases h
  · rintro es _ t ⟨-, hvariables, hchanged⟩
    have hes : SeesTerminal es ↔ SeesTerminal (es ++ []) := by rw [List.append_nil]
    cases hparams : settings.params with
    | none =>
        refine .pure ⟨rfl, hchanged.congr hes, ?_⟩
        rw [hparams]
        exact hvariables
    | some params =>
        refine .of_eq rfl ⟨rfl, hchanged.congr hes, ?_⟩
        rw [hparams]
        show t.variables.withParams params = s.variables.withParams params
        rw [hvariables]

theorem everyRun_applySettings (settings : Settings) :
    EveryRun (applySettings settings) s fun es r t =>
      (∀ e, r = .error e → Unchanged (Host.WritesTo 1) s es t ∧ es ≠ []) ∧
      (r = .ok () → Applied s settings es t) := by
  rw [applySettings_eq]
  cases settings.listing with
  | none =>
      apply (everyRun_replace settings).mono
      rintro es r t ⟨rfl, h⟩
      exact ⟨nofun, fun _ => h⟩
  | some asCommands =>
      apply (everyRun_writeBytes 1 _ s).bind
      · rintro es e t ⟨h, hes⟩
        exact ⟨fun _ _ => ⟨h, hes e rfl⟩, nofun⟩
      · rintro es _ t ⟨h, -⟩
        obtain rfl := h.state
        apply (everyRun_replace settings).mono
        rintro es' r u ⟨rfl, happlied⟩
        refine ⟨nofun, fun _ => ⟨happlied.options.congr ?_, happlied.params⟩⟩
        simp [seesTerminal_append, not_seesTerminal_of_writesTo h.events]

/-- A run of `set` that failed changed nothing; one that did not did what its arguments ask for. -/
def AllOrNothing (s : Shell) (args : List Text) (es : List Event) (r : Except Stop Unit) (t : Shell) :
    Prop :=
  (∀ e, r = .error e → Unchanged (Host.WritesTo 1) s es t ∧
    ((∃ c : Invocation, args = c.words) → es ≠ [])) ∧
  (r = .ok () → ∃ settings, Settings.read { options := s.options } args = .ok settings ∧
    Applied s settings es t)

theorem everyRun_thenStatus {x : ShellM Unit} {args : List Text}
    (h : EveryRun x s (AllOrNothing s args)) :
    EveryRun (x >>= fun _ => setStatus 0) s (AllOrNothing s args) := by
  apply h.bind
  · intro es e t h
    exact h
  · rintro es _ t ⟨-, h⟩
    refine .of_eq rfl ⟨nofun, fun _ => ?_⟩
    rw [List.append_nil]
    obtain ⟨settings, hread, ⟨hoptions, hparams⟩⟩ := h rfl
    exact ⟨settings, hread, hoptions, hparams⟩

theorem everyRun_runSet (args : List Text) : EveryRun (runSet args) s (AllOrNothing s args) := by
  cases args with
  | nil =>
      -- the variables are listed, and nothing is asked for
      apply EveryRun.get_bind
      apply everyRun_thenStatus
      apply (everyRun_writeBytes 1 _ s).mono
      rintro es r t ⟨h, hes⟩
      refine ⟨fun e he => ⟨h, fun _ => hes e he⟩, fun _ => ⟨_, rfl, ?_, ?_⟩⟩
      · rw [h.state]
        exact ⟨fun hlost => (nomatch hlost.turnedOn.symm.trans hlost.offBefore), fun _ => rfl⟩
      · rw [h.state]
        rfl
  | cons arg rest =>
      apply EveryRun.get_bind
      show EveryRun (ofExcept (Settings.read { options := s.options } (arg :: rest)) >>=
        fun settings => applySettings settings >>= fun _ => setStatus 0) s _
      cases hread : Settings.read { options := s.options } (arg :: rest) with
      | error f =>
          -- only what is no invocation is refused
          refine .of_eq rfl ⟨fun _ _ => ⟨.here _ s, ?_⟩, nofun⟩
          rintro ⟨c, hc⟩
          have hok : Settings.read { options := s.options } (arg :: rest) = .ok (c.settings _) :=
            read_eq_ok_iff.mpr ⟨c, hc, rfl⟩
          cases hread.symm.trans hok
      | ok settings =>
          show EveryRun (applySettings settings >>= fun _ => setStatus 0) s _
          apply everyRun_thenStatus
          apply (everyRun_applySettings settings).mono
          rintro es r t ⟨herror, hok⟩
          refine ⟨fun e he => ?_, fun hr => ⟨settings, hread, hok hr⟩⟩
          exact ⟨(herror e he).1, fun _ => (herror e he).2⟩

/-- `set` is all or nothing. -/
theorem runSet_all_or_nothing {args : List Text} {r : Except Stop Unit}
    (h : ((runSet args).startedIn s).Comes es (.done (r, t))) :
    (∀ e, r = .error e → Unchanged (Host.WritesTo 1) s es t ∧
      ((∃ c : Invocation, args = c.words) → es ≠ [])) ∧
    (r = .ok () → (∃ c : Invocation, args = c.words) ∧
      ∀ c : Invocation, args = c.words → Changed s (c.apply s.options) es t.options ∧
        t.variables = { s.variables with params := c.ending.params?.getD s.variables.params }) := by
  obtain ⟨herror, hok⟩ := (everyRun_runSet args).holds h
  refine ⟨herror, fun hr => ?_⟩
  obtain ⟨settings, hread, hoptions, hparams⟩ := hok hr
  obtain ⟨c, hc, -⟩ := read_eq_ok_iff.mp hread
  refine ⟨⟨c, hc⟩, fun c hc => ?_⟩
  -- however the arguments are parsed, they ask for the same settings
  have hsettings : Settings.read { options := s.options } args = .ok (c.settings _) :=
    read_eq_ok_iff.mpr ⟨c, hc, rfl⟩
  obtain rfl := Except.ok.inj (hread.symm.trans hsettings)
  refine ⟨hoptions, ?_⟩
  rw [hparams]
  cases hparams? : c.ending.params? with
  | none => simp [Invocation.settings, hparams?]
  | some params => simp [Invocation.settings, hparams?, Variables.withParams]

end

/-- `set -x a` -/
theorem runSet_all_or_nothing_operand :
    ∃ t, ((runSet ["-x", "a"]).startedIn {}).Comes [] (.done (.ok (), t)) ∧
      t.options.letters = "x" ∧ t.variables.params = [("a" : Text)] := by
  obtain ⟨⟨r, t⟩, hrun, hr⟩ := Host.Program.comes_of_endsIn
    (show ((runSet ["-x", "a"]).startedIn {}).endsIn (fun b => b.1.isOk) [] = true by decide +kernel)
  cases r with
  | error e => cases hr
  | ok u =>
      let c : Invocation :=
        ⟨[.cluster true ⟨.xtrace, rfl⟩ []], .operands "a" (.inr (.inr ⟨'a', [], rfl, by decide⟩)) []⟩
      obtain ⟨hoptions, hvariables⟩ := ((runSet_all_or_nothing hrun).2 rfl).2 c rfl
      have hkept : ¬ LosesMonitor {} (c.apply ({} : Shell).options) [] := by
        intro hlost
        cases hlost.turnedOn
      refine ⟨t, hrun, ?_, ?_⟩
      · rw [hoptions.kept hkept]
        rfl
      · rw [hvariables]
        rfl

/-- The calls of `set -m` if standard error is closed. -/
def callsWithoutTerminal : List Event :=
  ⟨.duplicate 2 10, .error .badDescriptor⟩ ::
    [.int, .quit, .term, .tstp, .ttin, .ttou].map fun n => ⟨.setDisposition n .default, .default⟩

/-- Without a terminal `set -m` does not turn on job control, and `set -` turns off tracing although
it has no option words. -/
theorem not_runSet_options :
    (∃ t, ((runSet ["-m"]).startedIn {}).Comes callsWithoutTerminal (.done (.ok (), t)) ∧
      t.options ≠ (OptionWords.cluster true ⟨.monitor, rfl⟩ []).apply ({} : Shell).options) ∧
    ∃ s t : Shell, ((runSet ["-"]).startedIn s).Comes [] (.done (.ok (), t)) ∧
      t.options ≠ s.options := by
  constructor
  · obtain ⟨⟨r, t⟩, hrun, hr⟩ := Host.Program.comes_of_endsIn
      (show ((runSet ["-m"]).startedIn {}).endsIn (fun b => b.1.isOk && !b.2.options.has .monitor)
        callsWithoutTerminal = true by decide +kernel)
    cases r with
    | error e => cases hr
    | ok u =>
        refine ⟨t, hrun, fun hoptions => ?_⟩
        rw [hoptions] at hr
        cases hr
  · let s : Shell := { options := ({} : Shell).options.set .xtrace true }
    obtain ⟨⟨r, t⟩, hrun, hr⟩ := Host.Program.comes_of_endsIn
      (show ((runSet ["-"]).startedIn s).endsIn (fun b => b.1.isOk && !b.2.options.has .xtrace)
        [] = true by decide +kernel)
    cases r with
    | error e => cases hr
    | ok u =>
        refine ⟨s, t, hrun, fun hoptions => ?_⟩
        rw [hoptions] at hr
        cases hr

end Commands

end CommandShell
