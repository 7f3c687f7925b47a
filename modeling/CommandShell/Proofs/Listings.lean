import CommandShell.Execution.Evaluate
import CommandShell.Proofs.Reading.VerbatimLines
import CommandShell.Proofs.Undisturbed
import CommandShell.Proofs.VerbatimWords

/-!
# Running listings

A text of lines as `Script.Line` has them is run line by line: each line is read as the simple command
that it writes, and what that does decides the state for the next one (`completes_runText`). So what a
listing brings about is known once it is known what each of its lines does.

A line that calls a special built-in command calls it with the texts of its words
(`completes_command`), and a line that is an assignment gives the variable the text
(`completes_assignment`). None of them depends on `IFS`, on `HOME` or on the files of the system, which
the lines before may have changed.
-/

namespace CommandShell.Shell

open Host (Call Program)
open Script (Line Node QuotedWord Ahead Word)

variable {α : Type} {s : Shell} {depth : Nat}

/-! ## Between the commands -/

/-- The shell runs what it reads, and no alias or function changes what a command means. -/
structure Unencumbered (s : Shell) : Prop where
  aliases : s.definitions.aliases = .empty
  functions : s.definitions.functions = .empty
  runs : (s.has .noexec && !s.isInteractive) = false

theorem Unencumbered.of_eq {t : Shell} (hs : Unencumbered s)
    (haliases : t.definitions.aliases = s.definitions.aliases)
    (hfunctions : t.definitions.functions = s.definitions.functions) (hoptions : t.options = s.options) :
    Unencumbered t where
  aliases := haliases.trans hs.aliases
  functions := hfunctions.trans hs.functions
  runs := by
    have hruns := hs.runs
    unfold isInteractive has at hruns ⊢
    rw [hoptions]
    exact hruns

theorem completes_runTraps (ev : Evaluator) : Completes (runTraps ev) s fun _ t => t = s := by
  unfold runTraps
  apply completes_get_bind
  split
  · exact completes_pure rfl
  · refine Completes.bind (completes_ask (c := .takeArrived) rfl
      (Q := fun r t => r = false ∧ t = s) fun r hr => ⟨?_, rfl⟩) ?_
    · -- that a signal arrived is what the run is not told
      cases r with
      | false => rfl
      | true => exact absurd rfl hr
    · rintro r t ⟨rfl, rfl⟩
      exact completes_pure rfl

theorem completes_trace (assigned : List (Text × Text)) (args : List Text) :
    Completes (trace assigned args) s fun _ t => t = s := by
  unfold trace
  apply completes_get_bind
  split
  · exact completes_quietly_writeErr _
  · exact completes_pure rfl

theorem completes_showLines (input : Script.Input) :
    Completes (showLines input) s fun i t => i = { input with shown := [] } ∧ t = s := by
  have hshown : ∀ ls : List Text,
      Completes (ls.forM fun line => quietly (writeErr line)) s fun _ t => t = s := by
    intro ls
    induction ls with
    | nil => exact completes_pure rfl
    | cons l ls ih =>
        apply (completes_quietly_writeErr l).bind
        rintro - t rfl
        exact ih
  apply (hshown _).bind
  rintro - t rfl
  exact completes_pure ⟨rfl, rfl⟩

/-! ## Commands -/

/-- Quoted words are the arguments that they stand for. -/
theorem arguments_quotedWords {ev : Evaluator} {us : List Word} {ws : List QuotedWord}
    (h : us.map Word.parts = ws.map QuotedWord.parts) :
    Expansion.arguments ev us = pure (ws.map QuotedWord.text) := by
  have hverbatim := fun w : QuotedWord => Expansion.wordParts_verbatim w.head w.plain w.body
  rw [Expansion.arguments_verbatim]
  · have htexts := congrArg (List.map fun ps => ps.flatMap Expansion.verbatimText) h
    simp only [List.map_map, Function.comp_def] at htexts
    rw [htexts]
    congr 1
    apply List.map_congr_left
    intro w _
    exact (hverbatim w).2.2
  · intro u hu
    obtain ⟨w, -, hw⟩ := List.mem_map.mp (h ▸ List.mem_map_of_mem hu)
    rw [← hw]
    exact ⟨(hverbatim w).1, (hverbatim w).2.1⟩

/-- A simple command that leaves the status zero is a command that completes. -/
theorem completes_simple {us vs : List Word} {k : Nat} {place : Place} {Q : Shell → Prop}
    (h : Completes (runSimple (evaluatorOf depth) us vs [] place) { s with line := k }
      fun _ t => t.status = 0 ∧ Q t) :
    Completes ((evaluatorOf (depth + 1)).node (.mk (.simple us vs []) k) place) s fun _ t => Q t := by
  apply completes_modify_bind
  refine Completes.bind (P := fun _ t => t.status = 0 ∧ Q t) (h.bind ?_) ?_
  · rintro - t ht
    apply (completes_runTraps _).mono
    rintro - _ rfl
    exact ht
  · rintro - t ⟨hstatus, ht⟩
    unfold checkErrexit
    apply completes_get_bind
    simp only [hstatus, ne_eq, not_true_eq_false, decide_false, Bool.false_and, Bool.false_eq_true, if_false]
    exact completes_pure ht

/-- A line calls the special built-in command of its first word. -/
theorem completes_command {b : Builtin} {w : QuotedWord} {ws : List QuotedWord} {hw : w.Calls}
    {node : Node} {Q : Shell → Prop} (hnode : (Line.command w ws hw).Writes node)
    (hslash : w.text.contains '/' = false) (hname : Builtin.ofName? w.text = some b)
    (hspecial : b.isSpecial = true) (hexec : b ≠ .exec)
    (hfunctions : s.definitions.functions = .empty)
    (h : ∀ line, Completes (Commands.action (evaluatorOf depth) b (ws.map QuotedWord.text))
      { s with line, substitutionStatus := none } fun _ t => t.status = 0 ∧ Q t) :
    Completes ((evaluatorOf (depth + 2)).node node {}) s fun _ t => Q t := by
  obtain ⟨us, k, rfl, hus⟩ := hnode
  apply completes_simple
  unfold runSimple
  apply completes_modify_bind
  rw [arguments_quotedWords hus]
  show Completes (trace [] _ >>= fun _ => get >>= fun sh => _) _ _
  apply (completes_trace _ _).bind
  rintro - _ rfl
  apply completes_get_bind
  have hnone : Table.get? (α := Node) .empty w.text = none := rfl
  simp only [List.map_cons, runArguments, hslash, hfunctions, hnone, hname, callBuiltin, if_neg hexec,
    hspecial, Bool.false_eq_true, if_false, if_true]
  apply (h k).attempt.bind
  rintro r t ⟨-, rfl, ht⟩
  exact completes_pure ht

theorem completes_assignVariable {t : Shell} {name v : Text} (h : s.assign name v = .ok t) :
    Completes (assignVariable name v) s fun _ t' => t' = t := by
  unfold assignVariable
  apply completes_get_bind
  rw [h]
  exact completes_of_eq rfl rfl

/-- A line that is an assignment gives the variable the text. -/
theorem completes_assignment {name v : Text} {hplain} {hw} {node : Node} {Q : Shell → Prop}
    (hnode : (Line.assignment ⟨name ++ ['='], v, hplain⟩ hw).Writes node)
    (hname : Text.isName name = true)
    (h : ∀ line, ∃ vs, s.variables.assignWith name (some v) (s.has .allexport) false = .ok vs ∧
      Q { s with
        «variables» := vs
        definitions := if name = "PATH" then s.definitions.forgetAll else s.definitions
        line, substitutionStatus := none, status := 0 }) :
    Completes ((evaluatorOf (depth + 2)).node node {}) s fun _ t => Q t := by
  obtain ⟨u, k, rfl, hu⟩ := hnode
  obtain ⟨vs, hvs, hQ⟩ := h k
  apply completes_simple
  unfold runSimple
  apply completes_modify_bind
  show Completes (runAssignments (evaluatorOf (depth + 1)) [u] []) _ _
  have hassign : Completes (assignWords (evaluatorOf (depth + 1)) [u])
      { s with line := k, substitutionStatus := none } fun _ t => t = { s with
        «variables» := vs
        definitions := if name = "PATH" then s.definitions.forgetAll else s.definitions
        line := k, substitutionStatus := none } := by
    unfold assignWords
    rw [Expansion.assignment_wordParts hname hu]
    show Completes (trace [(name, v)] [] >>= _) _ _
    apply (completes_trace _ _).bind
    rintro - _ rfl
    have hset : ({ s with line := k, substitutionStatus := none } : Shell).assign name v = .ok { s with
        «variables» := vs
        definitions := if name = "PATH" then s.definitions.forgetAll else s.definitions
        line := k, substitutionStatus := none } := by
      show (s.variables.assignWith name (some v) (s.has .allexport) false).map _ = _
      rw [hvs]
      rfl
    apply (completes_assignVariable hset).bind
    rintro - _ rfl
    exact completes_pure rfl
  apply hassign.bind
  rintro - _ rfl
  exact completes_of_eq rfl ⟨rfl, hQ⟩

/-! ## Scripts -/

section

variable {ev : Evaluator} {src : ScriptSource} {rest : Text} {Q : Shell → Prop}

/-- The reader of a text comes to a command without asking for more lines. -/
theorem completes_readCommand {p : Script.Parsed} {j : Script.Input}
    (h : Script.parseCommand.on src.input = (.ok p, j)) :
    Completes (readCommand src) s fun r t => r = (.ok p, j) ∧ t = s := by
  have hone : readCommand src = pure (.ok p, j) := by
    unfold readCommand iterate
    rw [show roundLimit = 999999999 + 1 from rfl]
    unfold iterateFor
    simp only [show Script.parseCommand.run.run src.input = _ from h, pure_bind]
  rw [hone]
  exact completes_pure ⟨rfl, rfl⟩

/-- One round of a script whose text goes on with a line. -/
theorem completes_sourceStep_line (l : Line) (hdescriptor : src.descriptor = none)
    (hin : Ahead .empty (l.spell ++ rest) src.input) (hs : Unencumbered s)
    (hnode : ∀ node, l.Writes node → Completes (ev.node node {}) s fun _ t => Q t) :
    Completes (sourceStep ev false src) s fun r t => Q t ∧
      ∃ src', r = .inl src' ∧ src'.descriptor = none ∧ Ahead .empty rest src'.input := by
  have hfresh : Ahead .empty (l.spell ++ rest) (refreshSource s src).input :=
    { hin with aliases := hs.aliases }
  obtain ⟨node, j, hread, hwrites, hj⟩ := Script.parseCommand_line l hfresh
  show Completes (get >>= fun sh => readCommand (refreshSource sh src) >>= fun r => _) _ _
  apply completes_get_bind
  apply (completes_readCommand hread).bind
  rintro - _ ⟨rfl, rfl⟩
  apply (completes_showLines j).bind
  rintro - t ⟨rfl, rfl⟩
  have hrun : Completes (runRead ev false node) t fun _ t => Q t := by
    unfold runRead
    apply completes_get_bind
    simp only [hs.runs, Bool.false_eq_true, if_false]
    apply (hnode node hwrites).attempt.bind
    rintro - t ⟨-, rfl, ht⟩
    exact completes_pure ht
  apply hrun.bind
  rintro - t ht
  exact completes_pure ⟨ht, _, rfl, hdescriptor, { hj with }⟩

/-- The round in which a script comes to the end of its text. -/
theorem completes_sourceStep_end (hin : Ahead .empty [] src.input) (hs : Unencumbered s) :
    Completes (sourceStep ev false src) s fun r t => r = .inr () ∧ t = s := by
  have hfresh : Ahead .empty [] (refreshSource s src).input := { hin with aliases := hs.aliases }
  obtain ⟨j, hread, -⟩ := Script.parseCommand_end hfresh
  show Completes (get >>= fun sh => readCommand (refreshSource sh src) >>= fun r => _) _ _
  apply completes_get_bind
  apply (completes_readCommand hread).bind
  rintro - _ ⟨rfl, rfl⟩
  apply (completes_showLines j).bind
  rintro - _ ⟨rfl, rfl⟩
  exact completes_pure ⟨rfl, rfl⟩

end

section

variable {ev : Evaluator} {line : α → Line} {xs : List α} {I : List α → Shell → Prop}

/-- A text of lines is run if each of its lines does what it is for, given what the lines before it have
done. -/
theorem completes_rounds (hI : ∀ done s, I done s → Unencumbered s)
    (hstep : ∀ done x rest, xs = done ++ x :: rest → ∀ s, I done s → ∀ node, (line x).Writes node →
      Completes (ev.node node {}) s fun _ t => I (done ++ [x]) t)
    {n : Nat} {done rest : List α} (hxs : xs = done ++ rest) (hn : rest.length < n) {src : ScriptSource}
    (hdescriptor : src.descriptor = none)
    (hin : Ahead .empty (rest.flatMap fun x => (line x).spell) src.input) (h : I done s) :
    Completes (iterateFor (sourceStep ev false) n src) s fun _ t => I xs t := by
  induction rest generalizing n done src s with
  | nil =>
      obtain ⟨n, rfl⟩ := Nat.exists_eq_add_of_le' hn
      rw [List.append_nil] at hxs
      unfold iterateFor
      apply (completes_sourceStep_end hin (hI done s h)).bind
      rintro r t ⟨rfl, rfl⟩
      exact completes_pure (hxs ▸ h)
  | cons x rest ih =>
      obtain ⟨n, rfl⟩ := Nat.exists_eq_add_of_le' (Nat.zero_lt_of_lt hn)
      rw [List.flatMap_cons] at hin
      unfold iterateFor
      apply (completes_sourceStep_line (line x) hdescriptor hin (hI done s h)
        (hstep done x rest hxs s h)).bind
      rintro r t ⟨ht, src', rfl, hdescriptor', hin'⟩
      rw [List.length_cons] at hn
      exact ih (by rw [hxs, List.append_assoc, List.singleton_append]) (by omega) hdescriptor' hin' ht

theorem length_lines_append (t rest : Text) :
    (Text.lines rest).length < (Text.lines (t ++ '\n' :: rest)).length := by
  induction t with
  | nil => simp [Text.lines]
  | cons c t ih =>
      rw [List.cons_append, Text.lines]
      split
      · exact Nat.lt_succ_of_lt ih
      · cases hlines : Text.lines (t ++ '\n' :: rest) with
        | nil =>
            rw [hlines] at ih
            exact absurd ih (Nat.not_lt_zero _)
        | cons p ps =>
            rw [hlines] at ih
            exact ih

theorem length_le_lines (xs : List α) :
    xs.length ≤ (Text.lines (xs.flatMap fun x => (line x).spell)).length := by
  induction xs with
  | nil => exact Nat.zero_le _
  | cons x xs ih =>
      have hlast : ∃ t, (line x).spell = t ++ "\n".toList := by
        cases line x with
        | assignment w h => exact ⟨_, rfl⟩
        | command w ws h => exact ⟨_, rfl⟩
      obtain ⟨t, ht⟩ := hlast
      have hlt := length_lines_append t (xs.flatMap fun x => (line x).spell)
      rw [List.flatMap_cons, ht, List.append_assoc]
      exact Nat.lt_of_le_of_lt ih hlt

/-- A text of lines is run from the first one to the last. -/
theorem completes_runText (hline : ∀ done s line, I done s → I done { s with line })
    (hI : ∀ done s, I done s → Unencumbered s)
    (hstep : ∀ done x rest, xs = done ++ x :: rest → ∀ s, I done s → ∀ node, (line x).Writes node →
      Completes (ev.node node {}) s fun _ t => I (done ++ [x]) t) (h : I [] s) :
    Completes (runText ev (xs.flatMap fun x => (line x).spell)) s fun _ t => I xs t := by
  have hlength : xs.length < roundLimit + (Text.lines (xs.flatMap fun x => (line x).spell)).length :=
    Nat.lt_of_le_of_lt (length_le_lines xs) (Nat.lt_add_of_pos_left (by decide))
  have hin : Ahead .empty (xs.flatMap fun x => (line x).spell)
      (ScriptSource.ofText (xs.flatMap fun x => (line x).spell)).input :=
    Script.ahead_ofText .empty _ 1
  have hrounds := completes_rounds hI hstep (List.nil_append xs).symm hlength rfl hin h
  apply completes_get_bind
  apply hrounds.attempt.bind
  rintro r t ⟨-, rfl, ht⟩
  apply completes_modify_bind
  exact completes_pure (hline xs t s.line ht)

end

end CommandShell.Shell
