import Mathlib.Logic.Relation
import CommandShell.Proofs.Dispositions
import CommandShell.Proofs.Listings
import CommandShell.Proofs.RawBytes.Boundaries

/-!
# Trap listings are read back

`trap` lists the traps as commands that set them. Run in a shell without traps these bring back the table
that was listed, for every table that calls of `trap` build from the empty one
(`trap_listing_read_back`).

Such tables have actions in the order of the signal numbers, and no action that the operands of `trap` take
for something else: `-` and a number reset a trap, and an empty text ignores the signal (`Traps.Listable`).
Every call of `trap` keeps that so.

As for variables that is said of the listing as a text. Written as bytes a listing is the same text exactly
if every listed command survives as bytes (`not_trap_listing_read_back`).
-/

namespace CommandShell

/-! ## Conditions -/

namespace Signal

/-- A number that there can be a trap for: that of a signal, or 0 for the end of the shell. -/
def IsCondition (n : Nat) : Prop := n = 0 ∨ ∃ s : Signal, s.number = n

theorem isCondition_of_numberOf? {t : Text} {n : Nat} (h : numberOf? t = some n) : IsCondition n := by
  have hsignal : ∀ o : Option Signal, o.map number = some n → IsCondition n := by
    intro o ho
    obtain ⟨s, -, hs⟩ := Option.map_eq_some_iff.mp ho
    exact .inr ⟨s, hs⟩
  unfold numberOf? at h
  split at h
  · obtain ⟨m, -, hm⟩ := Option.bind_eq_some_iff.mp h
    split at hm
    · exact .inl (Option.some.inj hm).symm
    · exact hsignal _ hm
  · dsimp only at h
    split at h
    · exact .inl (Option.some.inj h).symm
    · exact hsignal _ h

/-- A condition is found by the name that it is listed with, which needs no quotes. -/
theorem numberOf?_nameOf {n : Nat} (h : IsCondition n) :
    numberOf? (nameOf n) = some n ∧ Script.isPlain (nameOf n) = true := by
  rcases h with rfl | ⟨s, rfl⟩
  · decide
  · cases s <;> decide

end Signal

/-! ## Tables of traps -/

/-- The command of an action; the empty one ignores the signal. -/
def TrapAction.text : TrapAction → Text
  | .ignore => []
  | .command t => t

namespace Traps

/-- A text that `trap` takes for a command. -/
structure IsCommand (t : Text) : Prop where
  ne_nil : t ≠ []
  ne_dash : t ≠ ['-']
  not_digits : Text.isDigits t = false

/-- An action that `trap` can be told to set. -/
def IsAction (a : TrapAction) : Prop := ∀ t, a = .command t → IsCommand t

/-- What the tables have in common that `trap` builds from the empty one. -/
structure Listable (ts : Traps) : Prop where
  sorted : ts.actions.Pairwise fun a b => a.1 < b.1
  condition : ∀ a ∈ ts.actions, Signal.IsCondition a.1
  action : ∀ a ∈ ts.actions, IsAction a.2
  unlocked : ts.locked = []

theorem listable_empty : Listable {} := ⟨.nil, nofun, nofun, rfl⟩

theorem Listable.isLocked {ts : Traps} (h : ts.Listable) (n : Nat) : ts.isLocked n = false := by
  unfold Traps.isLocked
  rw [h.unlocked]
  rfl

section

variable {n : Nat} {a : TrapAction} {actions : List (Nat × TrapAction)}

theorem mem_insertAction {b : Nat × TrapAction} :
    b ∈ insertAction n a actions ↔ b = (n, a) ∨ b ∈ actions := by
  induction actions with
  | nil => exact List.mem_singleton.trans (or_iff_left List.not_mem_nil).symm
  | cons c actions ih =>
      unfold insertAction
      split
      · exact List.mem_cons
      · rw [List.mem_cons, ih, List.mem_cons, or_left_comm]

theorem sorted_insertAction (hn : n ∉ actions.map Prod.fst)
    (h : actions.Pairwise fun a b => a.1 < b.1) :
    (insertAction n a actions).Pairwise fun a b => a.1 < b.1 := by
  induction actions with
  | nil => exact List.pairwise_singleton _ _
  | cons c actions ih =>
      obtain ⟨hfirst, hrest⟩ := List.pairwise_cons.mp h
      obtain ⟨hc, hn⟩ := not_or.mp (mt List.mem_cons.mpr hn)
      unfold insertAction
      split
      case isTrue hle =>
        have hlt : n < c.1 := Nat.lt_of_le_of_ne hle hc
        refine List.pairwise_cons.mpr ⟨fun b hb => ?_, h⟩
        rcases List.mem_cons.mp hb with rfl | hb
        · exact hlt
        · exact Nat.lt_trans hlt (hfirst b hb)
      case isFalse hle =>
        refine List.pairwise_cons.mpr ⟨fun b hb => ?_, ih hn hrest⟩
        rcases mem_insertAction.mp hb with rfl | hb
        · exact Nat.lt_of_not_le hle
        · exact hfirst b hb

/-- An action for a number above all others comes last. -/
theorem insertAction_last (h : ∀ b ∈ actions, b.1 < n) :
    insertAction n a actions = actions ++ [(n, a)] := by
  induction actions with
  | nil => rfl
  | cons c actions ih =>
      have hc : ¬ n ≤ c.1 := Nat.not_le_of_lt (h c List.mem_cons_self)
      unfold insertAction
      rw [if_neg hc, ih fun b hb => h b (List.mem_cons_of_mem c hb)]
      rfl

theorem set_last (h : ∀ b ∈ actions, b.1 < n) (locked : List Signal) :
    Traps.set ⟨actions, locked⟩ n (some a) = ⟨actions ++ [(n, a)], locked⟩ := by
  have hothers : actions.filter (fun b => b.1 ≠ n) = actions :=
    List.filter_eq_self.mpr fun b hb => decide_eq_true (Nat.ne_of_lt (h b hb))
  unfold Traps.set
  simp only [hothers, insertAction_last h]

end

theorem Listable.set {ts : Traps} (h : ts.Listable) {n : Nat} (hn : Signal.IsCondition n)
    {action : Option TrapAction} (ha : ∀ a, action = some a → IsAction a) :
    (ts.set n action).Listable := by
  have hothers : ∀ b ∈ ts.actions.filter (fun b => b.1 ≠ n), b ∈ ts.actions :=
    fun b hb => List.mem_of_mem_filter hb
  have hsorted : (ts.actions.filter (fun b => b.1 ≠ n)).Pairwise fun a b => a.1 < b.1 :=
    h.sorted.filter _
  cases action with
  | none =>
      exact ⟨hsorted, fun b hb => h.condition b (hothers b hb), fun b hb => h.action b (hothers b hb),
        h.unlocked⟩
  | some a =>
      refine ⟨sorted_insertAction (not_mem_map_filter_ne n ts.actions) hsorted, fun b hb => ?_,
        fun b hb => ?_, h.unlocked⟩
      · rcases mem_insertAction.mp hb with rfl | hb
        · exact hn
        · exact h.condition b (hothers b hb)
      · rcases mem_insertAction.mp hb with rfl | hb
        · exact ha a rfl
        · exact h.action b (hothers b hb)

end Traps

namespace Commands

open Traps (IsAction IsCommand)

theorem isAction_of_trapOperands {args conditions : List Text} {a : TrapAction}
    (h : trapOperands args = (some a, conditions)) : IsAction a := by
  rintro t rfl
  unfold trapOperands at h
  split at h
  case h_1 text c cs =>
    split_ifs at h with hdigits hdash hempty
    · exact nomatch h
    · exact nomatch h
    · exact nomatch h
    · obtain ⟨rfl, rfl⟩ := h
      exact ⟨fun hnil => hempty (List.isEmpty_iff.mpr hnil), hdash, Bool.eq_false_iff.mpr hdigits⟩
  case h_2 => exact nomatch h

/-- The operands with which an action is listed ask for the action. -/
theorem trapOperands_text {a : TrapAction} (h : IsAction a) (condition : Text) :
    trapOperands [a.text, condition] = (some a, [condition]) := by
  cases a with
  | ignore => rfl
  | command t =>
      obtain ⟨hnil, hdash, hdigits⟩ := h t rfl
      have hempty : t.isEmpty = false := List.isEmpty_eq_false_iff.mpr hnil
      simp [trapOperands, TrapAction.text, hdigits, hdash, hempty]

end Commands

/-! ## What a call of `trap` does to the table -/

namespace Shell

open Commands

variable {s : Shell}

theorem always_setTrap {n : Nat} (h : s.traps.isLocked n = false) (action : Option TrapAction) :
    ((setTrap n action).startedIn s).Always fun o =>
      o = (.ok (), { s with traps := s.traps.set n action }) := by
  have hset : ∀ ds u, ((setDispositions ds).startedIn u).Always fun o => o = (.ok (), u) :=
    fun ds u => (always_ok_of_keeps u).mono fun _ ⟨(), h⟩ => h
  have hmodify : ∀ (g : Shell → Shell) (k : Unit → ShellM Unit),
      (modify g >>= k).startedIn s = (k ()).startedIn (g s) := fun _ _ => rfl
  show ((if s.traps.isLocked n = true then pure () else _ : ShellM Unit).startedIn s).Always _
  rw [if_neg (Bool.eq_false_iff.mp h), hmodify]
  split
  · exact hset _ _
  · exact rfl

theorem onlyAsks_setTrap (n : Nat) (action : Option TrapAction) :
    OnlyAsks (fun c => c.isHarmless = true) (setTrap n action) := by
  have hset : ∀ ds, OnlyAsks (fun c => c.isHarmless = true) (setDispositions ds) := by
    intro ds
    induction ds with
    | nil => exact .pure ()
    | cons d ds ih =>
        have hask : OnlyAsks (fun c => c.isHarmless = true) (ask (.setDisposition d.1 d.2)) := .ask rfl
        exact (hask.bind fun _ => .pure ()).bind fun _ => ih
  refine OnlyAsks.get.bind fun sh => ?_
  split
  · exact .pure ()
  · refine (OnlyAsks.modify _).bind fun _ => ?_
    split
    · exact OnlyAsks.get.bind fun _ => hset _
    · exact .pure ()

theorem completes_setTrap {n : Nat} (h : s.traps.isLocked n = false) (action : Option TrapAction) :
    Completes (setTrap n action) s fun _ t => t = { s with traps := s.traps.set n action } :=
  completes_of_onlyAsks (onlyAsks_setTrap n action)
    ((always_setTrap h action).mono fun _ ho => ⟨(), congrArg Prod.fst ho, congrArg Prod.snd ho⟩)

/-- Whatever conditions are given, the table stays one that can be listed. -/
theorem listable_setTraps {action : Option TrapAction} (ha : ∀ a, action = some a → Traps.IsAction a)
    (status : Int) (conditions : List Text) (h : s.traps.Listable) :
    ((setTraps action status conditions).startedIn s).Always fun o => o.2.traps.Listable := by
  induction conditions generalizing s status with
  | nil => exact h
  | cons c cs ih =>
      unfold setTraps
      split
      · have hreport := (inferInstance : Keeps (same traps)
          (report ("trap: " ++ c ++ ": bad trap"))).always s
        refine always_bind (P := fun t => t.traps.Listable)
          (hreport.mono fun o (ho : o.2.traps = s.traps) => ?_) (fun _ t ht => ih 1 ht) fun _ t ht => ht
        exact ho.symm ▸ h
      · rename_i n hnumber
        have hset := always_setTrap (h.isLocked n) action
        refine always_bind (P := fun t => t.traps.Listable) (hset.mono fun o ho => ?_)
          (fun _ t ht => ih status ht) fun _ t ht => ht
        rw [ho]
        exact h.set (Signal.isCondition_of_numberOf? hnumber) ha

/-- A call of `trap` leaves a table that can be listed, however it ends. -/
theorem listable_runTrapCommand (args : List Text) (h : s.traps.Listable) :
    ((runTrapCommand args).startedIn s).Always fun o => o.2.traps.Listable := by
  have hlist : ∀ t : Text, ((do writeOut t; setStatus 0 : ShellM Unit).startedIn s).Always fun o =>
      o.2.traps.Listable := by
    intro t
    have hwrite := (inferInstance : Keeps (same traps) (writeOut t)).always s
    exact always_bind (P := fun t => t.traps.Listable)
      (hwrite.mono fun o (ho : o.2.traps = s.traps) => ho.symm ▸ h) (fun _ _ ht => ht) fun _ _ ht => ht
  have hset : ∀ operands : List Text, ((do
      setStatus (← setTraps (trapOperands operands).1 0 (trapOperands operands).2) :
        ShellM Unit).startedIn s).Always fun o => o.2.traps.Listable := by
    intro operands
    have ha : ∀ a, (trapOperands operands).1 = some a → Traps.IsAction a :=
      fun a ha => isAction_of_trapOperands (Prod.ext ha rfl)
    exact always_bind (P := fun t => t.traps.Listable) (listable_setTraps ha 0 _ h)
      (fun _ _ ht => ht) fun _ _ ht => ht
  unfold runTrapCommand
  dsimp only
  split
  all_goals
    split
    · exact hlist _
    · exact hset _

/-- A call of `trap` may lead from one table to the other. -/
inductive TrapCall : Traps → Traps → Prop where
  | run {args : List Text} {s t : Shell} {es : List Host.Event} {r : Except Stop Unit}
    (h : ((runTrapCommand args).startedIn s).Comes es (.done (r, t))) : TrapCall s.traps t.traps

/-- A run ends with these actions, and with no signal that is ignored from the start. -/
def endsWith (actions : List (Nat × TrapAction)) (o : Except Stop Unit × Shell) : Bool :=
  decide (o.2.traps.actions = actions) && o.2.traps.locked.isEmpty

theorem trapCall_of_endsIn {args : List Text} {s : Shell} {es : List Host.Event}
    {actions : List (Nat × TrapAction)}
    (h : ((runTrapCommand args).startedIn s).endsIn (endsWith actions) es = true) :
    TrapCall s.traps { actions } := by
  obtain ⟨⟨r, t⟩, hrun, hend⟩ := Host.Program.comes_of_endsIn h
  obtain ⟨hactions, hlocked⟩ := Bool.and_eq_true_iff.mp hend
  have htraps : t.traps = { actions } := by
    rw [← of_decide_eq_true hactions, ← List.isEmpty_iff.mp hlocked]
  exact htraps ▸ .run hrun

/-- What `trap` builds from the empty table can be listed. -/
theorem listable_of_trapCalls {ts : Traps} (h : Relation.ReflTransGen TrapCall {} ts) : ts.Listable := by
  induction h with
  | refl => exact Traps.listable_empty
  | tail _ hcall ih =>
      cases hcall with
      | run hrun => exact (listable_runTrapCommand _ ih).of_comes hrun

end Shell

/-! ## Lines -/

open Shell Commands
open Script (Line QuotedWord)

/-- What `trap` lists. -/
def Commands.trapListing (ts : Traps) : Text :=
  ts.actions.flatMap fun (number, action) => trapLine number action

theorem calls_trap : (QuotedWord.ofText "trap").Calls :=
  QuotedWord.calls_ofText (by decide) (by decide) (by decide)

/-- A trap as a line of a script. -/
def trapCommand (b : Nat × TrapAction) : Line :=
  .command (.ofText "trap") [.ofText "--", .ofText b.2.text, .ofText (Signal.nameOf b.1)] calls_trap

theorem trapLine_eq (n : Nat) (a : TrapAction) : trapLine n a =
    "trap -- ".toList ++ Text.quote a.text ++ (" ".toList ++ Signal.nameOf n ++ "\n".toList) := by
  unfold trapLine
  cases a <;> simp only [TrapAction.text, List.append_assoc]

theorem spell_trapCommand {b : Nat × TrapAction} (h : Signal.IsCondition b.1) :
    (trapCommand b).spell = trapLine b.1 b.2 := by
  have hname := Script.quote_of_isPlain (Signal.numberOf?_nameOf h).2
  have hcommand : Text.quote ['t', 'r', 'a', 'p'] = ['t', 'r', 'a', 'p'] := rfl
  have hdashes : Text.quote ['-', '-'] = ['-', '-'] := rfl
  rw [trapLine_eq]
  simp [trapCommand, Line.spell, QuotedWord.spell, QuotedWord.ofText, hname, hcommand, hdashes]

namespace Shell

variable {s : Shell} {depth : Nat}

/-- The line of a trap sets it. -/
theorem completes_trapCommand {b : Nat × TrapAction} {node : Script.Node}
    (hcondition : Signal.IsCondition b.1) (haction : Traps.IsAction b.2)
    (hnode : (trapCommand b).Writes node) (hs : Unencumbered s) (hlocked : s.traps.isLocked b.1 = false) :
    Completes ((evaluatorOf (depth + 2)).node node {}) s fun _ t => Unencumbered t ∧
      t.traps = s.traps.set b.1 (some b.2) := by
  apply completes_command hnode rfl rfl rfl (by decide) hs.functions
  intro line
  show Completes (runTrapCommand ["--", b.2.text, Signal.nameOf b.1]) _ _
  have hnumber := (Signal.numberOf?_nameOf hcondition).1
  have hset : Completes (setTraps (some b.2) 0 [Signal.nameOf b.1])
      { s with line, substitutionStatus := none } fun status t => status = 0 ∧ Unencumbered t ∧
        t.traps = s.traps.set b.1 (some b.2) := by
    have hlocked' : ({ s with line, substitutionStatus := none } : Shell).traps.isLocked b.1 = false :=
      hlocked
    unfold setTraps
    rw [hnumber]
    apply (completes_setTrap hlocked' (some b.2)).bind
    rintro - t rfl
    exact completes_pure ⟨rfl, hs.of_eq rfl rfl rfl, rfl⟩
  show Completes (do
    setStatus (← setTraps (trapOperands [b.2.text, Signal.nameOf b.1]).1 0
      (trapOperands [b.2.text, Signal.nameOf b.1]).2)) _ _
  rw [trapOperands_text haction]
  apply hset.bind
  rintro - t ⟨rfl, ht, htraps⟩
  exact completes_modify ⟨rfl, ht.of_eq rfl rfl rfl, htraps⟩

/-- A listing of traps is run: the table is the one that was listed. -/
theorem completes_trapListing {ts : Traps} (h : ts.Listable) (hs : Unencumbered s)
    (hempty : s.traps = {}) :
    Completes (runText (evaluatorOf (depth + 2)) (trapListing ts)) s fun _ t => t.traps = ts := by
  let I (done : List (Nat × TrapAction)) (t : Shell) : Prop := Unencumbered t ∧ t.traps = ⟨done, []⟩
  have hlisting : trapListing ts = ts.actions.flatMap fun b => (trapCommand b).spell :=
    List.flatMap_congr fun b hb => (spell_trapCommand (h.condition b hb)).symm
  have hrun : Completes (runText (evaluatorOf (depth + 2)) (trapListing ts)) s
      fun _ t => I ts.actions t := by
    rw [hlisting]
    refine completes_runText (fun done t line ht => ⟨ht.1.of_eq rfl rfl rfl, ht.2⟩)
      (fun done t ht => ht.1) ?_ ⟨hs, hempty⟩
    rintro done b rest hactions t ⟨ht, htraps⟩ node hnode
    have hb : b ∈ ts.actions := hactions ▸ List.mem_append_right done List.mem_cons_self
    have hsorted := h.sorted
    rw [hactions] at hsorted
    have hlast : ∀ c ∈ done, c.1 < b.1 := fun c hc =>
      (List.pairwise_append.mp hsorted).2.2 c hc b List.mem_cons_self
    have hlocked : t.traps.isLocked b.1 = false := by
      rw [htraps]
      rfl
    apply (completes_trapCommand (h.condition b hb) (h.action b hb) hnode ht hlocked).mono
    rintro - u ⟨hu, htraps'⟩
    refine ⟨hu, ?_⟩
    rw [htraps', htraps, Traps.set_last hlast]
  apply hrun.mono
  rintro - t ⟨-, htraps⟩
  rw [htraps, ← h.unlocked]

end Shell

theorem survives_trapListing {ts : Traps} (h : ts.Listable) :
    Text.Survives (trapListing ts) ↔ ∀ b ∈ ts.actions, Text.Survives b.2.text := by
  refine Text.survives_flatMap fun b hb u => ?_
  have hname : Text.AllAscii (Signal.nameOf b.1) := fun c hc =>
    Text.isAscii_of_isPlainChar (List.all_eq_true.mp
      (Bool.and_eq_true_iff.mp (Signal.numberOf?_nameOf (h.condition b hb)).2).2 c hc)
  have hpost : Text.AllAscii (" ".toList ++ Signal.nameOf b.1 ++ "\n".toList) :=
    Text.allAscii_append.mpr ⟨Text.allAscii_append.mpr ⟨by decide, hname⟩, by decide⟩
  show Text.Survives (trapLine b.1 b.2 ++ u) ↔ _
  rw [trapLine_eq]
  exact Text.survives_quote_between (by decide) hpost (by simp) _ u

/-! ## The round trip -/

/-- What `trap` lists comes back, for every table that calls of `trap` build from the empty one. `trap`
without operands writes the listing, and in any shell without traps that runs it undisturbed the table is
then the same. As bytes the listing is read as the same text exactly if the bytes of every listed command
are read as the command. -/
theorem trap_listing_read_back (ts : Traps) (hreached : Relation.ReflTransGen TrapCall {} ts) :
    (∀ s : Shell, s.traps = ts → (runTrapCommand []).startedIn s =
      (do writeOut (trapListing ts); setStatus 0 : ShellM Unit).startedIn s) ∧
    (∀ depth (s : Shell), s.traps = {} → Unencumbered s →
      Completes (runText (evaluatorOf (depth + 2)) (trapListing ts)) s fun _ t => t.traps = ts) ∧
    (Text.decode (Text.encode (trapListing ts)) = trapListing ts ↔
      ∀ n t, (n, .command t) ∈ ts.actions → Text.decode (Text.encode t) = t) := by
  have h := listable_of_trapCalls hreached
  refine ⟨?_, ?_, (survives_trapListing h).trans ⟨?_, ?_⟩⟩
  · rintro s rfl
    rfl
  · intro depth s hempty hs
    exact completes_trapListing h hs hempty
  · intro hall n t hmem
    exact hall _ hmem
  · rintro hall ⟨n, a⟩ hb
    cases a with
    | ignore => exact Text.survives_nil
    | command t => exact hall n t hb

/-- `trap 'echo bye' EXIT` and `trap '' INT`. -/
theorem trap_listing_read_back_exit :
    Completes (runText (evaluatorOf 2) "trap -- 'echo bye' EXIT\ntrap -- '' INT\n") {} fun _ t =>
      t.traps = { actions := [(0, .command "echo bye"), (2, .ignore)] } := by
  let ts : Traps := { actions := [(0, .command "echo bye")] }
  let ts' : Traps := { actions := [(0, .command "echo bye"), (2, .ignore)] }
  have hexit : TrapCall {} ts := trapCall_of_endsIn
    (show ((runTrapCommand ["echo bye", "EXIT"]).startedIn {}).endsIn (endsWith ts.actions) [] = true by
      decide +kernel)
  have hint : TrapCall ts ts' := trapCall_of_endsIn
    (show ((runTrapCommand [[], "INT"]).startedIn { traps := ts }).endsIn (endsWith ts'.actions)
      [⟨.setDisposition .int .ignore, .default⟩] = true by decide +kernel)
  have hlisting : trapListing ts' = "trap -- 'echo bye' EXIT\ntrap -- '' INT\n" := by decide
  have hback := trap_listing_read_back ts' (.tail (.single hexit) hint)
  have hs : Unencumbered {} := ⟨rfl, rfl, rfl⟩
  rw [← hlisting]
  exact hback.2.1 0 {} rfl hs

/-- For a disguised quote the bytes of the listing are those for a quote, and so a quote is the command that
comes back. -/
theorem not_trap_listing_read_back :
    Relation.ReflTransGen TrapCall {} { actions := [(10, .command Text.disguisedQuote)] } ∧
    Text.decode (Text.encode (trapListing { actions := [(10, .command Text.disguisedQuote)] })) =
      "trap -- ''\\''' USR1\n" ∧
    Completes (runText evaluator "trap -- ''\\''' USR1\n") {}
      (fun _ t => t.traps = { actions := [(10, .command "'")] }) ∧
    ¬ Completes (runText evaluator "trap -- ''\\''' USR1\n") {}
      (fun _ t => t.traps = { actions := [(10, .command Text.disguisedQuote)] }) := by
  let asked : List Host.Event := [⟨.setDisposition .usr1 .caught, .default⟩]
  have hplain : TrapCall {} { actions := [(10, .command "'")] } := trapCall_of_endsIn
    (show ((runTrapCommand ["'", "USR1"]).startedIn {}).endsIn (endsWith [(10, .command "'")]) asked = true
      by decide +kernel)
  have hdisguised : TrapCall {} { actions := [(10, .command Text.disguisedQuote)] } := trapCall_of_endsIn
    (show ((runTrapCommand [Text.disguisedQuote, "USR1"]).startedIn {}).endsIn
      (endsWith [(10, .command Text.disguisedQuote)]) asked = true by decide +kernel)
  have hlisting : trapListing { actions := [(10, .command "'")] } = "trap -- ''\\''' USR1\n" := by decide
  have hascii : Text.AllAscii "trap -- ''\\''' USR1\n" := by decide
  have hbytes : Text.encode (trapListing { actions := [(10, .command Text.disguisedQuote)] }) =
      Text.encode "trap -- ''\\''' USR1\n" := by decide
  have hquote : Completes (runText evaluator "trap -- ''\\''' USR1\n") {} fun _ t =>
      t.traps = { actions := [(10, .command "'")] } := by
    have h := listable_of_trapCalls (.single hplain)
    rw [← hlisting, show evaluator = evaluatorOf (999999998 + 2) from rfl]
    exact completes_trapListing h ⟨rfl, rfl, rfl⟩ rfl
  refine ⟨.single hdisguised, ?_, hquote, fun h => ?_⟩
  · rw [hbytes]
    exact Text.survives_of_ascii hascii
  · obtain ⟨-, t, htraps, htraps'⟩ := (hquote.and h).exists
    exact absurd (congrArg Traps.actions (htraps.symm.trans htraps')) (by decide)

end CommandShell
