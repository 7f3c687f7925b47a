import CommandShell.Proofs.Reading.Commands
import CommandShell.Proofs.Reading.Steps

/-!
# Reading with aliases ends

`Input.stepBound` is enough steps for any input that reading comes to, so that more of them change
nothing, and every command takes something from the input. So reading commands one after the other
comes to the end or to an error, and no alias was expanded inside its own text on the way
(`reads_out`).

That needs texts of aliases without back-quotes and newlines (`Plain`). A script in back-quotes is
read from an input of its own, where the aliases around it are free to be expanded again
(`not_reads_out`).
-/

namespace CommandShell.Script

open Reader

variable {A : Table Text} {i : Input}

/-! ## Enough steps -/

theorem Token.weight_le {lvl : Nat} (h : 0 < lvl) (tk : Token) : tk.weight lvl ≤ lvl := by
  unfold Token.weight
  split
  · exact Nat.zero_le _
  · exact wordWeight_le h _
  · exact h

theorem framesWeight_le (fs : List AliasFrame) :
    framesWeight A fs ≤ (fs.map fun f => f.rest.length + 1).sum * level A [] := by
  induction fs with
  | nil => exact Nat.zero_le _
  | cons f fs ih =>
      have hsize : f.size ≤ f.rest.length + 1 := by
        unfold AliasFrame.size
        split <;> omega
      have hfirst := Nat.mul_le_mul hsize (level_le_nil A (f :: fs))
      rw [framesWeight, List.map_cons, List.sum_cons, Nat.add_mul]
      exact Nat.add_le_add hfirst ih

theorem level_nil (A : Table Text) : level A [] = growth A ^ A.toList.length := by
  simp [level, unused]

theorem weight_le_stepBound (i : Input) : 20 * i.weight + 9 ≤ i.stepBound := by
  have hpos := level_pos i.aliases []
  have hlvl : i.lvl ≤ level i.aliases [] := level_le_nil _ _
  have hunread := Nat.mul_le_mul_left i.unread.length hlvl
  have hframes := framesWeight_le (A := i.aliases) i.frames
  have hpending := Nat.le_mul_of_pos_right i.pending.length hpos
  have hpushback : i.pushback.elim 0 (Token.weight i.lvl) ≤ level i.aliases [] := by
    cases i.pushback with
    | none => exact Nat.zero_le _
    | some tk => exact Nat.le_trans (Token.weight_le i.lvl_pos tk) hlvl
  have hbound : i.stepBound = 20 * ((i.current.length + i.unread.length + i.queue.flatten.length
      + (i.frames.map fun f => f.rest.length + 1).sum + i.pending.length + 2)
      * level i.aliases []) + 100 := by
    rw [level_nil]
    rfl
  rw [hbound]
  unfold Input.weight
  simp only [Nat.add_mul]
  omega

/-! ## Reading to the end -/

/-- What reading a command comes to, with as many steps as there are or more. -/
def Settles (i : Input) (o : Except Halt Parsed × Input) : Prop :=
  o.1 ≠ .error .outOfSteps ∧ ∀ n, i.stepBound ≤ n → (parseTop n).on i = o

/-- Reading commands again and again comes to the end of the input or to an error, and no alias is
expanded inside its own text on the way. -/
inductive ReadsOut : Input → Prop
  | finished {i j : Input} (h : Settles i (.ok .done, j)) (hj : Proper j.expanded) : ReadsOut i
  | failed {i j : Input} {e : Halt} (h : Settles i (.error e, j)) (hj : Proper j.expanded) :
    ReadsOut i
  | more {i j : Input} {p : Parsed} (h : Settles i (.ok p, j)) (hj : Proper j.expanded)
    (hmore : ReadsOut j) : ReadsOut i

theorem Settles.parseCommand_on {o : Except Halt Parsed × Input} (h : Settles i o) :
    parseCommand.on i = o :=
  (CommandShell.Script.parseCommand_on i).trans (h.2 _ (Nat.le_refl _))

theorem ReadsOut.proper (h : ReadsOut i) : Proper (parseCommand.on i).2.expanded := by
  cases h with
  | finished h hj => rw [h.parseCommand_on]; exact hj
  | failed h hj => rw [h.parseCommand_on]; exact hj
  | more h hj _ => rw [h.parseCommand_on]; exact hj

/-- A command is read within the bound, and the input that is left weighs less. -/
theorem parseTop_settles (hA : ∀ b ∈ A.toList, Plain b.2) (hi : Sane A i) :
    ∃ o, Settles i o ∧ Proper o.2.expanded ∧
      ∀ p, o.1 = .ok p → p ≠ .done → Sane A o.2 ∧ o.2.weight < i.weight := by
  have hends := (suffices_all hA i.stepBound).parseTop hi (by
    have := weight_le_stepBound i
    omega)
  have hmore : ∀ {o}, (parseTop i.stepBound).on i = o → o.1 ≠ .error .outOfSteps → Settles i o := by
    intro o ho hout
    refine ⟨hout, fun n hn => ?_⟩
    exact (refines_of_le (fun n => (readersGrow n).parseTop) hn).on_eq ho hout
  unfold Ends Meets at hends
  generalize ho : (parseTop i.stepBound).on i = o at hends
  obtain ⟨r, j⟩ := o
  cases r with
  | ok p =>
      obtain ⟨hj, hless⟩ := hends
      refine ⟨_, hmore ho (fun h => nomatch h), hj.proper, fun p' hp hne => ⟨hj.toSane, ?_⟩⟩
      obtain rfl := Except.ok.inj hp
      exact (hless hne).weight
  | error e =>
      refine ⟨_, hmore ho fun h => hends.1 (Except.error.inj h), hends.2, fun p hp => nomatch hp⟩

theorem Sane.readsOut (hA : ∀ b ∈ A.toList, Plain b.2) (hi : Sane A i) : ReadsOut i := by
  induction hw : i.weight using Nat.strongRecOn generalizing i with
  | _ w ih =>
      obtain ⟨⟨r, j⟩, hsettles, hproper, hless⟩ := parseTop_settles hA hi
      cases r with
      | error e => exact .failed hsettles hproper
      | ok p =>
          cases p with
          | done => exact .finished hsettles hproper
          | empty =>
              obtain ⟨hj, hlt⟩ := hless _ rfl (fun h => nomatch h)
              exact .more hsettles hproper (ih _ (hw ▸ hlt) hj rfl)
          | command node =>
              obtain ⟨hj, hlt⟩ := hless _ rfl (fun h => nomatch h)
              exact .more hsettles hproper (ih _ (hw ▸ hlt) hj rfl)

/-- When no text of an alias has a back-quote or a newline, reading a text command by command ends,
and no alias is expanded inside its own text. -/
theorem reads_out {aliases : Table Text} (hplain : ∀ b ∈ aliases.toList, Plain b.2) (t : Text)
    (line : Nat) : ReadsOut (.ofText t line aliases) := by
  refine Sane.readsOut hplain ⟨rfl, ?_, ?_, ?_, ?_, rfl, ?_, fun _ => ⟨rfl, rfl⟩⟩
  · exact fun f hf => nomatch hf
  · exact fun f hf => nomatch hf
  · exact fun c hc => nomatch hc
  · exact nil_notMem_lines t
  · exact fun u hu => nomatch hu

/-- Aliases that name each other and themselves, inside a substitution too. -/
theorem reads_out_mutual :
    (∀ b ∈ ((Table.empty.insert "a" ("b $(a) " : Text)).insert "b" ("a b" : Text)).toList,
      Plain b.2) ∧
    ReadsOut (.ofText "a a\nb\n" 1
      ((Table.empty.insert "a" ("b $(a) " : Text)).insert "b" ("a b" : Text))) := by
  refine ⟨by decide, reads_out ?_ "a a\nb\n" 1⟩
  decide

/-- The text of an alias may start a script in back-quotes, in which the alias is expanded once
more. -/
theorem not_reads_out : ¬ ∀ (aliases : Table Text) (t : Text), ReadsOut (.ofText t 1 aliases) := by
  intro h
  have hproper := (h (Table.empty.insert "a" ("echo \x60a" : Text)) "a \x60\n").proper
  have hlog : (⟨"a", ["a"]⟩ : AliasUse) ∈ (parseCommand.on
      (.ofText "a \x60\n" 1 (Table.empty.insert "a" ("echo \x60a" : Text)))).2.expanded := by
    decide +kernel
  exact hproper _ hlog List.mem_cons_self

end CommandShell.Script
