import CommandShell.Execution.Evaluate
import CommandShell.Proofs.ChildStatus
import CommandShell.Proofs.RawBytes.Boundaries
import CommandShell.Proofs.Reading.WholeLines

/-!
# The main loop gets on

Each turn of the main loop takes a line of the script, or is answered a failure instead of a line,
or is the last one (`Loops.gets_on`). So when the lines and the failures come to an end, the loop
does, however many commands are malformed (`runSource_ends`). A failure is reported and the loop
goes on: a source that can be read no more keeps it going for ever (`not_runSource_ends`).
-/

namespace CommandShell.Shell

open Host (Event)
open Host.Program (Comes Reaches)
open Script (Answer Between Input IsLine Parsed Supplied afterCall parseCommand)

variable {α β σ : Type} {ev : Evaluator} {s t u : Shell}

/-! ## What a computation may come to -/

/-- A run of the computation comes to `r` and leaves the state `t`. -/
def ComesTo (x : ShellM α) (s : Shell) (r : Except Stop α) (t : Shell) : Prop :=
  ∃ es, (x.startedIn s).Comes es (.done (r, t))

theorem comesTo_pure (a : α) (s : Shell) : ComesTo (pure a) s (.ok a) s := ⟨[], .here _⟩

theorem ComesTo.bind {x : ShellM α} {f : α → ShellM β} {a : α} {r : Except Stop β}
    (hx : ComesTo x s (.ok a) t) (hf : ComesTo (f a) t r u) : ComesTo (x >>= f) s r u := by
  obtain ⟨es, hx⟩ := hx
  obtain ⟨es', hf⟩ := hf
  exact ⟨es ++ es', hx.bind hf⟩

/-- A sequence comes to what its second part comes to, or fails with its first part. -/
theorem ComesTo.of_bind {x : ShellM α} {f : α → ShellM β} {r : Except Stop β}
    (h : ComesTo (x >>= f) s r u) :
    (∃ a t, ComesTo x s (.ok a) t ∧ ComesTo (f a) t r u) ∨
      ∃ e, ComesTo x s (.error e) u ∧ r = .error e := by
  obtain ⟨es, h⟩ := h
  obtain ⟨es₁, es₂, ⟨r₁, t⟩, rfl, hx, hf⟩ := Comes.of_bind h
  cases r₁ with
  | ok a => exact .inl ⟨a, t, ⟨es₁, hx⟩, ⟨es₂, hf⟩⟩
  | error e =>
      cases hf
      exact .inr ⟨e, ⟨es₁, hx⟩, rfl⟩

theorem ComesTo.of_bind_ok {x : ShellM α} {f : α → ShellM β} {b : β}
    (h : ComesTo (x >>= f) s (.ok b) u) :
    ∃ a t, ComesTo x s (.ok a) t ∧ ComesTo (f a) t (.ok b) u := by
  rcases h.of_bind with h | ⟨e, -, he⟩
  · exact h
  · cases he

theorem ComesTo.of_get_bind {f : Shell → ShellM β} {r : Except Stop β}
    (h : ComesTo (get >>= f) s r t) : ComesTo (f s) s r t := h

theorem ComesTo.of_pure {a : α} {r : Except Stop α} (h : ComesTo (pure a) s r t) :
    r = .ok a ∧ t = s := by
  obtain ⟨es, h⟩ := h
  cases h
  exact ⟨rfl, rfl⟩

theorem ComesTo.attempt {x : ShellM α} {r : Except Stop α} (h : ComesTo x s r t) :
    ComesTo (attempt x) s (.ok r) t := by
  obtain ⟨es, h⟩ := h
  exact ⟨es ++ [], h.bind (.here _)⟩

theorem ComesTo.of_attempt {x : ShellM α} {r : Except Stop α}
    (h : ComesTo (Shell.attempt x) s (.ok r) t) : ComesTo x s r t := by
  obtain ⟨es, h⟩ := h
  obtain ⟨es₁, es₂, ⟨r₁, t₁⟩, rfl, hx, hf⟩ := Comes.of_bind h
  cases hf
  exact ⟨es₁, hx⟩

theorem Yields.of_comesTo {P : α → Prop} {x : ShellM α} (hx : Yields P x) {a : α}
    (h : ComesTo x s (.ok a) t) : P a := by
  obtain ⟨es, h⟩ := h
  exact (hx s).of_comes h a rfl

/-! ## Lines -/

/-- A line is read up to its newline, or up to the end of the input. -/
theorem isLine_decode {bs : Host.Bytes} (hnone : 0x0A ∉ bs) :
    (bs ≠ [] → IsLine (Text.decode bs)) ∧ IsLine (Text.decode (bs ++ [0x0A])) := by
  have hascii : Text.IsAscii '\n' := by decide
  have hchars : '\n' ∉ Text.decode bs := by
    intro hmem
    obtain ⟨t, u, htu⟩ := List.append_of_mem hmem
    obtain ⟨bs₁, bs₂, rfl, -⟩ := Text.exists_of_decode_eq hascii htu
    exact hnone (List.mem_append_right _ List.mem_cons_self)
  have hnewline : Text.decode (bs ++ [0x0A]) = Text.decode bs ++ ['\n'] := by
    have hone : Text.decode [0x0A] = ['\n'] := by
      rw [show ([0x0A] : Host.Bytes) = [UInt8.ofNat '\n'.toNat] from rfl,
        Text.decode_ascii_cons hascii, Text.decode]
    rw [Text.decode_append (by decide), hone]
  refine ⟨fun hne => ⟨?_, fun hmem => hchars (List.mem_of_mem_dropLast hmem)⟩, ?_, ?_⟩
  · obtain ⟨b, bs, rfl⟩ := List.exists_cons_of_ne_nil hne
    rw [Text.decode_cons]
    rcases Text.decodeHead_cases b bs with hraw | ⟨c, hone, -⟩
    · rw [hraw]
      exact List.cons_ne_nil _ _
    · rw [hone]
      exact List.cons_ne_nil _ _
  · rw [hnewline]
    exact List.append_ne_nil_of_right_ne_nil _ (List.cons_ne_nil _ _)
  · rw [hnewline, List.dropLast_concat]
    exact hchars

theorem yields_readLine (fd : Nat) :
    Yields (fun r => ∀ l, r = some l → IsLine l) (readLine fd) := by
  refine yields_iterate (I := fun line => 0x0A ∉ line) (fun line hline => ?_) List.not_mem_nil
  refine Yields.bind fun r => ?_
  rcases r with e | bs
  · exact Yields.fail _
  · cases bs with
    | nil =>
        refine Yields.pure ⟨nofun, ?_⟩
        rintro _ ⟨⟩ l hl
        split at hl
        · exact nomatch hl
        · rename_i hne
          obtain rfl := Option.some.inj hl
          refine (isLine_decode (List.mem_reverse.not.mpr hline)).1 fun hnil => hne ?_
          rw [List.reverse_eq_nil_iff.mp hnil]
          rfl
    | cons b bs =>
        dsimp only
        split
        · rename_i hb
          refine Yields.pure ⟨nofun, ?_⟩
          rintro _ ⟨⟩ l hl
          obtain rfl := Option.some.inj hl
          rw [List.reverse_cons, hb]
          exact (isLine_decode (List.mem_reverse.not.mpr hline)).2
        · rename_i hb
          refine Yields.pure ⟨?_, nofun⟩
          rintro _ ⟨⟩
          exact List.not_mem_cons_of_ne_of_not_mem (Ne.symm hb) hline

theorem yields_nextLine (src : ScriptSource) (first : Bool) :
    Yields (fun r => ∀ l, r = some l → IsLine l) (nextLine src first) := by
  unfold nextLine
  split
  · exact Yields.pure (by simp)
  · rename_i fd _
    have hline : Yields (fun r => ∀ l, r = some l → IsLine l) (do
        let line ← readLine fd
        if (← get).has .verbose then quietly (writeErr (line.getD []))
        return line) := by
      refine (yields_readLine fd).bind_of fun line hline => .bind fun sh => ?_
      split
      · exact .bind fun _ => Yields.pure hline
      · exact Yields.pure hline
    split
    · exact .bind fun _ => .bind fun _ => hline
    · exact hline

/-! ## Turns -/

/-- A command line is read from a source, which answers when it is asked for lines. -/
inductive Gathers (src : ScriptSource) :
    Input → Shell → List Answer → Except Stop Parsed × Input → Shell → Prop
  | read {i j : Input} {p : Parsed} {s : Shell} (h : parseCommand.on i = (.ok p, j)) :
    Gathers src i s [] (.ok p, j) s
  | stopped {i j : Input} {e : Stop} {s : Shell} (h : parseCommand.on i = (.error (.stop e), j)) :
    Gathers src i s [] (.error e, j) s
  | refused {i j : Input} {e : Stop} {s t : Shell} (h : parseCommand.on i = (.error .needLine, j))
    (hline : ComesTo (nextLine src j.primary) s (.error e) t) :
    Gathers src i s [.error e] (.error e, j) t
  | closed {i j : Input} {as : List Answer} {o : Except Stop Parsed × Input} {s t u : Shell}
    (h : parseCommand.on i = (.error .needLine, j))
    (hline : ComesTo (nextLine src j.primary) s (.ok none) t)
    (hmore : Gathers src { i with closed := true } t as o u) : Gathers src i s (.ok none :: as) o u
  | line {i j : Input} {l : Text} {as : List Answer} {o : Except Stop Parsed × Input}
    {s t u : Shell} (h : parseCommand.on i = (.error .needLine, j))
    (hline : ComesTo (nextLine src j.primary) s (.ok (some l)) t)
    (hmore : Gathers src { i with queue := i.queue ++ [l] } t as o u) :
    Gathers src i s (.ok (some l) :: as) o u

/-- One round of reading a command line. -/
def readRound (src : ScriptSource) (input : Input) :
    ShellM (Input ⊕ (Except Stop Parsed × Input)) := do
  match parseCommand.run.run input with
  | (.ok parsed, rest) => return .inr (.ok parsed, rest)
  | (.error (.stop s), rest) => return .inr (.error s, rest)
  | (.error .needLine, rest) =>
    match ← attempt (nextLine src rest.primary) with
    | .error s => return .inr (.error s, rest)
    | .ok none => return .inl { input with closed := true }
    | .ok (some line) => return .inl { input with queue := input.queue ++ [line] }

theorem readCommand_eq (src : ScriptSource) :
    readCommand src = iterate (readRound src) src.input := rfl

theorem Gathers.supplied {src : ScriptSource} {i : Input} {as : List Answer}
    {o : Except Stop Parsed × Input} (h : Gathers src i s as o t) : Supplied i as o := by
  induction h with
  | read h => exact .read h
  | stopped h => exact .stopped h
  | refused h _ => exact .refused h
  | closed h _ _ ih => exact .closed (congrArg Prod.fst h) ih
  | line h _ _ ih => exact .line (congrArg Prod.fst h) ih

/-- Lines that were supplied are lines. -/
theorem Gathers.isLine {src : ScriptSource} {i : Input} {as : List Answer}
    {o : Except Stop Parsed × Input} (h : Gathers src i s as o t) :
    ∀ l, .ok (some l) ∈ as → IsLine l := by
  induction h with
  | read _ => exact fun _ hl => nomatch hl
  | stopped _ => exact fun _ hl => nomatch hl
  | refused _ _ => exact fun _ hl => nomatch List.mem_singleton.mp hl
  | closed _ _ _ ih =>
      intro l hl
      exact ih l ((List.mem_cons.mp hl).resolve_left nofun)
  | @line _ j l _ _ _ _ _ _ hline _ ih =>
      intro m hm
      rcases List.mem_cons.mp hm with heq | hm
      · obtain rfl := Option.some.inj (Except.ok.inj heq)
        exact (yields_nextLine src j.primary).of_comesTo hline m rfl
      · exact ih m hm

theorem ComesTo.gathers {src : ScriptSource} {o : Except Stop Parsed × Input}
    (h : ComesTo (readCommand src) s (.ok o) t) : ∃ as, Gathers src src.input s as o t := by
  have hn : ∀ n i s, ComesTo (iterateFor (readRound src) n i) s (.ok o) t →
      ∃ as, Gathers src i s as o t := by
    intro n
    induction n with
    | zero =>
        rintro i s ⟨es, h⟩
        cases h
    | succ n ih =>
        intro i s h
        obtain ⟨r, u, hround, hmore⟩ := h.of_bind_ok
        -- a round with a result is the last one
        have hlast : ∀ {o' v}, ComesTo (pure (.inr o') : ShellM _) v (.ok r) u →
            o' = o ∧ v = t := by
          intro o' v hround
          obtain ⟨hr, rfl⟩ := hround.of_pure
          obtain rfl := Except.ok.inj hr
          obtain ⟨ho, rfl⟩ := hmore.of_pure
          exact ⟨(Except.ok.inj ho).symm, rfl⟩
        unfold readRound at hround
        generalize hread : parseCommand.run.run i = outcome at hround
        obtain ⟨result, j⟩ := outcome
        rcases result with (e | -) | p
        · obtain ⟨rfl, rfl⟩ := hlast hround
          exact ⟨[], .stopped hread⟩
        · obtain ⟨answer, v, hline, hround⟩ := hround.of_bind_ok
          have hline := hline.of_attempt
          rcases answer with e | _ | l
          · obtain ⟨rfl, rfl⟩ := hlast hround
            exact ⟨_, .refused hread hline⟩
          · obtain ⟨hr, rfl⟩ := hround.of_pure
            obtain rfl := Except.ok.inj hr
            obtain ⟨as, has⟩ := ih _ _ hmore
            exact ⟨_, .closed hread hline has⟩
          · obtain ⟨hr, rfl⟩ := hround.of_pure
            obtain rfl := Except.ok.inj hr
            obtain ⟨as, has⟩ := ih _ _ hmore
            exact ⟨_, .line hread hline has⟩
        · obtain ⟨rfl, rfl⟩ := hlast hround
          exact ⟨[], .read hread⟩
  rw [readCommand_eq] at h
  exact hn roundLimit src.input s h

/-- What a turn does with what was read. -/
def finishTurn (ev : Evaluator) (top : Bool) (src : ScriptSource) :
    Except Stop Parsed × Input → ShellM (ScriptSource ⊕ Unit)
  | (result, input) => do
    let input ← showLines input
    match result with
    | .ok .done => return .inr ()
    | .ok .empty => return .inl { src with input }
    | .ok (.command node) =>
      runRead ev top node
      return .inl { src with input }
    | .error s =>
      takeStop top s
      return if top then .inl { src with input := input.discardLine } else .inr ()

theorem sourceStep_eq (ev : Evaluator) (src : ScriptSource) :
    sourceStep ev true src = (do
      checkpoint ev
      let src := refreshSource (← get) src
      finishTurn ev true src (← readCommand src)) :=
  rfl

theorem yields_showLines (i : Input) : Yields (fun j => j = { i with shown := [] }) (showLines i) :=
  Yields.bind fun _ => Yields.pure rfl

/-- A turn that is not the last goes on with what is left. -/
theorem ComesTo.finishTurn {src src' : ScriptSource} {o : Except Stop Parsed × Input}
    (h : ComesTo (finishTurn ev true src o) s (.ok (.inl src')) t) :
    o.1 ≠ .ok .done ∧ src' = { src with input := { afterCall o with shown := [] } } := by
  obtain ⟨result, i⟩ := o
  obtain ⟨j, u, hshow, h⟩ := h.of_bind_ok
  obtain rfl := (yields_showLines i).of_comesTo hshow
  rcases result with e | node | _ | _
  · obtain ⟨_, v, -, h⟩ := h.of_bind_ok
    obtain ⟨hr, -⟩ := h.of_pure
    exact ⟨nofun, Sum.inl.inj (Except.ok.inj hr)⟩
  · obtain ⟨_, v, -, h⟩ := h.of_bind_ok
    obtain ⟨hr, -⟩ := h.of_pure
    exact ⟨nofun, Sum.inl.inj (Except.ok.inj hr)⟩
  · obtain ⟨hr, -⟩ := h.of_pure
    exact ⟨nofun, Sum.inl.inj (Except.ok.inj hr)⟩
  · obtain ⟨hr, -⟩ := h.of_pure
    exact nomatch Except.ok.inj hr

/-- Turns of the main loop one after the other, each with no alias defined when it reads: their
number, and the answers to what was asked of the source. -/
inductive Loops (ev : Evaluator) :
    ScriptSource → Shell → Nat → List Answer → ScriptSource → Shell → Prop
  | here (src : ScriptSource) (s : Shell) : Loops ev src s 0 [] src s
  | turn {src src' src'' : ScriptSource} {s s₁ s₂ t u : Shell} {n : Nat} {as as' : List Answer}
    {o : Except Stop Parsed × Input} (hcheck : ComesTo (checkpoint ev) s (.ok ()) s₁)
    (hempty : s₁.definitions.aliases = .empty)
    (hread : Gathers (refreshSource s₁ src) (refreshSource s₁ src).input s₁ as o s₂)
    (hfinish : ComesTo (Shell.finishTurn ev true (refreshSource s₁ src) o) s₂ (.ok (.inl src')) t)
    (hmore : Loops ev src' t n as' src'' u) : Loops ev src s (n + 1) (as ++ as') src'' u

/-- Which lines are shown does not matter to reading. -/
theorem between_shown {i : Input} (h : Between i) (verbose : Bool) (shown : List Text) :
    Between { i with verbose, shown } := by
  obtain ⟨S, start, hlined⟩ := h.lined
  have hrest : ({ i with verbose, shown } : Input).AtRest := { h.rest with
    frames := h.rest.frames, current := h.rest.current, unread := h.rest.unread }
  exact ⟨h.proper, h.held.of_docs rfl, ⟨S, start, hlined.of_position rfl id⟩, hrest⟩

theorem refreshSource_input {src : ScriptSource} (h : Between src.input)
    (hempty : s.definitions.aliases = .empty) : (refreshSource s src).input
      = { src.input with verbose := s.has .verbose && src.descriptor.isNone } := by
  obtain ⟨S, start, hlined⟩ := h.lined
  unfold refreshSource
  rw [hempty, ← hlined.aliases]

/-- Each turn takes a line, one that was there or one that the source answers, or is answered a
failure. -/
theorem Loops.gets_on {src src' : ScriptSource} {n : Nat} {as : List Answer}
    (h : Loops ev src s n as src' t) (hb : Between src.input) :
    Between src'.input ∧
      src'.input.queue.length + n ≤ src.input.queue.length + as.countP Answer.isNews := by
  induction h with
  | here src s => exact ⟨hb, Nat.le_refl _⟩
  | @turn src src' src'' s s₁ s₂ t u n as as' o _ hempty hread hfinish _ ih =>
      obtain ⟨hdone, rfl⟩ := hfinish.finishTurn
      have hstart : Between (refreshSource s₁ src).input := by
        rw [refreshSource_input hb hempty]
        exact between_shown hb _ src.input.shown
      obtain ⟨hleft, hle⟩ := (hread.supplied.gets_on hstart hread.isLine).resolve_left hdone
      obtain ⟨hend, hmore⟩ := ih (between_shown hleft _ [])
      have hmore : src''.input.queue.length + n
          ≤ (afterCall o).queue.length + as'.countP Answer.isNews := hmore
      have hle : (afterCall o).queue.length + 1
          ≤ src.input.queue.length + as.countP Answer.isNews := hle
      rw [List.countP_append]
      exact ⟨hend, by omega⟩

/-- A run of a loop makes turns with no alias defined. Then comes the last one, or an alias is
defined, unless the turns are as many as are allowed. -/
theorem ComesTo.loops {src : ScriptSource} {r : Except Stop Unit} {n : Nat}
    (h : ComesTo (iterateFor (sourceStep ev true) n src) s r t) :
    ∃ m as src' u, Loops ev src s m as src' u ∧
      (m < n → ComesTo (sourceStep ev true src') u (r.map .inr) t ∨
        ∃ s₁, ComesTo (checkpoint ev) u (.ok ()) s₁ ∧ s₁.definitions.aliases ≠ .empty) := by
  induction n generalizing src s with
  | zero => exact ⟨0, [], src, s, .here src s, fun h => nomatch h⟩
  | succ n ih =>
      rcases h.of_bind with ⟨a, v, hstep, hmore⟩ | ⟨e, hstep, rfl⟩
      · cases a with
        | inl src' =>
            rw [sourceStep_eq] at hstep
            obtain ⟨_, s₁, hcheck, hstep⟩ := hstep.of_bind_ok
            by_cases hempty : s₁.definitions.aliases = .empty
            · obtain ⟨o, s₂, hread, hfinish⟩ := hstep.of_get_bind.of_bind_ok
              obtain ⟨as, hgathers⟩ := hread.gathers
              obtain ⟨m, as', src'', u, hloops, hlast⟩ := ih hmore
              exact ⟨m + 1, as ++ as', src'', u, .turn hcheck hempty hgathers hfinish hloops,
                fun h => hlast (Nat.lt_of_succ_lt_succ h)⟩
            · exact ⟨0, [], src, s, .here src s, fun _ => .inr ⟨s₁, hcheck, hempty⟩⟩
        | inr u =>
            obtain ⟨rfl, rfl⟩ := hmore.of_pure
            exact ⟨0, [], src, s, .here src s, fun _ => .inl hstep⟩
      · exact ⟨0, [], src, s, .here src s, fun _ => .inl hstep⟩

/-- As long as no alias is defined, each turn of the main loop has a line or a failure of its own,
and a loop that is answered fewer of them than the limit is not given up. -/
theorem runSource_ends {src : ScriptSource} (hpaused : Script.Paused src.input) :
    (∀ n as src' u, Loops ev src s n as src' u →
      src'.input.queue.length + n ≤ src.input.queue.length + as.countP Answer.isNews) ∧
    ∀ r t, ComesTo (runSource ev true src) s r t → ∃ n as src' u, Loops ev src s n as src' u ∧
      (as.countP Answer.isNews < roundLimit →
        ComesTo (sourceStep ev true src') u (r.map .inr) t ∨
          ∃ s₁, ComesTo (checkpoint ev) u (.ok ()) s₁ ∧ s₁.definitions.aliases ≠ .empty) := by
  have hb := hpaused.between
  refine ⟨fun n as src' u h => (h.gets_on hb).2, fun r t h => ?_⟩
  obtain ⟨n, as, src', u, hloops, hlast⟩ := h.loops
  refine ⟨n, as, src', u, hloops, fun hfew => hlast ?_⟩
  have hle := (hloops.gets_on hb).2
  omega

theorem paused_ofDescriptor (fd : Nat) (prompts : Bool) :
    Script.Paused (ScriptSource.ofDescriptor fd prompts).input :=
  .supplied (.start [] 1) rfl [] (fun _ h => nomatch h) false

/-- The bound at a descriptor: no turn without an answer of its own. -/
theorem runSource_ends_descriptor :
    Script.Paused (ScriptSource.ofDescriptor 0 false).input ∧
      ∀ n as src' u, Loops evaluator (.ofDescriptor 0 false) {} n as src' u →
        src'.input.queue.length + n ≤ 0 + as.countP Answer.isNews :=
  ⟨paused_ofDescriptor 0 false, (runSource_ends (paused_ofDescriptor 0 false)).1⟩

/-! ## A source that fails for ever -/

theorem comesTo_ask (c : Host.Call) (r : Host.Reply c) : ComesTo (ask c) s (.ok r) s :=
  ⟨[⟨c, r⟩], .step (.here _)⟩

/-- A loop that is left in its first round. -/
theorem ComesTo.iterate {step : σ → ShellM (σ ⊕ α)} {a : σ} {b : α}
    (h : ComesTo (step a) s (.ok (.inr b)) t) : ComesTo (iterate step a) s (.ok b) t := by
  unfold Shell.iterate
  rw [show roundLimit = 999999999 + 1 from rfl, iterateFor]
  exact h.bind (comesTo_pure b t)

theorem ComesTo.bind_error {x : ShellM α} {f : α → ShellM β} {e : Stop}
    (h : ComesTo x s (.error e) t) : ComesTo (x >>= f) s (.error e) t := by
  obtain ⟨es, h⟩ := h
  exact ⟨es ++ [], Comes.bind h (.here _)⟩

theorem ComesTo.iterate_error {step : σ → ShellM (σ ⊕ α)} {a : σ} {e : Stop}
    (h : ComesTo (step a) s (.error e) t) : ComesTo (Shell.iterate step a) s (.error e) t := by
  unfold Shell.iterate
  rw [show roundLimit = 999999999 + 1 from rfl, iterateFor]
  exact h.bind_error

theorem comesTo_fail (f : Fault) : ComesTo (fail f : ShellM α) s (.error (.ofFault f)) s :=
  ⟨[], .here _⟩

theorem ComesTo.quietly {x : ShellM Unit} {r : Except Stop Unit} (h : ComesTo x s r t) :
    ComesTo (quietly x) s (.ok ()) t :=
  h.attempt.bind (comesTo_pure () t)

/-- A message that cannot be written. -/
theorem comesTo_writeErr (text : Text) (s : Shell) :
    ComesTo (Shell.quietly (writeErr text)) s (.ok ()) s := by
  unfold writeErr write writeBytes
  by_cases hempty : (Text.encode text).isEmpty = true
  · refine ComesTo.quietly (r := .ok ()) (ComesTo.iterate ?_)
    rw [if_pos hempty]
    exact comesTo_pure _ s
  · refine ComesTo.quietly (r := .error (.ofFault (.inputOutput .badDescriptor)))
      (ComesTo.iterate_error ?_)
    rw [if_neg hempty]
    exact (comesTo_ask (.write 2 _) (.error .badDescriptor)).bind (comesTo_fail _)

/-- What is answered for a line when the descriptor is that of a directory. -/
def directoryRead : Stop := .ofFault (.inputOutput .isDirectory)

theorem comesTo_nextLine {src : ScriptSource} {fd : Nat} (hfd : src.descriptor = some fd)
    (hprompts : src.prompts = false) (first : Bool) (s : Shell) :
    ComesTo (nextLine src first) s (.error directoryRead) s := by
  have hsome : ComesTo (readSome fd 1) s (.ok (.error .isDirectory)) s :=
    ComesTo.iterate ((comesTo_ask (.read fd 1) (.error .isDirectory)).bind (comesTo_pure _ s))
  have hline : ComesTo (readLine fd) s (.error directoryRead) s :=
    ComesTo.iterate_error (hsome.bind (comesTo_fail _))
  unfold nextLine
  rw [hfd, hprompts]
  exact hline.bind_error

theorem comesTo_checkpoint (hplain : s.isInteractive = false) (ev : Evaluator) :
    ∃ jobs, ComesTo (checkpoint ev) s (.ok ()) { s with jobs } := by
  refine ⟨removeJobs s.jobs (forgettable s.jobs s.lastBackground), ?_⟩
  generalize ht : { s with jobs := removeJobs s.jobs (forgettable s.jobs s.lastBackground) } = t
  have hreap : ComesTo (Shell.quietly (reap (s.has .monitor))) s (.ok ()) s := by
    refine ComesTo.quietly (r := .ok ()) (ComesTo.iterate ?_)
    refine ComesTo.bind (t := s) (a := .ok none) ?_ ?_
    · exact (comesTo_ask (.wait none true _) (.ok none)).bind (comesTo_pure _ s)
    · exact comesTo_pure _ s
  have hforget : ComesTo forgetDoneJobs s (.ok ()) t := ⟨[], ht ▸ .here _⟩
  have htraps : ComesTo (runTraps ev) t (.ok ()) t := by
    by_cases hin : t.inTrap = true
    · refine ComesTo.bind (a := t) ⟨[], .here _⟩ ?_
      rw [if_pos hin]
      exact comesTo_pure () t
    · refine ComesTo.bind (a := t) ⟨[], .here _⟩ ?_
      rw [if_neg hin]
      exact (comesTo_ask .takeArrived false).bind (comesTo_pure () t)
  unfold checkpoint
  refine ComesTo.bind (a := s) ⟨[], .here _⟩ (hreap.bind (ComesTo.bind (a := s) ⟨[], .here _⟩ ?_))
  rw [if_neg (Bool.not_eq_true _ ▸ hplain)]
  exact hforget.bind htraps

theorem comesTo_showLines (i : Input) (s : Shell) :
    ComesTo (showLines i) s (.ok { i with shown := [] }) s := by
  have hall : ∀ lines : List Text, ComesTo (lines.forM fun line => Shell.quietly (writeErr line))
      s (.ok ()) s := by
    intro lines
    induction lines with
    | nil => exact comesTo_pure () s
    | cons line lines ih => exact (comesTo_writeErr line s).bind ih
  exact (hall _).bind (comesTo_pure _ s)

theorem comesTo_takeStop (s : Shell) :
    ComesTo (takeStop true directoryRead) s (.ok ()) { s with status := 1 } := by
  have hreport : ComesTo (reportStop directoryRead) s (.ok ()) s := by
    unfold reportStop
    rw [if_neg (by decide)]
    exact ComesTo.bind (a := s) ⟨[], .here _⟩ (comesTo_writeErr _ s)
  have hset : ComesTo (setStatus 1) s (.ok ()) { s with status := 1 } := ⟨[], .here _⟩
  exact hreport.bind hset

theorem waits_shown {i : Input} (h : Script.Waits i) (verbose : Bool) (shown : List Text) :
    Script.Waits { i with verbose, shown } :=
  ⟨between_shown h.toBetween verbose shown, h.queue, h.closed, h.atEnd⟩

/-- Turns that fail one after the other. Nothing changes but the jobs and `$?`. -/
theorem exists_loops_directory (ev : Evaluator) {fd : Nat} (src : ScriptSource) (s : Shell)
    (hwaits : Script.Waits src.input) (hfd : src.descriptor = some fd)
    (hprompts : src.prompts = false)
    (hplain : s.isInteractive = false) (hempty : s.definitions.aliases = .empty) (n : Nat) :
    ∃ src' u, Loops ev src s n (List.replicate n (.error directoryRead)) src' u := by
  induction n generalizing src s with
  | zero => exact ⟨src, s, .here src s⟩
  | succ n ih =>
      obtain ⟨jobs, hcheck⟩ := comesTo_checkpoint hplain ev
      generalize hs₁ : { s with jobs } = s₁ at hcheck
      have hempty₁ : s₁.definitions.aliases = .empty := hs₁ ▸ hempty
      have hwaits₁ : Script.Waits (refreshSource s₁ src).input := by
        rw [refreshSource_input hwaits.toBetween hempty₁]
        exact waits_shown hwaits _ src.input.shown
      obtain ⟨j, hread, hleft⟩ := hwaits₁.call
      have hgathers : Gathers (refreshSource s₁ src) (refreshSource s₁ src).input s₁
          [.error directoryRead] (.error directoryRead, j) s₁ :=
        .refused hread (comesTo_nextLine hfd hprompts j.primary s₁)
      have hfinish : ComesTo
          (finishTurn ev true (refreshSource s₁ src) (.error directoryRead, j)) s₁
          (.ok (.inl { refreshSource s₁ src with
            input := Input.discardLine { j with shown := [] } })) { s₁ with status := 1 } :=
        (comesTo_showLines j s₁).bind ((comesTo_takeStop s₁).bind (comesTo_pure _ _))
      obtain ⟨src', u, hmore⟩ := ih
        { refreshSource s₁ src with input := Input.discardLine { j with shown := [] } }
        { s₁ with status := 1 } (waits_shown hleft _ []) hfd hprompts (hs₁ ▸ hplain) hempty₁
      exact ⟨src', u, .turn hcheck hempty₁ hgathers hfinish hmore⟩

/-- When each attempt to read fails there is no end of turns, though there is no line. -/
theorem not_runSource_ends :
    ¬ ∀ (ev : Evaluator) (src : ScriptSource) (s : Shell), Script.Paused src.input →
      ∀ lines : Nat, ∃ bound : Nat, ∀ n as src' u, Loops ev src s n as src' u →
        as.countP (fun a => a.toOption.any Option.isSome) ≤ lines → n ≤ bound := by
  intro hends
  have hpaused := paused_ofDescriptor 0 false
  obtain ⟨bound, hbound⟩ := hends evaluator (.ofDescriptor 0 false) {} hpaused 0
  have hwaits : Script.Waits (ScriptSource.ofDescriptor 0 false).input :=
    ⟨hpaused.between, rfl, rfl, rfl⟩
  obtain ⟨src', u, hloops⟩ :=
    exists_loops_directory evaluator _ {} hwaits rfl rfl rfl rfl (bound + 1)
  have hnone : (List.replicate (bound + 1) (Except.error directoryRead : Answer)).countP
      (fun a => a.toOption.any Option.isSome) = 0 :=
    List.countP_eq_zero.mpr fun a ha => List.eq_of_mem_replicate ha ▸ Bool.false_ne_true
  exact absurd (hbound _ _ src' u hloops (Nat.le_of_eq hnone)) (by omega)

end CommandShell.Shell
