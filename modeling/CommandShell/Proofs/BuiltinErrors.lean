import CommandShell.Proofs.ExitTrap
import CommandShell.Proofs.Exits
import CommandShell.Proofs.ReadOnly

/-!
# Errors of built-in commands

What goes wrong in a built-in command is reported under its name and becomes its status, which is not
zero. After a regular one the shell goes on, also when a redirection failed. A special one ends a shell
that is not interactive, and so does an `exec` that does not find its command or cannot redirect: it
stops with an `exit`, and what a shell does after that is told by its copy in a hurry (`Exits`). So the
error of a special built-in command is the last thing that happens before a shell tidies up and ends.

If an assignment before a regular command is refused, the error goes through everything around the
command, up to the loop that reads the commands. That reports it, and the next line is read. A command
that reports by itself what is wrong has not failed in this sense, and the shell goes on.

`Says` follows a message through the calls that write it, short and interrupted ones too.
-/

namespace CommandShell

open Host (Call Event Program Bytes)
open Host.Program (Comes Reaches)

theorem Fault.status_bounds (f : Fault) : 0 < f.status ∧ f.status < 128 := by
  cases f with
  | _ => simp [status]

/-- A message about a shell, with the line that it is at. -/
def Shell.complaint (sh : Shell) (what : Text) : Text := sh.blame ++ ": " ++ what ++ "\n"

/-- The message of an error, with the line that is blamed. -/
def Stop.complaint (e : Stop) (sh : Shell) : Text :=
  sh.name ++ ": " ++ Text.ofNat (e.line?.getD sh.line) ++ ": " ++ e.message ++ "\n"

namespace Shell

open Script (Node Word Redirect)
open Commands
open Expansion (arguments assignments)

variable {ev : Evaluator} {α β : Type} {S T : Span} {K : Haste} {s t u v : Shell} {es es' : List Event}
  {f : Fault} {e : Stop} {line : Option Nat} {code : Int} {n : Nat} {data : Bytes}

/-! ## Messages -/

/-- The rest of a message is written to standard error, in `n` pieces at most, and then comes what
satisfies `after`. A message that cannot be written is given up. -/
inductive Says (after : Program α → Prop) : Nat → Bytes → Program α → Prop where
  | said {n : Nat} {p : Program α} (h : after p) : Says after (n + 1) [] p
  | writes {n : Nat} {b : UInt8} {data : Bytes}
      {k : Host.Reply (.write 2 (b :: data)) → Program α}
      (hok : ∀ m, Says after n ((b :: data).drop m) (k (.ok m)))
      (hagain : Says after n (b :: data) (k (.error .interrupted)))
      (hfails : ∀ e, e ≠ .interrupted → after (k (.error e))) :
      Says after (n + 1) (b :: data) (.call (.write 2 (b :: data)) k)
  | givenUp {data : Bytes} {p : Program α} (h : after p) : Says after 0 data p

theorem Says.bind {after : Program α → Prop} {after' : Program β → Prop} {p : Program α}
    {g : α → Program β} (h : Says after n data p) (hg : ∀ p, after p → after' (p.bind g)) :
    Says after' n data (p.bind g) := by
  induction h with
  | said h => exact .said (hg _ h)
  | writes _ _ hfails ihok ihagain => exact .writes ihok ihagain fun e he => hg _ (hfails e he)
  | givenUp h => exact .givenUp (hg _ h)

theorem Says.mono {after after' : Program α → Prop} {p : Program α} (h : Says after n data p)
    (hafter : ∀ p, after p → after' p) : Says after' n data p := by
  rw [← Program.bind_done p]
  apply h.bind
  intro p hp
  rw [Program.bind_done]
  exact hafter p hp

/-- A message that is written at once. -/
theorem Says.comes {p : Program α} {r : α} {b : UInt8} (h : Says (· = .done r) (n + 2) (b :: data) p) :
    p.Comes [⟨.write 2 (b :: data), .ok (b :: data).length⟩] (.done r) := by
  cases h with
  | writes hok _ _ =>
      have hwritten := hok (b :: data).length
      rw [List.drop_length] at hwritten
      cases hwritten with
      | said hr =>
          apply Reaches.step
          rw [hr]
          exact .here _

theorem says_writeErr {after : Program (Except Stop α × Shell) → Prop} (message : Text)
    {g : Except Stop Unit → ShellM α} (hg : ∀ r, after ((g r).startedIn s)) :
    Says after roundLimit (Text.encode message) ((attempt (writeErr message) >>= g).startedIn s) := by
  rw [startedIn_attempt_bind]
  unfold writeErr write writeBytes iterate
  generalize Text.encode message = data
  induction roundLimit generalizing data with
  | zero => exact .givenUp (hg _)
  | succ n ih =>
      cases data with
      | nil => exact .said (hg _)
      | cons b data =>
          apply Says.writes
          · exact fun m => ih ((b :: data).drop m)
          · exact ih (b :: data)
          · intro e he
            show after (((if e = .interrupted then return .inl (b :: data)
              else fail (.inputOutput e) : ShellM (Bytes ⊕ Unit)).startedIn s).bind _ |>.bind _)
            rw [if_neg he]
            exact hg _

theorem says_quietly {after : Program (Except Stop α × Shell) → Prop} (message : Text)
    {g : Unit → ShellM α} (hg : after ((g ()).startedIn s)) :
    Says after roundLimit (Text.encode message) ((quietly (writeErr message) >>= g).startedIn s) := by
  unfold quietly
  rw [bind_assoc]
  exact says_writeErr message fun _ => hg

theorem says_report {after : Program (Except Stop α × Shell) → Prop} (what : Text)
    {g : Unit → ShellM α} (hg : after ((g ()).startedIn s)) :
    Says after roundLimit (Text.encode (s.complaint what)) ((report what >>= g).startedIn s) := by
  unfold report
  rw [bind_assoc, startedIn_get_bind]
  exact says_quietly (s.complaint what) hg

theorem says_reportStop {after : Program (Except Stop α × Shell) → Prop} (he : e.isJump = false)
    {g : Unit → ShellM α} (hg : after ((g ()).startedIn s)) :
    Says after roundLimit (Text.encode (e.complaint s)) ((reportStop e >>= g).startedIn s) := by
  unfold reportStop
  rw [if_neg (ne_true_of_eq_false he), bind_assoc, startedIn_get_bind]
  exact says_quietly (e.complaint s) hg

instance unfailing_report (message : Text) : Unfailing (report message) := unfailing_bind

/-! ## Built-in commands that fail -/

/-- What is left of a built-in command that failed. -/
theorem runBuiltin_fails (b : Builtin) (name : Text) (args : List Text)
    (h : ((action ev b args).startedIn s).Comes es (.done (.error (.fault f line), v))) :
    ∃ q, Reaches ((runBuiltin ev b name args).startedIn s) es q ∧
      Says (· = .done (if b.isSpecial && !v.isInteractive then .error (.jump (.exit f.status)) else .ok (),
        { v with status := f.status })) roundLimit
        (Text.encode (v.complaint (name ++ ": " ++ f.message))) q := by
  refine ⟨_, reaches_attempt_bind h _, says_report _ ?_⟩
  show ((if b.isSpecial && !v.isInteractive then jump (.exit f.status) else pure () :
    ShellM Unit).startedIn { v with status := f.status }) = _
  split
  · rfl
  · rfl

/-- What a built-in command complains about by itself is no error. -/
theorem runBuiltin_succeeds (b : Builtin) (name : Text) (args : List Text)
    (h : ((action ev b args).startedIn s).Comes es (.done (.ok (), v))) :
    ((runBuiltin ev b name args).startedIn s).Comes es (.done (.ok (), v)) :=
  reaches_attempt_bind h _

/-- What `exec` does first: it looks for its command, and applies redirections. -/
def prepareExec (ev : Evaluator) (args : List Text) (redirects : List Redirect) : ShellM Unit := do
  match args with
  | [] => applyRedirects ev false redirects
  | command :: _ =>
    let _ ← resolvePath command
    applyRedirects ev false redirects

theorem says_failExec (e : Stop) (code : Int) (hv : v.isInteractive = false) :
    Says (· = .done (.error (.jump (.exit code)), { v with status := code })) roundLimit
      (Text.encode (v.complaint ("exec: " ++ e.message))) ((failExec e code).startedIn v) := by
  apply says_report
  show ((if !v.isInteractive then jump (.exit code) else pure () :
    ShellM Unit).startedIn { v with status := code }) = _
  rw [hv]
  rfl

/-- What is left of an `exec` that failed. -/
theorem runExec_fails {args : List Text} {redirects : List Redirect} (assigned : List (Text × Text))
    (h : ((prepareExec ev args redirects).startedIn s).Comes es (.done (.error (.fault f line), v)))
    (hv : v.isInteractive = false) :
    ∃ code q, 0 < code ∧ code < 128 ∧
      Reaches ((runExec ev args assigned redirects).startedIn s) es q ∧
      Says (· = .done (.error (.jump (.exit code)), { v with status := code })) roundLimit
        (Text.encode (v.complaint ("exec: " ++ f.message))) q := by
  cases args with
  | nil =>
      exact ⟨1, _, by decide, by decide, reaches_attempt_bind h _, says_failExec (.fault f line) 1 hv⟩
  | cons command args =>
      obtain ⟨es₁, es₂, ⟨r, t⟩, rfl, h₁, h₂⟩ := Comes.of_bind h
      cases r with
      | error e =>
          cases h₂
          -- the command was not found, which has a status of its own
          refine ⟨f.status, _, f.status_bounds.1, f.status_bounds.2, ?_,
            says_failExec (.fault f line) f.status hv⟩
          rw [List.append_nil]
          exact reaches_attempt_bind h₁ _
      | ok path =>
          -- it was found, so that a redirection failed
          refine ⟨1, _, by decide, by decide, ?_, says_failExec (.fault f line) 1 hv⟩
          exact (reaches_attempt_bind h₁ _).trans (reaches_attempt_bind h₂ _)

/-- An `exec` that `command` runs. -/
theorem command_exec_fails {ev' : Evaluator} {name : Text} {args operands : List Text} (caller : Text)
    (hargs : Builtin.takeOptions "vV" args = .ok ([], name :: operands))
    (hcommand : ev.command (name :: operands) = runExec ev' operands [] [])
    (h : ((prepareExec ev' operands []).startedIn s).Comes es (.done (.error (.fault f line), v)))
    (hv : v.isInteractive = false) :
    ∃ code q, 0 < code ∧ code < 128 ∧
      Reaches ((runBuiltin ev .command caller args).startedIn s) es q ∧
      Says (· = .done (.error (.jump (.exit code)), { v with status := code })) roundLimit
        (Text.encode (v.complaint ("exec: " ++ f.message))) q := by
  obtain ⟨code, q, hpos, hlt, hq, hreport⟩ := runExec_fails [] h hv
  have haction : action ev .command args = runExec ev' operands [] [] := by
    show runCommand ev args = _
    unfold runCommand
    rw [hargs, ← hcommand]
    rfl
  unfold runBuiltin
  rw [haction, startedIn_attempt_bind]
  refine ⟨code, _, hpos, hlt, hq.bind _, hreport.bind ?_⟩
  rintro _ rfl
  rfl

/-! ## Simple commands that call built-in ones -/

/-- What a simple command does before the command runs that its words name. -/
def readWords (ev : Evaluator) (line : Nat) (assigns words : List Word) :
    ShellM (List Text × List (Text × Text)) := do
  modify fun sh => { sh with line := line, substitutionStatus := none }
  let args ← arguments ev words
  let assigned ← assignments ev assigns
  trace assigned args
  return (args, assigned)

/-- A run of a simple command came to a built-in one, with its arguments, the assignments before it and
its redirections. -/
structure CallsBuiltin (ev : Evaluator) (node : Node) (s : Shell) (es : List Event) (b : Builtin)
    (name : Text) (args : List Text) (assigned : List (Text × Text)) (redirects : List Redirect)
    (t : Shell) : Prop where
  command : ∃ assigns words, node.command = .simple assigns words redirects ∧
    ((readWords ev node.line assigns words).startedIn s).Comes es
      (.done (.ok (name :: args, assigned), t))
  noSlash : name.contains '/' = false
  noFunction : t.definitions.functions.get? name = none
  builtin : Builtin.ofName? name = some b

theorem runArguments_builtin {functions : Table Node} {name : Text} {b : Builtin}
    (hslash : name.contains '/' = false) (hfunction : functions.get? name = none)
    (hb : Builtin.ofName? name = some b) (args : List Text) (assigned : List (Text × Text))
    (redirects : List Redirect) (place : Place) :
    runArguments ev functions (name :: args) assigned redirects place =
      callBuiltin ev b name args assigned redirects := by
  unfold runArguments
  dsimp only
  rw [hslash, hfunction, hb]
  rfl

/-- What the run of the words came to, the command comes to, and it hands on how the built-in command
stops. -/
theorem CallsBuiltin.reaches {node : Node} {b : Builtin} {name : Text} {args : List Text}
    {assigned : List (Text × Text)} {redirects : List Redirect}
    (h : CallsBuiltin ev node s es b name args assigned redirects t) (place : Place) :
    ∃ g : Except Stop Unit × Shell → Program (Except Stop Unit × Shell),
      (∀ e u, g (.error e, u) = .done (.error e, u)) ∧
      Reaches ((runNode ev node place).startedIn s) es
        (((callBuiltin ev b name args assigned redirects).startedIn t).bind g) := by
  obtain ⟨⟨assigns, words, hnode, hwords⟩, hslash, hfunction, hb⟩ := h
  let begun : Shell := { s with line := node.line, substitutionStatus := none }
  have hwords : ((do
      let args ← arguments ev words
      let assigned ← assignments ev assigns
      trace assigned args
      return (args, assigned) : ShellM (List Text × List (Text × Text))).startedIn begun).Comes es
        (.done (.ok (name :: args, assigned), t)) := hwords
  obtain ⟨es₁, _, ⟨r₁, t₁⟩, rfl, hargs, hwords⟩ := Comes.of_bind hwords
  cases r₁ with
  | error e => cases hwords
  | ok args' =>
      obtain ⟨es₂, _, ⟨r₂, t₂⟩, rfl, hassigns, hwords⟩ := Comes.of_bind hwords
      cases r₂ with
      | error e => cases hwords
      | ok assigned' =>
          obtain ⟨es₃, _, ⟨r₃, t₃⟩, rfl, htrace, hwords⟩ := Comes.of_bind hwords
          cases r₃ with
          | error e => cases hwords
          | ok u =>
              cases hwords
              -- the words, the assignments and the trace come one after the other, each without an error
              have hsimple : Reaches ((runSimple ev assigns words redirects place).startedIn
                  { s with line := node.line }) (es₁ ++ (es₂ ++ (es₃ ++ [])))
                  ((callBuiltin ev b name args assigned redirects).startedIn t) := by
                rw [← runArguments_builtin hslash hfunction hb args assigned redirects place]
                exact (Reaches.bind hargs _).trans ((Reaches.bind hassigns _).trans
                  ((Reaches.bind htrace _).trans (.here _)))
              have hrun : runNode ev node place = (do
                  modify fun sh => { sh with line := node.line }
                  runSimple ev assigns words redirects place
                  runTraps ev
                  checkErrexit node place) := by
                unfold runNode runKind
                rw [hnode]
                simp only [bind_assoc]
              rw [hrun]
              refine ⟨_, ?_, hsimple.bind _⟩
              intro e u
              rfl

/-! ## Failing redirections -/

/-- Things are put back, and then comes what satisfies `after`. -/
inductive Tidies (after : Program α → Prop) : Program α → Prop where
  | tidied {p : Program α} (h : after p) : Tidies after p
  | tidies {c : Call} {k : Host.Reply c → Program α} (hc : c.tidies = true)
      (h : ∀ r, Tidies after (k r)) : Tidies after (.call c k)

theorem Tidies.bind {after : Program α → Prop} {after' : Program β → Prop} {p : Program α}
    {g : α → Program β} (h : Tidies after p) (hg : ∀ p, after p → after' (p.bind g)) :
    Tidies after' (p.bind g) := by
  induction h with
  | tidied h => exact .tidied (hg _ h)
  | tidies hc _ ih => exact .tidies hc ih

theorem tidies_closeSaved {after : Program (Except Stop α × Shell) → Prop} {g : Unit → ShellM α}
    (hg : after ((g ()).startedIn { s with saved := s.saved.tail })) :
    Tidies after ((closeSaved >>= g).startedIn s) := by
  show Tidies after ((closeSaved.startedIn s).bind _)
  have hasks := Tidy.closeSaved.asks s
  -- putting back does not fail, whatever the calls answer, and takes the first frame off
  have hok := (Tidy.closeSaved.unfailing.ok s).and (closeSaved_always (R := same id) s)
  generalize closeSaved.startedIn s = p at hasks hok
  induction p with
  | done r =>
      obtain ⟨r, t⟩ := r
      obtain ⟨⟨_, ⟨⟩⟩, ht⟩ := hok
      have ht : t = { s with saved := s.saved.tail } := ht
      subst ht
      exact .tidied hg
  | call c k ih => exact .tidies hasks.1 fun r => ih r (hasks.2 r) (hok r)

/-- After a message the shell goes on with a status. -/
def GoesOn (message : Text) (code : Int) (p : Program (Except Stop Unit × Shell)) : Prop :=
  Says (fun q => ∃ u, q = .done (.ok (), u) ∧ u.status = code) roundLimit (Text.encode message) p

/-- What is left of a command when a redirection of it failed. -/
theorem withRedirects_fails {redirects : List Redirect} (body : ShellM Unit)
    (h : ((applyRedirects ev true redirects).startedIn { s with saved := [] :: s.saved }).Comes es
      (.done (.error (.fault f line), v))) :
    ∃ q, Reaches ((withRedirects ev redirects body).startedIn s) es q ∧
      Tidies (GoesOn ((Stop.fault f line).complaint v) 1) q := by
  cases redirects with
  | nil => exact nomatch h
  | cons r rs =>
      refine ⟨_, reaches_attempt_bind h _, tidies_closeSaved ?_⟩
      have hreport : GoesOn ((Stop.fault f line).complaint v) 1 ((do
          reportStop (.fault f line)
          setStatus 1).startedIn { v with saved := v.saved.tail }) :=
        says_reportStop (s := { v with saved := v.saved.tail }) rfl ⟨_, rfl, rfl⟩
      exact hreport

/-- Assignments that hold as long as the command after them runs. -/
def openAssigned (assigned : List (Text × Text)) : ShellM Unit := do
  if assigned.isEmpty then return
  modifyVariables Variables.openFrame
  shadowAll assigned

theorem startedIn_withFrame (assigned : List (Text × Text)) (body : ShellM Unit) (s : Shell) :
    (do resume (← withFrame assigned body) : ShellM Unit).startedIn s =
      ((do shadowAll assigned; body : ShellM Unit).startedIn
        { s with «variables» := s.variables.openFrame }).bind fun r =>
          .done (r.1, { r.2 with «variables» := r.2.variables.closeFrame }) := by
  unfold withFrame
  -- the frame is closed after an error as after a value
  simp only [bind_assoc, pure_bind]
  show (attempt _ >>= _ : ShellM Unit).startedIn { s with «variables» := s.variables.openFrame } = _
  rw [startedIn_attempt_bind]
  refine congrArg _ (funext fun r => ?_)
  obtain ⟨_ | _, t⟩ := r
  · rfl
  · rfl

/-- A regular built-in command after assignments that hold for it alone. -/
theorem callBuiltin_eq {b : Builtin} (hb : b.isSpecial = false) (name : Text) (args : List Text)
    {assigned : List (Text × Text)} (hassigned : assigned.isEmpty = false) (redirects : List Redirect) :
    callBuiltin ev b name args assigned redirects =
      (do resume (← withFrame assigned (withRedirects ev redirects (ev.builtin b name args)))) := by
  have hexec : b ≠ .exec := by
    rintro rfl
    cases hb
  unfold callBuiltin
  rw [if_neg hexec, hb, hassigned]
  rfl

/-- What is left of a regular built-in command when a redirection of it failed. -/
theorem callBuiltin_fails {b : Builtin} (hb : b.isSpecial = false) (name : Text) (args : List Text)
    {assigned : List (Text × Text)} {redirects : List Redirect}
    (hassigned : (openAssigned assigned).startedIn s = .done (.ok (), t))
    (h : ((applyRedirects ev true redirects).startedIn { t with saved := [] :: t.saved }).Comes es
      (.done (.error (.fault f line), v))) :
    ∃ q, Reaches ((callBuiltin ev b name args assigned redirects).startedIn s) es q ∧
      Tidies (GoesOn ((Stop.fault f line).complaint v) 1) q := by
  obtain ⟨q, hq, htidies⟩ := withRedirects_fails (ev.builtin b name args) h
  cases assigned with
  | nil =>
      cases hassigned
      have hexec : b ≠ .exec := by
        rintro rfl
        cases hb
      unfold callBuiltin
      rw [if_neg hexec, hb]
      exact ⟨q, hq, htidies⟩
  | cons a assigned =>
      have hshadow : (shadowAll (a :: assigned)).startedIn
          { s with «variables» := s.variables.openFrame } = .done (.ok (), t) := hassigned
      -- the frame around the command changes neither the message nor the status
      rw [callBuiltin_eq hb name args rfl, startedIn_withFrame]
      refine ⟨_, Reaches.bind (q := q) ?_ _, htidies.bind fun p hp => hp.bind ?_⟩
      · show Reaches (((shadowAll (a :: assigned)).startedIn _).bind _) es q
        rw [hshadow]
        exact hq
      · rintro _ ⟨u, rfl, hu⟩
        exact ⟨_, rfl, hu⟩

/-! ## Refused assignments -/

theorem Variables.shadow_error {vs : Variables} {name : Text} (h : vs.shadow name = .error f) :
    f.stopClass = .execution := by
  unfold Variables.shadow at h
  split at h
  · cases h
    rfl
  · split at h
    · cases h
    · cases h

theorem Variables.assignWith_error {vs : Variables} {name : Text} {value : Option Text}
    {exported readOnly : Bool} (h : vs.assignWith name value exported readOnly = .error f) :
    f.stopClass = .execution := by
  unfold Variables.assignWith at h
  dsimp only at h
  split at h
  · cases h
    rfl
  · cases h

/-- A refused assignment before a command is an error of execution. -/
theorem shadowAll_refused (assigned : List (Text × Text)) (s : Shell) :
    ((shadowAll assigned).startedIn s).Always fun r =>
      ∀ e, r.1 = .error e → e.stopClass = .execution := by
  induction assigned generalizing s with
  | nil => exact fun e he => nomatch he
  | cons a assigned ih =>
      obtain ⟨name, value⟩ := a
      show (((updateVariables (·.shadow name)).startedIn s).bind _).Always _
      rw [Variables.startedIn_updateVariables]
      cases hshadow : s.variables.shadow name with
      | error f =>
          rintro e ⟨⟩
          exact Variables.shadow_error hshadow
      | ok vs =>
          show (((updateVariables (·.exportValue name value)).startedIn
            { s with «variables» := vs }).bind _).Always _
          rw [Variables.startedIn_updateVariables]
          cases hvalue : vs.exportValue name value with
          | error f =>
              rintro e ⟨⟩
              exact Variables.assignWith_error hvalue
          | ok vs =>
              exact ih _

/-- A regular built-in command is not run if an assignment before it is refused. -/
theorem callBuiltin_refused {b : Builtin} (hb : b.isSpecial = false) (name : Text) (args : List Text)
    {assigned : List (Text × Text)} (redirects : List Redirect)
    (h : (openAssigned assigned).startedIn s = .done (.error e, t)) :
    e.stopClass = .execution ∧
      (callBuiltin ev b name args assigned redirects).startedIn s =
        .done (.error e, { t with «variables» := t.variables.closeFrame }) := by
  cases assigned with
  | nil => exact nomatch h
  | cons a assigned =>
      have hshadow : (shadowAll (a :: assigned)).startedIn
          { s with «variables» := s.variables.openFrame } = .done (.error e, t) := h
      refine ⟨?_, ?_⟩
      · have hrefused := shadowAll_refused (a :: assigned) { s with «variables» := s.variables.openFrame }
        rw [hshadow] at hrefused
        exact hrefused e rfl
      · rw [callBuiltin_eq hb name args rfl, startedIn_withFrame]
        show (((shadowAll (a :: assigned)).startedIn _).bind _).bind _ = _
        rw [hshadow]
        rfl

/-- An error of execution has a status that is not zero. -/
theorem Stop.status_bounds (he : e.stopClass = .execution) : 0 < e.status ∧ e.status < 128 := by
  cases e with
  | fault f line => exact f.status_bounds
  | jump j => cases he

/-- A simple command hands the error on. -/
theorem runNode_refused {node : Node} {b : Builtin} {name : Text} {args : List Text}
    {assigned : List (Text × Text)} {redirects : List Redirect}
    (hcalls : CallsBuiltin ev node s es b name args assigned redirects t) (hb : b.isSpecial = false)
    (h : (openAssigned assigned).startedIn t = .done (.error e, u)) (place : Place) :
    e.stopClass = .execution ∧ ((runNode ev node place).startedIn s).Comes es
      (.done (.error e, { u with «variables» := u.variables.closeFrame })) := by
  obtain ⟨hclass, hcall⟩ : e.stopClass = .execution ∧
      (callBuiltin ev b name args assigned redirects).startedIn t =
        .done (.error e, { u with «variables» := u.variables.closeFrame }) :=
    callBuiltin_refused hb name args redirects h
  obtain ⟨g, hg, hreach⟩ := hcalls.reaches place
  rw [hcall] at hreach
  refine ⟨hclass, ?_⟩
  show Reaches _ es _
  rw [← hg]
  exact hreach

/-! ## The command loop -/

theorem takeStop_tells (top : Bool) (he : e.stopClass = .execution) (v : Shell) :
    Says (· = .done (.ok (), { v with status := e.status })) roundLimit (Text.encode (e.complaint v))
      ((takeStop top e).startedIn v) := by
  have hjump : e.isJump = false := by
    cases e with
    | fault f line => rfl
    | jump j => cases he
  unfold takeStop
  rw [he]
  exact says_reportStop hjump rfl

/-- Reads the next command of a script. -/
def nextCommand (ev : Evaluator) (top : Bool) (src : ScriptSource) :
    ShellM (Except Stop Script.Parsed × ScriptSource) := do
  if top then checkpoint ev
  let src := refreshSource (← get) src
  let (result, input) ← readCommand src
  let input ← showLines input
  return (result, { src with input })

/-- Runs a command that was read, if there is one. -/
def runNext (ev : Evaluator) (top : Bool) (read : Except Stop Script.Parsed × ScriptSource) :
    ShellM (ScriptSource ⊕ Unit) := do
  match read.1 with
  | .ok .done => return .inr ()
  | .ok .empty => return .inl read.2
  | .ok (.command node) =>
    runRead ev top node
    return .inl read.2
  | .error e =>
    takeStop top e
    return if top then .inl { read.2 with input := read.2.input.discardLine } else .inr ()

theorem sourceStep_split (ev : Evaluator) (top : Bool) (src : ScriptSource) :
    sourceStep ev top src = nextCommand ev top src >>= runNext ev top := by
  have hread : sourceStep ev top src = (do
      if top then checkpoint ev
      let src := refreshSource (← get) src
      let (result, input) ← readCommand src
      let input ← showLines input
      runNext ev top (result, { src with input })) := rfl
  rw [hread]
  unfold nextCommand
  cases top with
  | true => simp only [if_true, bind_assoc, pure_bind]
  | false => simp only [Bool.false_eq_true, if_false, bind_assoc, pure_bind]

/-- A command that fails is handed to the loop that read it. -/
theorem runRead_fails {node : Node} (top : Bool) (hrun : t.has .noexec = false)
    (h : ((ev.node node {}).startedIn t).Comes es (.done (.error e, v))) :
    Reaches ((runRead ev top node).startedIn t) es ((takeStop top e).startedIn v) := by
  unfold runRead
  show Reaches ((if t.has .noexec && !t.isInteractive then pure () else _ : ShellM Unit).startedIn t) es _
  rw [hrun]
  exact reaches_attempt_bind h _

/-- What is left of a command line that failed: the next one is read. -/
theorem sourceStep_fails {top : Bool} {src src' : ScriptSource} {node : Node} (n : Nat)
    (hnext : ((nextCommand ev top src).startedIn s).Comes es
      (.done (.ok (.ok (.command node), src'), t)))
    (hrun : t.has .noexec = false) (h : ((ev.node node {}).startedIn t).Comes es' (.done (.error e, v)))
    (he : e.stopClass = .execution) :
    ∃ q, Reaches ((iterateFor (sourceStep ev top) (n + 1) src).startedIn s) (es ++ es') q ∧
      Says (· = (iterateFor (sourceStep ev top) n src').startedIn { v with status := e.status })
        roundLimit (Text.encode (e.complaint v)) q := by
  -- the step up to the error, and the loop's report of it
  have hstep : Reaches ((sourceStep ev top src).startedIn s) (es ++ es')
      ((takeStop top e >>= fun _ => pure (.inl src')).startedIn v) := by
    rw [sourceStep_split]
    exact (Reaches.bind hnext _).trans ((runRead_fails top hrun h).bind _)
  have htaken : Says (· = .done (.ok (.inl src'), { v with status := e.status })) roundLimit
      (Text.encode (e.complaint v)) ((do
        takeStop top e
        pure (.inl src') : ShellM (ScriptSource ⊕ Unit)).startedIn v) := by
    apply (takeStop_tells top he v).bind
    rintro _ rfl
    rfl
  refine ⟨_, hstep.bind _, htaken.bind ?_⟩
  rintro _ rfl
  rfl

/-- A child reports the error that it came to. -/
theorem exitChild_tells (ev : Evaluator) (he : e.isJump = false) (v : Shell) :
    Says (· = (exitShell ev e.status : ShellM α).startedIn v) roundLimit (Text.encode (e.complaint v))
      ((exitChild ev (.error e) : ShellM α).startedIn v) := by
  cases e with
  | jump j => cases he
  | fault f line =>
      have hchild : (exitChild ev (.error (.fault f line)) : ShellM α) = (do
          reportStop (.fault f line)
          exitShell ev (Stop.fault f line).status) := by
        unfold exitChild childStatus
        rw [bind_assoc]
        rfl
      rw [hchild]
      exact says_reportStop rfl rfl

/-! ## Complaints -/

/-- A condition that there is not is complained about. -/
theorem setTraps_tells (what : Option TrapAction) (status : Int) {condition : Text}
    (hbad : Signal.numberOf? condition = none) (rest : List Text) :
    Says (· = (setTraps what 1 rest).startedIn s) roundLimit
      (Text.encode (s.complaint ("trap: " ++ condition ++ ": bad trap")))
      ((setTraps what status (condition :: rest)).startedIn s) := by
  have hreport : setTraps what status (condition :: rest) = (do
      report ("trap: " ++ condition ++ ": bad trap")
      setTraps what 1 rest) := by
    rw [setTraps, hbad]
  rw [hreport]
  exact says_report _ rfl

/-- Setting traps does not fail, and the status tells whether there are all of the conditions. -/
theorem setTraps_always (what : Option TrapAction) (status : Int) (conditions : List Text) (s : Shell) :
    ((setTraps what status conditions).startedIn s).Always fun r =>
      r.1 = .ok (if conditions.all fun c => (Signal.numberOf? c).isSome then status else 1) := by
  have htrap : ∀ number, Unfailing (setTrap number what) := by
    intro number
    unfold setTrap
    refine @unfailing_bind _ _ _ _ _ fun sh => ?_
    split
    · infer_instance
    · refine @unfailing_bind _ _ _ _ _ fun _ => ?_
      split
      · infer_instance
      · infer_instance
  -- the status is 1 from the first bad condition on
  induction conditions generalizing status s with
  | nil => exact rfl
  | cons condition rest ih =>
      rw [setTraps]
      cases hc : Signal.numberOf? condition with
      | none =>
          apply always_unfailing_bind (P := fun _ => True) (Program.always_of (fun _ => trivial) _)
          intro _ t _
          apply (ih 1 t).mono
          rintro ⟨r, u⟩ hr
          simp only [ite_self] at hr
          simp [hc, hr]
      | some number =>
          apply always_unfailing_bind (P := fun _ => True) (Program.always_of (fun _ => trivial) _)
          intro _ t _
          apply (ih status t).mono
          rintro ⟨r, u⟩ hr
          simpa [hc] using hr

/-! ## From a command to the shell -/

/-- In a hurry a command that comes to a stop leaves. -/
theorem leavingAt_leaves {x : ShellM Unit} {m : Int} (h : (x.startedIn s).Comes es (.done (.error e, v)))
    (hK : K.status? S e v = some m) : ∃ k, Reaches ((leavingAt K S x).startedIn s) es (.call (.exit m) k) := by
  have hreach : Reaches ((leavingAt K S x).startedIn s) es
      ((leaveInstead e (K.status? S e v)).startedIn v) := reaches_attempt_bind h _
  rw [hK] at hreach
  exact ⟨_, hreach⟩

theorem Haste.status?_only {P : Shell → Bool} (hS : S.covers e = true) (he : e.levels? = none)
    (hP : P v = true) (m : Int) : (Haste.only e P m).status? S e v = some m := by
  unfold Haste.status? Haste.only
  rw [hS, he, hP]
  simp

/-- A run in a hurry that comes to a command which stops there ends there. -/
theorem ComesToStop.intro {X : Evaluator → ShellM α} {depth : Nat} {P : Shell → Bool}
    {x : Haste → ShellM Unit} (hS : S.covers e = true) (he : e.levels? = none) (hP : P v = true)
    (hreach : ∀ m, ∃ g, Reaches ((X (hastyOf (.only e P m) depth)).startedIn s) es
      (((leavingAt (.only e P m) S (x (.only e P m))).startedIn t).bind g))
    (hx : ∀ m, ((x (.only e P m)).startedIn t).Comes es' (.done (.error e, v))) :
    ComesToStop X depth s (es ++ es') e := by
  refine ⟨P, fun m => ?_⟩
  obtain ⟨g, hg⟩ := hreach m
  obtain ⟨k, hk⟩ := leavingAt_leaves (hx m) (Haste.status?_only hS he hP m)
  exact ⟨_, hg.trans (hk.bind g)⟩

theorem Span.all_covers (he : e.stopClass = .execution) : Span.all.covers e = true := by
  cases e with
  | jump j => cases he
  | fault f line =>
      have hclass : f.stopClass = .execution := he
      simp [Span.covers, hclass]

/-- What becomes of the errors of built-in commands. -/
structure TellsOfErrors (ev : Evaluator) : Prop where
  /-- An error is reported under the name of the command and becomes its status. A special command ends a
  shell that is not interactive, after any other one the shell goes on. -/
  reported : ∀ (b : Builtin) (name : Text) (args : List Text) (s v : Shell) (es : List Event) (f : Fault)
      (line : Option Nat), ((action ev b args).startedIn s).Comes es (.done (.error (.fault f line), v)) →
    0 < f.status ∧ f.status < 128 ∧ ∃ q, Reaches ((runBuiltin ev b name args).startedIn s) es q ∧
      Says (· = .done (if b.isSpecial && !v.isInteractive then .error (.jump (.exit f.status)) else .ok (),
        { v with status := f.status })) roundLimit
        (Text.encode (v.complaint (name ++ ": " ++ f.message))) q
  /-- An `exec` that does not find its command, or cannot redirect, ends a shell that is not interactive. -/
  exec : ∀ (node : Node) (place : Place) (name : Text) (args : List Text) (assigned : List (Text × Text))
      (redirects : List Redirect) (s t v : Shell) (es es' : List Event) (f : Fault) (line : Option Nat),
    CallsBuiltin ev node s es .exec name args assigned redirects t →
    ((prepareExec ev args redirects).startedIn t).Comes es' (.done (.error (.fault f line), v)) →
    v.isInteractive = false →
    ∃ code q, 0 < code ∧ code < 128 ∧ Reaches ((runNode ev node place).startedIn s) (es ++ es') q ∧
      Says (· = .done (.error (.jump (.exit code)), { v with status := code })) roundLimit
        (Text.encode (v.complaint ("exec: " ++ f.message))) q
  /-- So does one that `command` runs. -/
  commandExec : ∀ (ev' : Evaluator) (caller name : Text) (args operands : List Text) (s v : Shell)
      (es : List Event) (f : Fault) (line : Option Nat),
    Builtin.takeOptions "vV" args = .ok ([], name :: operands) →
    ev.command (name :: operands) = runArguments ev' .empty (name :: operands) [] [] {} →
    name.contains '/' = false → Builtin.ofName? name = some .exec →
    ((prepareExec ev' operands []).startedIn s).Comes es (.done (.error (.fault f line), v)) →
    v.isInteractive = false →
    ∃ code q, 0 < code ∧ code < 128 ∧
      Reaches ((runBuiltin ev .command caller args).startedIn s) es q ∧
      Says (· = .done (.error (.jump (.exit code)), { v with status := code })) roundLimit
        (Text.encode (v.complaint ("exec: " ++ f.message))) q
  /-- After a redirection that failed, descriptors are put back and this is reported. If the command is a
  regular one, its assignments end with it. -/
  redirection : ∀ (b : Builtin) (name : Text) (args : List Text) (assigned : List (Text × Text))
      (redirects : List Redirect) (s t v : Shell) (es : List Event) (f : Fault) (line : Option Nat),
    b.isSpecial = false → (openAssigned assigned).startedIn s = .done (.ok (), t) →
    ((applyRedirects ev true redirects).startedIn { t with saved := [] :: t.saved }).Comes es
      (.done (.error (.fault f line), v)) →
    ∃ q, Reaches ((callBuiltin ev b name args assigned redirects).startedIn s) es q ∧
      Tidies (GoesOn ((Stop.fault f line).complaint v) 1) q
  /-- If an assignment before a regular command is refused, that is the error of the simple command. -/
  assignment : ∀ (node : Node) (place : Place) (b : Builtin) (name : Text) (args : List Text)
      (assigned : List (Text × Text)) (redirects : List Redirect) (s t u : Shell) (es : List Event)
      (e : Stop), b.isSpecial = false → CallsBuiltin ev node s es b name args assigned redirects t →
    (openAssigned assigned).startedIn t = .done (.error e, u) →
    e.stopClass = .execution ∧ 0 < e.status ∧ ((runNode ev node place).startedIn s).Comes es
      (.done (.error e, { u with «variables» := u.variables.closeFrame }))
  /-- The loop that reads commands reports such an error, and reads the next command. -/
  commandLoop : ∀ (top : Bool) (n : Nat) (src src' : ScriptSource) (node : Node) (s t v : Shell)
      (es es' : List Event) (e : Stop),
    ((nextCommand ev top src).startedIn s).Comes es (.done (.ok (.ok (.command node), src'), t)) →
    t.has .noexec = false → ((ev.node node {}).startedIn t).Comes es' (.done (.error e, v)) →
    e.stopClass = .execution →
    ∃ q, Reaches ((iterateFor (sourceStep ev top) (n + 1) src).startedIn s) (es ++ es') q ∧
      Says (· = (iterateFor (sourceStep ev top) n src').startedIn { v with status := e.status })
        roundLimit (Text.encode (e.complaint v)) q
  /-- What a command complains about by itself does not make it fail. -/
  complaint : ∀ (b : Builtin) (name : Text) (args : List Text) (s v : Shell) (es : List Event),
    ((action ev b args).startedIn s).Comes es (.done (.ok (), v)) →
    ((runBuiltin ev b name args).startedIn s).Comes es (.done (.ok (), v))

theorem tellsOfErrors (ev : Evaluator) : TellsOfErrors ev where
  reported b name args s v es f line h := ⟨f.status_bounds.1, f.status_bounds.2, runBuiltin_fails b name args h⟩
  exec node place name args assigned redirects s t v es es' f line hcalls h hv := by
    obtain ⟨code, q, hpos, hlt, hq, hreport⟩ := runExec_fails assigned h hv
    obtain ⟨g, hg, hreach⟩ := hcalls.reaches place
    refine ⟨code, q.bind g, hpos, hlt, hreach.trans (hq.bind g), hreport.bind ?_⟩
    rintro _ rfl
    exact hg _ _
  commandExec ev' caller name args operands s v es f line hargs hcommand hslash hb h hv := by
    rw [runArguments_builtin hslash rfl hb] at hcommand
    exact command_exec_fails caller hargs hcommand h hv
  redirection b name args assigned redirects s t v es f line hb := callBuiltin_fails hb name args
  assignment node place b name args assigned redirects s t u es e hb hcalls h := by
    obtain ⟨hclass, hrun⟩ := runNode_refused hcalls hb h place
    exact ⟨hclass, (Stop.status_bounds hclass).1, hrun⟩
  commandLoop top n src src' node s t v es es' e hnext hrun h he := sourceStep_fails n hnext hrun h he
  complaint b name args s v es h := runBuiltin_succeeds b name args h

/-- In a shell, wherever a command comes to an `exit` or to an error of execution, nothing is left but to
tidy up, and to end or to report the error. This is so because a shell in a hurry makes the same calls up
to there. A special built-in command that fails comes to an `exit` after it reported this. A regular one
reports it and the shell goes on, also when a redirection failed. A refused assignment before it is an
error of the command line: the loop that reads commands reports it and reads the next one. What a command
complains about by itself, such as the conditions of `trap`, only sets the status. -/
theorem builtin_errors :
    (∀ (K : Haste) (depth : Nat) (name : Text) (line : Startup.CommandLine),
      Cuts K .none (Startup.runCommandLine (evaluatorOf depth) name line : ShellM Empty)
        (Startup.runCommandLine (hastyOf K depth) name line)) ∧
    (∀ (α : Type) (X : Evaluator → ShellM α) (T : Span) (depth : Nat) (s : Shell) (es : List Event)
        (e : Stop), (∀ K, Cuts K T (X (evaluatorOf depth)) (X (hastyOf K depth))) →
      ComesToStop X depth s es e →
      ∃ p, Reaches ((X (evaluatorOf depth)).startedIn s) es p ∧ Exiting T e p) ∧
    (∀ (α : Type) (X : Evaluator → ShellM α) (depth inner : Nat) (node : Node) (place : Place)
        (P : Shell → Bool) (s t v : Shell) (es es' : List Event) (e : Stop),
      (∃ code, e = .jump (.exit code)) ∨ e.stopClass = .execution → P v = true →
      (∀ m, ∃ g, Reaches ((X (hastyOf (.only e P m) depth)).startedIn s) es
        ((((hastyOf (.only e P m) (inner + 1)).node node place).startedIn t).bind g)) →
      (∀ m, ((runNode (hastyOf (.only e P m) inner) node place).startedIn t).Comes es'
        (.done (.error e, v))) →
      ComesToStop X depth s (es ++ es') e) ∧
    (∀ (α : Type) (X : Evaluator → ShellM α) (depth inner : Nat) (b : Builtin) (name : Text)
        (args : List Text) (P : Shell → Bool) (s t v : Shell) (es es' : List Event) (code : Int),
      P v = true →
      (∀ m, ∃ g, Reaches ((X (hastyOf (.only (.jump (.exit code)) P m) depth)).startedIn s) es
        ((((hastyOf (.only (.jump (.exit code)) P m) (inner + 1)).builtin b name args).startedIn t).bind
          g)) →
      (∀ m, ((runBuiltin (hastyOf (.only (.jump (.exit code)) P m) inner) b name args).startedIn t).Comes
        es' (.done (.error (.jump (.exit code)), v))) →
      ComesToStop X depth s (es ++ es') (.jump (.exit code))) ∧
    (∀ ev, TellsOfErrors ev) ∧
    (∀ (top : Bool) (e : Stop) (v : Shell), e.stopClass = .execution →
      Says (· = .done (.ok (), { v with status := e.status })) roundLimit (Text.encode (e.complaint v))
        ((takeStop top e).startedIn v)) ∧
    (∀ (ev : Evaluator) (e : Stop) (v : Shell), e.stopClass = .execution →
      Says (· = (exitShell ev e.status : ShellM Empty).startedIn v) roundLimit
        (Text.encode (e.complaint v)) ((exitChild ev (.error e) : ShellM Empty).startedIn v)) ∧
    ∀ (what : Option TrapAction) (status : Int) (conditions : List Text) (s : Shell),
      ((setTraps what status conditions).startedIn s).Always (fun r =>
        r.1 = .ok (if conditions.all fun c => (Signal.numberOf? c).isSome then status else 1)) ∧
      ∀ (c : Text) (rest : List Text), conditions = c :: rest → Signal.numberOf? c = none →
        Says (· = (setTraps what 1 rest).startedIn s) roundLimit
          (Text.encode (s.complaint ("trap: " ++ c ++ ": bad trap")))
          ((setTraps what status conditions).startedIn s) := by
  refine ⟨cuts_runCommandLine, fun α X T depth s es e hX h => h.exiting hX, ?_, ?_, tellsOfErrors,
    fun top e v he => takeStop_tells top he v, ?_, ?_⟩
  · intro α X depth inner node place P s t v es es' e he hP hreach hrun
    have hlevels : e.levels? = none := by
      rcases he with ⟨code, rfl⟩ | he
      · rfl
      · cases e with
        | fault f line => rfl
        | jump j => cases he
    have hcovers : Span.all.covers e = true := by
      rcases he with ⟨code, rfl⟩ | he
      · rfl
      · exact Span.all_covers he
    exact .intro (x := fun K => runNode (hastyOf K inner) node place) hcovers hlevels hP hreach hrun
  · intro α X depth inner b name args P s t v es es' code hP hreach hrun
    exact .intro (S := .jumps) (x := fun K => runBuiltin (hastyOf K inner) b name args) rfl rfl hP hreach hrun
  · intro ev e v he
    apply exitChild_tells
    cases e with
    | fault f line => rfl
    | jump j => cases he
  · intro what status conditions s
    refine ⟨setTraps_always what status conditions s, ?_⟩
    rintro c rest rfl hc
    exact setTraps_tells what status hc rest

/-- A message that is written at once. -/
def messageEvent (t : Text) : Event := ⟨.write 2 (Text.encode t), .ok (Text.encode t).length⟩

/-- `shift 1` without parameters is reported, and ends a shell that is not interactive. -/
theorem builtin_errors_shift :
    ∃ p, Reaches (((evaluatorOf 1).builtin .shift "shift" ["1"]).startedIn {})
        [messageEvent "rash: 0: shift: can't shift that many\n"] p ∧
      Exiting .jumps (.jump (.exit 1)) p := by
  have hfails : ((runBuiltin (evaluatorOf 0) .shift "shift" ["1"]).startedIn {}).Comes
      [messageEvent "rash: 0: shift: can't shift that many\n"]
      (.done (.error (.jump (.exit 1)), { status := 1 })) := by
    obtain ⟨q, hq, hreport⟩ := (builtin_errors.2.2.2.2.1 (evaluatorOf 0)).reported .shift "shift" ["1"] {} {} []
      (.execution "can't shift that many") none (.here _) |>.2.2
    cases hq
    exact hreport.comes (n := 999999998)
  have hleft : ComesToStop (fun ev => ev.builtin .shift "shift" ["1"]) 1 {}
      [messageEvent "rash: 0: shift: can't shift that many\n"] (.jump (.exit 1)) :=
    builtin_errors.2.2.2.1 Unit (fun ev => ev.builtin .shift "shift" ["1"]) 1 0 .shift "shift" ["1"]
      (fun _ => true) {} {} { status := 1 } [] _ 1 rfl
      (fun m => ⟨.done, by rw [Program.bind_done]; exact .here _⟩) fun m => hfails
  exact builtin_errors.2.1 Unit (fun ev => ev.builtin .shift "shift" ["1"]) .jumps 1 {} _ _
    (fun K => (hastens_hastyOf K 1).builtin .shift "shift" ["1"]) hleft

/-- A run that is seen to come to a value, in a state that satisfies `f`. -/
theorem comes_ok_of_endsIn (x : ShellM Unit) (s : Shell) (es : List Event) (f : Shell → Bool)
    (h : (x.startedIn s).endsIn (fun p => p.1 == .ok () && f p.2) es = true) :
    ∃ t, (x.startedIn s).Comes es (.done (.ok (), t)) ∧ f t = true := by
  obtain ⟨⟨r, t⟩, hcomes, ht⟩ := Program.comes_of_endsIn h
  obtain ⟨hr, hf⟩ := Bool.and_eq_true_iff.mp ht
  obtain rfl : r = .ok () := eq_of_beq hr
  exact ⟨t, hcomes, hf⟩

/-- `trap` reports a condition that there is not, and the script goes on with the status 1. After a
refused assignment before a regular command, the rest of the line is not run, but the next line is. -/
theorem not_builtin_errors :
    (∃ es t, ((runSource (evaluatorOf 4) true (.ofText "trap x NOSUCH; y=$?")).startedIn {}).Comes es
      (.done (.ok (), t)) ∧ t.value? "y" = some "1") ∧
    ∃ es t, ((runSource (evaluatorOf 4) true
        (.ofText "readonly r=1\nr=2 true; y=$?\nz=$?")).startedIn {}).Comes es (.done (.ok (), t)) ∧
      t.value? "y" = none ∧ t.value? "z" = some "1" := by
  obtain ⟨t, htrap, hy⟩ := comes_ok_of_endsIn
    (runSource (evaluatorOf 4) true (.ofText "trap x NOSUCH; y=$?")) {}
    (betweenCommands ++ [messageEvent "rash: 1: trap: NOSUCH: bad trap\n", ⟨.takeArrived, false⟩,
      ⟨.takeArrived, false⟩] ++ betweenCommands)
    (fun t => t.value? "y" == some "1") (by decide +kernel)
  obtain ⟨u, hrefused, hu⟩ := comes_ok_of_endsIn
    (runSource (evaluatorOf 4) true (.ofText "readonly r=1\nr=2 true; y=$?\nz=$?")) {}
    (betweenCommands ++ [⟨.takeArrived, false⟩] ++ betweenCommands ++
      [messageEvent "rash: 2: r: is read only\n"] ++ betweenCommands ++ [⟨.takeArrived, false⟩] ++
      betweenCommands)
    (fun t => t.value? "y" == none && t.value? "z" == some "1") (by decide +kernel)
  obtain ⟨hu, hz⟩ := Bool.and_eq_true_iff.mp hu
  exact ⟨⟨_, t, htrap, eq_of_beq hy⟩, _, u, hrefused, eq_of_beq hu, eq_of_beq hz⟩

end Shell

end CommandShell
