import CommandShell.Execution.Evaluate
import CommandShell.Proofs.ChildStatus

/-!
# Waiting for the last command

A shell that has forked a child for its last command, and is not disturbed by signals, waits for the
child and takes its status (`confined_runForeground`), with which it ends (`EndsWith.confined`).
-/

namespace CommandShell

namespace Host.Program

variable {α β : Type}

/-- For as long as the answers satisfy `ok` a program makes only calls that satisfy `only`, and what
it comes to satisfies `P`. -/
inductive Confined (only : Call → Prop) (ok : Event → Prop) (P : α → Prop) : Program α → Prop
  | done {a : α} (h : P a) : Confined only ok P (.done a)
  | call {c : Call} {k : Reply c → Program α} (hc : only c)
    (hk : ∀ r, ok ⟨c, r⟩ → Confined only ok P (k r)) : Confined only ok P (.call c k)

variable {only : Call → Prop} {ok : Event → Prop} {P : α → Prop} {Q : β → Prop} {p : Program α}

theorem Confined.bind {f : α → Program β} (h : p.Confined only ok P)
    (hf : ∀ a, P a → (f a).Confined only ok Q) : (p.bind f).Confined only ok Q := by
  induction h with
  | done h => exact hf _ h
  | call hc _ ih => exact .call hc ih

theorem Confined.mono {P' : α → Prop} (h : p.Confined only ok P) (hP : ∀ a, P a → P' a) :
    p.Confined only ok P' := by
  induction h with
  | done h => exact .done (hP _ h)
  | call hc _ ih => exact .call hc ih

end Host.Program

namespace Shell

open Host (Call Event)
open Host.Program (Confined)

variable {α β : Type} {only : Call → Prop} {ok : Event → Prop} {s t : Shell}

theorem confined_pure {P : Except Stop α × Shell → Prop} {a : α} (h : P (.ok a, s)) :
    ((pure a : ShellM α).startedIn s).Confined only ok P := .done h

theorem confined_ask {c : Call} {P : Except Stop (Host.Reply c) × Shell → Prop} (hc : only c)
    (h : ∀ r, ok ⟨c, r⟩ → P (.ok r, s)) : ((ask c).startedIn s).Confined only ok P :=
  .call hc fun r hr => .done (h r hr)

/-- A sequence is confined when both of its parts are. -/
theorem confined_bind {x : ShellM α} {f : α → ShellM β} {P : Except Stop α × Shell → Prop}
    {Q : Except Stop β × Shell → Prop} (hx : (x.startedIn s).Confined only ok P)
    (hok : ∀ a t, P (.ok a, t) → ((f a).startedIn t).Confined only ok Q)
    (herror : ∀ e t, P (.error e, t) → Q (.error e, t)) :
    ((x >>= f).startedIn s).Confined only ok Q := by
  refine hx.bind ?_
  rintro ⟨r, t⟩ hr
  cases r with
  | ok a => exact hok a t hr
  | error e => exact .done (herror e t hr)

/-- What comes after a computation of which the outcome is known. -/
theorem confined_bind_eq {x : ShellM α} {f : α → ShellM β} {Q : Except Stop β × Shell → Prop}
    {a : α} (hx : (x.startedIn s).Confined only ok (· = (.ok a, t)))
    (hf : ((f a).startedIn t).Confined only ok Q) : ((x >>= f).startedIn s).Confined only ok Q := by
  refine confined_bind hx ?_ (by rintro _ _ ⟨⟩)
  rintro _ _ ⟨⟩
  exact hf

theorem confined_get_bind {f : Shell → ShellM α} {Q : Except Stop α × Shell → Prop}
    (h : ((f s).startedIn s).Confined only ok Q) : ((get >>= f).startedIn s).Confined only ok Q := h

theorem confined_attempt {x : ShellM α} {P : Except Stop (Except Stop α) × Shell → Prop}
    (h : (x.startedIn s).Confined only ok fun o => P (.ok o.1, o.2)) :
    ((attempt x).startedIn s).Confined only ok P :=
  h.bind fun _ ho => .done ho

theorem confined_modify {f : Shell → Shell} {P : Except Stop Unit × Shell → Prop}
    (h : P (.ok (), f s)) : ((modify f : ShellM Unit).startedIn s).Confined only ok P := .done h

/-- A loop leaves the state alone when each round does. -/
theorem confined_iterate {σ : Type} {step : σ → ShellM (σ ⊕ α)}
    (h : ∀ a, ((step a).startedIn s).Confined only ok fun o => o.2 = s) (a : σ) :
    ((iterate step a).startedIn s).Confined only ok fun o => o.2 = s := by
  have hrounds : ∀ n a, ((iterateFor step n a).startedIn s).Confined only ok fun o => o.2 = s := by
    intro n
    induction n with
    | zero => exact fun _ => .done rfl
    | succ n ih =>
        intro a
        refine confined_bind (h a) ?_ fun _ _ h => h
        rintro r _ rfl
        cases r with
        | inl a => exact ih a
        | inr b => exact confined_pure rfl
  exact hrounds roundLimit a

/-- What is written leaves the state alone, whether or not it can be written. -/
theorem confined_writeErr (text : Text) (honly : ∀ data, only (.write 2 data)) (s : Shell) :
    ((quietly (writeErr text)).startedIn s).Confined only ok fun o => o = (.ok (), s) := by
  have hwrite : ((writeErr text).startedIn s).Confined only ok fun o => o.2 = s := by
    unfold writeErr write writeBytes
    refine confined_iterate (fun rest => ?_) (Text.encode text)
    split
    · exact confined_pure rfl
    · refine confined_bind (confined_ask (P := fun o => o.2 = s) (honly rest) fun _ _ => rfl) ?_
        fun _ _ h => h
      rintro r _ rfl
      cases r with
      | ok n => exact confined_pure rfl
      | error e =>
          dsimp only
          split
          · exact confined_pure rfl
          · exact .done rfl
  refine confined_bind (P := fun o => ∃ r, o = (.ok r, s)) (confined_attempt (hwrite.mono ?_)) ?_ ?_
  · rintro ⟨r, _⟩ rfl
    exact ⟨r, rfl⟩
  · rintro _ _ ⟨r, ⟨⟩⟩
    exact confined_pure rfl
  · rintro _ _ ⟨r, ⟨⟩⟩

/-- What a shell calls that waits for a child and leaves. -/
def relays (pid : ProcessId) (code : Int) : Call → Prop
  | .setGroup .. | .write 2 _ | .takeArrived => True
  | .wait target noHang _ => target = some pid ∧ noHang = false
  | .exit n => n = code
  | _ => False

/-- The answers when the child ended with a status and no signal arrived. -/
def childEnded (pid : ProcessId) (status : ProcessStatus) : Event → Prop
  | ⟨.wait .., r⟩ => r = .ok (some (pid, status))
  | ⟨.takeArrived, r⟩ => r = false
  | _ => True

/-- A shell that ends without another word, as the `EXIT` trap is not set. -/
structure EndsWith (code : Int) (r : Except Stop Unit) (t : Shell) : Prop where
  code : exitCode r t = code
  silent : r = .ok () ∨ ∃ n, r = .error (.jump (.exit n))
  untrapped : t.traps.get? 0 = none

variable {pid : ProcessId} {status : ProcessStatus} {code : Int}

/-- Only what the shell waits for and says is called before it ends with the code. -/
theorem EndsWith.confined {r : Except Stop Unit} (h : EndsWith code r t) (ev : Evaluator) :
    ((exitChild ev r : ShellM α).startedIn t).Confined (relays pid code) (childEnded pid status)
      fun _ => False := by
  have hnone : (takeExitCommand t).1 = none := by
    unfold takeExitCommand
    split
    · rfl
    · unfold Traps.exitCommand?
      rw [h.untrapped]
  have hleave : ((exitShell ev (exitCode r t) : ShellM α).startedIn t).Confined (relays pid code)
      (childEnded pid status) fun _ => False := by
    unfold exitShell
    refine confined_bind (P := fun o => o.1 = .ok ()) ?_ (fun _ t _ => ?_) fun e t h => nomatch h
    · rw [startedIn_runExitTrap ev _ hnone]
      exact confined_pure rfl
    · exact .call h.code fun never => nomatch never
  rcases h.silent with rfl | ⟨n, rfl⟩
  · exact hleave
  · exact hleave

/-! ## The foreground -/

theorem foreground_record {js : Jobs} {job : Job} (hforeground : js.foreground = some job)
    (hpid : job.hasPid pid = true) (status : ProcessStatus) :
    (js.record pid status).1.foreground = some (job.record pid status) := by
  unfold Jobs.record
  rw [hforeground]
  dsimp only
  rw [if_pos hpid]

theorem record_single {job : Job} {command : Text} (h : job.processes = [{ pid, command }])
    (status : ProcessStatus) : job.hasPid pid = true ∧
      (job.record pid status).processes = [{ pid, command, status }] := by
  unfold Job.hasPid Job.record
  rw [h]
  constructor
  · simp
  · simp [Job.recordIn]

/-- The only process of a job is waited for until it ended. -/
theorem confined_waitForeground {job : Job} {command : Text} (untraced : Bool) (code : Int)
    (hforeground : s.jobs.foreground = some job)
    (hprocesses : job.processes = [{ pid, command }]) (hended : status.isDone = true) :
    ((waitForeground untraced).startedIn s).Confined (relays pid code) (childEnded pid status)
      fun o => o = (.ok (.ok ()), { s with jobs := (s.jobs.record pid status).1 }) := by
  have hrunning : runningProcess? job = some pid := by
    unfold runningProcess?
    rw [hprocesses]
    rfl
  obtain ⟨hpid, hrecorded⟩ := record_single hprocesses status
  have hnone : runningProcess? (job.record pid status) = none := by
    unfold runningProcess?
    rw [hrecorded]
    cases status <;> simp_all [ProcessStatus.isRunning, ProcessStatus.isDone]
  -- the first round waits, the second one finds that no process runs
  generalize ht : { s with jobs := (s.jobs.record pid status).1 } = t
  have hfirst : ((waitFor (some pid) false untraced).startedIn s).Confined (relays pid code)
      (childEnded pid status) (· = (.ok (.ok (some pid)), t)) := by
    refine .call ⟨rfl, rfl⟩ fun r hr => ?_
    obtain rfl : r = .ok (some (pid, status)) := hr
    exact .done (ht ▸ rfl)
  have hlast : t.jobs.foreground.bind runningProcess? = none := by
    rw [← ht]
    dsimp only
    rw [foreground_record hforeground hpid, Option.bind_some, hnone]
  unfold waitForeground iterate
  rw [show roundLimit = 999999998 + 2 from rfl]
  unfold iterateFor
  refine confined_bind_eq (a := .inl ()) (t := t) ?_ ?_
  · refine confined_get_bind ?_
    rw [hforeground, Option.bind_some, hrunning]
    exact confined_bind_eq hfirst (confined_pure rfl)
  · unfold iterateFor
    refine confined_bind_eq (a := .inr (.ok ())) (t := t) ?_ (confined_pure rfl)
    refine confined_get_bind ?_
    rw [hlast]
    exact confined_pure rfl

/-- A job of one process is waited for, and leaves its status behind. -/
theorem confined_runForeground {job : Job} {command : Text}
    (hprocesses : job.processes = [{ pid, command }]) (hended : status.isDone = true) (s : Shell) :
    ((runForeground job).startedIn s).Confined (relays pid code) (childEnded pid status) fun o =>
      o.1 = .ok () ∧ o.2.status = status.code ∧ o.2.traps = s.traps := by
  obtain ⟨hpid, hrecorded⟩ := record_single hprocesses status
  have hstopped : (job.record pid status).state ≠ .stopped := by
    unfold Job.state
    rw [hrecorded]
    simp [hended]
  have hstatus : (job.record pid status).status = status.code := by
    unfold Job.status
    rw [hrecorded]
    rfl
  generalize ht : { s with jobs := { s.jobs with foreground := some job } } = t
  have hforeground : t.jobs.foreground = some job := by rw [← ht]
  have hwait := confined_waitForeground (s.has .monitor) code hforeground hprocesses hended
  have hset : ((modifyJobs fun js => { js with foreground := some job }).startedIn s).Confined
      (relays pid code) (childEnded pid status) (· = (.ok (), t)) :=
    .done (congrArg (Prod.mk (Except.ok ())) ht)
  unfold runForeground
  refine confined_get_bind (confined_bind_eq hset (confined_bind_eq hwait (confined_get_bind ?_)))
  dsimp only
  rw [foreground_record hforeground hpid]
  refine confined_bind_eq (.done rfl) (confined_bind_eq (.done rfl) ?_)
  rw [if_neg hstopped, hrecorded]
  refine confined_get_bind (confined_bind_eq (confined_writeErr _ (fun _ => trivial) _) ?_)
  refine confined_modify ⟨rfl, hstatus, ?_⟩
  rw [← ht]

end Shell

end CommandShell
