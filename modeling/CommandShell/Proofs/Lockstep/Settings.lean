import CommandShell.Commands.Settings
import CommandShell.Proofs.Lockstep.State

/-!
# Lockstep of the set command

What `set` reads from its arguments acts on options in a way that does not depend on them. So two
shells whose options differ in `errexit` alone do so after `set` too, and what it writes differs
only if it lists the options.
-/

namespace CommandShell

theorem Options.set_set (os : Options) (o : ShellOption) (on on' : Bool) :
    (os.set o on).set o on' = os.set o on' := by
  show Options.mk _ = Options.mk _
  congr 1
  funext p
  by_cases hp : p = o
  · simp only [set, hp, if_true]
  · simp only [set, hp, if_false]

namespace Commands

/-! ## Reading the arguments of `set` -/

/-- Two outcomes that are the same error, or results related by `R`. -/
def Both {α : Type} (R : α → α → Prop) : Except Fault α → Except Fault α → Prop
  | .ok a, .ok b => R a b
  | .error e, .error f => e = f
  | _, _ => False

theorem Both.bind {α : Type} {R : α → α → Prop} {a b : Except Fault α}
    {f g : α → Except Fault α} (h : Both R a b) (hfg : ∀ x y, R x y → Both R (f x) (g y)) :
    Both R (a >>= f) (b >>= g) := by
  cases a with
  | ok x =>
      cases b with
      | ok y => exact hfg x y h
      | error e => exact h.elim
  | error e =>
      cases b with
      | ok y => exact h.elim
      | error f => exact h

/-- Settings that differ in nothing but options that are related by `R`. -/
structure Settings.Like (R : Options → Options → Prop) (a b : Settings) : Prop where
  options : R a.options b.options
  params : a.params = b.params
  listing : a.listing = b.listing

section

variable {R : Options → Options → Prop} {a b : Settings}

/-- Related options are related after the same option of both is set. -/
def SetsAlike (R : Options → Options → Prop) : Prop :=
  ∀ os os' o on, R os os' → R (os.set o on) (os'.set o on)

theorem Settings.Like.toggle (hR : SetsAlike R) (h : a.Like R b) (o : Option ShellOption)
    (on : Bool) (spelled : Text) :
    Both (Settings.Like R) (a.toggle o on spelled) (b.toggle o on spelled) := by
  unfold Settings.toggle
  cases o with
  | none => rfl
  | some o =>
      dsimp only
      split
      · exact ⟨hR _ _ o on h.options, h.params, h.listing⟩
      · rfl

theorem Settings.Like.cluster (hR : SetsAlike R) (sign : Char) (letters : Text)
    (h : a.Like R b) :
    Both (Settings.Like R) (a.cluster sign letters) (b.cluster sign letters) := by
  induction letters generalizing a b with
  | nil => exact h
  | cons c letters ih => exact (h.toggle hR _ _ _).bind fun x y hxy => ih hxy

theorem Settings.Like.read (hR : SetsAlike R) (h : a.Like R b) (args : List Text) :
    Both (Settings.Like R) (a.read args) (b.read args) := by
  induction hn : args.length using Nat.strongRecOn generalizing args a b with
  | _ n ih =>
      subst hn
      cases args with
      | nil => exact h
      | cons arg rest =>
          unfold Settings.read
          split
          · exact ⟨h.options, rfl, h.listing⟩
          · split
            · refine ⟨hR _ _ _ _ (hR _ _ _ _ h.options), ?_, h.listing⟩
              dsimp only
              rw [h.params]
            · split
              · cases arg with
                | nil => exact h
                | cons sign letters =>
                    dsimp only
                    split
                    · cases rest with
                      | nil => exact ⟨h.options, h.params, rfl⟩
                      | cons name rest =>
                          refine (h.toggle hR _ _ _).bind fun x y hxy => ih _ ?_ hxy rest rfl
                          simp only [List.length_cons]
                          omega
                    · refine (h.cluster hR _ _).bind fun x y hxy => ih _ ?_ hxy rest rfl
                      simp only [List.length_cons]
                      omega
              · exact ⟨h.options, rfl, h.listing⟩

end

/-- Whether the arguments of `set` ask for a listing of the options. -/
def listsOptions (args : List Text) : Bool :=
  match Settings.read { options := .none } args with
  | .ok settings => settings.listing.isSome
  | .error _ => false

theorem listing_of_not_listsOptions {args : List Text} {os : Options} {settings : Settings}
    (h : listsOptions args = false) (hr : Settings.read { options := os } args = .ok settings) :
    settings.listing = none := by
  have hboth := Settings.Like.read (R := fun _ _ => True) (fun _ _ _ _ _ => trivial)
    (a := { options := .none }) (b := { options := os }) ⟨trivial, rfl, rfl⟩ args
  unfold listsOptions at h
  rw [hr] at hboth
  cases hn : Settings.read { options := .none } args with
  | ok noOptions =>
      rw [hn] at hboth h
      have hnone : noOptions.listing = none := by
        cases hl : noOptions.listing with
        | none => rfl
        | some c =>
            have hsome : noOptions.listing.isSome = false := h
            rw [hl] at hsome
            cases hsome
      exact hboth.listing.symm.trans hnone
  | error e =>
      rw [hn] at hboth
      exact hboth.elim

/-- Options that differ in no more than `errexit`. -/
def SameButErrexit (os os' : Options) : Prop := ∃ on, os' = os.set .errexit on

theorem setsAlike_sameButErrexit : SetsAlike SameButErrexit := by
  rintro os _ o on ⟨b, rfl⟩
  by_cases ho : o = .errexit
  · subst ho
    exact ⟨on, by rw [Options.set_set, Options.set_set]⟩
  · exact ⟨b, (os.set_comm ho on b).symm⟩

end Commands

namespace Shell

open Commands
open Host.Program (Follows)

variable {L : Likeness} {ev ev' : Evaluator}

/-! ## Options -/

/-- The options may be set to these. -/
def Likeness.AdmitsOptions (L : Likeness) (os : CommandShell.Options) : Prop :=
  ∀ s : Shell, L.Holds s → L.Holds { s with options := os }

/-- The options may be set as the arguments of `set` say. -/
def Likeness.AdmitsSettings (L : Likeness) (args : List Text) : Prop :=
  ∀ s : Shell, L.Holds s → ∀ settings, Settings.read { options := s.options } args = .ok settings →
    L.AdmitsOptions settings.options

theorem Alike.setOptions {os os' : Options} (h : SameButErrexit os os') (hex : L.exact → os' = os)
    (hos : L.AdmitsOptions os) :
    Alike L (modify fun sh => { sh with options := os } : ShellM Unit)
      (modify fun sh => { sh with options := os' }) :=
  ⟨fun {s t} hst => by
    obtain ⟨hs, ⟨on, rfl⟩, heq⟩ := hst
    obtain ⟨on', rfl⟩ := h
    refine .done ⟨rfl, hos s hs, ⟨on', rfl⟩, fun hL => ?_⟩
    exact (congrArg (fun o => { s.withErrexit on with options := o }) (hex hL)).trans
      (congrArg (fun sh : Shell => { sh with options := os }) (heq hL))⟩

instance alike_findTerminal : Steady L findTerminal := by
  refine .bind inferInstance fun r => ?_
  cases r with
  | ok fd => infer_instance
  | error e => infer_instance

instance alike_setUpJobControl : Steady L setUpJobControl := by
  have hfound : ∀ fd, Steady L (modify fun sh => { sh with terminal := some fd }) :=
    fun fd => .modify (fun _ _ => rfl) fun _ h => h
  have hoff : Steady L (modify fun sh => { sh with options := sh.options.set .monitor false }) := by
    refine .modify (fun s on => ?_) fun _ h => h
    have hcomm : (s.options.set .errexit on).set .monitor false
        = (s.options.set .monitor false).set .errexit on := s.options.set_comm (by decide) on false
    exact congrArg (fun os => { s with options := os }) hcomm
  refine .bind inferInstance fun terminal => ?_
  cases terminal with
  | some fd => exact hfound fd
  | none => exact hoff

theorem alike_applyOptions {os os' : Options} (h : SameButErrexit os os')
    (hex : L.exact → os' = os) (hos : L.AdmitsOptions os) :
    Alike L (applyOptions os) (applyOptions os') := by
  have hset := Alike.setOptions h hex hos
  have hmonitor : os'.has .monitor = os.has .monitor := by
    obtain ⟨on, rfl⟩ := h
    rfl
  unfold applyOptions
  rw [hmonitor]
  refine .get_bind (fun _ _ => rfl) fun s => .bind hset fun _ => .ite ?_ inferInstance
  have hrest : Steady L (do
      let sh ← get
      if os.has .monitor && sh.terminal.isNone && !sh.isSubshell then setUpJobControl
      refreshSignals) := .get_bind (fun _ _ => rfl) fun _ => inferInstance
  exact hrest

theorem alike_applySettings [L.Kept] {a b : Settings} (h : a.Like SameButErrexit b)
    (hex : L.exact → b = a) (hl : L.exact ∨ a.listing = none) (hos : L.AdmitsOptions a.options) :
    Alike L (applySettings a) (applySettings b) := by
  have hoptions := alike_applyOptions h.options (fun hL => by rw [hex hL]) hos
  have hrest : ∀ {x : ShellM Unit}, Steady L x → Alike L (do
      applyOptions a.options
      x) (do
      applyOptions b.options
      x) := fun hx => .bind hoptions fun _ => hx
  unfold applySettings
  rw [← h.listing, ← h.params]
  cases hlisting : a.listing with
  | none =>
      refine hrest ?_
      cases a.params with
      | some params => infer_instance
      | none => infer_instance
  | some c =>
      rcases hl with hL | hl
      · rw [hex hL]
        rw [hex hL] at hrest
        refine .bind inferInstance fun _ => hrest ?_
        cases a.params with
        | some params => infer_instance
        | none => infer_instance
      · rw [hl] at hlisting
        cases hlisting

theorem alike_runSet [L.Kept] {args : List Text} (h : L.exact ∨ listsOptions args = false)
    (hsettings : L.AdmitsSettings args) : Steady L (runSet args) := by
  refine .ite (.get_bind (fun _ _ => rfl) fun _ => inferInstance) ⟨fun {s t} hst => ?_⟩
  let rest : Except Fault Settings → ShellM Unit := fun r => do
    applySettings (← ofExcept r)
    setStatus 0
  have hlike := hst
  obtain ⟨hs, ⟨on, rfl⟩, hex⟩ := hst
  show Follows _ _ ((rest (Settings.read { options := s.options } args)).run.run s)
    ((rest (Settings.read { options := s.options.set .errexit on } args)).run.run _)
  have hstart : Settings.Like SameButErrexit { options := s.options }
      { options := s.options.set .errexit on } := ⟨⟨on, rfl⟩, rfl, rfl⟩
  have hboth := hstart.read setsAlike_sameButErrexit args
  have hsame : L.exact → Settings.read { options := s.options.set .errexit on } args
      = Settings.read { options := s.options } args := fun hL =>
    congrArg (fun sh : Shell => Settings.read { options := sh.options } args) (hex hL)
  cases ha : Settings.read { options := s.options } args with
  | ok a =>
      cases hb : Settings.read { options := s.options.set .errexit on } args with
      | ok b =>
          rw [ha, hb] at hboth hsame
          have happly := alike_applySettings hboth (fun hL => Except.ok.inj (hsame hL))
            (h.imp_right fun h => listing_of_not_listsOptions h ha) (hsettings s hs a ha)
          have hrest : Alike L (do
              applySettings a
              setStatus 0) (do
              applySettings b
              setStatus 0) := .bind happly fun _ => inferInstance
          exact hrest.follows hlike
      | error e =>
          rw [ha, hb] at hboth
          exact hboth.elim
  | error e =>
      cases hb : Settings.read { options := s.options.set .errexit on } args with
      | ok b =>
          rw [ha, hb] at hboth
          exact hboth.elim
      | error f =>
          rw [ha, hb] at hboth
          cases hboth
          exact .done ⟨rfl, hlike⟩

end Shell

end CommandShell
