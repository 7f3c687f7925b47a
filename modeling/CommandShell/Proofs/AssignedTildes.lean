import CommandShell.Proofs.Descriptors.Redirection
import CommandShell.Proofs.VerbatimWords
import Mathlib.Data.List.TakeWhile

/-!
# Tildes in assigned values

In the value of an assignment a tilde stands for a home directory at the start and after a colon, if
neither is quoted. `assignmentByRule` is that rule: it walks along the characters of the word, and
only a character of the word itself counts as a colon. The shell looks at the value that it has so
far instead. `assignment_tildes` says that this comes to the same whenever no tilde stands right
behind a quotation or an expansion whose text ends in a colon.

After such a text the shell replaces a tilde that is not after an unquoted colon
(`not_assignment_tildes`).
-/

namespace CommandShell

universe u

/-- What holds always for each of some things holds for all of them at once. -/
theorem Host.Program.Always.all {α : Type} {ι : Sort u} {P : ι → α → Prop} {p : Host.Program α}
    (h : ∀ i, p.Always (P i)) : p.Always fun a => ∀ i, P i a := by
  induction p with
  | done a => exact h
  | call c k ih => exact fun r => ih r fun i => h i r

namespace Script

/-- Whether a part ends in an unquoted colon. -/
def Part.endsInColon : Part → Bool
  | .literal t => t.getLast? == some ':'
  | _ => false

end Script

namespace Expansion

open Script (Part Word)
open Shell

variable {ev : Evaluator} {ends starts last : Bool} {t u r : Text}

/-! ## The rule -/

/-- Whether a character ends the name after a tilde. -/
def endsName (c : Char) : Bool := c == '/' || c == ':'

/-- Unquoted text of an assigned value with its tildes replaced. `starts` tells whether the text is
at the start of the value or right after an unquoted colon, and `ends` whether it ends the word. -/
def tildesByRule (ends starts : Bool) (text : Text) : ShellM Text :=
  match text with
  | [] => return []
  | c :: t => do
    if c = '~' && starts && (ends || t.any endsName) then
      match ← homeOf? (t.takeWhile fun c => !endsName c) with
      | some home => return home ++ (← tildesByRule ends false (t.dropWhile fun c => !endsName c))
      | none => return c :: (← tildesByRule ends false t)
    else return c :: (← tildesByRule ends (c == ':') t)
termination_by text.length
decreasing_by
  · exact Nat.lt_succ_of_le (List.dropWhile_suffix _).length_le
  · exact Nat.lt_succ_self _
  · exact Nat.lt_succ_self _

/-- The value of an assignment from the parts after `=`. -/
def valueByRule (ev : Evaluator) (starts : Bool) : List Part → ShellM Text
  | [] => return []
  | p :: ps => do
    let next ← match p with
      | .literal t => tildesByRule ps.isEmpty starts t
      | p => quotedText ev [p]
    return next ++ (← valueByRule ev p.endsInColon ps)

/-- The name that a word assigns to, and the parts after `=`. -/
def assigned? (w : Word) : Option (Text × List Part) :=
  match w.parts with
  | .literal t :: rest =>
    (Text.splitAssignment? t).map fun (name, start) =>
      (name, if start.isEmpty then rest else .literal start :: rest)
  | _ => none

/-- The name and the value of an assignment. -/
def assignmentByRule (ev : Evaluator) (w : Word) : ShellM (Text × Text) :=
  match assigned? w with
  | none => fail (.internal "assignment without a name")
  | some (name, parts) => return (name, ← valueByRule ev true parts)

theorem assignment_eq (w : Word) : assignment ev w =
    match assigned? w with
    | none => fail (.internal "assignment without a name")
    | some (name, parts) => return (name, ← assignedValue ev true [] parts) := by
  obtain ⟨text, parts, line⟩ := w
  cases parts with
  | nil => rfl
  | cons p rest =>
      cases p with
      | literal t =>
          unfold assignment assigned?
          dsimp only [Word.parts]
          cases Text.splitAssignment? t with
          | none => rfl
          | some split => rfl
      | _ => rfl

/-! ## Along the segments -/

/-- Nothing is replaced before the next colon where no tilde may stand. -/
theorem tildesByRule_append (hu : ':' ∉ u) (r : Text) :
    tildesByRule ends false (u ++ r) = (u ++ ·) <$> tildesByRule ends false r := by
  induction u with
  | nil => simp
  | cons c u ih =>
      obtain ⟨hc, hu⟩ := not_or.mp (mt List.mem_cons.mpr hu)
      have hcolon : (c == ':') = false := beq_false_of_ne (Ne.symm hc)
      rw [List.cons_append, tildesByRule]
      simp [hcolon, ih hu]

theorem tildesByRule_colon (r : Text) :
    tildesByRule ends starts (':' :: r) = (':' :: ·) <$> tildesByRule ends true r := by
  rw [tildesByRule]
  simp

/-- A text in which the next segment, if there is one, begins. -/
def AtColon (r : Text) : Prop := r = [] ∨ ∃ r', r = ':' :: r'

/-- The name after a tilde is cut alike from a segment and from the text that goes on after it. -/
theorem name_append (hu : ':' ∉ u) (hr : AtColon r) :
    (u ++ r).takeWhile (fun c => !endsName c) = u.takeWhile (· != '/') ∧
      (u ++ r).dropWhile (fun c => !endsName c) = u.dropWhile (· != '/') ++ r ∧
      (u ++ r).any endsName = !(List.isEmpty (u.dropWhile (· != '/')) && r.isEmpty) := by
  induction u with
  | nil => rcases hr with rfl | ⟨r', rfl⟩ <;> exact ⟨rfl, rfl, rfl⟩
  | cons c u ih =>
      obtain ⟨hc, hu⟩ := not_or.mp (mt List.mem_cons.mpr hu)
      by_cases hslash : c = '/'
      · subst hslash
        exact ⟨rfl, rfl, rfl⟩
      · have hname : endsName c = false := by simp [endsName, hslash, Ne.symm hc]
        obtain ⟨htake, hdrop, hany⟩ := ih hu
        simp [hname, hslash, htake, hdrop, hany]

/-- A segment at whose start a tilde may stand. -/
theorem tildesByRule_segment_start (hu : ':' ∉ u) (hr : AtColon r) :
    tildesByRule ends true (u ++ r) =
      segmentTilde u (r.isEmpty && !ends) >>= fun first =>
        (first ++ ·) <$> tildesByRule ends false r := by
  cases u with
  | nil =>
      have hsame : tildesByRule ends true r = tildesByRule ends false r := by
        rcases hr with rfl | ⟨r', rfl⟩
        · rw [tildesByRule, tildesByRule]
        · rw [tildesByRule_colon, tildesByRule_colon]
      simp [segmentTilde, tildePrefix?, hsame]
  | cons c u =>
      obtain ⟨hc, htail⟩ := not_or.mp (mt List.mem_cons.mpr hu)
      have hcolon : (c == ':') = false := beq_false_of_ne (Ne.symm hc)
      by_cases htilde : c = '~'
      · subst htilde
        obtain ⟨htake, hdrop, hany⟩ := name_append htail hr
        -- the two conditions are opposites
        have hruns : (List.isEmpty (u.dropWhile (· != '/')) && (r.isEmpty && !ends)) =
            !(ends || (u ++ r).any endsName) := by
          rw [hany]
          cases List.isEmpty (u.dropWhile (· != '/')) <;> cases r.isEmpty <;> cases ends <;> rfl
        have hafter : tildesByRule ends false (u ++ r) = (u ++ ·) <$> tildesByRule ends false r :=
          tildesByRule_append htail r
        have hremainder : ':' ∉ u.dropWhile (· != '/') :=
          fun h => htail ((List.dropWhile_sublist _).mem h)
        have hrest : tildesByRule ends false (u.dropWhile (· != '/') ++ r) =
            (u.dropWhile (· != '/') ++ ·) <$> tildesByRule ends false r :=
          tildesByRule_append hremainder r
        rw [List.cons_append, tildesByRule]
        simp only [segmentTilde, tildePrefix?, hruns, htake, hdrop]
        cases ends || (u ++ r).any endsName with
        | false => simp [hafter, hcolon]
        | true =>
            simp only [decide_true, Bool.and_self, if_true, Bool.not_true, Bool.false_eq_true, if_false,
              bind_assoc]
            congr 1
            funext home
            cases home with
            | none => simp [hafter]
            | some home => simp [hrest]
      · have hnone : tildePrefix? (c :: u) = none := by
          unfold tildePrefix?
          split
          · rename_i heq
            cases heq
            exact absurd rfl htilde
          · rfl
        rw [List.cons_append, tildesByRule]
        simp [htilde, hcolon, segmentTilde, hnone, tildesByRule_append htail]

theorem tildesByRule_segment (starts : Bool) (hu : ':' ∉ u) (hr : AtColon r) :
    tildesByRule ends starts (u ++ r) =
      (if starts then segmentTilde u (r.isEmpty && !ends) else pure u) >>= fun first =>
        (first ++ ·) <$> tildesByRule ends false r := by
  cases starts with
  | false => simpa using tildesByRule_append hu r
  | true => exact tildesByRule_segment_start hu hr

theorem tildesByRule_join {first : Text} {rest : List Text} (hseg : ∀ u ∈ first :: rest, ':' ∉ u)
    (starts : Bool) : tildesByRule last starts (Text.join ":" (first :: rest)) =
      Text.join ":" <$> segmentTildes starts last (first :: rest) := by
  induction rest generalizing first starts with
  | nil =>
      show tildesByRule last starts first = _
      rw [← List.append_nil first,
        tildesByRule_segment starts (hseg first List.mem_cons_self) (.inl rfl)]
      cases starts <;> simp [segmentTildes, tildesByRule, Text.join]
  | cons second rest ih =>
      have hjoin : Text.join ":" (first :: second :: rest) =
          first ++ ':' :: Text.join ":" (second :: rest) := by
        simp [Text.join]
      rw [hjoin, tildesByRule_segment starts (hseg first List.mem_cons_self) (.inr ⟨_, rfl⟩),
        tildesByRule_colon, ih fun u hu => hseg u (List.mem_cons_of_mem first hu)]
      unfold segmentTildes
      cases starts <;> simp [segmentTildes, Text.join]

/-- The tildes of the shell are those of the rule, if they start and end alike. -/
theorem assignedTildes_eq (t : Text) (starts last : Bool) :
    assignedTildes t starts last = tildesByRule last starts t := by
  have hjoin := Text.join_splitAt ':' t
  have hseg : ∀ u ∈ Text.splitAt ':' t, ':' ∉ u := fun u hu => Text.not_mem_of_mem_splitAt hu
  unfold assignedTildes
  cases hsplit : Text.splitAt ':' t with
  | nil =>
      rw [hsplit] at hjoin
      subst hjoin
      cases hsplit
  | cons first rest =>
      rw [hsplit] at hjoin hseg
      rw [← hjoin]
      exact (tildesByRule_join hseg starts).symm

/-! ## Along the parts -/

/-- What a text that does not end the word comes to ends in the same character. -/
theorem yields_tildesByRule (starts : Bool) (t : Text) :
    Yields (fun v => v.getLast? = t.getLast?) (tildesByRule false starts t) := by
  cases t with
  | nil =>
      rw [tildesByRule]
      exact .pure rfl
  | cons c t =>
      have hcons : ∀ starts, Yields (fun v => v.getLast? = (c :: t).getLast?)
          (tildesByRule false starts t >>= fun v => pure (c :: v)) := by
        intro starts
        refine .bind_of (yields_tildesByRule starts t) fun v hv => .pure ?_
        rw [List.getLast?_cons, List.getLast?_cons, hv]
      rw [tildesByRule]
      split
      · rename_i hname
        refine .bind fun home => ?_
        cases home with
        | none => exact hcons false
        | some home =>
            refine .bind_of (yields_tildesByRule false _) fun v hv => .pure ?_
            -- something of the text follows the name, and it ends both texts
            have hany : t.any endsName = true := by
              simp only [Bool.and_eq_true, Bool.false_or] at hname
              exact hname.2
            have hrest : t.dropWhile (fun c => !endsName c) ≠ [] := by
              intro hnil
              obtain ⟨d, hd, hends⟩ := List.any_eq_true.mp hany
              simpa [hends] using List.dropWhile_eq_nil_iff.mp hnil d hd
            have hv' : v ≠ [] := by
              rintro rfl
              exact hrest (List.getLast?_eq_none_iff.mp hv.symm)
            have hlast := List.getLast?_append_of_ne_nil (c :: t.takeWhile fun c => !endsName c) hrest
            rw [List.cons_append, List.takeWhile_append_dropWhile] at hlast
            rw [List.getLast?_append_of_ne_nil home hv', hv, hlast]
      · exact hcons _
termination_by t.length
decreasing_by
  · exact Nat.lt_succ_self _
  · exact Nat.lt_succ_of_le (List.dropWhile_suffix _).length_le

/-- Where no tilde comes first, none is replaced there. -/
theorem tildesByRule_of_ne (h : ∀ u, t ≠ '~' :: u) (a b : Bool) :
    tildesByRule ends a t = tildesByRule ends b t := by
  cases t with
  | nil => rw [tildesByRule, tildesByRule]
  | cons c t =>
      have hc : c ≠ '~' := fun heq => h t (heq ▸ rfl)
      rw [tildesByRule, tildesByRule]
      simp [hc]

/-- Whether a part is unquoted text. -/
def IsWritten (p : Part) : Prop := ∃ c u, p = .literal (c :: u)

/-- What the parts up to one that is quoted or expanded come to does not end in a colon, if a tilde
comes right after it. -/
def ColonsWritten (ev : Evaluator) (first : Bool) (done : Text) (parts : List Part) (s : Shell) :
    Prop :=
  ∀ pre p t post, parts = pre ++ p :: .literal ('~' :: t) :: post → ¬ IsWritten p →
    ((assignedValue ev first done (pre ++ [p])).startedIn s).Always fun r =>
      ∀ v, r.1 = .ok v → v.getLast? ≠ some ':'

/-- The text that a part adds to a value. -/
def partText (ev : Evaluator) (starts last : Bool) : Part → ShellM Text
  | .literal t => tildesByRule last starts t
  | p => quotedText ev [p]

theorem assignedValue_cons (first : Bool) (done : Text) (p : Part) (ps : List Part) :
    assignedValue ev first done (p :: ps) =
      partText ev (first || done.getLast? == some ':') ps.isEmpty p >>= fun next =>
        assignedValue ev false (done ++ next) ps := by
  cases p <;> simp [assignedValue, partText, assignedTildes_eq]

theorem valueByRule_cons (starts : Bool) (p : Part) (ps : List Part) :
    valueByRule ev starts (p :: ps) = partText ev starts ps.isEmpty p >>= fun next =>
      (next ++ ·) <$> valueByRule ev p.endsInColon ps := by
  cases p <;> simp [valueByRule, partText]

/-- Where no tilde comes first in the rest, it does not matter how the rest is begun. -/
theorem partText_of_ne {p : Part} (h : ∀ u, p ≠ .literal ('~' :: u)) (a b : Bool) :
    partText ev a last p = partText ev b last p := by
  cases p with
  | literal t => exact tildesByRule_of_ne (fun u heq => h u (heq ▸ rfl)) a b
  | _ => rfl

/-- The text of a part that is quoted or expanded does not depend on its place. -/
theorem partText_of_not_isWritten {p : Part} (h : ¬ IsWritten p) (a b : Bool) :
    partText ev starts a p = partText ev starts b p := by
  cases p with
  | literal t =>
      cases t with
      | nil => simp [partText, tildesByRule]
      | cons c t => exact absurd ⟨c, t, rfl⟩ h
  | _ => rfl

/-- After a part, the shell sees a colon before a tilde where the rule does. -/
theorem colon_after {p : Part} {ps post : List Part} {first : Bool} {done : Text} {s : Shell}
    (hps : ps = .literal ('~' :: t) :: post) (hcolons : ColonsWritten ev first done (p :: ps) s) :
    ((partText ev (first || done.getLast? == some ':') ps.isEmpty p).startedIn s).Always fun r =>
      ∀ next, r.1 = .ok next → p.endsInColon = ((done ++ next).getLast? == some ':') := by
  by_cases hp : IsWritten p
  · obtain ⟨c, u, rfl⟩ := hp
    subst hps
    refine (yields_tildesByRule _ (c :: u) s).mono fun r hr next heq => ?_
    have hlast := hr next heq
    have hne : next ≠ [] := by
      rintro rfl
      cases u <;> cases hlast
    rw [List.getLast?_append_of_ne_nil done hne, hlast]
    rfl
  · have hlone := hcolons [] p t post (by rw [hps]; rfl) hp
    rw [List.nil_append, assignedValue_cons, partText_of_not_isWritten hp _ ps.isEmpty] at hlone
    have hends : p.endsInColon = false := by
      cases p with
      | literal t =>
          cases t with
          | nil => rfl
          | cons c t => exact absurd ⟨c, t, rfl⟩ hp
      | _ => rfl
    change ((Host.Program.bind _ _).Always _) at hlone
    rw [Host.Program.always_bind] at hlone
    refine hlone.mono ?_
    rintro ⟨r, s'⟩ hr next rfl
    have hlast := hr (done ++ next) rfl
    rw [hends]
    exact (beq_false_of_ne hlast).symm

theorem ColonsWritten.tail {p : Part} {ps : List Part} {first : Bool} {done : Text} {s : Shell}
    (h : ColonsWritten ev first done (p :: ps) s) :
    ((partText ev (first || done.getLast? == some ':') ps.isEmpty p).startedIn s).Always fun r =>
      ∀ next, r.1 = .ok next → ColonsWritten ev false (done ++ next) ps r.2 := by
  have hall : ∀ pre q t post, ps = pre ++ q :: .literal ('~' :: t) :: post → ¬ IsWritten q →
      ((partText ev (first || done.getLast? == some ':') ps.isEmpty p).startedIn s).Always fun r =>
        ∀ next, r.1 = .ok next →
          ((assignedValue ev false (done ++ next) (pre ++ [q])).startedIn r.2).Always fun r =>
            ∀ v, r.1 = .ok v → v.getLast? ≠ some ':' := by
    intro pre q t post hps hq
    have hwhole := h (p :: pre) q t post (by rw [hps]; rfl) hq
    have hempty : (pre ++ [q]).isEmpty = ps.isEmpty := by
      rw [hps]
      cases pre <;> rfl
    rw [List.cons_append, assignedValue_cons, hempty] at hwhole
    change ((Host.Program.bind _ _).Always _) at hwhole
    rw [Host.Program.always_bind] at hwhole
    refine hwhole.mono ?_
    rintro ⟨r, s'⟩ hr next rfl
    exact hr
  have hat := Host.Program.Always.all fun pre => .all fun q => .all fun t => .all fun post =>
    .all fun hps => .all fun hq => hall pre q t post hps hq
  exact hat.mono fun r hr next heq pre q t post hps hq => hr pre q t post hps hq next heq

/-- The value of the shell is that of the rule, after what it has so far. -/
theorem assignedValue_eq {ps : List Part} {first starts : Bool} {done : Text} {s : Shell}
    (hfirst : ∀ t post, ps = .literal ('~' :: t) :: post →
      starts = (first || done.getLast? == some ':'))
    (hcolons : ColonsWritten ev first done ps s) :
    (assignedValue ev first done ps).startedIn s =
      ((done ++ ·) <$> valueByRule ev starts ps : ShellM Text).startedIn s := by
  induction ps generalizing first starts done s with
  | nil => simp [assignedValue, valueByRule]
  | cons p ps ih =>
      have hpart : partText ev starts ps.isEmpty p =
          partText ev (first || done.getLast? == some ':') ps.isEmpty p := by
        by_cases hp : ∃ u, p = .literal ('~' :: u)
        · obtain ⟨u, rfl⟩ := hp
          rw [hfirst u ps rfl]
        · exact partText_of_ne (not_exists.mp hp) _ _
      have hnext := Host.Program.Always.all fun t : Text => .all fun post =>
        .all fun hps : ps = .literal ('~' :: t) :: post => colon_after hps hcolons
      rw [assignedValue_cons, valueByRule_cons, hpart, map_bind]
      show ((partText _ _ _ _).startedIn s).bind _ = ((partText _ _ _ _).startedIn s).bind _
      refine Host.Program.bind_congr_always ((hnext.and hcolons.tail).mono ?_)
      rintro ⟨r, s'⟩ ⟨hafter, htail⟩
      cases r with
      | error e => rfl
      | ok next =>
          have hrest : (assignedValue ev false (done ++ next) ps).startedIn s' =
              ((done ++ next ++ ·) <$> valueByRule ev p.endsInColon ps : ShellM Text).startedIn s' :=
            ih (fun t post hps => hafter t post hps next rfl) (htail next rfl)
          show (assignedValue ev false (done ++ next) ps).startedIn s' =
            ((done ++ ·) <$> (next ++ ·) <$> valueByRule ev p.endsInColon ps : ShellM Text).startedIn s'
          simpa [List.append_assoc] using hrest

/-- The name and the value that an assignment comes to are those of the rule, unless a tilde stands
right behind a quotation or an expansion after which the value ends in a colon. -/
theorem assignment_tildes (ev : Evaluator) (w : Word) (s : Shell)
    (hcolons : ∀ name parts, assigned? w = some (name, parts) → ColonsWritten ev true [] parts s) :
    (assignment ev w).startedIn s = (assignmentByRule ev w).startedIn s := by
  rw [assignment_eq]
  unfold assignmentByRule
  cases h : assigned? w with
  | none => rfl
  | some split =>
      obtain ⟨name, parts⟩ := split
      have hvalue : (assignedValue ev true [] parts).startedIn s =
          (valueByRule ev true parts).startedIn s := by
        have heq : (assignedValue ev true [] parts).startedIn s =
            (([] ++ ·) <$> valueByRule ev true parts : ShellM Text).startedIn s :=
          assignedValue_eq (fun _ _ _ => rfl) (hcolons name parts h)
        simpa using heq
      exact congrArg (fun p => Host.Program.bind p _) hvalue

/-- A shell with a home directory. -/
def housed : Shell := { «variables» := { bindings := ⟨[("HOME", { value := some "/h" })]⟩ } }

/-- The word `P=~:"a"~`. -/
def dotted : Word := .mk "P=~:\"a\"~" [.literal "P=~:", .doubleQuoted [.literal "a"], .literal "~"] 1

/-- A tilde that does not start a segment is left alone. -/
theorem tildesByRule_tilde (ends : Bool) : tildesByRule ends false "~" = pure "~" := by
  show tildesByRule ends false ['~'] = _
  simp [tildesByRule]

/-- The tilde after the quotation stays, by the rule and in the shell. -/
theorem assignment_tildes_quotation :
    (assignment idle dotted).startedIn housed = (assignmentByRule idle dotted).startedIn housed ∧
      (assignmentByRule idle dotted).startedIn housed = .done (.ok ("P", "/h:a~"), housed) := by
  constructor
  · apply assignment_tildes
    rintro name parts heq pre p t post hparts hp
    have hassigned : assigned? dotted = some (("P" : Text),
        [.literal "~:", .doubleQuoted [.literal "a"], .literal "~"]) := rfl
    rw [hassigned] at heq
    obtain ⟨rfl, rfl⟩ := Prod.mk.inj (Option.some.inj heq)
    -- the last tilde is the only one behind a quoted part
    rcases pre with _ | ⟨q, _ | ⟨q', pre⟩⟩
    · cases hparts
    · cases hparts
      have hvalue : (assignedValue idle true [] [.literal "~:", .doubleQuoted [.literal "a"]]).startedIn
          housed = .done (.ok "/h:a", housed) := rfl
      rw [List.singleton_append, hvalue]
      rintro v heq
      cases heq
      decide
    · have hlength := congrArg List.length hparts
      simp only [List.length_append, List.length_cons, List.length_nil] at hlength
      omega
  · have hcolon : tildesByRule false false ":" = pure [':'] := by
      show tildesByRule false false [':'] = _
      simp [tildesByRule]
    have htilde : tildesByRule false true "~:" =
        segmentTilde "~" false >>= fun first => (first ++ ·) <$> pure [':'] := by
      rw [← hcolon]
      have hname : ':' ∉ ['~'] := by decide
      exact tildesByRule_segment true hname (.inr ⟨[], rfl⟩)
    have hvalue : (valueByRule idle true [.literal "~:", .doubleQuoted [.literal "a"],
        .literal "~"]).startedIn housed = .done (.ok "/h:a~", housed) := by
      show (tildesByRule false true "~:" >>= fun next => (next ++ ·) <$>
        (quotedText idle [.doubleQuoted [.literal "a"]] >>= fun next => (next ++ ·) <$>
          (tildesByRule true false "~" >>= fun next => (next ++ ·) <$> pure []))).startedIn _ = _
      rw [htilde, tildesByRule_tilde]
      rfl
    exact congrArg (fun p => Host.Program.bind p _) hvalue

/-- The word `x=":"~`. -/
def colonQuoted : Word := .mk "x=\":\"~" [.literal "x=", .doubleQuoted [.literal ":"], .literal "~"] 1

/-- After a quoted colon the shell replaces the tilde all the same. -/
theorem not_assignment_tildes : ¬ ∀ (ev : Evaluator) (w : Word) (s : Shell),
    (assignment ev w).startedIn s = (assignmentByRule ev w).startedIn s := by
  intro h
  have hshell : (assignment idle colonQuoted).startedIn housed =
      .done (.ok ("x", ":/h"), housed) := rfl
  have hvalue : valueByRule idle true [.doubleQuoted [.literal ":"], .literal "~"] = pure ":~" := by
    show (quotedText idle [.doubleQuoted [.literal ":"]] >>= fun next => (next ++ ·) <$>
      (tildesByRule true false "~" >>= fun next => (next ++ ·) <$> pure [])) = _
    rw [tildesByRule_tilde]
    rfl
  have hrule : (assignmentByRule idle colonQuoted).startedIn housed =
      .done (.ok ("x", ":~"), housed) := by
    show ((("x", ·) <$> valueByRule idle true [.doubleQuoted [.literal ":"], .literal "~"] :
      ShellM (Text × Text))).startedIn housed = _
    rw [hvalue]
    rfl
  have heq := h idle colonQuoted housed
  rw [hshell, hrule] at heq
  simp at heq

end Expansion

end CommandShell
