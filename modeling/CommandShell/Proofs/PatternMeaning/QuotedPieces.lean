import CommandShell.Expansion.Field
import CommandShell.Proofs.PatternMeaning

/-!
# Quoted characters in patterns

The pieces of a word become a pattern in which each quoted special character stands in a bracket of its
own. In a tidy pattern every quoted character stands for itself then, next to wildcards and inside
brackets (`toPattern_iff_means`). Where a quoted character of a bracket would mean something there, or
where a bracket is not closed, it does not (`not_toPattern_iff_means`).
-/

namespace CommandShell.Expansion

open Glyph (live)
open Pattern (InSet Malformed Means Tidy accepts bracket? written)

/-- The characters of a piece. -/
def Piece.glyphs : Piece → List Glyph
  | .text t quoted _ => t.map fun c => ⟨c, quoted⟩
  | .fieldBreak => [live ' ']

theorem written_quoted (t : Text) : written (t.map (⟨·, true⟩)) = Pattern.escape t := by
  induction t with
  | nil => rfl
  | cons c t ih =>
      rw [List.map_cons, written, List.flatMap_cons, ← written, ih]
      simp [Glyph.written, Pattern.escape]

/-- The pattern of a word is the text of the characters of its pieces. -/
theorem toPattern_eq_written (ps : List Piece) :
    Piece.toPattern ps = written (ps.flatMap Piece.glyphs) := by
  rw [written, List.flatMap_assoc, Piece.toPattern]
  refine List.flatMap_congr fun p _ => ?_
  cases p with
  | fieldBreak => rfl
  | text t quoted splittable =>
      cases quoted with
      | true => exact (written_quoted t).symm
      | false => exact (Pattern.written_live t).symm

/-- The pattern of tidy pieces matches the texts that their characters mean. A malformed one matches
nothing but itself, with the brackets around its quoted characters. -/
theorem toPattern_iff_means (ps : List Piece) :
    (Tidy true (ps.flatMap Piece.glyphs) →
        ∀ t, accepts (Piece.toPattern ps) t = true ↔ Means (ps.flatMap Piece.glyphs) t) ∧
      (Malformed true ((Piece.toPattern ps).map live) →
        ∀ t, accepts (Piece.toPattern ps) t = true ↔ t = Piece.toPattern ps) := by
  refine ⟨fun h t => ?_, Pattern.accepts_malformed⟩
  rw [toPattern_eq_written]
  exact Pattern.accepts_written h t

/-- A quoted star and a quoted bracket after a live star, and quoted characters in a live bracket; and
a quoted star before a bracket that is not closed. -/
theorem toPattern_iff_means_brackets :
    (Tidy true ([.text "*" false false, .quoted "*[", .text "[!0" false false, .quoted "x-",
        .text "]" false false].flatMap Piece.glyphs) ∧
      Means ([.text "*" false false, .quoted "*[", .text "[!0" false false, .quoted "x-",
        .text "]" false false].flatMap Piece.glyphs) "ab*[y") ∧
      Malformed true ((Piece.toPattern [.quoted "*", .text "[" false false]).map live) ∧
        accepts (Piece.toPattern [.quoted "*", .text "[" false false]) "*[" = false := by
  have htidy : Tidy true ([.text "*" false false, .quoted "*[", .text "[!0" false false, .quoted "x-",
      .text "]" false false].flatMap Piece.glyphs) := by
    refine .star (by decide) (.itself (by decide) (.itself (by decide) ?_))
    exact .bracket (by decide : bracket? _ = some (true, [live '0', ⟨'x', true⟩, ⟨'-', true⟩], []))
      ⟨by decide, by decide, nofun⟩ .nil
  have hmalformed : Malformed true ((Piece.toPattern [.quoted "*", .text "[" false false]).map live) :=
    .bracket (by decide : bracket? _ = some (false, [live '*'], [live '['])) (.unclosed (by decide))
  have hmeans := (toPattern_iff_means _).1 htidy "ab*[y"
  have hitself := (toPattern_iff_means _).2 hmalformed "*["
  exact ⟨⟨htidy, hmeans.mp (by cbv)⟩, hmalformed,
    Bool.eq_false_iff.mpr fun h => absurd (hitself.mp h) (by decide)⟩

/-- A quoted `!` negates a bracket, a quoted `-` makes a range, a quoted `]` closes one bracket too
many, and a quoted star before a bracket that is not closed keeps its own bracket. -/
theorem not_toPattern_iff_means :
    (¬ ∀ t, accepts (Piece.toPattern [.text "[" false false, .quoted "!", .text "a]" false false]) t
        = true ↔ Means ([.text "[" false false, .quoted "!", .text "a]" false false].flatMap
          Piece.glyphs) t) ∧
      (¬ ∀ t, accepts (Piece.toPattern [.text "[a" false false, .quoted "-", .text "c]" false false])
        t = true ↔ Means ([.text "[a" false false, .quoted "-", .text "c]" false false].flatMap
          Piece.glyphs) t) ∧
      (¬ ∀ t, accepts (Piece.toPattern [.text "[a" false false, .quoted "]", .text "b]" false false])
        t = true ↔ Means ([.text "[a" false false, .quoted "]", .text "b]" false false].flatMap
          Piece.glyphs) t) ∧
      ¬ ∀ t, accepts (Piece.toPattern [.quoted "*", .text "[" false false]) t = true ↔
        Means ([.quoted "*", .text "[" false false].flatMap Piece.glyphs) t := by
  refine ⟨fun h => ?_, fun h => ?_, fun h => ?_, fun h => ?_⟩
  · have hmeans := (h ['b']).mp (by cbv)
    have hset : bracket? [⟨'!', true⟩, live 'a', live ']'] =
        some (false, [⟨'!', true⟩, live 'a'], []) := by decide
    obtain ⟨c, u, htext, hc, -⟩ := (Pattern.means_bracket hset).mp hmeans
    obtain ⟨rfl, -⟩ := List.cons.inj htext
    simp [InSet] at hc
  · have hmeans := (h ['b']).mp (by cbv)
    have hset : bracket? [live 'a', ⟨'-', true⟩, live 'c', live ']'] =
        some (false, [live 'a', ⟨'-', true⟩, live 'c'], []) := by decide
    obtain ⟨c, u, htext, hc, -⟩ := (Pattern.means_bracket hset).mp hmeans
    obtain ⟨rfl, -⟩ := List.cons.inj htext
    simp [InSet] at hc
  · have hset : bracket? [live 'a', ⟨']', true⟩, live 'b', live ']'] =
        some (false, [live 'a', ⟨']', true⟩, live 'b'], []) := by decide
    have haccepts := (h [']']).mpr (.bracket hset (by simp [InSet]) .nothing)
    exact Bool.noConfusion (haccepts.symm.trans (by cbv))
  · have haccepts := (h "*[").mpr
      (.itself (Or.inl rfl) (.itself (Or.inr ⟨by decide, by decide, fun _ => by decide⟩) .nothing))
    exact Bool.noConfusion (haccepts.symm.trans (by cbv))

end CommandShell.Expansion
