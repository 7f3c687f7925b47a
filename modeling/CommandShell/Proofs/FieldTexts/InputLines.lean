import CommandShell.Commands.Read
import CommandShell.Proofs.FieldTexts
import CommandShell.Proofs.RawBytes.Boundaries

/-!
# Input lines are cut as expansion cuts

`read` cuts the bytes of a line at the bytes of the separators. If no byte outside ASCII is in both,
every character of the line is a separator or part of a field as a whole, and with names enough the
values are the fields that expansion makes of the line (`splitLine_eq_splitFields`). Two characters
that share such a byte are torn apart (`not_splitLine_eq_splitFields`).
-/

namespace CommandShell.Expansion

open Text (IsAscii IsRaw utf8 utf8Char)

/-! ## Lists of runs -/

section

variable {α β : Type} {f : α → List β} {p : α → Bool} {q : β → Bool} {l : List α}

/-- Runs that agree with a condition as a whole are taken as a whole. -/
theorem takeWhile_flatMap (h : ∀ a ∈ l, f a ≠ [] ∧ ∀ b ∈ f a, q b = p a) :
    (l.flatMap f).takeWhile q = (l.takeWhile p).flatMap f := by
  induction l with
  | nil => rfl
  | cons a l ih =>
      obtain ⟨hne, ha⟩ := h a List.mem_cons_self
      rw [List.flatMap_cons]
      cases hp : p a with
      | true =>
          rw [List.takeWhile_cons_of_pos hp, List.flatMap_cons,
            List.takeWhile_append_of_pos fun b hb => (ha b hb).trans hp,
            ih fun c hc => h c (List.mem_cons_of_mem a hc)]
      | false =>
          obtain ⟨b, bs, hb⟩ := List.exists_cons_of_ne_nil hne
          have hq : ¬ q b = true := by
            rw [ha b (by simp [hb]), hp]
            exact Bool.false_ne_true
          rw [hb, List.cons_append, List.takeWhile_cons_of_neg hq,
            List.takeWhile_cons_of_neg (Bool.eq_false_iff.mp hp)]
          rfl

theorem dropWhile_flatMap (h : ∀ a ∈ l, f a ≠ [] ∧ ∀ b ∈ f a, q b = p a) :
    (l.flatMap f).dropWhile q = (l.dropWhile p).flatMap f := by
  have hsplit : l.flatMap f = (l.takeWhile p).flatMap f ++ (l.dropWhile p).flatMap f := by
    rw [← List.flatMap_append, List.takeWhile_append_dropWhile]
  have hparts := List.takeWhile_append_dropWhile (p := q) (l := l.flatMap f)
  rw [takeWhile_flatMap h] at hparts
  exact List.append_cancel_left (hparts.trans hsplit)

end

/-! ## Bytes of separators -/

/-- The bytes, none of them escaped. -/
def InputByte.unescaped (bs : List Byte) : List InputByte := bs.map fun b => { byte := b }

/-- The bytes of a character, as they are read. -/
def bytesOf (c : Char) : List InputByte := InputByte.unescaped (utf8Char c)

/-- No byte outside ASCII is a byte of both the character and the separators. -/
def Apart (ifs : Text) (c : Char) : Prop := ∀ b ∈ utf8Char c, b ∈ utf8 ifs → b.toNat < 0x80

section

variable {ifs line : Text} {c : Char} {b : InputByte}

theorem bytesOf_ne_nil (c : Char) : bytesOf c ≠ [] :=
  List.map_eq_nil_iff.not.mpr (Text.utf8Char_ne_nil c)

/-- A separator is a character of ASCII. -/
theorem Apart.isAscii (h : Apart ifs c) (hc : c ∈ ifs) : IsAscii c := by
  by_contra hnot
  obtain ⟨b, bs, hb⟩ := List.exists_cons_of_ne_nil (Text.utf8Char_ne_nil c)
  have hmem : b ∈ utf8Char c := by simp [hb]
  have hlt := h b hmem (List.mem_flatMap.mpr ⟨c, hc, hmem⟩)
  exact absurd (Text.le_of_mem_utf8Char hnot hmem) (Nat.not_le.mpr hlt)

/-- All bytes of a character are separators if it is one, and else none. -/
theorem Apart.isSeparator (h : Apart ifs c) (hb : b ∈ bytesOf c) :
    b.isSeparator (utf8 ifs) = decide (c ∈ ifs) := by
  obtain ⟨x, hx, rfl⟩ := List.mem_map.mp hb
  rw [InputByte.isSeparator, Bool.not_false, Bool.true_and, List.contains_eq_mem]
  congr 1
  by_cases hc : IsAscii c
  · rw [Text.utf8Char_ascii hc, List.mem_singleton] at hx
    rw [hx]
    exact propext (Text.byte_mem_utf8 hc ifs)
  · refine propext ⟨fun hmem => ?_, fun hmem => absurd (h.isAscii hmem) hc⟩
    exact absurd (h x hx hmem) (Nat.not_lt.mpr (Text.le_of_mem_utf8Char hc hx))

/-- The blanks of the bytes are those of the characters. -/
theorem isBlankByte_ascii (hc : IsAscii c) :
    InputByte.isBlankByte (UInt8.ofNat c.toNat) = decide (c ∈ [' ', '\t', '\n', '\x0c', '\r']) := by
  have hbyte : ∀ d : Char, IsAscii d → ((UInt8.ofNat c.toNat == UInt8.ofNat d.toNat) = (c == d)) := by
    intro d hd
    rw [Bool.eq_iff_iff, beq_iff_eq, beq_iff_eq, ← UInt8.toNat_inj, Text.toNat_byte_ascii hc,
      Text.toNat_byte_ascii hd, Char.toNat_inj]
  have hbytes : InputByte.isBlankByte (UInt8.ofNat c.toNat) =
      (c == ' ' || c == '\t' || c == '\n' || c == '\x0c' || c == '\r') := by
    rw [← hbyte ' ' (by decide), ← hbyte '\t' (by decide), ← hbyte '\n' (by decide),
      ← hbyte '\x0c' (by decide), ← hbyte '\r' (by decide)]
    rfl
  rw [hbytes, Bool.eq_iff_iff]
  simp [or_assoc]

theorem isContent_ofChar (ifs : Text) (c : Char) : (Mark.ofChar ifs c).isContent = !decide (c ∈ ifs) := by
  unfold Mark.ofChar
  split_ifs with hsep hblank
  all_goals simp [Mark.isContent, hsep]

theorem Apart.isBlank (h : Apart ifs c) (hb : b ∈ bytesOf c) :
    b.isBlank (utf8 ifs) = (Mark.ofChar ifs c).isBlank := by
  rw [InputByte.isBlank, h.isSeparator hb, Mark.ofChar]
  by_cases hc : c ∈ ifs
  · have hascii := h.isAscii hc
    rw [bytesOf, Text.utf8Char_ascii hascii] at hb
    obtain rfl : b = { byte := UInt8.ofNat c.toNat } := List.mem_singleton.mp hb
    rw [if_neg (not_not_intro hc), isBlankByte_ascii hascii]
    split_ifs with hblank
    · simp [hc, hblank, Mark.isBlank]
    · simp [hblank, Mark.isBlank]
  · simp [hc, Mark.isBlank]

/-- The bytes up to the first separator are those of the characters up to it. -/
theorem takeWhile_bytes (h : ∀ c ∈ line, Apart ifs c) :
    (line.flatMap bytesOf).takeWhile (fun b => !b.isSeparator (utf8 ifs)) =
      (line.takeWhile fun c => (Mark.ofChar ifs c).isContent).flatMap bytesOf :=
  takeWhile_flatMap fun c hc => ⟨bytesOf_ne_nil c, fun _ hb => by
    rw [(h c hc).isSeparator hb, isContent_ofChar]⟩

theorem dropWhile_bytes (h : ∀ c ∈ line, Apart ifs c) :
    (line.flatMap bytesOf).dropWhile (fun b => !b.isSeparator (utf8 ifs)) =
      (line.dropWhile fun c => (Mark.ofChar ifs c).isContent).flatMap bytesOf :=
  dropWhile_flatMap fun c hc => ⟨bytesOf_ne_nil c, fun _ hb => by
    rw [(h c hc).isSeparator hb, isContent_ofChar]⟩

theorem dropWhile_blankBytes (h : ∀ c ∈ line, Apart ifs c) :
    (line.flatMap bytesOf).dropWhile (InputByte.isBlank (utf8 ifs)) =
      (line.dropWhile fun c => (Mark.ofChar ifs c).isBlank).flatMap bytesOf :=
  dropWhile_flatMap fun c hc => ⟨bytesOf_ne_nil c, fun _ hb => (h c hc).isBlank hb⟩

theorem text_bytesOf (t : Text) : InputByte.text (t.flatMap bytesOf) = t := by
  have hbytes : (t.flatMap bytesOf).map (·.byte) = utf8 t := by
    rw [List.map_flatMap, utf8]
    exact List.flatMap_congr fun c _ => by simp [bytesOf, InputByte.unescaped, Function.comp_def]
  rw [InputByte.text, hbytes, Text.decode_utf8]

/-! ## Fields of bytes -/

theorem dropWhile_map_isBlank (ifs line : Text) :
    (line.map (Mark.ofChar ifs)).dropWhile Mark.isBlank =
      (line.dropWhile fun c => (Mark.ofChar ifs c).isBlank).map (Mark.ofChar ifs) :=
  List.dropWhile_map

theorem dropWhile_map_isContent (ifs line : Text) :
    (line.map (Mark.ofChar ifs)).dropWhile Mark.isContent =
      (line.dropWhile fun c => (Mark.ofChar ifs c).isContent).map (Mark.ofChar ifs) :=
  List.dropWhile_map

theorem text_map_ofChar {t : Text} (h : ∀ c ∈ t, (Mark.ofChar ifs c).isContent = true) :
    Mark.text (t.map (Mark.ofChar ifs)) = t := by
  have hchar : t.map (Mark.ofChar ifs) = t.map .char := by
    refine List.map_congr_left fun c hc => ?_
    have hsep := h c hc
    rw [isContent_ofChar, Bool.not_eq_true', decide_eq_false_iff_not] at hsep
    exact if_pos hsep
  rw [hchar, Mark.text_map_char]

theorem mem_of_mem_dropWhile {p : Char → Bool} (hc : c ∈ line.dropWhile p) : c ∈ line :=
  (List.dropWhile_sublist p).mem hc

/-- What follows a separator of a line is what follows the delimiter. -/
theorem dropSeparator_bytes (h : ∀ c ∈ line, Apart ifs c) : ∃ rest : Text, (∀ c ∈ rest, c ∈ line) ∧
    rest.map (Mark.ofChar ifs) = Mark.afterDelimiter (line.map (Mark.ofChar ifs)) ∧
      InputByte.dropSeparator (utf8 ifs) (line.flatMap bytesOf) = rest.flatMap bytesOf := by
  unfold InputByte.dropSeparator Mark.afterDelimiter
  rw [dropWhile_blankBytes h, dropWhile_map_isBlank]
  -- after the blanks there may be one other separator, and that is a single byte
  cases hrest : line.dropWhile fun c => (Mark.ofChar ifs c).isBlank with
  | nil => exact ⟨[], fun _ hc => absurd hc List.not_mem_nil, rfl, rfl⟩
  | cons c cs =>
      have hmem : ∀ d ∈ c :: cs, d ∈ line := fun d hd => mem_of_mem_dropWhile (hrest ▸ hd)
      have hc := h c (hmem c List.mem_cons_self)
      have hcs : ∀ d ∈ cs, Apart ifs d := fun d hd => h d (hmem d (List.mem_cons_of_mem c hd))
      have hblank : (Mark.ofChar ifs c).isBlank = false := by
        have hnot := List.head?_dropWhile_not (fun c => (Mark.ofChar ifs c).isBlank) line
        simpa [hrest] using hnot
      by_cases hsep : c ∈ ifs
      · have hmark : Mark.ofChar ifs c = .stop := by
          unfold Mark.ofChar at hblank ⊢
          split_ifs at hblank ⊢ with hlist
          · cases hblank
          · rfl
        have hbytes : bytesOf c = [{ byte := UInt8.ofNat c.toNat }] := by
          rw [bytesOf, Text.utf8Char_ascii (hc.isAscii hsep)]
          rfl
        refine ⟨cs.dropWhile fun c => (Mark.ofChar ifs c).isBlank,
          fun d hd => hmem d (List.mem_cons_of_mem c (mem_of_mem_dropWhile hd)), ?_, ?_⟩
        · rw [List.map_cons, hmark]
          exact (dropWhile_map_isBlank ifs cs).symm
        · have hfirst := hc.isSeparator (b := { byte := UInt8.ofNat c.toNat }) (by simp [hbytes])
          rw [List.flatMap_cons, hbytes, List.singleton_append]
          simp only [hfirst, hsep, decide_true, if_true]
          exact dropWhile_blankBytes hcs
      · have hmark : Mark.ofChar ifs c = .char c := if_pos hsep
        obtain ⟨b, bs, hb⟩ := List.exists_cons_of_ne_nil (bytesOf_ne_nil c)
        have hfirst := hc.isSeparator (b := b) (by simp [hb])
        refine ⟨c :: cs, hmem, ?_, ?_⟩
        · rw [List.map_cons, hmark]
        · rw [List.flatMap_cons, hb, List.cons_append]
          simp only [hfirst, hsep, decide_false, Bool.false_eq_true, if_false]

/-- With enough of them asked for, the fields of a line are those of its marks. -/
theorem takeFields_bytes {n : Nat} (h : ∀ c ∈ line, Apart ifs c)
    (hn : (Mark.closedFields (Mark.segments (line.map (Mark.ofChar ifs)))).length ≤ n) :
    InputByte.takeFields (utf8 ifs) n (line.flatMap bytesOf) =
      (Mark.closedFields (Mark.segments (line.map (Mark.ofChar ifs))), []) := by
  -- each round takes one field with the delimiter after it, on either side
  induction n generalizing line with
  | zero =>
      cases line with
      | nil => rw [List.map_nil, Mark.segments_nil]; rfl
      | cons c cs =>
          rw [List.map_cons, Mark.closedFields_segments (List.cons_ne_nil _ _), List.length_cons] at hn
          exact absurd hn (Nat.not_succ_le_zero _)
  | succ n ih =>
      cases hline : line with
      | nil => rw [List.map_nil, Mark.segments_nil]; rfl
      | cons c cs =>
          rw [← hline]
          have hne : line.map (Mark.ofChar ifs) ≠ [] := by simp [hline]
          have hbytes : line.flatMap bytesOf ≠ [] := by
            rw [hline, List.flatMap_cons]
            exact List.append_ne_nil_of_left_ne_nil (bytesOf_ne_nil c) _
          rw [Mark.closedFields_segments hne] at hn ⊢
          obtain ⟨b, bs, hb⟩ := List.exists_cons_of_ne_nil hbytes
          have hafter : ∀ d ∈ line.dropWhile fun c => (Mark.ofChar ifs c).isContent, Apart ifs d :=
            fun d hd => h d (mem_of_mem_dropWhile hd)
          obtain ⟨rest, hmem, hmarks, hdrop⟩ := dropSeparator_bytes hafter
          rw [dropWhile_map_isContent, ← hmarks] at hn ⊢
          have hrest := ih (fun d hd => hafter d (hmem d hd)) (Nat.le_of_succ_le_succ hn)
          have hfirst : Mark.text ((line.map (Mark.ofChar ifs)).takeWhile Mark.isContent) =
              line.takeWhile fun c => (Mark.ofChar ifs c).isContent := by
            rw [List.takeWhile_map]
            exact text_map_ofChar fun c hc =>
              List.mem_takeWhile_imp (p := Mark.isContent ∘ Mark.ofChar ifs) hc
          rw [hb, InputByte.takeFields, ← hb, takeWhile_bytes h, dropWhile_bytes h, hdrop, hrest,
            text_bytesOf, hfirst]

end

/-- The fields followed by empty ones, `n` in all. -/
def padded (n : Nat) (fields : List Text) : List Text :=
  fields ++ List.replicate (n - fields.length) []

theorem assignFields_padded (names : List Text) (n : Nat) (fields : List Text) :
    Commands.assignFields names (padded n fields) = Commands.assignFields names fields := by
  induction names generalizing n fields with
  | nil => rfl
  | cons name names ih =>
      unfold Commands.assignFields
      cases fields with
      | nil =>
          have htail : (padded n []).tail = padded (n - 1) [] := by
            simp [padded, List.tail_replicate]
          rw [htail, ih]
          cases n <;> rfl
      | cons t ts =>
          have htail : (padded n (t :: ts)).tail = padded (n - 1) ts := by
            simp [padded, Nat.sub_sub, Nat.add_comm]
          rw [htail, ih]
          rfl

/-- With more names than fields, `read` takes all fields, and an empty one if there is none. -/
theorem splitLine_bytes {ifs line : Text} {n : Nat} (h : ∀ c ∈ line, Apart ifs c)
    (hn : (Mark.fields (line.map (Mark.ofChar ifs))).length < n) :
    splitLine (utf8 ifs) n (line.flatMap bytesOf) =
      if Mark.fields (line.map (Mark.ofChar ifs)) = [] then [[]]
      else Mark.fields (line.map (Mark.ofChar ifs)) := by
  rw [Mark.fields_eq, dropWhile_map_isBlank] at hn ⊢
  have hrest : ∀ c ∈ line.dropWhile fun c => (Mark.ofChar ifs c).isBlank, Apart ifs c :=
    fun c hc => h c (mem_of_mem_dropWhile hc)
  unfold splitLine
  rw [dropWhile_blankBytes h, takeFields_bytes hrest (Nat.le_sub_one_of_lt hn)]
  cases hfields : Mark.closedFields _ with
  | nil =>
      rw [hfields] at hn
      have hpos : n ≠ 0 := Nat.ne_of_gt hn
      simp [InputByte.trimEnd, InputByte.text, Text.decode, hpos]
  | cons t ts => simp

/-- `read` cuts a line as expansion cuts the result of a substitution: if no byte outside ASCII is a
byte of both the line and the separators, and there are more names than fields, the names get the
fields, and the names left over get empty values. -/
theorem splitLine_eq_splitFields (names : List Text) (line ifs : Text)
    (hline : ∀ c ∈ line, ¬ IsRaw c)
    (hbytes : ∀ b ∈ Text.encode line, b ∈ utf8 ifs → b.toNat < 0x80)
    (hcount : (splitFields ifs [.substituted line false]).length < names.length) :
    let read := splitLine (utf8 ifs) names.length (InputByte.unescaped (Text.encode line))
    let split := (splitFields ifs [.substituted line false]).map (·.text)
    padded names.length read = padded names.length split ∧
      Commands.assignFields names read = Commands.assignFields names split := by
  have hencode := Text.encode_eq_utf8 hline
  have hapart : ∀ c ∈ line, Apart ifs c := fun c hc b hb =>
    hbytes b (hencode ▸ List.mem_flatMap.mpr ⟨c, hc, hb⟩)
  have hunits : InputByte.unescaped (Text.encode line) = line.flatMap bytesOf := by
    rw [hencode, InputByte.unescaped, utf8, List.map_flatMap]
    rfl
  have hsplit : (splitFields ifs [.substituted line false]).map (·.text) =
      Mark.fields (line.map (Mark.ofChar ifs)) := by
    rw [texts_splitFields ifs (by simp [Piece.substituted]), List.flatMap_singleton]
    rfl
  have hlength := congrArg List.length hsplit
  rw [List.length_map] at hlength
  have hpadded : padded names.length
        (splitLine (utf8 ifs) names.length (InputByte.unescaped (Text.encode line))) =
      padded names.length ((splitFields ifs [.substituted line false]).map (·.text)) := by
    rw [hunits, hsplit, splitLine_bytes hapart (hlength ▸ hcount)]
    split
    next hnil =>
      rw [hnil, padded, padded]
      rw [hlength, hnil] at hcount
      obtain ⟨m, hm⟩ := Nat.exists_eq_succ_of_ne_zero (Nat.ne_of_gt hcount)
      rw [hm]
      rfl
    next => rfl
  refine ⟨hpadded, ?_⟩
  rw [← assignFields_padded names names.length, hpadded, assignFields_padded]

/-- A separator at the end and a character of two bytes. -/
theorem splitLine_eq_splitFields_accent :
    (∀ c ∈ "x : é ".toList, ¬ IsRaw c) ∧
      (∀ b ∈ Text.encode "x : é ", b ∈ utf8 " :" → b.toNat < 0x80) ∧
      padded 3 (splitLine (utf8 " :") 3 (InputByte.unescaped (Text.encode "x : é "))) =
        ["x".toList, "é".toList, []] := by
  have hline : ∀ c ∈ "x : é ".toList, ¬ IsRaw c := by simp [IsRaw, Text.rawBase]
  have hbytes : ∀ b ∈ Text.encode "x : é ", b ∈ utf8 " :" → b.toNat < 0x80 := by decide +kernel
  have h := (splitLine_eq_splitFields ["a".toList, "b".toList, "c".toList] "x : é ".toList " :".toList
    hline hbytes (by decide)).1
  exact ⟨hline, hbytes, h.trans (by decide)⟩

/-- `à` and `é` share their first byte, and with `é` as the separator `à` is torn apart. -/
theorem not_splitLine_eq_splitFields :
    ¬ ∀ (names : List Text) (line ifs : Text), (∀ c ∈ line, ¬ IsRaw c) → (∀ c ∈ ifs, ¬ IsRaw c) →
      (splitFields ifs [.substituted line false]).length < names.length →
      padded names.length
          (splitLine (utf8 ifs) names.length (InputByte.unescaped (Text.encode line))) =
        padded names.length ((splitFields ifs [.substituted line false]).map (·.text)) := by
  intro h
  have heq := h ["a".toList, "b".toList] "à".toList "é".toList
    (by simp [IsRaw, Text.rawBase]) (by simp [IsRaw, Text.rawBase]) (by decide)
  -- the first byte of `à` ends a field before it
  have hread : splitLine (utf8 "é") 2 (InputByte.unescaped (Text.encode "à")) =
      [InputByte.text [], InputByte.text [{ byte := 0xA0 }]] := rfl
  have hempty : InputByte.text [] = [] := by rw [InputByte.text, List.map_nil, Text.decode]
  have hpadded : padded 2 [InputByte.text [], InputByte.text [{ byte := 0xA0 }]] =
      padded 2 ((splitFields "é" [.substituted "à" false]).map (·.text)) := hread ▸ heq
  have hfirst : some (InputByte.text []) = some "à".toList := congrArg List.head? hpadded
  rw [hempty] at hfirst
  exact absurd hfirst (by decide)

end CommandShell.Expansion
