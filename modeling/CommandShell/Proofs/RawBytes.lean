import Mathlib.Data.List.Infix
import CommandShell.Text.Bytes

/-!
# Bytes carried as text

Reading bytes as text and writing the text again gives the bytes back, with one exception: the
block that holds bytes outside UTF-8 is a block of ordinary characters too. A byte sequence that
spells such a character in UTF-8 reads as the character that stands for a single byte, and is
written as that byte. `encode_decode_iff_and_injective` says that this is the only way in which
bytes are lost, and that texts determine the bytes they were read from as long as no such character
is spelled.

The decoder goes through the input in heads: a whole UTF-8 character, or a byte with the bytes that
could have continued it. A head is written back as it was unless it spells a character of the block,
and then it becomes shorter.
-/

namespace CommandShell.Text

/-- A character of the block that holds bytes which are not UTF-8. -/
def IsRaw (c : Char) : Prop := rawBase ≤ c.toNat ∧ c.toNat < rawBase + 0x100

/-- Bytes among which no character of the raw block is spelled in UTF-8. -/
def SpellsNoRaw (bs : List Byte) : Prop := ∀ c, IsRaw c → ¬ utf8Char c <:+: bs

/-! ## Characters and code points -/

theorem toNat_charOfNat {n : Nat} (h : n < 0xD800 ∨ (0xDFFF < n ∧ n < 0x110000)) :
    (Char.ofNat n).toNat = n := by
  have hv : n.isValidChar := h
  rw [Char.ofNat, dif_pos hv]
  rfl

theorem toNat_rawByte (b : Byte) : (rawByte b).toNat = rawBase + b.toNat := by
  have hb : b.toNat < 256 := b.toNat_lt
  apply toNat_charOfNat
  simp only [rawBase]
  omega

theorem encodeChar_of_isRaw {c : Char} (h : IsRaw c) :
    encodeChar c = [UInt8.ofNat (c.toNat - rawBase)] := by
  obtain ⟨h1, h2⟩ := h
  simp [encodeChar, h1, h2]

theorem encodeChar_of_not_isRaw {c : Char} (h : ¬ IsRaw c) : encodeChar c = utf8Char c := by
  unfold IsRaw at h
  simp only [encodeChar, Bool.and_eq_true, decide_eq_true_eq, h, if_false]

/-- A byte that travels alone is written back. -/
@[simp]
theorem encodeChar_rawByte (b : Byte) : encodeChar (rawByte b) = [b] := by
  have hb : b.toNat < 256 := b.toNat_lt
  have hr : IsRaw (rawByte b) := by
    unfold IsRaw
    rw [toNat_rawByte]
    omega
  rw [encodeChar_of_isRaw hr, toNat_rawByte, Nat.add_sub_cancel_left, UInt8.ofNat_toNat]

theorem encode_map_rawByte (bs : List Byte) : encode (bs.map rawByte) = bs := by
  induction bs with
  | nil => rfl
  | cons b bs ih =>
    have hcons : encode ((b :: bs).map rawByte) =
        encodeChar (rawByte b) ++ encode (bs.map rawByte) := rfl
    rw [hcons, ih, encodeChar_rawByte, List.singleton_append]

theorem encode_append (s t : Text) : encode (s ++ t) = encode s ++ encode t :=
  List.flatMap_append

/-! ## UTF-8 forms by length -/

theorem byte_eq_ofNat {b : Byte} {n : Nat} (h : b.toNat = n) : UInt8.ofNat n = b := by
  rw [← h, UInt8.ofNat_toNat]

theorem utf8Char_one {a : Byte} (ha : a.toNat < 0x80) : utf8Char (Char.ofNat a.toNat) = [a] := by
  rw [utf8Char, toNat_charOfNat (by omega), if_pos ha, UInt8.ofNat_toNat]

theorem utf8Char_two {a b : Byte} {n : Nat} (ha : 0xC2 ≤ a.toNat ∧ a.toNat < 0xE0)
    (hb : 0x80 ≤ b.toNat ∧ b.toNat ≤ 0xBF)
    (hn : n = (a.toNat - 0xC0) * 64 + (b.toNat - 0x80)) :
    utf8Char (Char.ofNat n) = [a, b] := by
  rw [utf8Char, toNat_charOfNat (by omega), if_neg (by omega), if_pos (by omega)]
  rw [byte_eq_ofNat (b := a) (by omega), byte_eq_ofNat (b := b) (by omega)]

theorem utf8Char_three {a b c : Byte} {n : Nat} (ha : 0xE0 ≤ a.toNat ∧ a.toNat < 0xF0)
    (hb : 0x80 ≤ b.toNat ∧ b.toNat ≤ 0xBF) (hc : 0x80 ≤ c.toNat ∧ c.toNat ≤ 0xBF)
    (hn : n = ((a.toNat - 0xE0) * 64 + (b.toNat - 0x80)) * 64 + (c.toNat - 0x80))
    (hlong : 0x800 ≤ n) (hsurrogate : n < 0xD800 ∨ 0xDFFF < n) :
    utf8Char (Char.ofNat n) = [a, b, c] := by
  rw [utf8Char, toNat_charOfNat (by omega), if_neg (by omega), if_neg (by omega),
    if_pos (by omega)]
  rw [byte_eq_ofNat (b := a) (by omega), byte_eq_ofNat (b := b) (by omega),
    byte_eq_ofNat (b := c) (by omega)]

theorem utf8Char_four {a b c d : Byte} {n : Nat} (ha : 0xF0 ≤ a.toNat ∧ a.toNat < 0xF5)
    (hb : 0x80 ≤ b.toNat ∧ b.toNat ≤ 0xBF) (hc : 0x80 ≤ c.toNat ∧ c.toNat ≤ 0xBF)
    (hd : 0x80 ≤ d.toNat ∧ d.toNat ≤ 0xBF)
    (hn : n = (((a.toNat - 0xF0) * 64 + (b.toNat - 0x80)) * 64 + (c.toNat - 0x80)) * 64
      + (d.toNat - 0x80))
    (hlong : 0x10000 ≤ n) (hlast : n < 0x110000) :
    utf8Char (Char.ofNat n) = [a, b, c, d] := by
  rw [utf8Char, toNat_charOfNat (by omega), if_neg (by omega), if_neg (by omega),
    if_neg (by omega)]
  rw [byte_eq_ofNat (b := a) (by omega), byte_eq_ofNat (b := b) (by omega),
    byte_eq_ofNat (b := c) (by omega), byte_eq_ofNat (b := d) (by omega)]

theorem length_utf8Char_le (c : Char) : (utf8Char c).length ≤ c.utf8Size := by
  have hsize : c.utf8Size = if c.toNat < 0x80 then 1 else if c.toNat < 0x800 then 2 else
      if c.toNat < 0x10000 then 3 else 4 := by
    unfold Char.utf8Size
    simp only [UInt32.le_iff_toNat_le, ← Nat.lt_succ_iff]
    rfl
  rw [hsize, utf8Char]
  split
  · exact Nat.le_refl 1
  · split
    · exact Nat.le_refl 2
    · split
      · exact Nat.le_refl 3
      · exact Nat.le_refl 4

theorem length_encodeChar_le (c : Char) : (encodeChar c).length ≤ c.utf8Size := by
  unfold encodeChar
  split
  · exact c.utf8Size_pos
  · exact length_utf8Char_le c

/-- A text has no more bytes than its UTF-8 form, in which no byte travels alone. -/
theorem length_encode_le (t : Text) : (encode t).length ≤ utf8Length t := by
  have h : ∀ n, (encode t).length + n ≤ t.foldl (fun n c => n + c.utf8Size) n := by
    induction t with
    | nil => exact fun n => Nat.le_of_eq (Nat.zero_add n)
    | cons c t ih =>
        intro n
        have hc := length_encodeChar_le c
        have ht := ih (n + c.utf8Size)
        rw [List.foldl_cons]
        have hsplit : (encode (c :: t)).length = (encodeChar c).length + (encode t).length :=
          List.length_append
        omega
  exact h 0

/-! ## Heads -/

/-- When all ranges are met, the first byte lies in the first range and the others go on. -/
theorem exists_cons_of_followers {lo hi : Byte} {rs : List (Byte × Byte)} {bs : List Byte}
    (h : followers ((lo, hi) :: rs) bs = ((lo, hi) :: rs).length) :
    ∃ b bs', bs = b :: bs' ∧ (lo.toNat ≤ b.toNat ∧ b.toNat ≤ hi.toNat) ∧
      followers rs bs' = rs.length := by
  cases bs with
  | nil => simp [followers] at h
  | cons b bs' =>
      by_cases hb : lo ≤ b ∧ b ≤ hi
      · have hf : followers rs bs' = rs.length := by simpa [followers, hb] using h
        exact ⟨b, bs', rfl, ⟨UInt8.le_iff_toNat_le.1 hb.1, UInt8.le_iff_toNat_le.1 hb.2⟩, hf⟩
      · simp [followers, hb] at h

/-- The lead byte by its number. -/
theorem leadByte?_eq (b : Byte) : leadByte? b =
    if b.toNat < 0x80 then some (b.toNat, [])
    else if b.toNat < 0xC2 then none
    else if b.toNat < 0xE0 then some (b.toNat - 0xC0, [(0x80, 0xBF)])
    else if b.toNat = 0xE0 then some (0, [(0xA0, 0xBF), (0x80, 0xBF)])
    else if b.toNat = 0xED then some (0xD, [(0x80, 0x9F), (0x80, 0xBF)])
    else if b.toNat < 0xF0 then some (b.toNat - 0xE0, [(0x80, 0xBF), (0x80, 0xBF)])
    else if b.toNat = 0xF0 then some (0, [(0x90, 0xBF), (0x80, 0xBF), (0x80, 0xBF)])
    else if b.toNat < 0xF4 then some (b.toNat - 0xF0, [(0x80, 0xBF), (0x80, 0xBF), (0x80, 0xBF)])
    else if b.toNat = 0xF4 then some (4, [(0x80, 0x8F), (0x80, 0xBF), (0x80, 0xBF)])
    else none := by
  simp only [leadByte?, UInt8.lt_iff_toNat_lt, beq_iff_eq, ← UInt8.toNat_inj, UInt8.reduceToNat]

/-- What a lead byte asks for. `E0`, `ED`, `F0` and `F4` narrow the range of the second byte. -/
theorem leadByte?_cases {b : Byte} {bits : Nat} {ranges : List (Byte × Byte)}
    (h : leadByte? b = some (bits, ranges)) :
    (b.toNat < 0x80 ∧ b.toNat = bits ∧ ranges = []) ∨
    ((0xC2 ≤ b.toNat ∧ b.toNat < 0xE0) ∧ b.toNat - 0xC0 = bits ∧ ranges = [(0x80, 0xBF)]) ∨
    (∃ lo hi : Byte, (0xE0 ≤ b.toNat ∧ b.toNat < 0xF0) ∧ b.toNat - 0xE0 = bits ∧
      ranges = [(lo, hi), (0x80, 0xBF)] ∧ (0x80 ≤ lo.toNat ∧ hi.toNat ≤ 0xBF) ∧
      (b.toNat = 0xE0 → 0xA0 ≤ lo.toNat) ∧ (b.toNat = 0xED → hi.toNat ≤ 0x9F)) ∨
    ∃ lo hi : Byte, (0xF0 ≤ b.toNat ∧ b.toNat < 0xF5) ∧ b.toNat - 0xF0 = bits ∧
      ranges = [(lo, hi), (0x80, 0xBF), (0x80, 0xBF)] ∧ (0x80 ≤ lo.toNat ∧ hi.toNat ≤ 0xBF) ∧
      (b.toNat = 0xF0 → 0x90 ≤ lo.toNat) ∧ (b.toNat = 0xF4 → hi.toNat ≤ 0x8F) := by
  rw [leadByte?_eq] at h
  by_cases h1 : b.toNat < 0x80
  · rw [if_pos h1] at h
    obtain ⟨rfl, rfl⟩ := Prod.mk.inj (Option.some.inj h)
    exact Or.inl ⟨h1, rfl, rfl⟩
  by_cases h2 : b.toNat < 0xC2
  · rw [if_neg h1, if_pos h2] at h
    cases h
  by_cases h3 : b.toNat < 0xE0
  · rw [if_neg h1, if_neg h2, if_pos h3] at h
    obtain ⟨rfl, rfl⟩ := Prod.mk.inj (Option.some.inj h)
    exact Or.inr (Or.inl ⟨⟨Nat.not_lt.mp h2, h3⟩, rfl, rfl⟩)
  rw [if_neg h1, if_neg h2, if_neg h3] at h
  by_cases h4 : b.toNat < 0xF0
  · refine Or.inr (Or.inr (Or.inl ?_))
    by_cases hE0 : b.toNat = 0xE0
    · rw [if_pos hE0] at h
      obtain ⟨rfl, rfl⟩ := Prod.mk.inj (Option.some.inj h)
      exact ⟨0xA0, 0xBF, by omega, by omega, rfl, by decide, fun _ => by decide, by omega⟩
    by_cases hED : b.toNat = 0xED
    · rw [if_neg hE0, if_pos hED] at h
      obtain ⟨rfl, rfl⟩ := Prod.mk.inj (Option.some.inj h)
      exact ⟨0x80, 0x9F, by omega, by omega, rfl, by decide, by omega, fun _ => by decide⟩
    rw [if_neg hE0, if_neg hED, if_pos h4] at h
    obtain ⟨rfl, rfl⟩ := Prod.mk.inj (Option.some.inj h)
    exact ⟨0x80, 0xBF, by omega, rfl, rfl, by decide, by omega, by omega⟩
  · refine Or.inr (Or.inr (Or.inr ?_))
    rw [if_neg (by omega), if_neg (by omega), if_neg h4] at h
    by_cases hF0 : b.toNat = 0xF0
    · rw [if_pos hF0] at h
      obtain ⟨rfl, rfl⟩ := Prod.mk.inj (Option.some.inj h)
      exact ⟨0x90, 0xBF, by omega, by omega, rfl, by decide, fun _ => by decide, by omega⟩
    by_cases h5 : b.toNat < 0xF4
    · rw [if_neg hF0, if_pos h5] at h
      obtain ⟨rfl, rfl⟩ := Prod.mk.inj (Option.some.inj h)
      exact ⟨0x80, 0xBF, by omega, rfl, rfl, by decide, by omega, by omega⟩
    by_cases hF4 : b.toNat = 0xF4
    · rw [if_neg hF0, if_neg h5, if_pos hF4] at h
      obtain ⟨rfl, rfl⟩ := Prod.mk.inj (Option.some.inj h)
      exact ⟨0x80, 0x8F, by omega, by omega, rfl, by decide, by omega, fun _ => by decide⟩
    rw [if_neg hF0, if_neg h5, if_neg hF4] at h
    cases h

/-- A lead byte with all the bytes that it asks for is the UTF-8 form of the character that they
spell. -/
theorem utf8Char_addSixBits {b : Byte} {bits : Nat} {ranges : List (Byte × Byte)}
    {bs : List Byte} (hlead : leadByte? b = some (bits, ranges))
    (hf : followers ranges bs = ranges.length) :
    utf8Char (Char.ofNat (addSixBits bits (bs.take ranges.length))) =
      b :: bs.take ranges.length := by
  rcases leadByte?_cases hlead with ⟨hb, rfl, rfl⟩ | ⟨hb, rfl, rfl⟩ |
    ⟨lo, hi, hb, rfl, rfl, hrange, hE0, hED⟩ | ⟨lo, hi, hb, rfl, rfl, hrange, hF0, hF4⟩
  · exact utf8Char_one hb
  · obtain ⟨c, bs', rfl, hc, -⟩ := exists_cons_of_followers hf
    exact utf8Char_two hb hc rfl
  · obtain ⟨c, bs', rfl, hc, hf⟩ := exists_cons_of_followers hf
    obtain ⟨d, bs', rfl, hd, -⟩ := exists_cons_of_followers hf
    simp only [UInt8.reduceToNat] at hd
    show utf8Char (Char.ofNat (((b.toNat - 0xE0) * 64 + (c.toNat - 0x80)) * 64 + (d.toNat - 0x80))) =
      [b, c, d]
    refine utf8Char_three hb (by omega) hd rfl ?_ ?_ <;> omega
  · obtain ⟨c, bs', rfl, hc, hf⟩ := exists_cons_of_followers hf
    obtain ⟨d, bs', rfl, hd, hf⟩ := exists_cons_of_followers hf
    obtain ⟨e, bs', rfl, he, -⟩ := exists_cons_of_followers hf
    simp only [UInt8.reduceToNat] at hd he
    show utf8Char (Char.ofNat ((((b.toNat - 0xF0) * 64 + (c.toNat - 0x80)) * 64 + (d.toNat - 0x80)) * 64
      + (e.toNat - 0x80))) = [b, c, d, e]
    refine utf8Char_four hb (by omega) hd he rfl ?_ ?_ <;> omega

/-- The bytes that a head is made of after its first one. -/
def headTail (b : Byte) (bs : List Byte) : List Byte := bs.take (decodeHead b bs).2

theorem decode_cons (b : Byte) (bs : List Byte) :
    decode (b :: bs) = (decodeHead b bs).1 ++ decode (bs.drop (decodeHead b bs).2) := by
  rw [decode]

/-- A head either carries its bytes one by one, or it is the character that they spell. -/
theorem decodeHead_cases (b : Byte) (bs : List Byte) :
    (decodeHead b bs).1 = (b :: headTail b bs).map rawByte ∨
      ∃ c, (decodeHead b bs).1 = [c] ∧ utf8Char c = b :: headTail b bs := by
  unfold headTail decodeHead
  cases hlead : leadByte? b with
  | none => exact Or.inl (by simp)
  | some lead =>
      obtain ⟨bits, ranges⟩ := lead
      by_cases hf : followers ranges bs = ranges.length
      · have hspell := utf8Char_addSixBits hlead hf
        refine Or.inr ⟨Char.ofNat (addSixBits bits (bs.take ranges.length)), ?_, ?_⟩
        · simp [hf]
        · simpa [hf] using hspell
      · exact Or.inl (by simp [hf])

/-- A head is written back as it was unless it spells a character of the raw block. -/
theorem encode_decodeHead (b : Byte) (bs : List Byte) :
    encode (decodeHead b bs).1 = b :: headTail b bs ∨
      ∃ c, IsRaw c ∧ utf8Char c = b :: headTail b bs ∧
        encode (decodeHead b bs).1 = [UInt8.ofNat (c.toNat - rawBase)] := by
  rcases decodeHead_cases b bs with h | ⟨c, h, hspell⟩
  · rw [h]
    exact Or.inl (encode_map_rawByte _)
  · have henc : encode [c] = encodeChar c := List.append_nil _
    rw [h, henc]
    by_cases hc : IsRaw c
    · exact Or.inr ⟨c, hc, hspell, encodeChar_of_isRaw hc⟩
    · exact Or.inl ((encodeChar_of_not_isRaw hc).trans hspell)

/-! ## Characters of the raw block in UTF-8 -/

/-- The UTF-8 form of a character of the raw block: `EF`, then a byte from `9C` to `9F`, then any
continuation byte. -/
theorem utf8Char_of_isRaw {c : Char} (h : IsRaw c) :
    ∃ x y : Byte, utf8Char c = [0xEF, x, y] ∧ (0x9C ≤ x.toNat ∧ x.toNat ≤ 0x9F) ∧
      (0x80 ≤ y.toNat ∧ y.toNat ≤ 0xBF) ∧ addSixBits 0xF [x, y] = c.toNat := by
  obtain ⟨h1, h2⟩ := h
  simp only [rawBase] at h1 h2
  have hx : (UInt8.ofNat (0x80 + c.toNat / 64 % 64)).toNat = 0x80 + c.toNat / 64 % 64 := by
    rw [UInt8.toNat_ofNat']
    omega
  have hy : (UInt8.ofNat (0x80 + c.toNat % 64)).toNat = 0x80 + c.toNat % 64 := by
    rw [UInt8.toNat_ofNat']
    omega
  refine ⟨UInt8.ofNat (0x80 + c.toNat / 64 % 64), UInt8.ofNat (0x80 + c.toNat % 64), ?_, ?_, ?_, ?_⟩
  · rw [utf8Char, if_neg (by omega), if_neg (by omega), if_pos (by omega)]
    have hfirst : 0xE0 + c.toNat / 4096 = 0xEF := by omega
    rw [hfirst]
    rfl
  · omega
  · omega
  · simp only [addSixBits, List.foldl_cons, List.foldl_nil, hx, hy]
    omega

/-- Bytes that continue a character lie below `C0`. -/
theorem toNat_lt_of_mem_followers {ranges : List (Byte × Byte)} {bs : List Byte} {x : Byte}
    (hr : ∀ r ∈ ranges, r.2.toNat ≤ 0xBF) (hx : x ∈ bs.take (followers ranges bs)) :
    x.toNat < 0xC0 := by
  induction ranges generalizing bs with
  | nil => simp [followers] at hx
  | cons r rs ih =>
      obtain ⟨lo, hi⟩ := r
      cases bs with
      | nil => simp [followers] at hx
      | cons b bs =>
          by_cases hb : lo ≤ b ∧ b ≤ hi
          · simp only [followers, Bool.and_eq_true, decide_eq_true_eq, hb, and_self, if_true,
              List.take_succ_cons, List.mem_cons] at hx
            rcases hx with rfl | hx
            · have h1 := UInt8.le_iff_toNat_le.1 hb.2
              have h2 : hi.toNat ≤ 0xBF := hr (lo, hi) List.mem_cons_self
              omega
            · exact ih (fun r hr' => hr r (List.mem_cons_of_mem _ hr')) hx
          · simp [followers, hb] at hx

theorem leadByte?_ranges {b : Byte} {bits : Nat} {ranges : List (Byte × Byte)}
    (h : leadByte? b = some (bits, ranges)) : ∀ r ∈ ranges, r.2.toNat ≤ 0xBF := by
  rcases leadByte?_cases h with ⟨-, -, rfl⟩ | ⟨-, -, rfl⟩ | ⟨lo, hi, -, -, rfl, hrange, -⟩ |
    ⟨lo, hi, -, -, rfl, hrange, -⟩
  · simp
  · simp
  · simp [hrange]
  · simp [hrange]

theorem toNat_lt_of_mem_headTail {b x : Byte} {bs : List Byte} (h : x ∈ headTail b bs) :
    x.toNat < 0xC0 := by
  unfold headTail decodeHead at h
  cases hlead : leadByte? b with
  | none => simp [hlead] at h
  | some lead =>
      obtain ⟨bits, ranges⟩ := lead
      have hx : x ∈ bs.take (followers ranges bs) := by
        by_cases hf : followers ranges bs = ranges.length
        · simpa [hlead, hf] using h
        · simpa [hlead, hf] using h
      exact toNat_lt_of_mem_followers (leadByte?_ranges hlead) hx

/-- A spelled character of the raw block at the front is read as that character. -/
theorem decodeHead_of_isRaw {c : Char} (hc : IsRaw c) {b : Byte} {bs : List Byte}
    (h : utf8Char c <+: b :: bs) : decodeHead b bs = ([c], 2) := by
  obtain ⟨x, y, hxy, hx, hy, hcode⟩ := utf8Char_of_isRaw hc
  rw [hxy] at h
  obtain ⟨rest, hrest⟩ := h
  simp only [List.cons_append, List.nil_append, List.cons.injEq] at hrest
  obtain ⟨rfl, rfl⟩ := hrest
  have hlead : leadByte? 0xEF = some (0xF, [(0x80, 0xBF), (0x80, 0xBF)]) := by decide
  have hx' : (0x80 : Byte) ≤ x ∧ x ≤ 0xBF := by
    simp only [UInt8.le_iff_toNat_le, UInt8.reduceToNat]
    omega
  have hy' : (0x80 : Byte) ≤ y ∧ y ≤ 0xBF := by
    simp only [UInt8.le_iff_toNat_le, UInt8.reduceToNat]
    omega
  simp [decodeHead, hlead, followers, hx', hy', hcode]

/-- An infix whose first element is not among the first `n` starts after them. -/
theorem infix_drop_of_not_mem_take {α : Type} {a : α} {l bs : List α} {n : Nat}
    (ha : a ∉ bs.take n) (h : a :: l <:+: bs) : a :: l <:+: bs.drop n := by
  induction n generalizing bs with
  | zero => exact h
  | succ n ih =>
      cases bs with
      | nil => exact h
      | cons b bs =>
          simp only [List.take_succ_cons, List.mem_cons, not_or] at ha
          rcases List.infix_cons_iff.1 h with hpre | hin
          · exact absurd (List.cons_prefix_cons.1 hpre).1 ha.1
          · exact ih ha.2 hin

/-! ## Round trip -/

theorem length_headTail_add (b : Byte) (bs : List Byte) :
    (headTail b bs).length + (bs.drop (decodeHead b bs).2).length = bs.length := by
  rw [headTail, ← List.length_append, List.take_append_drop]

theorem encode_decode_cons (b : Byte) (bs : List Byte) :
    encode (decode (b :: bs)) =
      encode (decodeHead b bs).1 ++ encode (decode (bs.drop (decodeHead b bs).2)) := by
  rw [decode_cons, encode_append]

/-- A head becomes no longer. -/
theorem length_encode_decodeHead_le (b : Byte) (bs : List Byte) :
    (encode (decodeHead b bs).1).length ≤ (headTail b bs).length + 1 := by
  rcases encode_decodeHead b bs with h | ⟨c, -, -, h⟩
  · rw [h, List.length_cons]
  · rw [h, List.length_singleton]
    omega

/-- Induction along the heads of a byte sequence. -/
theorem head_induction {motive : List Byte → Prop} (nil : motive [])
    (cons : ∀ b bs, motive (bs.drop (decodeHead b bs).2) → motive (b :: bs)) :
    ∀ bs, motive bs
  | [] => nil
  | b :: bs => cons b bs (head_induction nil cons (bs.drop (decodeHead b bs).2))
termination_by bs => bs.length
decreasing_by
  rw [List.length_drop, List.length_cons]
  omega

theorem length_encode_decode_le (bs : List Byte) : (encode (decode bs)).length ≤ bs.length := by
  induction bs using head_induction with
  | nil => simp [decode, encode]
  | cons b bs ih =>
      have hle := length_encode_decodeHead_le b bs
      have hsum := length_headTail_add b bs
      rw [encode_decode_cons, List.length_append, List.length_cons]
      omega

/-- Bytes that spell a character of the raw block become fewer. -/
theorem length_encode_decode_lt {c : Char} (hc : IsRaw c) {bs : List Byte}
    (h : utf8Char c <:+: bs) : (encode (decode bs)).length < bs.length := by
  obtain ⟨x, y, hxy, -⟩ := utf8Char_of_isRaw hc
  induction bs using head_induction with
  | nil =>
      rw [hxy] at h
      simp at h
  | cons b bs ih =>
      have hsum := length_headTail_add b bs
      rw [encode_decode_cons, List.length_append, List.length_cons]
      rcases List.infix_cons_iff.1 h with hpre | hin
      · have hhead := decodeHead_of_isRaw hc hpre
        have hone : (encode [c]).length = 1 := by simp [encode, encodeChar_of_isRaw hc]
        have hle := length_encode_decode_le (bs.drop (decodeHead b bs).2)
        have hlen : 3 ≤ (b :: bs).length := by
          have := hpre.length_le
          rw [hxy] at this
          exact this
        simp only [hhead, List.length_drop, List.length_cons] at hle hlen ⊢
        omega
      · -- a head goes on with continuation bytes, and `EF` is none
        have hnot : (0xEF : Byte) ∉ bs.take (decodeHead b bs).2 := by
          intro hmem
          exact absurd (toNat_lt_of_mem_headTail hmem) (by decide)
        rw [hxy] at hin ih
        have hlt := ih (infix_drop_of_not_mem_take hnot hin)
        have hle := length_encode_decodeHead_le b bs
        omega

/-- Bytes among which no character of the raw block is spelled come back. -/
theorem encode_decode_of_spellsNoRaw {bs : List Byte} (h : SpellsNoRaw bs) :
    encode (decode bs) = bs := by
  induction bs using head_induction with
  | nil => simp [decode, encode]
  | cons b bs ih =>
      have hdrop : SpellsNoRaw (bs.drop (decodeHead b bs).2) := by
        intro c hc hin
        have htail : bs.drop (decodeHead b bs).2 <:+ b :: bs :=
          (List.drop_suffix _ _).trans (List.suffix_cons b bs)
        exact h c hc (hin.trans htail.isInfix)
      rw [encode_decode_cons, ih hdrop]
      rcases encode_decodeHead b bs with hhead | ⟨c, hc, hspell, -⟩
      · rw [hhead, headTail, List.cons_append, List.take_append_drop]
      · refine absurd ?_ (h c hc)
        rw [hspell, headTail]
        exact (List.cons_prefix_cons.2 ⟨rfl, List.take_prefix _ _⟩).isInfix

/-- Reading bytes as text and writing the text gives the bytes back exactly when no character of
the raw block is spelled among them; and then they are the only such bytes that read as their
text. -/
theorem encode_decode_iff_and_injective (bs : List Byte) :
    (encode (decode bs) = bs ↔ SpellsNoRaw bs) ∧
      (SpellsNoRaw bs → ∀ bs', SpellsNoRaw bs' → decode bs' = decode bs → bs' = bs) := by
  refine ⟨⟨?_, encode_decode_of_spellsNoRaw⟩, ?_⟩
  · intro hback c hc hin
    have hlt := length_encode_decode_lt hc hin
    rw [hback] at hlt
    exact Nat.lt_irrefl _ hlt
  · intro hbs bs' hbs' heq
    rw [← encode_decode_of_spellsNoRaw hbs', heq, encode_decode_of_spellsNoRaw hbs]

/-- The UTF-8 form of `U+F780` is written as the one byte `80`, which reads as the same text. -/
theorem decode_not_injective_at_raw_character :
    encode (decode [0xEF, 0x9E, 0x80]) = [0x80] ∧ decode [0xEF, 0x9E, 0x80] = decode [0x80] := by
  have h : decode [0xEF, 0x9E, 0x80] = decode [0x80] := by
    simp [decode, decodeHead, leadByte?, followers, addSixBits, rawByte, rawBase]
  refine ⟨?_, h⟩
  rw [h]
  simp [decode, decodeHead, leadByte?, encode]

end CommandShell.Text
