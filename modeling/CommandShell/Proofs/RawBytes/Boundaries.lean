import CommandShell.Proofs.RawBytes
import CommandShell.Text.Name

/-!
# Texts as bytes

Where the bytes of a text may be cut, and which texts come back from their bytes.
-/

/-!
## Texts that survive as bytes

A text survives if its bytes are read as the text again. A byte of ASCII is part of no other character, so
the text before it and the text after it are read on their own, and a text survives exactly if they do
(`survives_append_cons`). Quoting adds nothing but ASCII: what survives does so in quotes
(`survives_quote`).
-/

namespace CommandShell.Text

/-- The bytes of the text are read as the text. -/
def Survives (t : Text) : Prop := decode (encode t) = t

/-- A character of ASCII. -/
def IsAscii (c : Char) : Prop := c.toNat < 0x80

instance (c : Char) : Decidable (IsAscii c) := inferInstanceAs (Decidable (c.toNat < 0x80))

/-- A text of ASCII. -/
def AllAscii (t : Text) : Prop := ∀ c ∈ t, IsAscii c

-- goes through the text, and not through all the characters that there are
instance (t : Text) : Decidable (AllAscii t) := List.decidableBAll IsAscii t

theorem allAscii_append {t u : Text} : AllAscii (t ++ u) ↔ AllAscii t ∧ AllAscii u :=
  List.forall_mem_append

/-! ### Bytes of ASCII -/

theorem leadByte?_continues {b : Byte} {bits : Nat} {ranges : List (Byte × Byte)}
    (h : leadByte? b = some (bits, ranges)) : ∀ r ∈ ranges, (0x80 : Byte) ≤ r.1 := by
  rcases leadByte?_cases h with ⟨-, -, rfl⟩ | ⟨-, -, rfl⟩ | ⟨lo, hi, -, -, rfl, hrange, -⟩ |
    ⟨lo, hi, -, -, rfl, hrange, -⟩
  · simp
  · simp
  · simpa [UInt8.le_iff_toNat_le] using hrange.1
  · simpa [UInt8.le_iff_toNat_le] using hrange.1

theorem followers_append {ranges : List (Byte × Byte)} (hr : ∀ r ∈ ranges, (0x80 : Byte) ≤ r.1) {b : Byte}
    (hb : b < 0x80) (bs bs' : List Byte) :
    followers ranges (bs ++ b :: bs') = followers ranges bs ∧ followers ranges bs ≤ bs.length := by
  induction ranges generalizing bs with
  | nil => simp [followers]
  | cons r ranges ih =>
      obtain ⟨lo, hi⟩ := r
      cases bs with
      | nil =>
          have hlo : ¬ lo ≤ b := fun h =>
            absurd (UInt8.lt_of_lt_of_le hb (hr (lo, hi) List.mem_cons_self)) (UInt8.not_lt.mpr h)
          simp [followers, hlo]
      | cons a bs =>
          obtain ⟨heq, hle⟩ := ih (fun r h => hr r (List.mem_cons_of_mem _ h)) bs
          rw [List.cons_append, followers, followers]
          split
          · exact ⟨congrArg (· + 1) heq, Nat.succ_le_succ hle⟩
          · exact ⟨rfl, Nat.zero_le _⟩

/-- No head goes on with a byte of ASCII. -/
theorem decodeHead_append {b : Byte} (hb : b < 0x80) (a : Byte) (bs bs' : List Byte) :
    decodeHead a (bs ++ b :: bs') = decodeHead a bs ∧ (decodeHead a bs).2 ≤ bs.length := by
  unfold decodeHead
  cases hlead : leadByte? a with
  | none => exact ⟨rfl, Nat.zero_le _⟩
  | some lead =>
      obtain ⟨bits, ranges⟩ := lead
      obtain ⟨heq, hle⟩ := followers_append (leadByte?_continues hlead) hb bs bs'
      simp only [heq, List.take_append_of_le_length hle, true_and]
      split
      · exact hle
      · exact hle

/-- What is before a byte of ASCII is read on its own. -/
theorem decode_append {b : Byte} (hb : b < 0x80) (bs bs' : List Byte) :
    decode (bs ++ b :: bs') = decode bs ++ decode (b :: bs') := by
  induction bs using head_induction with
  | nil => rw [decode, List.nil_append, List.nil_append]
  | cons a bs ih =>
      obtain ⟨heq, hle⟩ := decodeHead_append hb a bs bs'
      rw [List.cons_append, decode_cons, decode_cons a bs, heq, List.drop_append_of_le_length hle, ih,
        List.append_assoc]

theorem toNat_byte_ascii {c : Char} (hc : IsAscii c) : (UInt8.ofNat c.toNat).toNat = c.toNat := by
  unfold IsAscii at hc
  rw [UInt8.toNat_ofNat']
  omega

theorem byte_lt_of_ascii {c : Char} (hc : IsAscii c) : UInt8.ofNat c.toNat < 0x80 := by
  rw [UInt8.lt_iff_toNat_lt, toNat_byte_ascii hc]
  exact hc

theorem decodeHead_ascii {c : Char} (hc : IsAscii c) (bs : List Byte) :
    decodeHead (UInt8.ofNat c.toNat) bs = ([c], 0) := by
  simp [decodeHead, leadByte?, byte_lt_of_ascii hc, followers, addSixBits, toNat_byte_ascii hc]

theorem decode_ascii_cons {c : Char} (hc : IsAscii c) (bs : List Byte) :
    decode (UInt8.ofNat c.toNat :: bs) = c :: decode bs := by
  rw [decode_cons, decodeHead_ascii hc]
  rfl

theorem utf8Char_ascii {c : Char} (hc : IsAscii c) : utf8Char c = [UInt8.ofNat c.toNat] := if_pos hc

theorem encodeChar_ascii {c : Char} (hc : IsAscii c) : encodeChar c = [UInt8.ofNat c.toNat] := by
  have hraw : ¬ IsRaw c := by
    rintro ⟨h, -⟩
    unfold IsAscii at hc
    unfold rawBase at h
    omega
  rw [encodeChar_of_not_isRaw hraw, utf8Char_ascii hc]

theorem encode_append_cons {c : Char} (hc : IsAscii c) (t u : Text) :
    encode (t ++ c :: u) = encode t ++ UInt8.ofNat c.toNat :: encode u := by
  rw [encode_append]
  show encode t ++ (encodeChar c ++ encode u) = _
  rw [encodeChar_ascii hc]
  rfl

/-- A character of ASCII that a head gives is the only one of it. -/
theorem decodeHead_of_mem {c : Char} (hc : IsAscii c) {b : Byte} {bs : List Byte}
    (h : c ∈ (decodeHead b bs).1) : b = UInt8.ofNat c.toNat ∧ decodeHead b bs = ([c], 0) := by
  have hb : b = UInt8.ofNat c.toNat := by
    rcases decodeHead_cases b bs with hraw | ⟨d, hone, hspell⟩
    · rw [hraw] at h
      obtain ⟨x, -, rfl⟩ := List.mem_map.mp h
      unfold IsAscii at hc
      rw [toNat_rawByte] at hc
      unfold rawBase at hc
      omega
    · rw [hone] at h
      obtain rfl := List.mem_singleton.mp h
      rw [utf8Char_ascii hc] at hspell
      exact (List.cons.inj hspell).1.symm
  exact ⟨hb, hb ▸ decodeHead_ascii hc bs⟩

/-- A character of ASCII was read from its byte, and what stands before it from the bytes before. -/
theorem exists_of_decode_eq {c : Char} (hc : IsAscii c) {bs : List Byte} {t u : Text}
    (h : decode bs = t ++ c :: u) :
    ∃ bs₁ bs₂, bs = bs₁ ++ UInt8.ofNat c.toNat :: bs₂ ∧ decode bs₁ = t := by
  have hlt := byte_lt_of_ascii hc
  induction bs using head_induction generalizing t with
  | nil => simp [decode] at h
  | cons b bs ih =>
      have hle := (decodeHead_append hlt b bs []).2
      rw [decode_cons] at h
      -- the character comes after the head, or is the head
      have hafter : (∃ v, t = (decodeHead b bs).1 ++ v ∧
          decode (bs.drop (decodeHead b bs).2) = v ++ c :: u) ∨ c ∈ (decodeHead b bs).1 ∧ t = [] := by
        rcases List.append_eq_append_iff.mp h with ⟨v, ht, hv⟩ | ⟨v, hhead, hv⟩
        · exact .inl ⟨v, ht, hv⟩
        · cases v with
          | nil => exact .inl ⟨[], by rw [hhead, List.append_nil, List.append_nil], hv.symm⟩
          | cons d v =>
              obtain ⟨rfl, -⟩ := List.cons.inj hv
              have hmem : c ∈ (decodeHead b bs).1 := by simp [hhead]
              have hone := (decodeHead_of_mem hc hmem).2
              rw [hone] at hhead
              refine .inr ⟨hmem, ?_⟩
              cases t with
              | nil => rfl
              | cons e t => simp at hhead
      rcases hafter with ⟨v, rfl, hv⟩ | ⟨hmem, rfl⟩
      · obtain ⟨bs₁, bs₂, hbs, hread⟩ := ih hv
        have hsplit : bs = (headTail b bs ++ bs₁) ++ UInt8.ofNat c.toNat :: bs₂ := by
          rw [List.append_assoc, ← hbs, headTail, List.take_append_drop]
        have hhead : decodeHead b (headTail b bs ++ bs₁) = decodeHead b bs := by
          have happend := (decodeHead_append hlt b (headTail b bs ++ bs₁) bs₂).1
          rw [← hsplit] at happend
          exact happend.symm
        refine ⟨b :: (headTail b bs ++ bs₁), bs₂, congrArg (b :: ·) hsplit, ?_⟩
        have hlength : (headTail b bs).length = (decodeHead b bs).2 :=
          List.length_take_of_le hle
        rw [decode_cons, hhead, ← hlength, List.drop_left, hread]
      · exact ⟨[], bs, by rw [(decodeHead_of_mem hc hmem).1]; rfl, by rw [decode]⟩

/-! ### Surviving texts -/

theorem survives_nil : Survives [] := by
  unfold Survives
  rw [encode, List.flatMap_nil, decode]

theorem Survives.spellsNoRaw {t : Text} (h : Survives t) : SpellsNoRaw (encode t) := by
  intro c hc hin
  have hlt := length_encode_decode_lt hc hin
  rw [show decode (encode t) = t from h] at hlt
  exact Nat.lt_irrefl _ hlt

/-- A text survives if the parts around a character of ASCII do. -/
theorem survives_append_cons {c : Char} (hc : IsAscii c) (t u : Text) :
    Survives (t ++ c :: u) ↔ Survives t ∧ Survives u := by
  have hlt := byte_lt_of_ascii hc
  have hdecode : decode (encode (t ++ c :: u)) = decode (encode t) ++ c :: decode (encode u) := by
    rw [encode_append_cons hc, decode_append hlt, decode_ascii_cons hc]
  constructor
  · intro h
    have hnone := h.spellsNoRaw
    obtain ⟨bs₁, bs₂, hbs, hread⟩ := exists_of_decode_eq hc h
    have hbefore : SpellsNoRaw bs₁ := by
      intro d hd hin
      exact hnone d hd (hin.trans (hbs ▸ (List.prefix_append _ _).isInfix))
    have ht : Survives t := by
      unfold Survives
      rw [← hread, encode_decode_of_spellsNoRaw hbefore]
    refine ⟨ht, ?_⟩
    have hwhole : decode (encode t) ++ c :: decode (encode u) = t ++ c :: u := hdecode ▸ h
    rw [show decode (encode t) = t from ht] at hwhole
    exact (List.cons.inj (List.append_cancel_left hwhole)).2
  · rintro ⟨ht, hu⟩
    show decode (encode (t ++ c :: u)) = _
    rw [hdecode, show decode (encode t) = t from ht, show decode (encode u) = u from hu]

theorem survives_cons {c : Char} (hc : IsAscii c) (t : Text) : Survives (c :: t) ↔ Survives t := by
  rw [← List.nil_append (c :: t), survives_append_cons hc]
  exact and_iff_right survives_nil

theorem survives_ascii_append {t : Text} (ht : AllAscii t) (u : Text) :
    Survives (t ++ u) ↔ Survives u := by
  induction t with
  | nil => rfl
  | cons c t ih =>
      rw [List.cons_append, survives_cons (ht c List.mem_cons_self),
        ih fun d hd => ht d (List.mem_cons_of_mem c hd)]

theorem survives_of_ascii {t : Text} (ht : AllAscii t) : Survives t := by
  rw [← List.append_nil t, survives_ascii_append ht]
  exact survives_nil

theorem isAscii_of_isPlainChar {c : Char} (hc : isPlainChar c = true) : IsAscii c := by
  unfold isPlainChar at hc
  simp only [Bool.or_eq_true, isLetter, isDigit, Bool.and_eq_true, decide_eq_true_eq] at hc
  have hle : ∀ d : Char, IsAscii d → c ≤ d → IsAscii c := fun d hd h =>
    Nat.lt_of_le_of_lt (Char.le_def.mp h) hd
  rcases hc with ((⟨-, h⟩ | ⟨-, h⟩) | ⟨-, h⟩) | h
  · exact hle 'z' (by decide) h
  · exact hle 'Z' (by decide) h
  · exact hle '9' (by decide) h
  · have hall : AllAscii "_-./:,=+@%" := by decide
    exact hall c (List.contains_iff_mem.mp h)

theorem survives_append_quoteBody (t v : Text) : Survives (t ++ quoteBody v) ↔ Survives (t ++ v) := by
  have hquote : IsAscii '\'' := by decide
  induction v generalizing t with
  | nil => rfl
  | cons c v ih =>
      by_cases hc : c = '\''
      · subst hc
        show Survives (t ++ '\'' :: '\\' :: '\'' :: '\'' :: quoteBody v) ↔ _
        rw [survives_append_cons hquote, survives_append_cons hquote, survives_cons (by decide),
          survives_cons hquote, survives_cons hquote]
        exact and_congr_right' (ih [])
      · have hmoved := ih (t ++ [c])
        rw [List.append_assoc, List.append_assoc] at hmoved
        rw [quoteBody_cons hc]
        exact hmoved

/-- A quoted text survives if the text does. -/
theorem survives_quote (v : Text) : Survives (quote v) ↔ Survives v := by
  have hquote : IsAscii '\'' := by decide
  unfold quote
  split
  · rfl
  · show Survives ('\'' :: (quoteBody v ++ '\'' :: [])) ↔ _
    rw [survives_cons hquote, survives_append_cons hquote]
    exact (and_iff_left survives_nil).trans (survives_append_quoteBody [] v)

/-- A quoted text between texts of ASCII. -/
theorem survives_quote_between {pre post : Text} (hpre : AllAscii pre) (hpost : AllAscii post)
    (hne : post ≠ []) (v u : Text) :
    Survives (pre ++ quote v ++ post ++ u) ↔ Survives v ∧ Survives u := by
  obtain ⟨c, post, rfl⟩ := List.exists_cons_of_ne_nil hne
  rw [List.append_assoc, List.append_assoc, survives_ascii_append hpre, List.cons_append,
    survives_append_cons (hpost c List.mem_cons_self), survives_quote,
    survives_ascii_append fun d hd => hpost d (List.mem_cons_of_mem c hd)]

/-- Characters that do not survive: they are written as the bytes of `'\\''`. -/
def disguisedQuote : Text := "'\\''".toList.map fun c => Char.ofNat (rawBase + c.toNat)

/-- A text of parts survives if the parts do. -/
theorem survives_flatMap {α : Type} {f : α → Text} {P : α → Prop} {l : List α}
    (h : ∀ b ∈ l, ∀ u, Survives (f b ++ u) ↔ P b ∧ Survives u) :
    Survives (l.flatMap f) ↔ ∀ b ∈ l, P b := by
  induction l with
  | nil => simpa using survives_nil
  | cons b l ih =>
      rw [List.flatMap_cons, h b List.mem_cons_self,
        ih fun c hc => h c (List.mem_cons_of_mem b hc), List.forall_mem_cons]

end CommandShell.Text

/-!
## Texts spelled in UTF-8

The UTF-8 form of every text is read as the text (`decode_utf8`). A byte of ASCII stands in it for the
character of ASCII and for nothing else (`byte_mem_utf8`).
-/

namespace CommandShell.Text

/-! ### One character -/

theorem followers_append_of_full {ranges : List (Byte × Byte)} {tail : List Byte}
    (h : followers ranges tail = ranges.length) (bs : List Byte) :
    followers ranges (tail ++ bs) = ranges.length := by
  induction ranges generalizing tail with
  | nil => cases tail <;> simp [followers]
  | cons r ranges ih =>
      obtain ⟨lo, hi⟩ := r
      obtain ⟨b, tail, rfl, hb, hrest⟩ := exists_cons_of_followers h
      have hin : lo ≤ b ∧ b ≤ hi := ⟨UInt8.le_iff_toNat_le.2 hb.1, UInt8.le_iff_toNat_le.2 hb.2⟩
      simp [followers, hin, ih hrest]

/-- A lead byte with the bytes that it asks for is read as the character that they spell. -/
theorem decode_lead {b : Byte} {bits : Nat} {ranges : List (Byte × Byte)} {tail : List Byte}
    (hlead : leadByte? b = some (bits, ranges)) (hf : followers ranges tail = ranges.length)
    (hlength : tail.length = ranges.length) (bs : List Byte) :
    decode (b :: tail ++ bs) = Char.ofNat (addSixBits bits tail) :: decode bs := by
  have hhead : decodeHead b (tail ++ bs) = ([Char.ofNat (addSixBits bits tail)], tail.length) := by
    simp [decodeHead, hlead, followers_append_of_full hf bs, ← hlength]
  rw [List.cons_append, decode_cons, hhead, List.drop_left]
  rfl

/-- The code points that name characters. -/
theorem toNat_isValid (c : Char) : c.toNat < 0xD800 ∨ (0xDFFF < c.toNat ∧ c.toNat < 0x110000) := c.valid

theorem toNat_byte {n : Nat} (h : n < 0x100) : (UInt8.ofNat n).toNat = n := by
  rw [UInt8.toNat_ofNat', Nat.mod_eq_of_lt h]

/-- A byte in the first range goes on with the character. -/
theorem followers_cons {lo hi b : Byte} (hlo : lo.toNat ≤ b.toNat) (hhi : b.toNat ≤ hi.toNat)
    (ranges : List (Byte × Byte)) (bs : List Byte) :
    followers ((lo, hi) :: ranges) (b :: bs) = followers ranges bs + 1 := by
  simp [followers, UInt8.le_iff_toNat_le, hlo, hhi]

theorem decode_two {a b : Byte} {n : Nat} (ha : a.toNat = 0xC0 + n / 64)
    (hb : b.toNat = 0x80 + n % 64) (hlow : 0x80 ≤ n) (hhigh : n < 0x800) (bs : List Byte) :
    decode ([a, b] ++ bs) = Char.ofNat n :: decode bs := by
  have hlead : leadByte? a = some (n / 64, [(0x80, 0xBF)]) := by
    rw [leadByte?_eq, if_neg (by omega), if_neg (by omega), if_pos (by omega), ha,
      Nat.add_sub_cancel_left]
  have hf : followers [(0x80, 0xBF)] [b] = 1 :=
    followers_cons (by rw [hb]; exact Nat.le_add_right _ _) (by simp [hb]; omega) [] []
  have hcode : addSixBits (n / 64) [b] = n := by
    simp only [addSixBits, List.foldl_cons, List.foldl_nil, hb]
    omega
  have h := decode_lead hlead hf rfl bs
  rwa [hcode] at h

theorem decode_three {a b c : Byte} {n : Nat} (ha : a.toNat = 0xE0 + n / 4096)
    (hb : b.toNat = 0x80 + n / 64 % 64) (hc : c.toNat = 0x80 + n % 64) (hlow : 0x800 ≤ n)
    (hhigh : n < 0x10000) (hvalid : n < 0xD800 ∨ 0xDFFF < n) (bs : List Byte) :
    decode ([a, b, c] ++ bs) = Char.ofNat n :: decode bs := by
  have hlead : ∃ lo hi : Byte, leadByte? a = some (n / 4096, [(lo, hi), (0x80, 0xBF)]) ∧
      lo.toNat ≤ b.toNat ∧ b.toNat ≤ hi.toNat := by
    rw [leadByte?_eq, if_neg (by omega), if_neg (by omega), if_neg (by omega), ha]
    -- `E0` and `ED` narrow the range of the second byte
    by_cases h0 : n / 4096 = 0
    · refine ⟨0xA0, 0xBF, by simp [h0], ?_, ?_⟩ <;> simp only [hb, UInt8.reduceToNat] <;> omega
    by_cases hD : n / 4096 = 13
    · refine ⟨0x80, 0x9F, by simp [hD], ?_, ?_⟩ <;> simp only [hb, UInt8.reduceToNat] <;> omega
    · refine ⟨0x80, 0xBF, ?_, ?_, ?_⟩
      · rw [if_neg (by omega), if_neg (by omega), if_pos (by omega), Nat.add_sub_cancel_left]
      all_goals simp only [hb, UInt8.reduceToNat]; omega
  obtain ⟨lo, hi, hlead, hlo, hhi⟩ := hlead
  have hf : followers [(lo, hi), (0x80, 0xBF)] [b, c] = 2 := by
    rw [followers_cons hlo hhi, followers_cons]
    · rfl
    all_goals simp only [hc, UInt8.reduceToNat]; omega
  have hcode : addSixBits (n / 4096) [b, c] = n := by
    simp only [addSixBits, List.foldl_cons, List.foldl_nil, hb, hc]
    omega
  have h := decode_lead hlead hf rfl bs
  rwa [hcode] at h

theorem decode_four {a b c d : Byte} {n : Nat} (ha : a.toNat = 0xF0 + n / 262144)
    (hb : b.toNat = 0x80 + n / 4096 % 64) (hc : c.toNat = 0x80 + n / 64 % 64)
    (hd : d.toNat = 0x80 + n % 64) (hlow : 0x10000 ≤ n) (hhigh : n < 0x110000) (bs : List Byte) :
    decode ([a, b, c, d] ++ bs) = Char.ofNat n :: decode bs := by
  have hlead : ∃ lo hi : Byte,
      leadByte? a = some (n / 262144, [(lo, hi), (0x80, 0xBF), (0x80, 0xBF)]) ∧
        lo.toNat ≤ b.toNat ∧ b.toNat ≤ hi.toNat := by
    rw [leadByte?_eq, if_neg (by omega), if_neg (by omega), if_neg (by omega), if_neg (by omega),
      if_neg (by omega), if_neg (by omega), ha]
    -- `F0` and `F4` narrow the range of the second byte
    by_cases h0 : n / 262144 = 0
    · refine ⟨0x90, 0xBF, by simp [h0], ?_, ?_⟩ <;> simp only [hb, UInt8.reduceToNat] <;> omega
    by_cases h4 : n / 262144 = 4
    · refine ⟨0x80, 0x8F, by simp [h4], ?_, ?_⟩ <;> simp only [hb, UInt8.reduceToNat] <;> omega
    · refine ⟨0x80, 0xBF, ?_, ?_, ?_⟩
      · rw [if_neg (by omega), if_pos (by omega), Nat.add_sub_cancel_left]
      all_goals simp only [hb, UInt8.reduceToNat]; omega
  obtain ⟨lo, hi, hlead, hlo, hhi⟩ := hlead
  have hf : followers [(lo, hi), (0x80, 0xBF), (0x80, 0xBF)] [b, c, d] = 3 := by
    rw [followers_cons hlo hhi, followers_cons, followers_cons]
    · rfl
    all_goals simp only [hc, hd, UInt8.reduceToNat]; omega
  have hcode : addSixBits (n / 262144) [b, c, d] = n := by
    simp only [addSixBits, List.foldl_cons, List.foldl_nil, hb, hc, hd]
    omega
  have h := decode_lead hlead hf rfl bs
  rwa [hcode] at h

/-- The UTF-8 form of a character is read as the character, whatever follows it. -/
theorem decode_utf8Char (c : Char) (bs : List Byte) : decode (utf8Char c ++ bs) = c :: decode bs := by
  have hvalid := toNat_isValid c
  by_cases h1 : c.toNat < 0x80
  · rw [utf8Char_ascii h1]
    exact decode_ascii_cons h1 bs
  by_cases h2 : c.toNat < 0x800
  · have h := decode_two (toNat_byte (by omega)) (toNat_byte (by omega)) (Nat.not_lt.mp h1) h2 bs
    rw [Char.ofNat_toNat] at h
    rwa [utf8Char, if_neg h1, if_pos h2]
  by_cases h3 : c.toNat < 0x10000
  · have h := decode_three (toNat_byte (by omega)) (toNat_byte (by omega)) (toNat_byte (by omega))
      (Nat.not_lt.mp h2) h3 (by omega) bs
    rw [Char.ofNat_toNat] at h
    rwa [utf8Char, if_neg h1, if_neg h2, if_pos h3]
  · have h := decode_four (toNat_byte (by omega)) (toNat_byte (by omega)) (toNat_byte (by omega))
      (toNat_byte (by omega)) (Nat.not_lt.mp h3) (by omega) bs
    rw [Char.ofNat_toNat] at h
    rwa [utf8Char, if_neg h1, if_neg h2, if_neg h3]

/-- The UTF-8 form of a text is read as the text. -/
theorem decode_utf8 (t : Text) : decode (utf8 t) = t := by
  induction t with
  | nil => rw [utf8, List.flatMap_nil, decode]
  | cons c t ih => rw [utf8, List.flatMap_cons, decode_utf8Char, ← utf8, ih]

/-! ### The bytes of a text -/

theorem utf8Char_ne_nil (c : Char) : utf8Char c ≠ [] := by
  rw [utf8Char]
  split_ifs <;> exact List.cons_ne_nil _ _

/-- The bytes of a character outside ASCII are no bytes of ASCII. -/
theorem le_of_mem_utf8Char {c : Char} (hc : ¬ IsAscii c) {b : Byte} (hb : b ∈ utf8Char c) :
    0x80 ≤ b.toNat := by
  have hvalid := toNat_isValid c
  unfold IsAscii at hc
  rw [utf8Char, if_neg hc] at hb
  split_ifs at hb with h2 h3
  all_goals simp only [List.mem_cons, List.not_mem_nil, or_false] at hb
  · rcases hb with rfl | rfl <;> rw [toNat_byte (by omega)] <;> omega
  · rcases hb with rfl | rfl | rfl <;> rw [toNat_byte (by omega)] <;> omega
  · rcases hb with rfl | rfl | rfl | rfl <;> rw [toNat_byte (by omega)] <;> omega

/-- A byte of ASCII among the bytes of a text is a character of it. -/
theorem byte_mem_utf8 {c : Char} (hc : IsAscii c) (t : Text) :
    UInt8.ofNat c.toNat ∈ utf8 t ↔ c ∈ t := by
  constructor
  · intro h
    obtain ⟨d, hd, hb⟩ := List.mem_flatMap.mp h
    by_cases hdc : IsAscii d
    · rw [utf8Char_ascii hdc, List.mem_singleton, ← UInt8.toNat_inj, toNat_byte_ascii hc,
        toNat_byte_ascii hdc, Char.toNat_inj] at hb
      exact hb ▸ hd
    · have hle := le_of_mem_utf8Char hdc hb
      rw [toNat_byte_ascii hc] at hle
      exact absurd hc (Nat.not_lt.mpr hle)
  · intro h
    exact List.mem_flatMap.mpr ⟨c, h, by rw [utf8Char_ascii hc]; exact List.mem_singleton_self _⟩

theorem encode_eq_utf8 {t : Text} (ht : ∀ c ∈ t, ¬ IsRaw c) : encode t = utf8 t :=
  List.flatMap_congr fun c hc => encodeChar_of_not_isRaw (ht c hc)

end CommandShell.Text
