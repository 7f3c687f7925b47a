import CommandShell.Text

/-!
# Bytes as text

Input is bytes, the shell works on characters, and output is bytes again. Bytes that form UTF-8
become the characters they spell. Every other byte `b` becomes the single character
`0xF700 + b` of the private use area, and such a character is written back as that one byte, so
that text which is only carried through the shell leaves it unchanged.
-/

namespace CommandShell

/-- A byte. -/
abbrev Byte := UInt8

namespace Text

/-- First code point of the block that holds bytes which are not UTF-8. -/
def rawBase : Nat := 0xF700

/-- The character that stands for a byte outside any UTF-8 character. -/
def rawByte (b : Byte) : Char := Char.ofNat (rawBase + b.toNat)

/-- The character for one byte of output: ASCII stands for itself. -/
def byteChar (b : Byte) : Char := if b < 0x80 then Char.ofNat b.toNat else rawByte b

/-- For the first byte of a UTF-8 character: the bits it contributes, and the least and greatest
value of each byte that has to follow. No result for a byte that starts no character. -/
def leadByte? (b : Byte) : Option (Nat × List (Byte × Byte)) :=
  if b < 0x80 then some (b.toNat, [])
  else if b < 0xC2 then none
  else if b < 0xE0 then some (b.toNat - 0xC0, [(0x80, 0xBF)])
  else if b == 0xE0 then some (0, [(0xA0, 0xBF), (0x80, 0xBF)])
  else if b == 0xED then some (0xD, [(0x80, 0x9F), (0x80, 0xBF)])
  else if b < 0xF0 then some (b.toNat - 0xE0, [(0x80, 0xBF), (0x80, 0xBF)])
  else if b == 0xF0 then some (0, [(0x90, 0xBF), (0x80, 0xBF), (0x80, 0xBF)])
  else if b < 0xF4 then some (b.toNat - 0xF0, [(0x80, 0xBF), (0x80, 0xBF), (0x80, 0xBF)])
  else if b == 0xF4 then some (4, [(0x80, 0x8F), (0x80, 0xBF), (0x80, 0xBF)])
  else none

/-- Number of leading bytes that lie in the given ranges, one by one. -/
def followers : List (Byte × Byte) → List Byte → Nat
  | (lo, hi) :: rs, b :: bs => if lo ≤ b && b ≤ hi then followers rs bs + 1 else 0
  | _, _ => 0

/-- The code point that continues `acc` by six bits of each byte. -/
def addSixBits (acc : Nat) (bs : List Byte) : Nat :=
  bs.foldl (fun acc b => acc * 64 + (b.toNat - 0x80)) acc

/-- The characters at the head of a byte sequence that starts with `b`, and how many of the
bytes `bs` after `b` they use: one character if the sequence is well formed there, else `b` and
the bytes that could have continued it, each on its own. -/
def decodeHead (b : Byte) (bs : List Byte) : Text × Nat :=
  match leadByte? b with
  | none => ([rawByte b], 0)
  | some (bits, ranges) =>
    let n := followers ranges bs
    if n = ranges.length then ([Char.ofNat (addSixBits bits (bs.take n))], n)
    else (rawByte b :: (bs.take n).map rawByte, n)

/-- The text that a byte sequence stands for. -/
def decode : List Byte → Text
  | [] => []
  | b :: bs =>
    let (cs, n) := decodeHead b bs
    cs ++ decode (bs.drop n)
termination_by bytes => bytes.length
decreasing_by
  rw [List.length_drop, List.length_cons]
  omega

/-- The UTF-8 form of a character. -/
def utf8Char (c : Char) : List Byte :=
  let n := c.toNat
  if n < 0x80 then [UInt8.ofNat n]
  else if n < 0x800 then [UInt8.ofNat (0xC0 + n / 64), UInt8.ofNat (0x80 + n % 64)]
  else if n < 0x10000 then
    [UInt8.ofNat (0xE0 + n / 4096), UInt8.ofNat (0x80 + n / 64 % 64), UInt8.ofNat (0x80 + n % 64)]
  else
    [UInt8.ofNat (0xF0 + n / 262144), UInt8.ofNat (0x80 + n / 4096 % 64),
      UInt8.ofNat (0x80 + n / 64 % 64), UInt8.ofNat (0x80 + n % 64)]

/-- The UTF-8 form of a text, raw bytes not singled out. -/
def utf8 (t : Text) : List Byte := t.flatMap utf8Char

/-- The bytes of one character: its single byte for a character of the raw block, else its
UTF-8 form. -/
def encodeChar (c : Char) : List Byte :=
  if rawBase ≤ c.toNat && c.toNat < rawBase + 0x100 then [UInt8.ofNat (c.toNat - rawBase)]
  else utf8Char c

/-- The bytes that a text stands for. -/
def encode (t : Text) : List Byte := t.flatMap encodeChar

/-- The bytes of a text handed to the system as a string, which cannot hold a zero byte: zero
bytes are dropped. -/
def encodeString (t : Text) : List Byte := (encode t).filter (· != 0)

/-- The text that bytes show as, with one replacement character for each run of bytes that can
start or continue no character. -/
def decodeShown : List Byte → Text
  | [] => []
  | b :: bs =>
    let (cs, n) := decodeHead b bs
    let shown : Text := match leadByte? b with
      | some (_, ranges) => if n = ranges.length then cs else ['\uFFFD']
      | none => ['\uFFFD']
    shown ++ decodeShown (bs.drop n)
termination_by bytes => bytes.length
decreasing_by
  rw [List.length_drop, List.length_cons]
  omega

/-- A path as messages show it: what is no UTF-8 in it is replaced. -/
def shown (t : Text) : Text := decodeShown (encode t)

end Text

end CommandShell
