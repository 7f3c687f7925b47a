import CommandShell.Text.Bytes
import CommandShell.Expansion.Field

/-!
# Fields of an input line

`read` cuts the bytes of a line into a given number of fields. A byte that a backslash protected
is never a separator. The last field takes the rest of the line, less the separator blanks at its
end.
-/

namespace CommandShell.Expansion

/-- A byte of input, and whether a backslash protected it. -/
structure InputByte where
  byte : Byte
  escaped : Bool := false
  deriving DecidableEq, Repr

namespace InputByte

/-- Whether the byte is a separator. -/
def isSeparator (ifs : List Byte) (b : InputByte) : Bool := !b.escaped && ifs.contains b.byte

/-- A blank of the ASCII alphabet. -/
def isBlankByte (b : Byte) : Bool := b == 0x20 || b == 0x09 || b == 0x0A || b == 0x0C || b == 0x0D

/-- Whether the byte is a separator blank. -/
def isBlank (ifs : List Byte) (b : InputByte) : Bool := b.isSeparator ifs && isBlankByte b.byte

/-- The text of a run of bytes. -/
def text (bs : List InputByte) : Text := Text.decode (bs.map (·.byte))

/-- What follows one separator: blanks around it and at most one other separator. -/
def dropSeparator (ifs : List Byte) (line : List InputByte) : List InputByte :=
  match line.dropWhile (isBlank ifs) with
  | [] => []
  | b :: r => if b.isSeparator ifs then r.dropWhile (isBlank ifs) else b :: r

/-- Cuts off up to `n` fields, each with the separator after it. -/
def takeFields (ifs : List Byte) : Nat → List InputByte → List Text × List InputByte
  | 0, line => ([], line)
  | _ + 1, [] => ([], [])
  | n + 1, b :: r =>
    let line := b :: r
    let (fields, rest) := takeFields ifs n
      (dropSeparator ifs (line.dropWhile fun b => !b.isSeparator ifs))
    (text (line.takeWhile fun b => !b.isSeparator ifs) :: fields, rest)

/-- The line without separator blanks at its end. -/
def trimEnd (ifs : List Byte) (line : List InputByte) : List InputByte :=
  (line.reverse.dropWhile (isBlank ifs)).reverse

end InputByte

open InputByte in
/-- Cuts a line into at most `count` fields. A line that runs out early has no empty field at its
end, unless it has no other. -/
def splitLine (ifs : List Byte) (count : Nat) (line : List InputByte) : List Text :=
  let (fields, rest) := takeFields ifs (count - 1) (line.dropWhile (isBlank ifs))
  if fields.length < count && (!rest.isEmpty || fields.isEmpty) then
    fields ++ [text (trimEnd ifs rest)]
  else fields

end CommandShell.Expansion
