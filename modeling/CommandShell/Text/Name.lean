import CommandShell.Text

/-!
# Names and quoting

Which texts are names, and the two ways in which texts are quoted: for the shell, which reads them back,
and for outlines of syntax trees, which people read.
-/

/-!
## Names, assignments and quoting

Which texts are variable names, which are numerals, how `name=value` is taken apart, and how a
value is quoted so that the shell reads it back as that one word.
-/

namespace CommandShell.Text

/-- A character that may start a name. -/
def isNameStart (c : Char) : Bool := isLetter c || c == '_'

/-- A character that may continue a name. -/
def isNameChar (c : Char) : Bool := isNameStart c || isDigit c

/-- A name: a letter or underscore, then letters, digits and underscores. -/
def isName : Text → Bool
  | [] => false
  | c :: r => isNameStart c && r.all isNameChar

/-- One or more digits. -/
def isDigits (t : Text) : Bool := !t.isEmpty && t.all isDigit

/-- An optional sign, then one or more digits. -/
def isNumber : Text → Bool
  | '+' :: r => isDigits r
  | '-' :: r => isDigits r
  | t => isDigits t

/-- The two sides of the first `=`, when the left one is a name. -/
def splitAssignment? (t : Text) : Option (Text × Text) :=
  match cut? '=' t with
  | some (name, value) => if isName name then some (name, value) else none
  | none => none

/-- Characters that need no quoting anywhere in a word. -/
def isPlainChar (c : Char) : Bool :=
  isLetter c || isDigit c || ("_-./:,=+@%" : Text).contains c

/-- The inside of a single-quoted text: a quote leaves the quotes, stands escaped, and enters
them again. -/
def quoteBody : Text → Text
  | [] => []
  | '\'' :: r => "'\\''" ++ quoteBody r
  | c :: r => c :: quoteBody r

theorem quoteBody_cons {c : Char} (hc : c ≠ '\'') (t : Text) :
    quoteBody (c :: t) = c :: quoteBody t := by
  rw [quoteBody]
  rintro rfl
  exact hc rfl

/-- The text as a word that reads back as it: unchanged when plain, else in single quotes. -/
def quote (t : Text) : Text :=
  if !t.isEmpty && t.all isPlainChar then t else '\'' :: quoteBody t ++ "'"

end CommandShell.Text

/-!
## Quoted text and lists of it

The notation in which outlines of syntax trees show texts: between double quotes, with escapes
for quotes, backslashes and characters that do not print, and lists in brackets.
-/

namespace CommandShell.Text

/-- Lower-case hexadecimal digits of a number. -/
def hex (n : Nat) : Text := Nat.toDigits 16 n

/-- Characters shown by their code point: controls, separators other than the blank, format
characters and code points that name no character. -/
def isHidden (c : Char) : Bool :=
  let n := c.toNat
  n < 0x20 || (0x7F ≤ n && n < 0xA1) || n == 0xAD
    || (0x600 ≤ n && n ≤ 0x605) || n == 0x61C || n == 0x6DD || n == 0x70F || n == 0x1680
    || n == 0x180E || (0x2000 ≤ n && n ≤ 0x200F) || (0x2028 ≤ n && n ≤ 0x202F)
    || (0x205F ≤ n && n ≤ 0x206F) || n == 0x3000 || (0xE000 ≤ n && n ≤ 0xF8FF) || n == 0xFEFF
    || (0xFFF0 ≤ n && n ≤ 0xFFFB) || n == 0xFFFE || n == 0xFFFF || 0xE0000 ≤ n

/-- Combining marks that would attach to the character before them. -/
def isCombining (c : Char) : Bool :=
  let n := c.toNat
  (0x300 ≤ n && n ≤ 0x36F) || (0x483 ≤ n && n ≤ 0x489) || (0x591 ≤ n && n ≤ 0x5BD)
    || (0x1AB0 ≤ n && n ≤ 0x1AFF) || (0x1DC0 ≤ n && n ≤ 0x1DFF) || (0x20D0 ≤ n && n ≤ 0x20F0)
    || n == 0x200C || (0xFE00 ≤ n && n ≤ 0xFE0F) || (0xFE20 ≤ n && n ≤ 0xFE2F)

/-- One character between double quotes. -/
def showChar (c : Char) : Text :=
  match c with
  | '"' => "\\\""
  | '\\' => "\\\\"
  | '\n' => "\\n"
  | '\t' => "\\t"
  | '\r' => "\\r"
  | '\x00' => "\\0"
  | c => if isHidden c || isCombining c then "\\u\x7b" ++ hex c.toNat ++ "\x7d" else [c]

/-- The text between double quotes, escaped. -/
def showQuoted (t : Text) : Text := '"' :: t.flatMap showChar ++ "\""

/-- A list of texts in brackets. -/
def showList (ts : List Text) : Text := '[' :: join ", " (ts.map showQuoted) ++ "]"

/-- A list that may be missing. -/
def showList? : Option (List Text) → Text
  | none => "None"
  | some ts => "Some(" ++ showList ts ++ ")"

end CommandShell.Text
