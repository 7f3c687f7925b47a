import CommandShell.Pattern

/-!
# Fields

Substitution turns a word into pieces of text that remember whether they were quoted and whether
they came from an unquoted substitution. This file cuts the pieces into fields at the separators
in `IFS`. Only text from an unquoted substitution is searched for separators. A run of separator
blanks, with at most one other separator in it, ends one field; blanks at either end of the text
end none.
-/

namespace CommandShell.Expansion

/-- A part of a word after substitution. -/
inductive Piece where
  /-- Some text, whether it was quoted, and whether separators count in it. -/
  | text (t : Text) (quoted splittable : Bool)
  /-- The boundary between two positional parameters. -/
  | fieldBreak
  deriving DecidableEq, Repr

namespace Piece

/-- Quoted text. -/
def quoted (t : Text) : Piece := .text t true false

/-- The result of a substitution inside or outside double quotes. -/
def substituted (t : Text) (inQuotes : Bool) : Piece := .text t inQuotes (!inQuotes)

/-- The texts of pieces in a row, a blank for each boundary. -/
def joined (ps : List Piece) : Text :=
  ps.flatMap fun
    | .text t _ _ => t
    | .fieldBreak => " "

/-- The pieces as a pattern in which quoted characters stand for themselves. -/
def toPattern (ps : List Piece) : Text :=
  ps.flatMap fun
    | .text t true _ => Pattern.escape t
    | .text t false _ => t
    | .fieldBreak => " "

end Piece

/-- A field, ready for pathname expansion. -/
structure Field where
  /-- Its text. -/
  text : Text := []
  /-- The same text as a pattern, with quoted special characters escaped. -/
  pattern : Text := []
  /-- Whether an unquoted character makes it a pattern. -/
  magic : Bool := false
  deriving DecidableEq, Repr

/-- A blank of the ASCII alphabet. -/
def isAsciiBlank (c : Char) : Bool :=
  c == ' ' || c == '\t' || c == '\n' || c == '\x0c' || c == '\r'

/-- The state of cutting: what is done, and what is known of the field being built. -/
structure Cutter where
  /-- Finished fields, last first. -/
  done : List Field := []
  /-- The text of the field being built, last character first. -/
  text : Text := []
  /-- The same text as a pattern, last character first. -/
  pattern : Text := []
  /-- Whether an unquoted character makes the field a pattern. -/
  magic : Bool := false
  /-- Whether the field exists, be it empty. -/
  started : Bool := false
  /-- Whether blanks ended the last field, so that another separator belongs to the same end. -/
  afterBlank : Bool := false

namespace Cutter

/-- The field being built. -/
def current (s : Cutter) : Field :=
  { text := s.text.reverse, pattern := s.pattern.reverse, magic := s.magic }

/-- Ends the field being built. -/
def finish (s : Cutter) : Cutter := { done := s.current :: s.done, afterBlank := s.afterBlank }

/-- Adds a character that is no separator. -/
def push (quoted : Bool) (s : Cutter) (c : Char) : Cutter :=
  { s with
    text := c :: s.text
    pattern := (if quoted then Pattern.escape [c] else [c]).reverse ++ s.pattern
    magic := s.magic || (!quoted && Pattern.isMagic c)
    started := true
    afterBlank := false }

/-- Adds text without separators. A quoted text makes the field exist even when empty. -/
def pushText (quoted : Bool) (s : Cutter) (t : Text) : Cutter :=
  let s := t.foldl (push quoted) s
  if quoted then { s with started := true, afterBlank := false } else s

/-- Adds a character that may be a separator. -/
def cutChar (ifs : Text) (s : Cutter) (c : Char) : Cutter :=
  if !ifs.contains c then s.push false c
  else if isAsciiBlank c then
    if s.started then { s.finish with afterBlank := true } else s
  else if s.afterBlank then { s with afterBlank := false }
  else s.finish

/-- Adds a piece. -/
def cutPiece (ifs : Text) (s : Cutter) : Piece → Cutter
  | .text t false true => t.foldl (cutChar ifs) s
  | .text t quoted _ => s.pushText quoted t
  | .fieldBreak => { (if s.started then s.finish else s) with afterBlank := false }

/-- The fields once everything has been added. -/
def fields (s : Cutter) : List Field := (if s.started then s.finish else s).done.reverse

end Cutter

/-- Cuts pieces into fields at the separators in `ifs`. -/
def splitFields (ifs : Text) (pieces : List Piece) : List Field :=
  (pieces.foldl (Cutter.cutPiece ifs) {}).fields

end CommandShell.Expansion
