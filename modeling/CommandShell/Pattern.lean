import CommandShell.Text

/-!
# Shell patterns

A pattern is compiled to a list of elements and matched against a text from left to right. `?`
stands for one character, `*` for any run of characters, and a bracket for one character of a
set. Two stars are allowed only as a whole component of a path and then stand for any number of
directories; three or more, and a bracket that is not closed, make the pattern invalid.

A match that runs out of text before the pattern ends is given up as a whole: no shorter choice
for an earlier star could leave more text.
-/

namespace CommandShell

/-- A member of a bracket: a character or a range of code points. -/
inductive CharRange where
  | single (c : Char)
  | range (lo hi : Char)
  deriving DecidableEq, Repr

/-- Whether a character belongs to the member. -/
def CharRange.has : CharRange → Char → Bool
  | single d, c => c == d
  | range lo hi, c => lo ≤ c && c ≤ hi

/-- One element of a compiled pattern. -/
inductive PatternItem where
  /-- The character itself. -/
  | char (c : Char)
  /-- `?` -/
  | anyChar
  /-- `*` -/
  | anyRun
  /-- Two stars as a path component, with the `/` after them. -/
  | anyDirs
  /-- A bracket. -/
  | oneOf (set : List CharRange)
  /-- A bracket that starts with `!`. -/
  | noneOf (set : List CharRange)
  deriving DecidableEq, Repr

/-- What wildcards must not match. -/
structure MatchRules where
  /-- `/` is matched by itself only. -/
  literalSlash : Bool
  /-- A `.` at the start of a path component is matched by itself only. -/
  literalDot : Bool

namespace Pattern

/-- The members of a bracket from the text inside it. -/
def members : Text → List CharRange
  | a :: '-' :: b :: r => .range a b :: members r
  | a :: r => .single a :: members r
  | [] => []

/-- Compiles the rest of a pattern. `done` holds the elements before it, last first, and `prev`
the character before it. -/
def compileFrom (done : List PatternItem) (prev : Option Char) (t : Text) :
    Option (List PatternItem) :=
  match t with
  | [] => some done.reverse
  | '?' :: r => compileFrom (.anyChar :: done) (some '?') r
  | '*' :: '*' :: '*' :: _ => none
  | '*' :: '*' :: '/' :: r =>
    if prev = none || prev = some '/' then compileFrom (addDirs done) (some '/') r else none
  | ['*', '*'] => if prev = none || prev = some '/' then some (addDirs done).reverse else none
  | '*' :: '*' :: _ => none
  | '*' :: r => compileFrom (.anyRun :: done) (some '*') r
  | '[' :: '!' :: c :: r =>
    if r.contains ']' then
      compileFrom (.noneOf (members (c :: r.takeWhile (· ≠ ']'))) :: done) (some ']')
        ((r.dropWhile (· ≠ ']')).drop 1)
    else none
  | '[' :: '!' :: _ => none
  | '[' :: c :: r =>
    if r.contains ']' then
      compileFrom (.oneOf (members (c :: r.takeWhile (· ≠ ']'))) :: done) (some ']')
        ((r.dropWhile (· ≠ ']')).drop 1)
    else none
  | ['['] => none
  | c :: r => compileFrom (.char c :: done) (some c) r
termination_by t.length
decreasing_by
  all_goals simp_wf
  all_goals try omega
  all_goals
    have := (List.dropWhile_suffix (l := r) (fun c => !decide (c = ']'))).length_le
    omega
where
  /-- Adds the directory wildcard, once only where several follow each other, except right at
  the start. -/
  addDirs (done : List PatternItem) : List PatternItem :=
    if done.length > 1 && done.head? = some .anyDirs then done else .anyDirs :: done

/-- The elements of a pattern; none if it is invalid. -/
def compile? (t : Text) : Option (List PatternItem) := compileFrom [] none t

/-- How an attempt to match ends. -/
inductive Outcome where
  /-- The whole text is matched. -/
  | hit
  /-- This choice fails; another may not. -/
  | miss
  /-- The pattern needs more text than there is. -/
  | short
  deriving DecidableEq, Repr

/-- Tries `next` after ever longer runs of characters. `afterSlash` tells whether a path
component starts here, and `dirs` whether the run has to end after a `/`. -/
def sweep (rules : MatchRules) (dirs : Bool) (next : Bool → Text → Outcome) :
    Bool → Text → Outcome
  | afterSlash, [] => next afterSlash []
  | afterSlash, c :: cs =>
    if afterSlash && rules.literalDot && c == '.' then .miss
    else if dirs && c != '/' then sweep rules dirs next false cs
    else if !dirs && rules.literalSlash && c == '/' then .miss
    else match next (c == '/') cs with
      | .miss => sweep rules dirs next (c == '/') cs
      | found => found

/-- Whether an element that stands for one character accepts `c`. -/
def PatternItem.accepts (rules : MatchRules) (afterSlash : Bool) (c : Char) : PatternItem → Bool
  | .char d => c == d
  | .anyChar => wild
  | .oneOf set => wild && set.any (·.has c)
  | .noneOf set => wild && !set.any (·.has c)
  | .anyRun | .anyDirs => false
where
  /-- Whether a wildcard may stand for the character here. -/
  wild : Bool :=
    !((rules.literalSlash && c == '/') || (afterSlash && rules.literalDot && c == '.'))

/-- Matches a list of elements against the whole of a text. -/
def run (rules : MatchRules) : List PatternItem → Bool → Text → Outcome
  | [], _, [] => .hit
  | [], _, _ :: _ => .miss
  | .anyRun :: ps, afterSlash, cs =>
    match run rules ps afterSlash cs with
    | .miss => sweep rules false (run rules ps) afterSlash cs
    | found => found
  | .anyDirs :: ps, afterSlash, cs =>
    match run rules ps afterSlash cs with
    | .miss => sweep rules true (run rules ps) afterSlash cs
    | found => found
  | _ :: _, _, [] => .short
  | p :: ps, afterSlash, c :: cs =>
    if PatternItem.accepts rules afterSlash c p then run rules ps (c == '/') cs else .miss

/-- Whether the elements match the whole text under the given rules. -/
def matchesWith (rules : MatchRules) (ps : List PatternItem) (t : Text) : Bool :=
  run rules ps true t == .hit

/-- In `case` and in trimming neither `/` nor a leading dot is special. -/
def anywhere : MatchRules := ⟨false, false⟩

/-- In pathname expansion wildcards match neither `/` nor a leading dot. -/
def pathname : MatchRules := ⟨true, true⟩

/-- Whether a pattern matches a text. An invalid pattern matches only itself. -/
def accepts (pattern text : Text) : Bool :=
  match compile? pattern with
  | some ps => matchesWith anywhere ps text
  | none => pattern == text

/-- A character with a meaning in patterns. -/
def isSpecial (c : Char) : Bool := c == '?' || c == '*' || c == '[' || c == ']'

/-- The pattern that matches the text alone: each special character in a bracket of its own. -/
def escape (t : Text) : Text := t.flatMap fun c => if isSpecial c then ['[', c, ']'] else [c]

/-- A character that makes a word a pattern: the opening ones of the special characters. -/
def isMagic (c : Char) : Bool := c == '*' || c == '?' || c == '['

/-- Which part of a value a pattern removes. -/
inductive Trim where
  | shortestPrefix | longestPrefix | shortestSuffix | longestSuffix
  deriving DecidableEq, Repr

/-- The value without the part that the pattern matches; the value itself when nothing matches.
An invalid pattern is taken literally. -/
def trim (op : Trim) (value pattern : Text) : Text :=
  match (compile? pattern).orElse fun _ => compile? (escape pattern) with
  | none => value
  | some ps =>
    let hit := matchesWith anywhere ps
    let places := List.range (value.length + 1)
    let rest : Option Text := match op with
      | .shortestPrefix => (places.find? fun k => hit (value.take k)).map value.drop
      | .longestPrefix => (places.reverse.find? fun k => hit (value.take k)).map value.drop
      | .shortestSuffix => (places.reverse.find? fun k => hit (value.drop k)).map value.take
      | .longestSuffix => (places.find? fun k => hit (value.drop k)).map value.take
    rest.getD value

end Pattern

end CommandShell
