/-!
# Shell text

The shell keeps every piece of text as a list of characters: input lines, words, variable
values, messages. This file fixes that type, the blanks that count as space in it, and the few
list operations that the rest of the library shares: joining, splitting at a separator, decimal
numerals and padding. Joining the pieces of a text gives it back, and what is joined from pieces
without the separator is split into them.
-/

namespace CommandShell

/-- Text as the shell holds it: a list of Unicode characters. -/
abbrev Text := List Char

/-- String literals stand for the list of their characters. -/
instance : Coe String Text := ⟨String.toList⟩

namespace Text

/-- A digit of the ASCII alphabet. -/
def isDigit (c : Char) : Bool := '0' ≤ c && c ≤ '9'

/-- A letter of the ASCII alphabet. -/
def isLetter (c : Char) : Bool := ('a' ≤ c && c ≤ 'z') || ('A' ≤ c && c ≤ 'Z')

/-- White space as Unicode's `White_Space` property has it. -/
def isSpace (c : Char) : Bool :=
  let n := c.toNat
  (9 ≤ n && n ≤ 13) || n == 32 || n == 0x85 || n == 0xA0 || n == 0x1680
    || (0x2000 ≤ n && n ≤ 0x200A) || n == 0x2028 || n == 0x2029 || n == 0x202F
    || n == 0x205F || n == 0x3000

/-- The text without the leading characters that satisfy `p`. -/
def trimStart (p : Char → Bool) (t : Text) : Text := t.dropWhile p

/-- The text without the trailing characters that satisfy `p`. -/
def trimEnd (p : Char → Bool) (t : Text) : Text := (t.reverse.dropWhile p).reverse

/-- The text without white space at either end. -/
def trim (t : Text) : Text := trimEnd isSpace (trimStart isSpace t)

/-- The pieces with `sep` between neighbours. -/
def join (sep : Text) : List Text → Text
  | [] => []
  | [t] => t
  | t :: u :: r => t ++ sep ++ join sep (u :: r)

/-- The pieces between occurrences of `sep`; a text without `sep` is its own only piece. -/
def splitAt (sep : Char) : Text → List Text
  | [] => [[]]
  | c :: r =>
    if c = sep then [] :: splitAt sep r
    else match splitAt sep r with
      | [] => [[c]]
      | p :: ps => (c :: p) :: ps

/-- The text cut after each newline, so that the pieces concatenate to it. The last piece may
lack its newline; no piece is empty. -/
def lines : Text → List Text
  | [] => []
  | c :: r =>
    if c = '\n' then [c] :: lines r
    else match lines r with
      | [] => [[c]]
      | p :: ps => (c :: p) :: ps

/-- What follows `pre` in a text that starts with it. -/
def dropPrefix? : Text → Text → Option Text
  | [], t => some t
  | _ :: _, [] => none
  | p :: ps, c :: cs => if p = c then dropPrefix? ps cs else none

/-- Whether `part` occurs somewhere in the text. -/
def hasPart (part : Text) : Text → Bool
  | [] => part.isEmpty
  | c :: r => (dropPrefix? part (c :: r)).isSome || hasPart part r

/-- The text before the first `sep` and the text after it. -/
def cut? (sep : Char) : Text → Option (Text × Text)
  | [] => none
  | c :: r => if c = sep then some ([], r) else (cut? sep r).map fun (a, b) => (c :: a, b)

/-- The decimal numeral of a natural number. -/
def ofNat (n : Nat) : Text := Nat.toDigits 10 n

/-- The decimal numeral of an integer, with `-` before a negative one. -/
def ofInt : Int → Text
  | .ofNat n => ofNat n
  | .negSucc n => '-' :: ofNat (n + 1)

/-- The text followed by blanks up to the width `w`. -/
def padEnd (w : Nat) (t : Text) : Text := t ++ List.replicate (w - t.length) ' '

/-- The text preceded by `fill` up to the width `w`. -/
def padStart (fill : Char) (w : Nat) (t : Text) : Text :=
  List.replicate (w - t.length) fill ++ t

/-- Capital ASCII letters for small ones. -/
def toUpper (t : Text) : Text := t.map Char.toUpper

/-- Strict order by code point, a proper initial part first. -/
def lt : Text → Text → Bool
  | _, [] => false
  | [], _ :: _ => true
  | a :: as, b :: bs => if a = b then lt as bs else a.toNat < b.toNat

/-- The texts in order by code point; equal ones keep their places. -/
def sort (ts : List Text) : List Text := ts.mergeSort fun a b => !lt b a

/-- Number of bytes of the text's UTF-8 form. -/
def utf8Length (t : Text) : Nat := t.foldl (fun n c => n + c.utf8Size) 0

/-! ## Splitting and joining -/

section

variable {sep c : Char} {t piece : Text} {ts : List Text}

theorem splitAt_ne_nil (sep : Char) (t : Text) : splitAt sep t ≠ [] := by
  fun_cases splitAt sep t with
  | case1 => exact List.cons_ne_nil _ _
  | case2 => exact List.cons_ne_nil _ _
  | case3 => exact List.cons_ne_nil _ _
  | case4 => exact List.cons_ne_nil _ _

theorem splitAt_append_cons (sep : Char) (a b : Text) :
    splitAt sep (a ++ sep :: b) = splitAt sep a ++ splitAt sep b := by
  induction a with
  | nil => simp [splitAt]
  | cons c a ih =>
      obtain ⟨p, ps, hps⟩ := List.exists_cons_of_ne_nil (splitAt_ne_nil sep a)
      by_cases hc : c = sep
      · simp [splitAt, hc, ih]
      · simp [splitAt, hc, ih, hps]

theorem splitAt_of_notMem (h : sep ∉ t) : splitAt sep t = [t] := by
  induction t with
  | nil => rfl
  | cons c t ih =>
      obtain ⟨hc, ht⟩ := not_or.mp (mt List.mem_cons.mpr h)
      simp [splitAt, Ne.symm hc, ih ht]

theorem not_mem_of_mem_splitAt (h : piece ∈ splitAt sep t) : sep ∉ piece := by
  fun_induction splitAt sep t generalizing piece with
  | case1 =>
      obtain rfl := List.mem_singleton.mp h
      exact List.not_mem_nil
  | case2 rest ih =>
      rcases List.mem_cons.mp h with rfl | h
      · exact List.not_mem_nil
      · exact ih h
  | case3 c rest hc hrest ih => exact absurd hrest (splitAt_ne_nil sep rest)
  | case4 c rest hc p ps hrest ih =>
      rw [hrest] at ih
      rcases List.mem_cons.mp h with rfl | h
      · intro hmem
        rcases List.mem_cons.mp hmem with heq | hmem
        · exact hc heq.symm
        · exact ih List.mem_cons_self hmem
      · exact ih (List.mem_cons_of_mem p h)

theorem join_splitAt (sep : Char) (t : Text) : join [sep] (splitAt sep t) = t := by
  fun_induction splitAt sep t with
  | case1 => rfl
  | case2 rest ih =>
      obtain ⟨p, ps, hps⟩ := List.exists_cons_of_ne_nil (splitAt_ne_nil sep rest)
      rw [hps] at ih ⊢
      rw [← ih]
      rfl
  | case3 c rest hc hrest ih => exact absurd hrest (splitAt_ne_nil sep rest)
  | case4 c rest hc p ps hrest ih =>
      rw [hrest] at ih
      rw [← ih]
      cases ps with
      | nil => rfl
      | cons q qs => rfl

theorem splitAt_join (hne : ts ≠ []) (h : ∀ t ∈ ts, sep ∉ t) : splitAt sep (join [sep] ts) = ts := by
  fun_induction join [sep] ts with
  | case1 => exact absurd rfl hne
  | case2 t => exact splitAt_of_notMem (h t List.mem_cons_self)
  | case3 t u rest ih =>
      have hrest := ih (List.cons_ne_nil _ _) fun v hv => h v (List.mem_cons_of_mem t hv)
      rw [List.append_assoc, List.singleton_append, splitAt_append_cons,
        splitAt_of_notMem (h t List.mem_cons_self), hrest]
      rfl

theorem infix_join (sep : Text) (h : t ∈ ts) : t <:+: join sep ts := by
  fun_induction join sep ts with
  | case1 => cases h
  | case2 u =>
      obtain rfl := List.mem_singleton.mp h
      exact List.infix_rfl
  | case3 u v rest ih =>
      rcases List.mem_cons.mp h with rfl | h
      · exact ⟨[], _, by rw [List.nil_append, List.append_assoc]⟩
      · exact (ih h).trans (List.suffix_append _ _).isInfix

theorem join_concat (sep t : Text) (hne : ts ≠ []) : join sep (ts ++ [t]) = join sep ts ++ sep ++ t := by
  fun_induction join sep ts with
  | case1 => exact absurd rfl hne
  | case2 u => rfl
  | case3 u v rest ih =>
      show u ++ sep ++ join sep (v :: rest ++ [t]) = _
      rw [ih (List.cons_ne_nil _ _)]
      simp only [List.append_assoc]

/-- No piece has a character that the text does not have. -/
theorem mem_of_mem_splitAt (hpiece : piece ∈ splitAt sep t) (hc : c ∈ piece) : c ∈ t := by
  have hjoin := infix_join [sep] hpiece
  rw [join_splitAt] at hjoin
  exact hjoin.subset hc

end

end Text

end CommandShell
