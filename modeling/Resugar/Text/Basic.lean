/-!
# Text

The text of a program is a sequence of *code points*. A string literal may spell
half of a surrogate pair, so a code point here is any number below `0x110000`,
surrogates included; this is what sets `Text` apart from `String`, whose
characters are never surrogates.

* `Text.ofString` reads the text of a `String`;
* `Text.lines` and `Text.unlines` cut a text at line feeds and put it back;
* `Text.replace` puts a text in place of every code point.
-/

namespace Resugar

/-- A Unicode code point; surrogates count as code points. -/
abbrev CodePoint := Fin 0x110000

/-- A sequence of code points. -/
abbrev Text := List CodePoint

namespace CodePoint

theorem toNat_lt (c : Char) : c.toNat < 0x110000 := by
  have h := c.valid
  simp only [UInt32.isValidChar, Nat.isValidChar] at h
  show c.val.toNat < 0x110000
  omega

/-- The code point of a character. -/
def ofChar (c : Char) : CodePoint :=
  ⟨c.toNat, toNat_lt c⟩

instance : Coe Char CodePoint := ⟨ofChar⟩

/-- The code point with a given number, if there is one. -/
def ofNat? (n : Nat) : Option CodePoint :=
  if h : n < 0x110000 then some ⟨n, h⟩ else none

/-- The first halves of surrogate pairs. -/
def isHighSurrogate (c : CodePoint) : Bool :=
  0xD800 ≤ c.val && c.val < 0xDC00

/-- The second halves of surrogate pairs. -/
def isLowSurrogate (c : CodePoint) : Bool :=
  0xDC00 ≤ c.val && c.val < 0xE000

/-- Either half of a surrogate pair. -/
def isSurrogate (c : CodePoint) : Bool :=
  0xD800 ≤ c.val && c.val < 0xE000

/-- The character at a code point, unless it is a surrogate. -/
def toChar? (c : CodePoint) : Option Char :=
  if h : c.val.isValidChar then some (Char.ofNatAux c.val h) else none

/-- The closed ranges that follow each other from a number on, each given by the
    gap before it and its width. -/
def rangesFrom (start : Nat) : List Nat → List (Nat × Nat)
  | gap :: width :: rest =>
    (start + gap, start + gap + width - 1) :: rangesFrom (start + gap + width) rest
  | _ => []

/-- Whether a code point lies in one of some closed ranges. -/
def inRanges (c : CodePoint) (ranges : List (Nat × Nat)) : Bool :=
  ranges.any fun r => r.1 ≤ c.val && c.val ≤ r.2

/-- The ASCII digits. -/
def isAsciiDigit (c : CodePoint) : Bool :=
  48 ≤ c.val && c.val ≤ 57

/-- The ASCII letters. -/
def isAsciiLetter (c : CodePoint) : Bool :=
  (65 ≤ c.val && c.val ≤ 90) || (97 ≤ c.val && c.val ≤ 122)

/-- The value of a digit in bases up to sixteen. -/
def hexValue? (c : CodePoint) : Option Nat :=
  if 48 ≤ c.val ∧ c.val ≤ 57 then some (c.val - 48)
  else if 65 ≤ c.val ∧ c.val ≤ 70 then some (c.val - 55)
  else if 97 ≤ c.val ∧ c.val ≤ 102 then some (c.val - 87)
  else none

end CodePoint

namespace Text

/-- The text of a string. -/
def ofString (s : String) : Text :=
  s.toList.map CodePoint.ofChar

instance : Coe String Text := ⟨ofString⟩

/-- A text in which every code point is replaced by a text. -/
def replace (f : CodePoint → Text) (t : Text) : Text :=
  t.flatMap f

/-- The pieces of a text between the occurrences of a code point. -/
def splitOn (sep : CodePoint) : Text → List Text
  | [] => [[]]
  | c :: t =>
    if c = sep then [] :: splitOn sep t
    else match splitOn sep t with
      | [] => [[c]]
      | piece :: rest => (c :: piece) :: rest

/-- The lines of a text. A line feed at the end opens one more, empty line. -/
def lines (t : Text) : List Text :=
  splitOn '\n' t

/-- Lines put together with line feeds between them. -/
def unlines (ls : List Text) : Text :=
  List.intercalate [CodePoint.ofChar '\n'] ls

/-- Pieces put together. -/
def concat (pieces : List Text) : Text :=
  pieces.flatten

/-- Pieces put together with a separator between them. -/
def join (sep : Text) (pieces : List Text) : Text :=
  List.intercalate sep pieces

/-- Whether a text begins with another one. -/
def startsWith (t start : Text) : Bool :=
  start.isPrefixOf t

/-- A text less some beginning, if it begins so. -/
def dropStart? (t start : Text) : Option Text :=
  if start.isPrefixOf t then some (t.drop start.length) else none

/-- The order of texts by code points. -/
def le : Text → Text → Bool
  | [], _ => true
  | _ :: _, [] => false
  | a :: s, b :: t => a < b || (a == b && le s t)

/-- The decimal numeral of a natural number. -/
def ofNat (n : Nat) : Text :=
  (Nat.toDigits 10 n).map CodePoint.ofChar

/-- The decimal numeral of an integer. -/
def ofInt : Int → Text
  | .ofNat n => ofNat n
  | .negSucc n => CodePoint.ofChar '-' :: ofNat (n + 1)

end Text

end Resugar
