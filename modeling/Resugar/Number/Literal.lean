import Resugar.Number.Shortest
import Resugar.Text.Numeral
import Resugar.Text.Space

/-!
# Numeric literals

A number is an integer of any size or a double. `Number.read` gives the value of
a numeric literal:

* `0x`, `0o` and `0b` announce a radix, in either case of the letter;
* a leading zero before octal digits only is a legacy octal literal;
* digits alone are an integer in base ten, up to a bound on their number;
* everything else is read as a decimal fraction with an optional exponent, `inf`
  or `nan`.

Underscores and one final `n` are dropped beforehand. What cannot be read is not
a number, `Binary64.nan`.
-/

namespace Resugar

/-- The value of a numeric literal. -/
inductive Number where
  | integer (n : Int)
  | double (x : Binary64)
  deriving DecidableEq

namespace Number

/-- The most digits that are read in base ten, and the most that are written. -/
def maxDigits : Nat := 4300

/-- The number with the given digits in a radix, most significant first. -/
def ofDigits (radix : Nat) (ds : List Nat) : Nat :=
  ds.foldl (fun n d => n * radix + d) 0

/-- Digits and white space of all scripts in their ASCII spelling. -/
def toAscii? (t : Text) : Option Text :=
  t.mapM fun c =>
    if c.val < 127 then some c
    else if c.isSpace then some ' '
    else c.decimalValue?.bind fun d => CodePoint.ofNat? (48 + d)

/-- A text without ASCII white space at its end. -/
def trimEnd (t : Text) : Text :=
  (t.reverse.dropWhile CodePoint.isAsciiSpace).reverse

/-- A text without ASCII white space at either end. -/
def trim (t : Text) : Text :=
  trimEnd (t.dropWhile CodePoint.isAsciiSpace)

/-- The value of a digit that is below the radix. -/
def digitBelow? (radix : Nat) (c : CodePoint) : Option Nat :=
  c.hexValue?.filter (· < radix)

/-- The natural number that a text of ASCII digits spells in a radix. -/
def readRadix? (radix : Nat) (t : Text) : Option Nat :=
  if t.isEmpty then none else (t.mapM (digitBelow? radix)).map (ofDigits radix)

/-- The radix that two leading code points announce. -/
def radix? : Text → Option (Nat × Text)
  | zero :: mark :: rest =>
    if zero.val = 48 then
      if mark.val = 120 ∨ mark.val = 88 then some (16, rest)
      else if mark.val = 111 ∨ mark.val = 79 then some (8, rest)
      else if mark.val = 98 ∨ mark.val = 66 then some (2, rest)
      else none
    else none
  | _ => none

/-- The natural number that a text of decimal digits spells in base ten. -/
def readDecimal? (t : Text) : Option Nat :=
  if maxDigits < t.length then none
  else (t.mapM CodePoint.decimalValue?).map (ofDigits 10)

/-- An optional sign. -/
def readSign : Text → Bool × Text
  | c :: rest =>
    if c.val = 45 then (true, rest) else if c.val = 43 then (false, rest) else (false, c :: rest)
  | [] => (false, [])

/-- An exponent at the end of a text, if any: a mark, maybe a sign, digits. -/
def readExponent? : Text → Option Int
  | [] => some 0
  | mark :: rest =>
    let (negative, digits) := readSign rest
    if mark.val = 101 ∨ mark.val = 69 then
      (readRadix? 10 digits).map fun n => if negative then -(n : Int) else n
    else none

/-- Digits, an optional point with digits after it, and an optional exponent. -/
def readFraction? (negative : Bool) (t : Text) : Option Binary64 :=
  let whole := t.takeWhile CodePoint.isAsciiDigit
  let rest := t.dropWhile CodePoint.isAsciiDigit
  let (part, tail) : Text × Text := match rest with
    | c :: after =>
      if c.val = 46 then (after.takeWhile CodePoint.isAsciiDigit,
        after.dropWhile CodePoint.isAsciiDigit)
      else ([], rest)
    | [] => ([], [])
  if whole.isEmpty && part.isEmpty then none
  else do
    let digits ← readRadix? 10 (whole ++ part)
    let exponent ← readExponent? tail
    return Binary64.ofDecimal negative digits (exponent - part.length)

/-- ASCII letters in lower case. -/
def lower (t : Text) : Text :=
  t.map fun c => if h : 65 ≤ c.val ∧ c.val ≤ 90 then ⟨c.val + 32, by omega⟩ else c

/-- The double that a text in ASCII spells, white space at the ends aside. -/
def readDouble? (t : Text) : Option Binary64 :=
  let (negative, body) := readSign (trim t)
  let word := lower body
  if word = Text.ofString "inf" ∨ word = Text.ofString "infinity" then
    some (Binary64.ofMagnitude negative Binary64.infinity)
  else if word = Text.ofString "nan" then some Binary64.nan
  else readFraction? negative body

/-- The spelling of a number without underscores and without a final `n`. -/
def spelling (raw : Text) : Text :=
  let t := raw.filter (· != CodePoint.ofChar '_')
  if t.getLast? = some (CodePoint.ofChar 'n') then t.dropLast else t

/-- The octal digits. -/
def isOctal (c : CodePoint) : Bool :=
  48 ≤ c.val && c.val ≤ 55

/-- The value of a numeric literal, if it can be read. -/
def read? (raw : Text) : Option Number :=
  let t := spelling raw
  match radix? t with
  | some (radix, digits) => do
    let ascii ← toAscii? digits
    let n ← readRadix? radix (trimEnd ascii)
    return .integer n
  | none =>
    if !t.isEmpty && t.all CodePoint.isDigit then
      if 1 < t.length && t.head? == some (CodePoint.ofChar '0') && t.all isOctal then
        (readRadix? 8 t).map fun n => .integer n
      else (readDecimal? t).map fun n => .integer n
    else do
      let ascii ← toAscii? t
      let x ← readDouble? ascii
      return .double x

/-- The value of a numeric literal; what cannot be read is not a number. -/
def read (raw : Text) : Number :=
  (read? raw).getD (.double Binary64.nan)

/-- Whether a number is zero, of either sign. -/
def isZero : Number → Bool
  | .integer n => n == 0
  | .double x => x.magnitude == 0

/-- Whether a number is one. -/
def isOne : Number → Bool
  | .integer n => n == 1
  | .double x => x.toInt? == some 1

end Number

end Resugar
