import Resugar.Fault

/-!
# String literals

`StringLiteral.value` gives the text that a quoted literal stands for. An escape
is a backslash with, in order of preference: `u` and hexadecimal digits in
braces; `u` and four; `x` and two; one to three octal digits; a line end (which
stands for nothing); any other code point (which stands for itself, six letters
apart).

Escaped surrogate pairs are joined where the whole text is well-formed UTF-16
(`StringLiteral.joinPairs?`); otherwise every surrogate stays on its own.
-/

namespace Resugar

namespace StringLiteral

/-- The code point with a number spelled in an escape. -/
def point (n : Nat) : Except Fault Text :=
  match CodePoint.ofNat? n with
  | some c => .ok [c]
  | none => .error (if n < 0x80000000 then .noSuchCodePoint else .codePointTooWide)

/-- The number that digits spell. -/
def number (radix : Nat) (digits : Text) : Nat :=
  digits.foldl (fun n c => n * radix + c.hexValue?.getD 0) 0

def isHex (c : CodePoint) : Bool :=
  c.hexValue?.isSome

def isOctal (c : CodePoint) : Bool :=
  48 ≤ c.val && c.val ≤ 55

/-- The line ends that a backslash takes out of a literal. -/
def isLineEnd (c : CodePoint) : Bool :=
  c.val == 0x0A || c.val == 0x0D || c.val == 0x2028 || c.val == 0x2029

/-- What a single escaped code point stands for. -/
def simple (c : CodePoint) : Text :=
  if isLineEnd c then []
  else if c = CodePoint.ofChar 'n' then "\n"
  else if c = CodePoint.ofChar 't' then "\t"
  else if c = CodePoint.ofChar 'r' then "\r"
  else if c = CodePoint.ofChar 'b' then "\x08"
  else if c = CodePoint.ofChar 'f' then "\x0C"
  else if c = CodePoint.ofChar 'v' then "\x0B"
  else [c]

/-- Hexadecimal digits in braces, after the `u`: the number, and the length of
    digits and braces. -/
def braced? : Text → Option (Nat × Nat)
  | [] => none
  | c :: t =>
    let digits := t.takeWhile isHex
    if c.val = 0x7B ∧ !digits.isEmpty ∧ (t[digits.length]?.map (·.val)) = some 0x7D then
      some (number 16 digits, digits.length + 2)
    else none

/-- A fixed number of hexadecimal digits. -/
def fixed? (width : Nat) (t : Text) : Option Nat :=
  let digits := t.take width
  if digits.length = width ∧ digits.all isHex then some (number 16 digits) else none

/-- The escape after a backslash: what it stands for, and its length. -/
def escape? : Text → Option (Except Fault Text × Nat)
  | [] => none
  | c :: t =>
    if c = CodePoint.ofChar 'u' then
      match braced? t, fixed? 4 t with
      | some (n, taken), _ => some (point n, taken + 1)
      | none, some n => some (point n, 5)
      | none, none => some (.ok [c], 1)
    else if c = CodePoint.ofChar 'x' then
      match fixed? 2 t with
      | some n => some (point n, 3)
      | none => some (.ok [c], 1)
    else if isOctal c then
      let digits := ((c :: t).take 3).takeWhile isOctal
      some (point (number 8 digits), digits.length)
    else if c.val = 0x0D ∧ t.head? = some (CodePoint.ofChar '\n') then some (.ok [], 2)
    else some (.ok (simple c), 1)

/-- A text with its escapes read, the first `skip` code points left out. A
    backslash at the end is kept. -/
def unescape : (skip : Nat) → Text → Except Fault Text
  | _, [] => .ok []
  | skip + 1, _ :: t => unescape skip t
  | 0, c :: t =>
    if c = CodePoint.ofChar '\\' then
      match escape? t with
      | some (value, taken) => do
        let head ← value
        let tail ← unescape taken t
        return head ++ tail
      | none => do return c :: (← unescape 0 t)
    else do return c :: (← unescape 0 t)

/-- The code point of a surrogate pair. -/
def pair (high low : CodePoint) : CodePoint :=
  (CodePoint.ofNat? (0x10000 + (high.val - 0xD800) * 0x400 + (low.val - 0xDC00))).getD 0xFFFD

/-- A text with its surrogate pairs joined, unless one stands alone. -/
def joinPairs? : Text → Option Text
  | [] => some []
  | c :: t =>
    if c.isHighSurrogate then
      match t with
      | d :: rest => if d.isLowSurrogate then (joinPairs? rest).map (pair c d :: ·) else none
      | [] => none
    else if c.isLowSurrogate then none
    else (joinPairs? t).map (c :: ·)

/-- The value of a string literal, which has quotes at both ends. -/
def value (raw : Text) : Except Fault Text := do
  let t ← unescape 0 (raw.drop 1).dropLast
  return (joinPairs? t).getD t

end StringLiteral

end Resugar
