import Resugar.Text.Printable

/-!
# Quoted text

A piece of source is shown in a message between quotes, so that it stays on one
line and its ends can be seen: apostrophes, or double quotes if it holds an
apostrophe and no double quote. Backslashes, the quote in use, line ends and
tabs are escaped, and everything else that cannot be printed is shown as its
number in hexadecimal.
-/

namespace Resugar

namespace Text

/-- A number in lower-case hexadecimal with at least `width` digits. -/
def hex (width n : Nat) : Text :=
  let digits := (Nat.toDigits 16 n).map CodePoint.ofChar
  List.replicate (width - digits.length) (CodePoint.ofChar '0') ++ digits

/-- How a code point is shown between quotes. -/
def showPoint (quote c : CodePoint) : Text :=
  if c = quote ∨ c = CodePoint.ofChar '\\' then [CodePoint.ofChar '\\', c]
  else if c.val = 10 then "\\n"
  else if c.val = 13 then "\\r"
  else if c.val = 9 then "\\t"
  else if c.isPrintable then [c]
  else if c.val < 0x100 then Text.ofString "\\x" ++ hex 2 c.val
  else if c.val < 0x10000 then Text.ofString "\\u" ++ hex 4 c.val
  else Text.ofString "\\U" ++ hex 8 c.val

/-- The quote around a text. -/
def quoteOf (t : Text) : CodePoint :=
  if t.contains (CodePoint.ofChar '\'') && !t.contains (CodePoint.ofChar '"') then '"' else '\''

/-- A text between quotes. -/
def quoted (t : Text) : Text :=
  let quote := quoteOf t
  quote :: t.replace (showPoint quote) ++ [quote]

end Text

end Resugar
