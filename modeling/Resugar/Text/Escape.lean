import Resugar.Text.Basic

/-!
# Escaped and indented text

How text is written where some code points have a meaning of their own: between
double quotes (`Text.escapeString`), between tags (`Text.escapeMarkup`) and in a
quoted attribute (`Text.escapeAttribute`). Each replaces code points one by one.
`Text.indent` moves the lines of a text to the right.
-/

namespace Resugar

namespace Text

/-- A code point between double quotes. -/
def escapeStringPoint (c : CodePoint) : Text :=
  if c = CodePoint.ofChar '\\' then "\\\\"
  else if c = CodePoint.ofChar '"' then "\\\""
  else if c.val = 0x0A then "\\n"
  else if c.val = 0x0D then "\\r"
  else if c.val = 0x09 then "\\t"
  else if c.val = 0x08 then "\\b"
  else if c.val = 0x0C then "\\f"
  else if c.val = 0x0B then "\\v"
  else if c.val = 0x00 then "\\x00"
  else if c.val = 0x2028 then "\\u2028"
  else if c.val = 0x2029 then "\\u2029"
  else [c]

/-- A text as it is written between double quotes. -/
def escapeString (t : Text) : Text :=
  t.replace escapeStringPoint

/-- A code point between tags. -/
def escapeMarkupPoint (c : CodePoint) : Text :=
  if c = CodePoint.ofChar '&' then "&amp;"
  else if c = CodePoint.ofChar '<' then "&lt;"
  else if c = CodePoint.ofChar '>' then "&gt;"
  else if c.val = 0x7B then "&#123;"
  else if c.val = 0x7D then "&#125;"
  else [c]

/-- A text as it is written between tags. -/
def escapeMarkup (t : Text) : Text :=
  t.replace escapeMarkupPoint

/-- A code point in a quoted attribute. -/
def escapeAttributePoint (c : CodePoint) : Text :=
  if c = CodePoint.ofChar '&' then "&amp;"
  else if c = CodePoint.ofChar '"' then "&quot;"
  else [c]

/-- A text as it is written in a quoted attribute. -/
def escapeAttribute (t : Text) : Text :=
  t.replace escapeAttributePoint

/-- A line moved to the right by one level; an empty line stays empty. -/
def indentLine (line : Text) : Text :=
  if line.isEmpty then line else Text.ofString "  " ++ line

/-- A text moved to the right by one level. -/
def indent (t : Text) : Text :=
  unlines ((lines t).map indentLine)

end Text

end Resugar
