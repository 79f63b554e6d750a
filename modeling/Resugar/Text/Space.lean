import Resugar.Text.Basic

/-!
# White space
-/

namespace Resugar

namespace CodePoint

/-- The white space of ASCII that number readers skip. -/
def isAsciiSpace (c : CodePoint) : Bool :=
  (9 ≤ c.val && c.val ≤ 13) || c.val == 32

/-- The code points that separate words: white space and separators (Unicode
    14), with the four ASCII information separators. -/
def spaceRanges : List (Nat × Nat) :=
  [(0x9, 0xD), (0x1C, 0x20), (0x85, 0x85), (0xA0, 0xA0), (0x1680, 0x1680),
    (0x2000, 0x200A), (0x2028, 0x2029),
    (0x202F, 0x202F), (0x205F, 0x205F), (0x3000, 0x3000)]

/-- White space of all scripts. -/
def isSpace (c : CodePoint) : Bool :=
  c.inRanges spaceRanges

end CodePoint

end Resugar
