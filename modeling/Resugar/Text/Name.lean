import Resugar.Text.Numeral
import Resugar.Text.Space

/-!
# Names

Which texts can be written as a name, without quotes: as an identifier
(`Text.isIdentifier`), as the name of an attribute (`Text.isAttributeName`) or
of an element (`Text.isTagName`). In each of them one line feed at the end is
overlooked.
-/

namespace Resugar

namespace CodePoint

/-- The code points that begin a name. -/
def isNameStart (c : CodePoint) : Bool :=
  c.isAsciiLetter || c == '_' || c == '$'

/-- The code points of a name after the first. -/
def isNamePart (c : CodePoint) : Bool :=
  c.isWord || c == '$'

end CodePoint

namespace Text

/-- The words that the language keeps for itself. -/
def reservedWords : List String :=
  ["await", "break", "case", "catch", "class", "const", "continue", "debugger",
    "default", "delete", "do", "else",
    "enum", "export", "extends", "false", "finally", "for", "function", "if",
      "implements", "import", "in",
    "instanceof", "interface", "let", "new", "null", "package", "private", "protected",
      "public", "return", "static",
    "super", "switch", "this", "throw", "true", "try", "typeof", "var", "void",
      "while", "with", "yield"]

/-- Whether a text is a reserved word. -/
def isReserved (t : Text) : Bool :=
  reservedWords.any fun word => t == Text.ofString word

/-- A text less a line feed at its end. -/
def dropFinalNewline (t : Text) : Text :=
  if t.getLast? = some (CodePoint.ofChar '\n') then t.dropLast else t

/-- Whether a text is spelled like an identifier, reserved words among them. -/
def isSpelledAsName : Text → Bool
  | [] => false
  | c :: t => c.isNameStart && t.all CodePoint.isNamePart

/-- Whether a text can stand as an identifier. -/
def isIdentifier (t : Text) : Bool :=
  t.dropFinalNewline.isSpelledAsName && !t.isReserved

/-- Whether the name of an attribute can go on with a text. After a mark, `-` or
    `:`, it has to go on. -/
def continuesAttribute : (afterMark : Bool) → Text → Bool
  | afterMark, [] => !afterMark
  | afterMark, c :: t =>
    if c.isNamePart then continuesAttribute false t
    else (c == '-' || c == ':') && !afterMark && continuesAttribute true t

/-- Whether a text can stand as the name of an attribute: a name, and more
    pieces of names after marks. -/
def isAttributeName (t : Text) : Bool :=
  match t.dropFinalNewline with
  | [] => false
  | c :: rest => c.isNameStart && continuesAttribute false rest

/-- Whether the name of an element can go on with a text. After a mark, `.` or
    `:`, a name begins. -/
def continuesTag : (afterMark : Bool) → Text → Bool
  | afterMark, [] => !afterMark
  | true, c :: t => c.isNameStart && continuesTag false t
  | false, c :: t =>
    if c.isNamePart || c == '-' then continuesTag false t
    else (c == '.' || c == ':') && continuesTag true t

/-- Whether a text can stand as the name of an element. -/
def isTagName (t : Text) : Bool :=
  continuesTag true t.dropFinalNewline

/-- Whether a text begins with a lower-case ASCII letter. -/
def startsLower (t : Text) : Bool :=
  t.head?.any fun c => 97 ≤ c.val && c.val ≤ 122

/-- Whether a text holds another one. -/
def hasPiece (t piece : Text) : Bool :=
  t.startsWith piece || match t with
    | [] => false
    | _ :: rest => hasPiece rest piece

/-- Whether a text ends with another one. -/
def endsWith (t ending : Text) : Bool :=
  ending.isSuffixOf t

end Text

end Resugar
