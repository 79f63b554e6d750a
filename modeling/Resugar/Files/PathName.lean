import Resugar.Fault
import Resugar.Text.Utf8

/-!
# Path names

A path name is read part by part: empty parts and `.` say nothing, `..` is kept
as it is. One leading slash, or two, make it absolute; more count as one. The
*suffix* of a name begins at its last dot, unless that is its first or its last
character.
-/

namespace Resugar

/-- A path name. -/
structure PathName where
  /-- The leading slashes that count. -/
  slashes : Nat
  parts : List Text
  deriving DecidableEq

namespace PathName

/-- The path name that a text spells. -/
def ofText (t : Text) : PathName :=
  let slashes := (t.takeWhile (· == CodePoint.ofChar '/')).length
  ⟨if slashes = 0 ∨ slashes = 2 then slashes else 1,
    (t.splitOn '/').filter fun part => !part.isEmpty && part != Text.ofString "."⟩

/-- The text of a path name. -/
def toText (p : PathName) : Text :=
  if p.slashes = 0 ∧ p.parts.isEmpty then "."
  else List.replicate p.slashes (CodePoint.ofChar '/') ++ Text.join "/" p.parts

/-- The parts on the way from the root, in a working directory. -/
def location (p : PathName) (here : List Text) : List Text :=
  if p.slashes = 0 then here ++ p.parts else p.parts

/-- The parts by which a path name goes beyond a base. -/
def relativeTo? (p base : PathName) : Option (List Text) :=
  if p.slashes = base.slashes ∧ base.parts.isPrefixOf p.parts
    then some (p.parts.drop base.parts.length) else none

/-- A name less its suffix. -/
def stem (name : Text) : Text :=
  let suffix := (name.reverse.takeWhile (· != CodePoint.ofChar '.')).reverse
  let rest := name.take (name.length - suffix.length - 1)
  if suffix.isEmpty ∨ rest.isEmpty then name else rest

/-- Whether a text can be put in the place of a suffix: it is empty, or a dot
    and more, without a slash. -/
def isSuffix (suffix : Text) : Bool :=
  !suffix.contains (CodePoint.ofChar '/')
    && (suffix.isEmpty || (suffix.startsWith "." && suffix != Text.ofString "."))

/-- A path name with another suffix. -/
def withSuffix (p : PathName) (suffix : Text) : Except Fault PathName :=
  match p.parts.getLast? with
  | some name =>
    if isSuffix suffix then .ok { p with parts := p.parts.dropLast ++ [stem name ++ suffix] }
    else .error .invalidSuffix
  | none => .error .invalidSuffix

/-- The bytes of a code point in a name. A malformed byte is read as one of the
    last surrogates, and written again as it was. -/
def namePoint? (c : CodePoint) : Option (List UInt8) :=
  if 0xDC80 ≤ c.val ∧ c.val ≤ 0xDCFF then some [UInt8.ofNat (c.val - 0xDC00)]
  else Utf8.encodePoint? c

/-- The bytes that a name can have. -/
def maxNameBytes : Nat := 255

/-- Why a file cannot have this name. -/
def nameFault? (name : Text) : Option Fault :=
  match (name.mapM namePoint?).map List.flatten with
  | none => some .loneSurrogate
  | some bytes =>
    if bytes.contains 0 then some .zeroInName
    else if maxNameBytes < bytes.length then some .nameTooLong
    else none

/-- Where the result for a file goes: to its place in the output directory, with
    another suffix. -/
def outputPath (file input output : PathName) (suffix : Text) : Except Fault PathName :=
  match file.relativeTo? input with
  | some parts => withSuffix { output with parts := output.parts ++ parts } suffix
  | none => .error .outsideInput

/-- The order of path names inside a directory: part by part. -/
def le : List Text → List Text → Bool
  | [], _ => true
  | _ :: _, [] => false
  | a :: s, b :: t => if a = b then le s t else a.le b

end PathName

end Resugar
