import Resugar.Text.Basic

/-!
# UTF-8

`Utf8.decode` reads bytes as a sequence of code points and *malformed* pieces: a
piece that begins a code point and breaks off, or a byte that begins none, is
one `none`. Text is then read strictly (`Utf8.decode?`) or with a replacement
for every malformed piece (`Utf8.decodeLossy`). `Utf8.encode?` writes a text
without surrogates.
-/

namespace Resugar

namespace Utf8

/-- What the first byte of a code point announces: how many bytes follow, its
    own bits, and the range of the byte that follows it (narrower where a
    shorter spelling or a surrogate is ruled out). -/
structure Lead where
  following : Nat
  bits : Nat
  least : Nat
  greatest : Nat

/-- The announcement of a first byte, if it can be one. -/
def lead? (b : UInt8) : Option Lead :=
  let n := b.toNat
  if n < 0x80 then some ⟨0, n, 0, 0⟩
  else if n < 0xC2 then none
  else if n < 0xE0 then some ⟨1, n - 0xC0, 0x80, 0xBF⟩
  else if n = 0xE0 then some ⟨2, 0, 0xA0, 0xBF⟩
  else if n = 0xED then some ⟨2, 13, 0x80, 0x9F⟩
  else if n < 0xF0 then some ⟨2, n - 0xE0, 0x80, 0xBF⟩
  else if n = 0xF0 then some ⟨3, 0, 0x90, 0xBF⟩
  else if n < 0xF4 then some ⟨3, n - 0xF0, 0x80, 0xBF⟩
  else if n = 0xF4 then some ⟨3, 4, 0x80, 0x8F⟩
  else none

/-- The bytes inside a code point, after its first byte. -/
def isFollowing (b : UInt8) : Bool :=
  0x80 ≤ b.toNat && b.toNat < 0xC0

/-- Six more bits. -/
def extend (bits : Nat) (b : UInt8) : Nat :=
  bits * 64 + (b.toNat - 0x80)

/-- The code point that begins with the byte `b`, or `none` for a malformed
    piece, and how many bytes after `b` belong to it. -/
def step (b : UInt8) (rest : List UInt8) : Option CodePoint × Nat :=
  match lead? b with
  | none => (none, 0)
  | some l =>
    if l.following = 0 then (CodePoint.ofNat? l.bits, 0)
    else match rest with
      | [] => (none, 0)
      | b₁ :: rest₁ =>
        let bits₁ := extend l.bits b₁
        if b₁.toNat < l.least ∨ l.greatest < b₁.toNat then (none, 0)
        else if l.following = 1 then (CodePoint.ofNat? bits₁, 1)
        else match rest₁ with
          | [] => (none, 1)
          | b₂ :: rest₂ =>
            let bits₂ := extend bits₁ b₂
            if !isFollowing b₂ then (none, 1)
            else if l.following = 2 then (CodePoint.ofNat? bits₂, 2)
            else match rest₂ with
              | [] => (none, 2)
              | b₃ :: _ =>
                if !isFollowing b₃ then (none, 2) else (CodePoint.ofNat? (extend bits₂ b₃), 3)

/-- The code points and malformed pieces of bytes, after `skip` bytes. -/
def decodeFrom : (skip : Nat) → List UInt8 → List (Option CodePoint)
  | _, [] => []
  | skip + 1, _ :: rest => decodeFrom skip rest
  | 0, b :: rest => (step b rest).1 :: decodeFrom (step b rest).2 rest

/-- The code points and malformed pieces that bytes spell. -/
def decode (bytes : List UInt8) : List (Option CodePoint) :=
  decodeFrom 0 bytes

/-- The text of well-formed bytes. -/
def decode? (bytes : List UInt8) : Option Text :=
  (decode bytes).mapM id

/-- The code point that stands for what cannot be read. -/
def replacement : CodePoint :=
  ⟨0xFFFD, by decide⟩

/-- The text of bytes, with U+FFFD for every malformed piece. -/
def decodeLossy (bytes : List UInt8) : Text :=
  (decode bytes).map (·.getD replacement)

/-- The bytes of a code point that is no surrogate. -/
def encodePoint? (c : CodePoint) : Option (List UInt8) :=
  let n := c.val
  let byte (base k : Nat) : UInt8 := UInt8.ofNat (base + k)
  if n < 0x80 then some [byte 0 n]
  else if n < 0x800 then some [byte 0xC0 (n / 64), byte 0x80 (n % 64)]
  else if c.isSurrogate then none
  else if n < 0x10000 then some [byte 0xE0 (n / 4096), byte 0x80 (n / 64 % 64), byte 0x80 (n % 64)]
  else some [byte 0xF0 (n / 262144), byte 0x80 (n / 4096 % 64),
    byte 0x80 (n / 64 % 64), byte 0x80 (n % 64)]

/-- The bytes of a text without surrogates. -/
def encode? (t : Text) : Option (List UInt8) :=
  (t.mapM encodePoint?).map List.flatten

end Utf8

end Resugar
