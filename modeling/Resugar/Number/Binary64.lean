/-!
# Binary floating point

A `Binary64` is the bit pattern of an IEEE 754 double. Everything about it is
said with natural numbers: a finite pattern stands for
`significand * 2 ^ scale`, and a positive quotient is rounded to the nearest
pattern (`Binary64.ofRatio`), a half going to the even neighbour.
-/

namespace Resugar

/-- A power of two. -/
def pow2 (k : Nat) : Nat :=
  Nat.pow 2 k

/-- A power of ten. -/
def pow10 (k : Nat) : Nat :=
  Nat.pow 10 k

/-- A quotient rounded to the nearest number; a half goes to the even one. -/
def roundDiv (p q : Nat) : Nat :=
  let d := p / q
  let r := p % q
  if 2 * r < q ∨ (2 * r = q ∧ d % 2 = 0) then d else d + 1

/-- A double, as its bit pattern. -/
structure Binary64 where
  bits : UInt64
  deriving DecidableEq

namespace Binary64

/-- The pattern without its sign. -/
def magnitude (x : Binary64) : Nat :=
  x.bits.toNat % pow2 63

/-- The sign bit. -/
def isNegative (x : Binary64) : Bool :=
  pow2 63 ≤ x.bits.toNat

/-- The magnitude of infinity; greater magnitudes are not numbers. -/
def infinity : Nat := 0x7FF0000000000000

def isNaN (x : Binary64) : Bool :=
  infinity < x.magnitude

def isInfinite (x : Binary64) : Bool :=
  x.magnitude == infinity

/-- The pattern of something that is not a number. -/
def nan : Binary64 := ⟨0x7FF8000000000000⟩

/-- The pattern with a given sign and magnitude. -/
def ofMagnitude (negative : Bool) (n : Nat) : Binary64 :=
  ⟨UInt64.ofNat (if negative then n + pow2 63 else n)⟩

/-- The significand of a finite pattern, with the leading bit that normal
    patterns leave out. -/
def significand (x : Binary64) : Nat :=
  let fraction := x.magnitude % pow2 52
  if x.magnitude < pow2 52 then fraction else fraction + pow2 52

/-- The power of two by which the significand of a finite pattern is scaled. -/
def scale (x : Binary64) : Int :=
  if x.magnitude < pow2 52 then -1074 else (x.magnitude / pow2 52 : Nat) - 1075

/-- `p / (q * 2 ^ k)`, rounded. -/
def scaledDiv (p q : Nat) (k : Int) : Nat :=
  if 0 ≤ k then roundDiv p (q * pow2 k.toNat) else roundDiv (p * pow2 (-k).toNat) q

/-- The scale at which the quotient `p / q` has a significand of 53 bits, or the
    least scale. -/
def scaleOf (p q : Nat) : Int :=
  let guess : Int := (p.log2 : Int) - q.log2 - 52
  let small : Bool :=
    if 0 ≤ guess then p < q * pow2 guess.toNat * pow2 52 else p * pow2 (-guess).toNat < q * pow2 52
  max (if small then guess - 1 else guess) (-1074)

/-- The double nearest to the quotient `p / q`, with a sign. -/
def ofRatio (negative : Bool) (p q : Nat) : Binary64 :=
  if p = 0 then ofMagnitude negative 0
  else
    let k := scaleOf p q
    let n := (k + 1074).toNat * pow2 52 + scaledDiv p q k
    ofMagnitude negative (min n infinity)

/-- The double nearest to `digits * 10 ^ exponent`. Far outside the range of
    doubles the power of ten is not computed. -/
def ofDecimal (negative : Bool) (digits : Nat) (exponent : Int) : Binary64 :=
  let magnitude : Int := (Nat.toDigits 10 digits).length + exponent
  if digits = 0 then ofMagnitude negative 0
  else if 400 < magnitude then ofMagnitude negative infinity
  else if magnitude < -400 then ofMagnitude negative 0
  else if 0 ≤ exponent then ofRatio negative (digits * pow10 exponent.toNat) 1
  else ofRatio negative digits (pow10 (-exponent).toNat)

/-- The integer that a finite double is, if it is one. -/
def toInt? (x : Binary64) : Option Int :=
  if infinity ≤ x.magnitude then none
  else
    let m := x.significand
    let k := x.scale
    let value? : Option Nat :=
      if 0 ≤ k then some (m * pow2 k.toNat)
      else if m % pow2 (-k).toNat = 0 then some (m / pow2 (-k).toNat) else none
    value?.map fun n => if x.isNegative then -(n : Int) else n

end Binary64

end Resugar
