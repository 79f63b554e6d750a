import Resugar.Number.Binary64
import Resugar.Text.Basic

/-!
# The shortest decimal of a double

Among the decimals that round to a double, `Binary64.shortest` takes one with
the fewest digits and, of those, the nearest. The reals that round to
`m * 2 ^ k` form an interval around it, whose ends belong to it exactly when `m`
is even. For one digit, two digits and so on, the two neighbours of the value on
the decimal grid of that many digits are tried against the interval; seventeen
digits always suffice.
-/

namespace Resugar

/-- The decimal `digits * 10 ^ exponent`. -/
structure Decimal where
  digits : Nat
  exponent : Int
  deriving DecidableEq

namespace Decimal

/-- The same decimal without trailing zeros among its digits. -/
def trim (d : Decimal) : Nat → Decimal
  | 0 => d
  | n + 1 => if d.digits ≠ 0 ∧ d.digits % 10 = 0 then trim ⟨d.digits / 10, d.exponent + 1⟩ n else d

end Decimal

/-- The positive reals that round to a double, in units of `num / den`: the
    value, the ends of the interval, and whether these belong to it. -/
structure RoundingInterval where
  num : Nat
  den : Nat
  value : Nat
  lower : Nat
  upper : Nat
  closed : Bool

namespace RoundingInterval

/-- The interval of `m * 2 ^ k`, in units of `2 ^ (k - 2)`. Below a power of two
    the lower half is shorter. -/
def ofDouble (m : Nat) (k : Int) : RoundingInterval :=
  let unit := k - 2
  { num := if 0 ≤ unit then pow2 unit.toNat else 1
    den := if 0 ≤ unit then 1 else pow2 (-unit).toNat
    value := 4 * m
    lower := if m = pow2 52 ∧ -1074 < k then 4 * m - 1 else 4 * m - 2
    upper := 4 * m + 2
    closed := m % 2 = 0 }

/-- Numerator and denominator of `n` units divided by `10 ^ e`. -/
def scaled (i : RoundingInterval) (n : Nat) (e : Int) : Nat × Nat :=
  if 0 ≤ e then (n * i.num, i.den * pow10 e.toNat) else (n * i.num * pow10 (-e).toNat, i.den)

/-- Whether `d * 10 ^ e` lies in the interval. -/
def contains (i : RoundingInterval) (d : Nat) (e : Int) : Bool :=
  let (lo, lden) := i.scaled i.lower e
  let (hi, hden) := i.scaled i.upper e
  if i.closed then lo ≤ d * lden && d * hden ≤ hi else lo < d * lden && d * hden < hi

/-- The neighbour of the value on the grid `10 ^ e` that lies in the interval;
    of two, the nearer one. -/
def onGrid? (i : RoundingInterval) (e : Int) : Option Nat :=
  let (p, q) := i.scaled i.value e
  let below := p / q
  let above := below + 1
  match i.contains below e, i.contains above e with
  | true, true => some (roundDiv p q)
  | true, false => some below
  | false, true => some above
  | false, false => none

/-- The least `e` with value below `10 ^ e`, searched from a lower bound. -/
def magnitude (i : RoundingInterval) (e : Int) : Nat → Int
  | 0 => e
  | fuel + 1 =>
    let (p, q) := i.scaled i.value e
    if p < q then e else magnitude i (e + 1) fuel

/-- The first grid, from coarse to fine, with a decimal in the interval. -/
def search (i : RoundingInterval) (e : Int) : Nat → Option Decimal
  | 0 => none
  | fuel + 1 =>
    match i.onGrid? (e - 1) with
    | some d => some ⟨d, e - 1⟩
    | none => search i (e - 1) fuel

end RoundingInterval

namespace Binary64

/-- The shortest decimal that rounds to a finite double, without its sign. -/
def shortest (x : Binary64) : Decimal :=
  let i := RoundingInterval.ofDouble x.significand x.scale
  let least : Int := ((x.significand.log2 + x.scale) * 30103) / 100000 - 1
  match i.search (i.magnitude least 8) 18 with
  | some d => d.trim 20
  | none => ⟨0, 0⟩

/-- How the decimal of a double is laid out: positionally from `1e-4` up to
    `1e16`, beyond with an exponent of at least two digits. -/
def layout (d : Decimal) : Text :=
  let ds : Text := Text.ofNat d.digits
  let point : Int := ds.length + d.exponent
  if -4 < point ∧ point ≤ 16 then
    if point ≤ 0 then Text.ofString "0." ++
      List.replicate (-point).toNat (CodePoint.ofChar '0') ++ ds
    else if ds.length ≤ point.toNat then
      ds ++ List.replicate (point.toNat - ds.length) (CodePoint.ofChar '0') ++ Text.ofString ".0"
    else ds.take point.toNat ++ CodePoint.ofChar '.' :: ds.drop point.toNat
  else
    let e := point - 1
    let digits := Text.ofNat e.natAbs
    let padded := if digits.length < 2 then CodePoint.ofChar '0' :: digits else digits
    let mantissa := match ds with
      | [d] => [d]
      | d :: rest => d :: CodePoint.ofChar '.' :: rest
      | [] => []
    mantissa ++ Text.ofString (if e < 0 then "e-" else "e+") ++ padded

/-- The shortest text that reads back as a double. -/
def toText (x : Binary64) : Text :=
  let sign : Text := if x.isNegative then [CodePoint.ofChar '-'] else []
  if x.isNaN then "nan"
  else if x.isInfinite then sign ++ Text.ofString "inf"
  else if x.significand = 0 then sign ++ Text.ofString "0.0"
  else sign ++ layout x.shortest

end Binary64

end Resugar
