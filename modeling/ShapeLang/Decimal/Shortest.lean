import ShapeLang.Decimal.Dyadic

/-! # The fewest digits that identify a float

The reals that round to a float form an interval, which holds its ends exactly if the significand
is even. `Dyadic.shortest` looks for a decimal in it on coarser grids first, so that no decimal
with fewer digits identifies the float; of two on one grid it takes the closer, and the upper one
if both are equally close.
-/

namespace ShapeLang

/-- The number `digits * 10 ^ exponent`. -/
structure Decimal where
  digits : Nat
  exponent : Int
deriving DecidableEq, Repr

/-- Compares `a * 10 ^ i` with `b * 2 ^ j`. -/
def compareScaled (a : Nat) (i : Int) (b : Nat) (j : Int) : Ordering :=
  compare (a * Nat.pow 10 i.toNat * Nat.pow 2 (-j).toNat)
    (b * Nat.pow 2 j.toNat * Nat.pow 10 (-i).toNat)

namespace Dyadic

/-- The decimal lies among the reals that round to this float: to nearest, ties to even. The ends
are given in quarters of the unit of the significand. -/
def identifiedBy (x : Dyadic) (d : Decimal) : Bool :=
  let low := if x.narrowBelow then 4 * x.significand - 1 else 4 * x.significand - 2
  let high := 4 * x.significand + 2
  let closed := x.significand % 2 == 0
  let atLow := compareScaled d.digits d.exponent low (x.exponent - 2)
  let atHigh := compareScaled d.digits d.exponent high (x.exponent - 2)
  (atLow == .gt || closed && atLow == .eq) && (atHigh == .lt || closed && atHigh == .eq)

/-- The largest multiple of `10 ^ exponent` that is at most the magnitude. -/
def floorOnGrid (x : Dyadic) (exponent : Int) : Nat :=
  x.significand * Nat.pow 2 x.exponent.toNat * Nat.pow 10 (-exponent).toNat /
    (Nat.pow 2 (-x.exponent).toNat * Nat.pow 10 exponent.toNat)

/-- The decimals on one grid that identify the float, the better one if there are two. -/
def onGrid? (x : Dyadic) (exponent : Int) : Option Decimal :=
  let below : Decimal := ⟨x.floorOnGrid exponent, exponent⟩
  let above : Decimal := ⟨below.digits + 1, exponent⟩
  match x.identifiedBy below, x.identifiedBy above with
  | true, true =>
    -- the middle of the two, in halves of the grid's unit, against the float itself
    if compareScaled (2 * below.digits + 1) exponent (2 * x.significand) x.exponent = .gt then
      some below
    else some above
  | true, false => some below
  | false, true => some above
  | false, false => none

/-- Counts up from a lower bound to the least exponent whose power of ten exceeds the magnitude. -/
def scaleFrom (x : Dyadic) : Nat → Int → Int
  | 0, scale => scale
  | steps + 1, scale =>
    if compareScaled 1 scale x.significand x.exponent = .gt then scale
    else x.scaleFrom steps (scale + 1)

/-- The least exponent whose power of ten exceeds a positive magnitude, found from its binary
logarithm: `30103 / 100000` is close to the decimal logarithm of two. -/
def scale (x : Dyadic) : Int :=
  x.scaleFrom 4 (((Nat.log2 x.significand : Int) + x.exponent) * 30103 / 100000 - 1)

/-- Moves factors of ten from the digits into the exponent. -/
def stripZeros : Nat → Decimal → Decimal
  | 0, d => d
  | steps + 1, d =>
    if d.digits ≠ 0 ∧ d.digits % 10 = 0 then stripZeros steps ⟨d.digits / 10, d.exponent + 1⟩
    else d

/-- The magnitude itself, as a decimal. -/
def exact (x : Dyadic) : Decimal :=
  ⟨x.significand * Nat.pow 2 x.exponent.toNat * Nat.pow 5 (-x.exponent).toNat,
    -(-x.exponent).toNat⟩

/-- The shortest decimal that identifies a positive magnitude. Seventeen digits are enough for
every float. -/
def shortest (x : Dyadic) : Decimal :=
  let scale := x.scale
  let found := (List.range 18).findSome? fun (n : Nat) => x.onGrid? (scale - n)
  stripZeros 20 (found.getD x.exact)

end Dyadic

end ShapeLang
