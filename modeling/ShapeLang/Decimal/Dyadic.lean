/-! # Floats as exact dyadic numbers

A finite float is a sign and a magnitude `significand * 2 ^ exponent`. The text of a float, its
integral value and the choice of its digits are all decided on that pair, in exact arithmetic on
natural numbers.
-/

namespace ShapeLang

/-- The magnitude `significand * 2 ^ exponent` of a finite float. -/
structure Dyadic where
  significand : Nat
  exponent : Int
  /-- The next smaller float is only half as far away as the next larger one. -/
  narrowBelow : Bool
deriving DecidableEq, Repr

/-- What the bits of a float stand for. -/
inductive FloatClass where
  | nan
  | infinite (negative : Bool)
  | finite (negative : Bool) (magnitude : Dyadic)
deriving DecidableEq, Repr

namespace FloatClass

/-- Decodes the sign, the exponent field and the fraction field. -/
def ofBits (bits : UInt64) : FloatClass :=
  let word : Nat := bits.toNat
  let negative := word / Nat.pow 2 63 == 1
  let field : Nat := word / Nat.pow 2 52 % Nat.pow 2 11
  let fraction : Nat := word % Nat.pow 2 52
  if field = Nat.pow 2 11 - 1 then
    if fraction = 0 then infinite negative else nan
  else if field = 0 then finite negative ⟨fraction, -1074, false⟩
  else finite negative ⟨Nat.pow 2 52 + fraction, (field : Int) - 1075, fraction == 0 && field > 1⟩

def ofFloat (x : Float) : FloatClass := ofBits x.toBits

end FloatClass

namespace Dyadic

/-- The magnitude as a natural number, if it is one. -/
def toNat? (x : Dyadic) : Option Nat :=
  match x.exponent with
  | .ofNat e => some (x.significand * Nat.pow 2 e)
  | .negSucc e =>
    let divisor := Nat.pow 2 (e + 1)
    if x.significand % divisor = 0 then some (x.significand / divisor) else none

end Dyadic

/-- The integer that a float is equal to, if there is one. Both zeros are the integer zero. -/
def integerValue? (x : Float) : Option Int :=
  match FloatClass.ofFloat x with
  | .finite negative magnitude =>
    magnitude.toNat?.map fun n => if negative then -(n : Int) else n
  | _ => none

/-- Whether the sign bit is set, also for a zero and for a value that is not a number. -/
def signBit (x : Float) : Bool := x.toBits.toNat / Nat.pow 2 63 == 1

end ShapeLang
