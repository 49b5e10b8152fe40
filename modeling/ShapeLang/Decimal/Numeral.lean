import ShapeLang.Decimal.Shortest

/-! # Reading decimal numerals

`Decimal.toFloat` is the float nearest to a decimal. `Numeral.scan` reads the form that number
literals have in programs; `floatOfChars?` accepts the wider form of number texts, with a sign,
a bare point, `inf` and `nan`.
-/

namespace ShapeLang

/-- A decimal digit of the ASCII range. -/
def isDecimalDigit (c : Char) : Bool := '0' ≤ c && c ≤ '9'

/-- The value of a run of decimal digits. -/
def digitsValue (cs : List Char) : Nat :=
  cs.foldl (fun value c => 10 * value + (c.toNat - '0'.toNat)) 0

namespace Decimal

/-- Number of digits of the decimal's coefficient. -/
def digitCount (d : Decimal) : Nat := (Nat.toDigits 10 d.digits).length

/-- The float nearest to the decimal, infinite if the decimal is too large. The first two cases
only keep the powers of ten small: beyond them every decimal is zero or infinite as a float. -/
def toFloat (d : Decimal) : Float :=
  let leading := d.exponent + d.digitCount
  if d.digits = 0 ∨ leading < -330 then 0.0
  else if 310 < leading then Float.ofBits 0x7FF0000000000000
  else Float.ofScientific d.digits (d.exponent < 0) d.exponent.natAbs

end Decimal

/-- The parts of an unsigned numeral: the digits before and after the point, and the exponent. -/
structure Numeral where
  whole : List Char
  fraction : List Char
  exponent : Int
deriving DecidableEq, Repr

namespace Numeral

def toDecimal (numeral : Numeral) : Decimal :=
  ⟨digitsValue (numeral.whole ++ numeral.fraction), numeral.exponent - numeral.fraction.length⟩

/-- The float nearest to what the numeral says. -/
def toFloat (numeral : Numeral) : Float := numeral.toDecimal.toFloat

/-- An optional exponent: it counts only if at least one digit follows the mark and the sign. -/
def scanExponent (cs : List Char) : Int × List Char :=
  match cs with
  | mark :: rest =>
    if mark = 'e' ∨ mark = 'E' then
      let (negative, rest) := match rest with
        | '-' :: unsigned => (true, unsigned)
        | '+' :: unsigned => (false, unsigned)
        | _ => (false, rest)
      let digits := rest.takeWhile isDecimalDigit
      if digits.isEmpty then (0, cs)
      else
        let value : Int := digitsValue digits
        (if negative then -value else value, rest.dropWhile isDecimalDigit)
    else (0, cs)
  | [] => (0, [])

/-- An optional point with digits: it counts only if at least one digit follows the point. -/
def scanFraction (cs : List Char) : List Char × List Char :=
  match cs with
  | '.' :: rest =>
    let digits := rest.takeWhile isDecimalDigit
    if digits.isEmpty then ([], cs) else (digits, rest.dropWhile isDecimalDigit)
  | _ => ([], cs)

/-- The longest numeral that a text starts with, and the rest of the text. -/
def scan (cs : List Char) : Numeral × List Char :=
  let (fraction, afterFraction) := scanFraction (cs.dropWhile isDecimalDigit)
  let (exponent, rest) := scanExponent afterFraction
  (⟨cs.takeWhile isDecimalDigit, fraction, exponent⟩, rest)

end Numeral

/-- The float that an unsigned number text denotes. Unlike a numeral of the language the text may
start or end with the point. -/
def magnitudeOfChars? (cs : List Char) : Option Float :=
  let lower := cs.map Char.toLower
  if lower = "inf".toList ∨ lower = "infinity".toList then some (Float.ofBits 0x7FF0000000000000)
  else if lower = "nan".toList then some (Float.ofBits 0x7FF8000000000000)
  else
    let whole := cs.takeWhile isDecimalDigit
    let (fraction, afterFraction) := match cs.dropWhile isDecimalDigit with
      | '.' :: rest => (rest.takeWhile isDecimalDigit, rest.dropWhile isDecimalDigit)
      | rest => ([], rest)
    let (exponent, rest) := Numeral.scanExponent afterFraction
    if (whole.isEmpty && fraction.isEmpty) || !rest.isEmpty then none
    else some (Numeral.toFloat ⟨whole, fraction, exponent⟩)

/-- The float that a number text denotes: an optional sign and a magnitude. -/
def floatOfChars? (cs : List Char) : Option Float :=
  match cs with
  | '-' :: rest => (magnitudeOfChars? rest).map Float.neg
  | '+' :: rest => magnitudeOfChars? rest
  | _ => magnitudeOfChars? cs

end ShapeLang
