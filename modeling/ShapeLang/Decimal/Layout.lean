import ShapeLang.Decimal.Shortest

/-! # How decimals are written

A `Layout` holds the decisions that the digits leave open. Values are shown in the `plain` layout,
which never uses an exponent; shader code is written in the `pointed` layout, in which every
number has a point or an exponent.
-/

namespace ShapeLang

/-- The decisions about the form of a number. -/
structure Layout where
  /-- Whether a number whose leading digit has this exponent is written without an exponent. -/
  positional : Int → Bool
  /-- Whether a whole number written without an exponent ends in `.0`. -/
  pointZero : Bool

namespace Layout

/-- Never an exponent, and no point in whole numbers. -/
def plain : Layout where
  positional _ := true
  pointZero := false

/-- An exponent below `1e-4` and from `1e16` on, and otherwise always a point. -/
def pointed : Layout where
  positional leading := -4 ≤ leading && leading < 16
  pointZero := true

/-- The decimal digits of a number. -/
def digitChars (n : Nat) : List Char := Nat.toDigits 10 n

/-- Digits with the point after the first `exponent + length` of them. -/
def pointedDigits (layout : Layout) (digits : List Char) (exponent : Int) : List Char :=
  match exponent with
  | .ofNat zeros =>
    digits ++ List.replicate zeros '0' ++ (if layout.pointZero then ['.', '0'] else [])
  | .negSucc before =>
    let places := before + 1
    if places < digits.length then
      digits.take (digits.length - places) ++ '.' :: digits.drop (digits.length - places)
    else '0' :: '.' :: (List.replicate (places - digits.length) '0' ++ digits)

/-- One digit before the point, and the exponent of that digit. -/
def exponentDigits (digits : List Char) (leading : Int) : List Char :=
  let tail := digits.drop 1
  let fraction := if tail.isEmpty then [] else '.' :: tail
  let sign := if leading < 0 then ['-'] else []
  digits.take 1 ++ fraction ++ 'e' :: (sign ++ digitChars leading.natAbs)

/-- The text of a positive decimal. -/
def decimalChars (layout : Layout) (d : Decimal) : List Char :=
  let digits := digitChars d.digits
  let leading := d.exponent + digits.length - 1
  if layout.positional leading then layout.pointedDigits digits d.exponent
  else exponentDigits digits leading

/-- The text of a magnitude. -/
def magnitudeChars (layout : Layout) (x : Dyadic) : List Char :=
  if x.significand = 0 then layout.pointedDigits ['0'] 0 else layout.decimalChars x.shortest

/-- The text of a float: the fewest digits that identify it, in this layout. -/
def chars (layout : Layout) (x : Float) : List Char :=
  match FloatClass.ofFloat x with
  | .nan => "NaN".toList
  | .infinite negative => if negative then "-inf".toList else "inf".toList
  | .finite negative magnitude =>
    if negative then '-' :: layout.magnitudeChars magnitude else layout.magnitudeChars magnitude

def text (layout : Layout) (x : Float) : String := String.ofList (layout.chars x)

end Layout

end ShapeLang
