/-! # Arithmetic

The scalar operations that the builtin operators and functions apply to each component. The
evaluator takes them as a parameter; `Arithmetic.binary64` is what programs run with.
-/

namespace ShapeLang

structure Arithmetic where
  add : Float → Float → Float
  sub : Float → Float → Float
  mul : Float → Float → Float
  div : Float → Float → Float
  pow : Float → Float → Float
  atan2 : Float → Float → Float
  min : Float → Float → Float
  max : Float → Float → Float
  sqrt : Float → Float
  abs : Float → Float
  sin : Float → Float
  cos : Float → Float
  tan : Float → Float
  exp : Float → Float
  log : Float → Float
  floor : Float → Float
  ceil : Float → Float

namespace Arithmetic

/-- The smaller of two numbers, or the one that is a number. -/
def lesser (x y : Float) : Float :=
  if x.isNaN then y else if y.isNaN then x else if y < x then y else x

/-- The larger of two numbers, or the one that is a number. -/
def greater (x y : Float) : Float :=
  if x.isNaN then y else if y.isNaN then x else if x < y then y else x

/-- Double precision, rounded to nearest. -/
def binary64 : Arithmetic where
  add := Float.add
  sub := Float.sub
  mul := Float.mul
  div := Float.div
  pow := Float.pow
  atan2 := Float.atan2
  min := lesser
  max := greater
  sqrt := Float.sqrt
  abs := Float.abs
  sin := Float.sin
  cos := Float.cos
  tan := Float.tan
  exp := Float.exp
  log := Float.log
  floor := Float.floor
  ceil := Float.ceil

variable (a : Arithmetic)

/-- What is left of `x` after whole multiples of `y`, with the sign of `y`. -/
def mod (x y : Float) : Float := a.sub x (a.mul y (a.floor (a.div x y)))

/-- The point between `x` and `y` at the fraction `t` of the way. -/
def mix (x y t : Float) : Float := a.add x (a.mul (a.sub y x) t)

/-- The number `x`, but not less than `low`, and then not more than `high`. -/
def clamp (x low high : Float) : Float := a.min (a.max x low) high

/-- The sum of products of components. It is negative zero if there are none. -/
def dot (xs ys : List Float) : Float :=
  (List.zipWith a.mul xs ys).foldl a.add (-0.0)

/-- The length of a vector. -/
def length (xs : List Float) : Float := a.sqrt (a.dot xs xs)

end Arithmetic

end ShapeLang
