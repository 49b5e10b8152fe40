/-! # Names of the builtin functions

Which functions every program can use, how many arguments they take, and how shader code names
them.
-/

namespace ShapeLang

/-- How a shader function treats its arguments. -/
inductive Signature where
  /-- One argument; applied to each component. -/
  | map
  /-- Two or three arguments; a number among vectors takes part in every component. -/
  | zip
  /-- One vector to one number. -/
  | reduce
  /-- Two vectors of one type to one number. -/
  | reducePair
deriving DecidableEq, Repr

/-- The builtin functions. -/
inductive Builtin where
  | sqrt | abs | sin | cos | tan | exp | log | floor | ceil
  | atan2 | min | max | mod | mix | clamp
  | length | dot | sum | error
deriving DecidableEq, Repr

namespace Builtin

/-- All of them, in the order of their declaration. -/
def all : List Builtin :=
  [sqrt, abs, sin, cos, tan, exp, log, floor, ceil, atan2, min, max, mod, mix, clamp, length, dot,
    sum, error]

def name : Builtin → String
  | sqrt => "sqrt"
  | abs => "abs"
  | sin => "sin"
  | cos => "cos"
  | tan => "tan"
  | exp => "exp"
  | log => "log"
  | floor => "floor"
  | ceil => "ceil"
  | atan2 => "atan2"
  | min => "min"
  | max => "max"
  | mod => "mod"
  | mix => "mix"
  | clamp => "clamp"
  | length => "length"
  | dot => "dot"
  | sum => "sum"
  | error => "error"

def arity : Builtin → Nat
  | sqrt | abs | sin | cos | tan | exp | log | floor | ceil | length | sum | error => 1
  | atan2 | min | max | mod | dot => 2
  | mix | clamp => 3

/-- The shader function for a builtin, if there is one. -/
def shader? : Builtin → Option (String × Signature)
  | atan2 => some ("atan", .zip)
  | b@sqrt | b@abs | b@sin | b@cos | b@tan | b@exp | b@log | b@floor | b@ceil =>
    some (b.name, .map)
  | b@min | b@max | b@mod | b@mix | b@clamp => some (b.name, .zip)
  | length => some ("length", .reduce)
  | dot => some ("dot", .reducePair)
  | sum | error => none

end Builtin

end ShapeLang
