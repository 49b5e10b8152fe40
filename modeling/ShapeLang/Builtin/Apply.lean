import ShapeLang.Arithmetic
import ShapeLang.Fault
import ShapeLang.Value

/-! # Operators and builtin functions on values

Operators broadcast through lists of any nesting. Builtin functions take numbers and flat lists of
numbers, and apply componentwise or reduce to a number.
-/

namespace ShapeLang

/-- The complaint that a value has the wrong type. -/
def wrongType (expected : String) (found : Value) : ErrorKind :=
  .wrongType expected found.typeName

namespace Value

mutual

/-- Changes every number in a number or a nested list. -/
def mapNumbers (f : Float → Float) : Value → Except ErrorKind Value
  | num x => .ok (num (f x))
  | list items _ => ofItems <$> mapNumbersItems f items
  | other => .error (wrongType "number" other)

def mapNumbersItems (f : Float → Float) : List Value → Except ErrorKind (List Value)
  | [] => .ok []
  | item :: items => do
    let first ← mapNumbers f item
    let rest ← mapNumbersItems f items
    pure (first :: rest)

end

mutual

/-- Applies a scalar operation at the leaves: a number goes with every number inside the other
operand, and two lists go item by item. -/
def broadcast (f : Float → Float → Float) : Value → Value → Except ErrorKind Value
  | a, num y => mapNumbers (f · y) a
  | num x, b => mapNumbers (f x) b
  | list as _, list bs _ =>
    if as.length = bs.length then ofItems <$> broadcastItems f as bs
    else .error (.wrongType s!"list of length {as.length}" s!"list of length {bs.length}")
  | list _ _, b => .error (wrongType "number" b)
  | a, _ => .error (wrongType "number" a)

def broadcastItems (f : Float → Float → Float) :
    List Value → List Value → Except ErrorKind (List Value)
  | a :: as, b :: bs => do
    let first ← broadcast f a b
    let rest ← broadcastItems f as bs
    pure (first :: rest)
  | _, _ => .ok []

end

end Value

/-- An argument of a builtin function. -/
inductive Operand where
  | scalar (x : Float)
  | vector (xs : List Float)
deriving DecidableEq

namespace Operand

def ofValue (value : Value) : Except ErrorKind Operand :=
  match value.number?, value.numbers? with
  | some x, _ => .ok (scalar x)
  | none, some xs => .ok (vector xs)
  | none, none => .error (wrongType "number or vector" value)

/-- A number counts as a vector with one component. -/
def components : Operand → List Float
  | scalar x => [x]
  | vector xs => xs

/-- The component at an index; a number is its own component everywhere. -/
def component? (i : Nat) : Operand → Option Float
  | scalar x => some x
  | vector xs => xs[i]?

/-- The common length of the vectors among the operands, if there are any; `seen` is that of the
operands before. -/
def commonLength (seen : Option Nat) : List Operand → Except ErrorKind (Option Nat)
  | [] => .ok seen
  | scalar _ :: operands => commonLength seen operands
  | vector xs :: operands =>
    match seen with
    | none => commonLength (some xs.length) operands
    | some n =>
      if n = xs.length then commonLength seen operands
      else .error (.wrongType s!"vector of length {n}" s!"vector of length {xs.length}")

end Operand

namespace Builtin

/-- Why a builtin function gives no result. -/
inductive Failure where
  /-- A mistake of the call. -/
  | mistake (kind : ErrorKind)
  /-- A mistake that the function around the call reports. -/
  | reported (kind : ErrorKind)
  /-- An argument or a component is missing, although the number of arguments was checked. -/
  | missing
deriving DecidableEq

/-- The complaint, if there is one, is about the call. -/
def ofCall {α : Type} : Except ErrorKind α → Except Failure α
  | .ok a => .ok a
  | .error kind => .error (.mistake kind)

def found {α : Type} : Option α → Except Failure α
  | some a => .ok a
  | none => .error .missing

/-- Applies a scalar function to each component of the arguments. -/
def componentwise (f : List Float → Option Float) (args : List Value) : Except Failure Value := do
  let operands ← ofCall (args.mapM Operand.ofValue)
  let component (i : Nat) : Except Failure Value := do
    let x ← found ((operands.mapM (Operand.component? i)).bind f)
    pure (.num x)
  match ← ofCall (Operand.commonLength none operands) with
  | none => component 0
  | some n => Value.ofItems <$> (List.range n).mapM component

def map1 (f : Float → Float) : List Value → Except Failure Value :=
  componentwise fun xs => match xs with
    | [x] => some (f x)
    | _ => none

def map2 (f : Float → Float → Float) : List Value → Except Failure Value :=
  componentwise fun xs => match xs with
    | [x, y] => some (f x y)
    | _ => none

def map3 (f : Float → Float → Float → Float) : List Value → Except Failure Value :=
  componentwise fun xs => match xs with
    | [x, y, z] => some (f x y z)
    | _ => none

/-- The components of a number or of a vector. -/
def components (value : Value) : Except Failure (List Float) :=
  Operand.components <$> ofCall (Operand.ofValue value)

/-- Adds up the numbers of a list. -/
def total (a : Arithmetic) (start : Float) : List Value → Except ErrorKind Float
  | [] => .ok start
  | .num x :: items => total a (a.add start x) items
  | item :: _ => .error (wrongType "number" item)

/-- The result of a builtin function. -/
def apply (a : Arithmetic) : Builtin → List Value → Except Failure Value
  | sqrt, args => map1 a.sqrt args
  | abs, args => map1 a.abs args
  | sin, args => map1 a.sin args
  | cos, args => map1 a.cos args
  | tan, args => map1 a.tan args
  | exp, args => map1 a.exp args
  | log, args => map1 a.log args
  | floor, args => map1 a.floor args
  | ceil, args => map1 a.ceil args
  | atan2, args => map2 a.atan2 args
  | min, args => map2 a.min args
  | max, args => map2 a.max args
  | mod, args => map2 a.mod args
  | mix, args => map3 a.mix args
  | clamp, args => map3 a.clamp args
  | length, [v] => do
    let xs ← components v
    pure (.num (a.length xs))
  | dot, [v, w] => do
    let xs ← components v
    let ys ← components w
    if xs.length ≠ ys.length then
      throw (.mistake (wrongType "vectors of equal length" w))
    pure (.num (a.dot xs ys))
  | sum, [.list items _] => do
    let x ← ofCall (total a 0.0 items)
    pure (.num x)
  | sum, [value] => .error (.mistake (wrongType "list" value))
  | error, [.text content] => .error (.reported (.userError content))
  | error, [value] => .error (.reported (.userError value.shown))
  | length, _ | dot, _ | sum, _ | error, _ => .error .missing

end Builtin

/-- The names that every program starts with. -/
def Namespace.standard : Namespace :=
  [("pi", .num 3.141592653589793), ("tau", .num 6.283185307179586),
    ("inf", .num (Float.ofBits 0x7FF0000000000000))] ++
  Builtin.all.map fun function => (function.name, .builtin function)

end ShapeLang
