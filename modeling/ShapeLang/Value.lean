import ShapeLang.Decimal.Layout
import ShapeLang.Expr
import ShapeLang.Frame.Set

/-! # Values

What expressions evaluate to. A module and a function hold on to a frame, by its number; two
modules are the same if they are over the same frame, and two closures if they were made by the
same evaluation of a function literal. Lists and records carry the set of frames that their parts
hold on to; `Value.ofItems` and `Value.ofFields` make them.
-/

namespace ShapeLang

inductive Value where
  | bool (value : Bool)
  | num (value : Float)
  | text (content : String)
  /-- The items of a list, and the frames that they hold on to. -/
  | list (items : List Value) (frames : FrameSet)
  /-- The fields of a record in the order written, and the frames that they hold on to. -/
  | record (fields : List (String × Value)) (frames : FrameSet)
  /-- The fields are slots of the frame, and are evaluated when they are read first. -/
  | module (frame : FrameId) (fields : List (String × Nat))
  /-- A function literal and the frame that it was evaluated in. -/
  | closure (serial : Nat) (lambda : Lambda) (env : FrameId)
  | builtin (function : Builtin)

namespace Value

def typeName : Value → String
  | bool _ => "bool"
  | num _ => "number"
  | text _ => "text"
  | list _ _ => "list"
  | record _ _ => "record"
  | module _ _ => "module"
  | closure _ _ _ => "function"
  | builtin _ => "function"

/-- The number of arguments that a function takes. -/
def arity? : Value → Option Nat
  | closure _ lambda _ => some lambda.paramCount
  | builtin function => some function.arity
  | _ => none

/-- The frames that a value holds on to. -/
def frames : Value → FrameSet
  | list _ frames => frames
  | record _ frames => frames
  | module frame _ => [frame]
  | closure _ _ env => [env]
  | _ => []

/-- The list of the given items. -/
def ofItems (items : List Value) : Value := list items (FrameSet.unions (items.map frames))

/-- The record of the given fields. -/
def ofFields (fields : List (String × Value)) : Value :=
  record fields (FrameSet.unions (fields.map (·.2.frames)))

/-- A list of numbers, one for each component of a vector. -/
def ofNumbers (xs : List Float) : Value := ofItems (xs.map num)

def number? : Value → Option Float
  | num x => some x
  | _ => none

/-- The components of a list that holds nothing but numbers. -/
def numbers? : Value → Option (List Float)
  | list items _ => items.mapM number?
  | _ => none

/-- The text of a number: an integer below `10 ^ 15` without a point, and otherwise the fewest
digits that identify the number. -/
def numberText (x : Float) : String :=
  match integerValue? x with
  | some n =>
    if n.natAbs < Nat.pow 10 15 then
      String.ofList ((if n < 0 then ['-'] else []) ++ Layout.digitChars n.natAbs)
    else Layout.plain.text x
  | none => Layout.plain.text x

mutual

/-- The text of a value. The fields of a module are not evaluated for it. -/
def shown : Value → String
  | bool value => if value then "true" else "false"
  | num value => numberText value
  | text content => "\"" ++ content ++ "\""
  | list items _ => "[" ++ ",".intercalate (shownItems items) ++ "]"
  | record fields _ => "\x7b" ++ ",".intercalate (shownFields fields) ++ "\x7d"
  | module _ fields => "\x7b" ++ ";".intercalate (fields.map (·.1 ++ "=...")) ++ "\x7d"
  | closure _ lambda _ => s!"<function/{lambda.paramCount}>"
  | builtin function => s!"<builtin {function.name}>"

def shownItems : List Value → List String
  | [] => []
  | item :: items => item.shown :: shownItems items

def shownFields : List (String × Value) → List String
  | [] => []
  | (name, value) :: fields => (name ++ ":" ++ value.shown) :: shownFields fields

end

mutual

/-- Equality as programs see it: structural on data, where a number that is no number equals
nothing, and by identity on modules and functions. The order of record fields does not count. -/
def equal : Value → Value → Bool
  | bool a, bool b => a == b
  | num a, num b => a == b
  | text a, text b => a == b
  | list as _, list bs _ => equalItems as bs
  | record as _, record bs _ => as.length == bs.length && equalFields as bs
  | module a _, module b _ => a == b
  | closure a _ _, closure b _ _ => a == b
  | builtin a, builtin b => a == b
  | _, _ => false

def equalItems : List Value → List Value → Bool
  | [], [] => true
  | a :: as, b :: bs => a.equal b && equalItems as bs
  | _, _ => false

/-- Every field of the first record is equal to the field of that name in the second. -/
def equalFields : List (String × Value) → List (String × Value) → Bool
  | [], _ => true
  | (name, a) :: as, bs =>
    (match bs.lookup name with
      | some b => a.equal b
      | none => false) && equalFields as bs

end

end Value

mutual

/-- The value of a constant. -/
def Constant.toValue : Constant → Value
  | .bool value => .bool value
  | .num value => .num value
  | .text content => .text content
  | .list items => .ofItems (Constant.toValues items)
  | .record fields => .ofFields (Constant.toFields fields)
  | .builtin function => .builtin function

def Constant.toValues : List Constant → List Value
  | [] => []
  | item :: items => item.toValue :: Constant.toValues items

def Constant.toFields : List (String × Constant) → List (String × Value)
  | [] => []
  | (name, value) :: fields => (name, value.toValue) :: Constant.toFields fields

end

/-- The component of a vector that a field name selects. -/
def componentIndex? : String → Option Nat
  | "x" => some 0
  | "y" => some 1
  | "z" => some 2
  | "w" => some 3
  | _ => none

end ShapeLang
