import Mathlib.Logic.Function.Basic
import ShapeLang.Shape.Export

/-! # Running shader code

Statements are run one after the other, each giving a value to the name that it defines. Operators
and functions work component by component, with the arithmetic of evaluation, and a number among
vectors takes part in every component. An index that is none of a vector gives any number.
-/

namespace ShapeLang

namespace Shader

/-- The values of shader code. -/
inductive ShaderValue where
  | bool (b : Bool)
  | float (x : Float)
  | vector (xs : List Float)

namespace ShaderValue

/-- A component of a vector. A number is its own component everywhere. -/
def component (i : Nat) : ShaderValue → Float
  | bool _ => 0
  | float x => x
  | vector xs => xs.getD i 0

/-- The components of a number or of a vector. -/
def components : ShaderValue → List Float
  | bool _ => []
  | float x => [x]
  | vector xs => xs

/-- Whether a condition holds. -/
def holds : ShaderValue → Bool
  | bool b => b
  | _ => false

/-- The value of a numeric type with the given components. -/
def ofComponents (type : ShaderType) (component : Nat → Float) : ShaderValue :=
  match type with
  | .bool => bool false
  | .float => float (component 0)
  | .vec2 => vector ((List.range 2).map component)
  | .vec3 => vector ((List.range 3).map component)
  | .vec4 => vector ((List.range 4).map component)

/-- Equality, component by component. -/
def equal : ShaderValue → ShaderValue → Bool
  | bool a, bool b => a == b
  | float x, float y => x == y
  | vector xs, vector ys => xs.length == ys.length && (List.zipWith (· == ·) xs ys).all id
  | _, _ => false

/-- A value is of a type. -/
inductive Is : ShaderType → ShaderValue → Prop
  | bool (b : Bool) : Is .bool (.bool b)
  | float (x : Float) : Is .float (.float x)
  | vector {type : ShaderType} {xs : List Float} (isVector : type.isVector)
      (count : type.count? = some xs.length) : Is type (.vector xs)

end ShaderValue

/-- The values of names. -/
abbrev Naming := Nat → ShaderValue

/-- The value of a term. No argument of a shape function is given by its text. -/
def Term.value (values : Naming) (term : Term) : ShaderValue :=
  match term.atom with
  | .name id => values id
  | .given _ => .bool false
  | .number x => .float x
  | .boolean b => .bool b
  | .vector _ xs => .vector xs
  | .splat type x => .ofComponents type fun _ => x

end Shader

namespace Arithmetic

variable (a : Arithmetic)

open Shader

/-- The product of a number of copies of a factor, from the left. Of no copies it is one. -/
def multiplied (x : Float) : Nat → Float
  | 0 => 1.0
  | 1 => x
  | copies + 1 => a.mul (multiplied x copies) x

/-- A power with a whole exponent, as a product or as one divided by a product. -/
def wholePower (x : Float) : Int → Float
  | .ofNat n => a.multiplied x n
  | .negSucc n => a.div 1.0 (a.multiplied x (n + 1))

/-- Powers with small whole exponents are products. -/
def MultipliesOut : Prop :=
  ∀ x y n, integerValue? y = some n → n.natAbs ≤ Compile.maxUnrolledPower →
    a.pow x y = a.wholePower x n

/-- What a shader function makes of one component of each argument. -/
def scalarFunction (name : String) (xs : List Float) : Float :=
  match name, xs with
  | "sqrt", [x] => a.sqrt x
  | "abs", [x] => a.abs x
  | "sin", [x] => a.sin x
  | "cos", [x] => a.cos x
  | "tan", [x] => a.tan x
  | "exp", [x] => a.exp x
  | "log", [x] => a.log x
  | "floor", [x] => a.floor x
  | "ceil", [x] => a.ceil x
  | "pow", [x, y] => a.pow x y
  | "atan", [x, y] => a.atan2 x y
  | "min", [x, y] => a.min x y
  | "max", [x, y] => a.max x y
  | "mod", [x, y] => a.mod x y
  | "mix", [x, y, t] => a.mix x y t
  | "clamp", [x, low, high] => a.clamp x low high
  | _, _ => 0

/-- What an operator makes of one component of each operand. -/
def scalarOperator (op : BinaryOp) (x y : Float) : Float :=
  match op with
  | .add => a.add x y
  | .subtract => a.sub x y
  | .multiply => a.mul x y
  | .divide => a.div x y
  | _ => 0

end Arithmetic

namespace Shader

section Run

variable (a : Arithmetic)

/-- The result of a binary operator, which is of the given type. -/
def binaryValue (type : ShaderType) (op : BinaryOp) (v w : ShaderValue) : ShaderValue :=
  match op, Eval.compare? op with
  | .equal, _ => .bool (v.equal w)
  | .notEqual, _ => .bool (!v.equal w)
  | .and, _ => .bool (v.holds && w.holds)
  | .or, _ => .bool (v.holds || w.holds)
  | _, some holds => .bool (holds (v.component 0) (w.component 0))
  | op, none => .ofComponents type fun i => a.scalarOperator op (v.component i) (w.component i)

/-- The result of a shader function whose arguments are widened to the given type. -/
def functionValue (type : ShaderType) (name : String) (args : List ShaderValue) : ShaderValue :=
  match name, args with
  | "length", [v] => .float (a.length v.components)
  | "dot", [v, w] => .float (a.dot v.components w.components)
  | name, args => .ofComponents type fun i => a.scalarFunction name (args.map (·.component i))

/-- The component of a vector at an index, or the number that a stray index gives. -/
def elementValue (stray : Float) (v : ShaderValue) (index : Float) : ShaderValue :=
  match Eval.position? index v.components.length with
  | some i => .float (v.component i)
  | none => .float stray

/-- The value of the right side of a statement of the given type. Text that is not looked into
gives any number. -/
def Operation.value (stray : Float) (values : Naming) (type : ShaderType) :
    Operation → ShaderValue
  | .verbatim _ => .float stray
  | .construct _ parts => .vector (parts.map fun part => (part.value values).component 0)
  | .negate x => .ofComponents type fun i => -(x.value values).component i
  | .not x => .bool !(x.value values).holds
  | .binary op x y => binaryValue a type op (x.value values) (y.value values)
  | .select c x y => if (c.value values).holds then x.value values else y.value values
  | .component v i => .float ((v.value values).component i)
  | .firstThree v => .ofComponents .vec3 fun i => (v.value values).component i
  | .element v index => elementValue stray (v.value values) ((index.value values).component 0)
  | .apply name type args => functionValue a type name (args.map (·.value values))
  | .product x copies =>
    .ofComponents type fun i => a.multiplied ((x.value values).component i) copies
  | .reciprocal type x copies =>
    .ofComponents type fun i => a.div 1.0 (a.multiplied ((x.value values).component i) copies)

variable (stray : Nat → Float)

/-- Runs one statement. -/
def Statement.run (values : Naming) (statement : Statement) : Naming :=
  Function.update values statement.id
    (statement.operation.value a (stray statement.id) values statement.type)

/-- Runs statements in order. -/
def run (values : Naming) (statements : List Statement) : Naming :=
  statements.foldl (Statement.run a stray) values

end Run

/-- Only the parameter of a shader function has a value before its body is run. -/
def entry (p : Point) (t : Float) : Naming :=
  Function.update (fun _ => .bool false) 0 (.vector [p.x, p.y, p.z, t])

/-- A shader function: the statements of its body and the term that it returns. -/
structure ShaderCode where
  statements : List Statement
  result : Term

namespace ShaderCode

/-- The text of the function of a role. -/
def text (role : ShapeRole) (code : ShaderCode) : String :=
  Recognizer.functionText role (String.join (code.statements.map Statement.text)) code.result

/-- The values of all names once the body was run, with the parameter at a point and a time. -/
def names (a : Arithmetic) (stray : Nat → Float) (code : ShaderCode) (p : Point) (t : Float) :
    Naming :=
  run a stray (entry p t) code.statements

/-- What the function returns for a point and a time. -/
def value (a : Arithmetic) (stray : Nat → Float) (code : ShaderCode) (p : Point) (t : Float) :
    ShaderValue :=
  code.result.value (code.names a stray p t)

end ShaderCode

end Shader

end ShapeLang
