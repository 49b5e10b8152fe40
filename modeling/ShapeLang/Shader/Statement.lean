import ShapeLang.Decimal.Layout
import ShapeLang.Decimal.Numeral
import ShapeLang.Phrase
import ShapeLang.Value

/-! # Shader statements

Shader code is a list of statements, each of which defines one name. Terms are what statements are
made of: names, arguments and inline literals. Their text is fixed, so that a term can be used
several times.
-/

namespace ShapeLang.Shader

/-- The types of shader values. -/
inductive ShaderType where
  | bool
  | float
  | vec2
  | vec3
  | vec4
deriving DecidableEq, Repr

namespace ShaderType

def name : ShaderType → String
  | bool => "bool"
  | float => "float"
  | vec2 => "vec2"
  | vec3 => "vec3"
  | vec4 => "vec4"

/-- Number of components of a numeric type. -/
def count? : ShaderType → Option Nat
  | bool => none
  | float => some 1
  | vec2 => some 2
  | vec3 => some 3
  | vec4 => some 4

/-- The numeric type with the given number of components. -/
def withCount? : Nat → Option ShaderType
  | 1 => some float
  | 2 => some vec2
  | 3 => some vec3
  | 4 => some vec4
  | _ => none

def isNumeric (type : ShaderType) : Bool := type ≠ bool

def isVector : ShaderType → Bool
  | vec2 | vec3 | vec4 => true
  | _ => false

/-- The vector type with the given number of components. -/
def vectorWithCount? (count : Nat) : Option ShaderType :=
  (withCount? count).filter isVector

end ShaderType

/-- The literal of a float. A literal with a sign stands in parentheses. -/
def numberText (x : Float) : String :=
  if signBit x then "(" ++ Layout.pointed.text x ++ ")" else Layout.pointed.text x

/-- The form of a term. -/
inductive Atom where
  /-- The name that a statement defines. -/
  | name (id : Nat)
  /-- The text of an argument. -/
  | given (text : String)
  | number (x : Float)
  | boolean (b : Bool)
  /-- A vector of literals. -/
  | vector (type : ShaderType) (xs : List Float)
  /-- A vector with one literal in every component. -/
  | splat (type : ShaderType) (x : Float)

namespace Atom

def text : Atom → String
  | name id => "r" ++ String.ofList (Layout.digitChars id)
  | given text => text
  | number x => numberText x
  | boolean b => if b then "true" else "false"
  | vector type xs => type.name ++ "(" ++ ", ".intercalate (xs.map numberText) ++ ")"
  | splat type x => type.name ++ "(" ++ numberText x ++ ")"

end Atom

/-- The float that a text denotes as a literal: a number in at most one pair of parentheses. It
has to start with a digit or a minus sign, since otherwise it is a name. -/
def literalOfChars? (cs : List Char) : Option Float :=
  let inner := match cs with
    | '(' :: rest => if rest.getLast? = some ')' then rest.dropLast else cs
    | _ => cs
  match inner with
  | c :: _ => if isDecimalDigit c || c = '-' then floatOfChars? inner else none
  | [] => none

/-- A value in shader code. -/
structure Term where
  atom : Atom
  type : ShaderType

namespace Term

def text (term : Term) : String := term.atom.text

/-- The literal of a finite number; other numbers have none. -/
def ofNumber? (x : Float) : Option Term :=
  if x.isFinite then some ⟨.number x, .float⟩ else none

def ofBool (b : Bool) : Term := ⟨.boolean b, .bool⟩

/-- The number that an inline literal of type `float` denotes. -/
def literal? (term : Term) : Option Float :=
  if term.type = .float then
    match term.atom with
    | .number x => some x
    | .given text => literalOfChars? text.toList
    | _ => none
  else none

/-- The text of a term where a value of the type is needed: a number is spread over a vector. -/
def widened (type : ShaderType) (term : Term) : String :=
  if term.type = type then term.text else type.name ++ "(" ++ term.text ++ ")"

end Term

/-- The names of vector components. -/
def componentName : Nat → String
  | 0 => "x"
  | 1 => "y"
  | 2 => "z"
  | _ => "w"

/-- The right side of a statement. -/
inductive Operation where
  /-- Any text. -/
  | verbatim (text : String)
  /-- A vector of components. -/
  | construct (type : ShaderType) (parts : List Term)
  | negate (operand : Term)
  | not (operand : Term)
  | binary (op : BinaryOp) (left right : Term)
  | select (condition whenTrue whenFalse : Term)
  | component (vector : Term) (index : Nat)
  /-- The first three components of a vector. -/
  | firstThree (vector : Term)
  /-- The component at an index that is not known yet. -/
  | element (vector index : Term)
  /-- A shader function, with arguments that are widened to the type. -/
  | apply (function : String) (type : ShaderType) (args : List Term)
  /-- The product of some copies of a factor. -/
  | product (factor : Term) (copies : Nat)
  /-- One, in the type, divided by the product of some copies of a factor. -/
  | reciprocal (type : ShaderType) (factor : Term) (copies : Nat)

namespace Operation

def productText (factor : Term) (copies : Nat) : String :=
  " * ".intercalate (List.replicate copies factor.text)

def text : Operation → String
  | verbatim text => text
  | construct type parts => type.name ++ "(" ++ ", ".intercalate (parts.map Term.text) ++ ")"
  | negate operand => "-" ++ operand.text
  | not operand => "!" ++ operand.text
  | binary op left right => left.text ++ " " ++ op.symbol ++ " " ++ right.text
  | select condition whenTrue whenFalse =>
    condition.text ++ " ? " ++ whenTrue.text ++ " : " ++ whenFalse.text
  | component vector index => vector.text ++ "." ++ componentName index
  | firstThree vector => vector.text ++ ".xyz"
  | element vector index => vector.text ++ "[int(" ++ index.text ++ ")]"
  | apply function type args =>
    function ++ "(" ++ ", ".intercalate (args.map (Term.widened type)) ++ ")"
  | product factor copies => productText factor copies
  | reciprocal type factor copies =>
    Term.widened type ⟨.number 1.0, .float⟩ ++ " / (" ++ productText factor copies ++ ")"

end Operation

/-- The definition of one name. -/
structure Statement where
  type : ShaderType
  id : Nat
  operation : Operation

namespace Statement

def text (statement : Statement) : String :=
  "  " ++ statement.type.name ++ " " ++ (Atom.name statement.id).text ++ " = " ++
    statement.operation.text ++ ";\n"

end Statement

end ShapeLang.Shader
