import ShapeLang.Proofs.Shader.Literals

/-! # The expressions of GLSL and their types

`Typed` says at once that a text is an expression of the shader language, how tightly it binds, and
of which type it is. It covers what shader code of shapes is made of: names, literals, constructors,
calls of builtin functions, swizzles, indexing, operators and the conditional. `Literal` collects the
literals that the compiler writes itself.
-/

namespace ShapeLang

namespace Shader

/-- The types of expressions: those of shader values, and whole numbers, which only index. -/
inductive ExprType where
  | value (type : ShaderType)
  | int
deriving DecidableEq

/-- How tightly an expression binds, the tightest first. -/
inductive Binding where
  | primary
  | access
  | unary
  | product
  | sum
  | relation
  | equality
  | conjunction
  | disjunction
  | conditional
deriving DecidableEq

namespace Binding

def rank : Binding → Nat
  | primary => 0
  | access => 1
  | unary => 2
  | product => 3
  | sum => 4
  | relation => 5
  | equality => 6
  | conjunction => 7
  | disjunction => 8
  | conditional => 9

end Binding

/-- How tightly an operator binds the operand on its left and the one on its right; operators of one
kind group from the left. Powers have no operator. -/
def operatorBinding? : BinaryOp → Option (Binding × Binding)
  | .multiply | .divide => some (.product, .unary)
  | .add | .subtract => some (.sum, .product)
  | .less | .lessEqual | .greater | .greaterEqual => some (.relation, .sum)
  | .equal | .notEqual => some (.equality, .relation)
  | .and => some (.conjunction, .equality)
  | .or => some (.disjunction, .conjunction)
  | .power => none

/-- The type of an operator's result. Arithmetic works on two numbers of one type, or on a vector
and a `float`; order compares only `float`s. -/
inductive OperatorTyped : BinaryOp → ShaderType → ShaderType → ShaderType → Prop
  | arithmetic {op : BinaryOp} {a b result : ShaderType}
      (known : op ∈ [BinaryOp.add, .subtract, .multiply, .divide])
      (numeric : result.isNumeric) (left : a = result ∨ a = .float)
      (right : b = result ∨ b = .float) (some : a = result ∨ b = result) :
      OperatorTyped op a b result
  | order {op : BinaryOp}
      (known : op ∈ [BinaryOp.less, .lessEqual, .greater, .greaterEqual]) :
      OperatorTyped op .float .float .bool
  | equality {op : BinaryOp} {a : ShaderType} (known : op ∈ [BinaryOp.equal, .notEqual]) :
      OperatorTyped op a a .bool
  | logic {op : BinaryOp} (known : op ∈ [BinaryOp.and, .or]) : OperatorTyped op .bool .bool .bool

/-- The builtin functions that take one to three arguments of any one type of numbers, and give a
result of the same type. -/
def componentwiseFunctions : List (String × Nat) :=
  [("sqrt", 1), ("abs", 1), ("sin", 1), ("cos", 1), ("tan", 1), ("exp", 1), ("log", 1),
    ("floor", 1), ("ceil", 1), ("atan", 2), ("min", 2), ("max", 2), ("mod", 2), ("pow", 2),
    ("mix", 3), ("clamp", 3)]

/-- The builtin functions that take arguments of any one type of numbers to one number. -/
def reducingFunctions : List (String × Nat) := [("length", 1), ("dot", 2)]

/-- Words that mean something in expressions, and are therefore no names of values. -/
def reserved : List String :=
  ["true", "false", "bool", "int", "float", "vec2", "vec3", "vec4"] ++
    componentwiseFunctions.map (·.1) ++ reducingFunctions.map (·.1)

/-- A letter or an underscore. -/
def isNameStart (c : Char) : Bool := c.isAlpha || c == '_'

/-- A word that can name a value. -/
def IsName (name : String) : Prop :=
  (∃ first rest, name.toList = first :: rest ∧ isNameStart first ∧
    ∀ c ∈ rest, isNameStart c ∨ isDecimalDigit c) ∧ name ∉ reserved

/-- A name that expressions can mention, with its type. -/
structure Variable where
  name : String
  type : ShaderType
  isName : IsName name

/-- A call, of a function or of a constructor. -/
def callText (function : String) (args : List String) : String :=
  function ++ "(" ++ ", ".intercalate args ++ ")"

/-- The text is an expression over the names of the scope, binds as tightly as said, and has the
type. -/
inductive Typed (scope : List Variable) : Binding → String → ExprType → Prop
  | loosen {tight loose : Binding} {text : String} {type : ExprType}
      (le : tight.rank ≤ loose.rank) (typed : Typed scope tight text type) :
      Typed scope loose text type
  | mention {v : Variable} (known : v ∈ scope) :
      Typed scope .primary v.name (.value v.type)
  | numeral {text : String} (literal : IsFloatLiteral text.toList) :
      Typed scope .primary text (.value .float)
  | boolean (b : Bool) : Typed scope .primary (if b then "true" else "false") (.value .bool)
  | parens {text : String} {type : ExprType} (inner : Typed scope .conditional text type) :
      Typed scope .primary ("(" ++ text ++ ")") type
  | construct {type : ShaderType} {parts : List String} (vector : type.isVector)
      (count : type.count? = some parts.length)
      (typed : ∀ part ∈ parts, Typed scope .conditional part (.value .float)) :
      Typed scope .access (callText type.name parts) (.value type)
  | spread {type : ShaderType} {part : String} (vector : type.isVector)
      (typed : Typed scope .conditional part (.value .float)) :
      Typed scope .access (callText type.name [part]) (.value type)
  | truncate {part : String} (typed : Typed scope .conditional part (.value .float)) :
      Typed scope .access (callText "int" [part]) .int
  | call {function : String} {type : ShaderType} {args : List String}
      (known : (function, args.length) ∈ componentwiseFunctions) (numeric : type.isNumeric)
      (typed : ∀ arg ∈ args, Typed scope .conditional arg (.value type)) :
      Typed scope .access (callText function args) (.value type)
  | reduce {function : String} {type : ShaderType} {args : List String}
      (known : (function, args.length) ∈ reducingFunctions) (numeric : type.isNumeric)
      (typed : ∀ arg ∈ args, Typed scope .conditional arg (.value type)) :
      Typed scope .access (callText function args) (.value .float)
  | swizzle {text : String} {type result : ShaderType} {size : Nat} {components : List Nat}
      (vector : type.isVector) (count : type.count? = some size)
      (inside : ∀ i ∈ components, i < size)
      (selected : ShaderType.withCount? components.length = some result)
      (typed : Typed scope .access text (.value type)) :
      Typed scope .access (text ++ "." ++ String.join (components.map componentName))
        (.value result)
  | element {text index : String} {type : ShaderType} (vector : type.isVector)
      (typed : Typed scope .access text (.value type))
      (place : Typed scope .conditional index .int) :
      Typed scope .access (text ++ "[" ++ index ++ "]") (.value .float)
  | negate {text : String} {type : ShaderType} (numeric : type.isNumeric)
      (typed : Typed scope .access text (.value type)) :
      Typed scope .unary ("-" ++ text) (.value type)
  | not {text : String} (typed : Typed scope .access text (.value .bool)) :
      Typed scope .unary ("!" ++ text) (.value .bool)
  | binary {op : BinaryOp} {left right : Binding} {a b : String} {s t result : ShaderType}
      (binds : operatorBinding? op = some (left, right)) (types : OperatorTyped op s t result)
      (first : Typed scope left a (.value s)) (second : Typed scope right b (.value t)) :
      Typed scope left (a ++ " " ++ op.symbol ++ " " ++ b) (.value result)
  | select {condition whenTrue whenFalse : String} {type : ShaderType}
      (chosen : Typed scope .disjunction condition (.value .bool))
      (first : Typed scope .conditional whenTrue (.value type))
      (second : Typed scope .conditional whenFalse (.value type)) :
      Typed scope .conditional (condition ++ " ? " ++ whenTrue ++ " : " ++ whenFalse)
        (.value type)

/-- The literals that the compiler writes. -/
inductive Literal : Atom → ShaderType → Prop
  | number {x : Float} (finite : x.isFinite) : Literal (.number x) .float
  | boolean (b : Bool) : Literal (.boolean b) .bool
  | vector {type : ShaderType} {xs : List Float}
      (count : ShaderType.vectorWithCount? xs.length = some type) (finite : ∀ x ∈ xs, x.isFinite) :
      Literal (.vector type xs) type
  | splat {type : ShaderType} {x : Float} (vector : type.isVector) (finite : x.isFinite) :
      Literal (.splat type x) type

/-- A term is a literal, or one of the names of the scope. -/
def Stands (scope : List Variable) (term : Term) : Prop :=
  (∃ v ∈ scope, v.name = term.text ∧ v.type = term.type) ∨
    ∃ atom, Literal atom term.type ∧ term.text = atom.text

section Terms

variable {scope more : List Variable} {term : Term} {type : ShaderType}

theorem Stands.mono (stands : Stands scope term) (sub : ∀ v ∈ scope, v ∈ more) :
    Stands more term :=
  stands.imp_left fun ⟨v, known, is⟩ => ⟨v, sub v known, is⟩

theorem Typed.of_primary {binding : Binding} {text : String} {type : ExprType}
    (typed : Typed scope .primary text type) : Typed scope binding text type :=
  .loosen (Nat.zero_le _) typed

theorem Typed.of_access {binding : Binding} {text : String} {type : ExprType}
    (typed : Typed scope .access text type) (loose : binding ≠ .primary) :
    Typed scope binding text type := by
  apply Typed.loosen _ typed
  cases binding <;> simp [Binding.rank] at loose ⊢

theorem vectorWithCount?_eq_some {count : Nat} (is : ShaderType.vectorWithCount? count = some type) :
    type.isVector ∧ type.count? = some count := by
  obtain ⟨is, vector⟩ := Option.filter_eq_some_iff.mp is
  refine ⟨vector, ?_⟩
  revert is
  unfold ShaderType.withCount?
  split <;> intro is <;> cases is <;> rfl

theorem typed_number {x : Float} (finite : x.isFinite) :
    Typed scope .primary (numberText x) (.value .float) := by
  obtain ⟨literal, is, text | text⟩ := numberText_cases finite
  · rw [text]
    exact .numeral is
  · rw [text]
    apply Typed.parens
    apply Typed.loosen _ (Typed.negate rfl (Typed.numeral is).of_primary)
    decide

theorem Literal.typed {atom : Atom} (literal : Literal atom type) :
    Typed scope .access atom.text (.value type) := by
  cases literal with
  | number finite => exact (typed_number finite).of_primary
  | boolean b => exact (Typed.boolean b).of_primary
  | vector count finite =>
    obtain ⟨isVector, count⟩ := vectorWithCount?_eq_some count
    apply Typed.construct isVector (by simpa using count)
    intro part mem
    obtain ⟨x, origin, rfl⟩ := List.mem_map.mp mem
    exact (typed_number (finite x origin)).of_primary
  | splat isVector finite => exact .spread isVector (typed_number finite).of_primary

/-- A term has the type that it carries. -/
theorem Stands.typed (stands : Stands scope term) :
    Typed scope .access term.text (.value term.type) := by
  rcases stands with ⟨v, known, text, type⟩ | ⟨atom, literal, text⟩
  · rw [← text, ← type]
    exact (Typed.mention known).of_primary
  · rw [text]
    exact literal.typed

/-- A term is an operand of anything that binds less tightly than a name. -/
theorem Stands.operand (stands : Stands scope term) {binding : Binding}
    (loose : binding ≠ .primary) : Typed scope binding term.text (.value term.type) :=
  stands.typed.of_access loose

end Terms

end Shader

end ShapeLang
