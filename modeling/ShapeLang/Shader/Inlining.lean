import ShapeLang.Shader.Compiler

/-! # Expressions as shader code

The rules of evaluation, with terms in place of values. Both branches of a conditional are
computed, since neither has an effect; functions must be known where they are called; and lists
become vectors, so that only lists of two to four numbers can be used.
-/

namespace ShapeLang.Shader

/-- Compiles an expression in a symbolic frame. -/
abbrev Inliner := Nat → Expr → Compile Term

namespace Compile

/-- The literal of a number that is known. -/
def number (location : Location) (x : Float) : Compile Term :=
  match Term.ofNumber? x with
  | some term => pure term
  | none => unsupported location s!"number {Layout.plain.text x}"

/-- The literal of a value that is known: a number, a truth value or a short list of numbers. -/
def constant (location : Location) (value : Value) : Compile Term :=
  match value with
  | .num x => number location x
  | .bool b => pure (.ofBool b)
  | .list _ _ =>
    match value.numbers? with
    | none => unsupported location "list of non-numbers"
    | some xs =>
      match ShaderType.vectorWithCount? xs.length with
      | none => unsupported location s!"list of {xs.length} numbers"
      | some type => do
        xs.forM fun x => discard (number location x)
        pure ⟨.vector type xs, type⟩
  | other => unsupported location other.typeName

/-- The vector type among the arguments, which must not be mixed with another one, or `float`. -/
def commonType (type : ShaderType) : List Term → Except String ShaderType
  | [] => .ok type
  | arg :: args =>
    if !arg.type.isNumeric then .error s!"{arg.type.name} argument"
    else if arg.type.isVector then
      if type.isVector && type ≠ arg.type then
        .error s!"mixing {type.name} and {arg.type.name}"
      else commonType arg.type args
    else commonType type args

/-- The call of a builtin function. -/
def builtin (location : Location) (function : Builtin) (args : List Term) : Compile Term := do
  match function.shader? with
  | none => unsupported location s!"builtin '{function.name}'"
  | some (name, signature) =>
    if args.length ≠ function.arity then
      raise location (.argumentCount function.arity args.length)
    match commonType .float args with
    | .error what => unsupported location what
    | .ok type =>
      match signature, args with
      | .reduce, _ => define .float (.apply name type args)
      | .reducePair, [a, b] =>
        if a.type ≠ b.type then
          unsupported location s!"{name} of {a.type.name} and {b.type.name}"
        else define .float (.apply name type args)
      | .reducePair, _ => defect (.builtinArguments function.name)
      | .map, _ | .zip, _ => define type (.apply name type args)

/-- The largest exponent that is written out as a product. -/
def maxUnrolledPower : Nat := 16

/-- A power with a whole exponent, as a product. -/
def integerPower (base : Term) (type : ShaderType) : Int → Compile Term
  | .ofNat 0 =>
    pure ⟨if type = .float then .number 1.0 else .splat type 1.0, type⟩
  | .ofNat 1 => pure base
  | .ofNat n => define type (.product base n)
  | .negSucc n => define type (.reciprocal type base (n + 1))

/-- A power. The exponent has to be a literal; shader code has no powers of negative numbers, so
powers with small whole exponents are products. -/
def power (location : Location) (type : ShaderType) (base exponent : Term) : Compile Term :=
  match exponent.literal? with
  | none => unsupported location "exponent that is not a constant number"
  | some x =>
    match integerValue? x with
    | some n =>
      if n.natAbs ≤ maxUnrolledPower then integerPower base type n
      else define type (.apply "pow" type [base, exponent])
    | none => define type (.apply "pow" type [base, exponent])

/-- An operator with two operands. -/
def binary (location : Location) (op : BinaryOp) (a b : Term) : Compile Term :=
  let mismatch : Compile Term :=
    unsupported location s!"{a.type.name} {op.symbol} {b.type.name}"
  let emit (type : ShaderType) : Compile Term := define type (.binary op a b)
  match op with
  | .add | .subtract | .multiply | .divide =>
    match commonType .float [a, b] with
    | .ok type => emit type
    | .error _ => mismatch
  | .power =>
    match commonType .float [a, b] with
    | .ok type => power location type a b
    | .error _ => mismatch
  | .less | .lessEqual | .greater | .greaterEqual =>
    if a.type = .float ∧ b.type = .float then emit .bool else mismatch
  | .equal | .notEqual => if a.type = b.type then emit .bool else mismatch
  | .and | .or => if a.type = .bool ∧ b.type = .bool then emit .bool else mismatch

/-- An operator with one operand. The negative of a literal is a literal. -/
def unary (location : Location) (op : UnaryOp) (x : Term) : Compile Term :=
  match op, x.literal? with
  | .negate, some n => number location (-n)
  | .negate, none =>
    if x.type.isNumeric then define x.type (.negate x)
    else unsupported location s!"this operation on {x.type.name}"
  | .not, _ =>
    if x.type = .bool then define .bool (.not x)
    else unsupported location s!"this operation on {x.type.name}"

/-- A vector of terms, all of which must be numbers. -/
def vector (location : Location) (items : List Term) : Compile Term :=
  match items.find? (·.type ≠ .float) with
  | some item =>
    unsupported location (if item.type = .bool then "list of booleans" else "nested list")
  | none =>
    match ShaderType.vectorWithCount? items.length with
    | some type => define type (.construct type items)
    | none => unsupported location s!"list of {items.length} numbers"

/-- A component that is selected by name. -/
def field (location : Location) (name : String) (v : Term) : Compile Term :=
  let found := do
    let i ← componentIndex? name
    let count ← v.type.count?
    if v.type.isVector && i < count then some i else none
  match found with
  | some i => define .float (.component v i)
  | none => unsupported location s!"field '{name}' of {v.type.name}"

/-- A function that is known where it is called. -/
inductive Callee where
  | lambda (lambda : Lambda) (outer : Outer)
  | builtin (function : Builtin)

namespace Callee

/-- The function that a value is. -/
def ofValue? : Value → Option Callee
  | .closure _ code env => some (.lambda code (.captured env))
  | .builtin function => some (.builtin function)
  | _ => none

end Callee

section Step

variable (evaluate : Evaluator) (held : List Held) (compile : Inliner)

/-- Reads a slot of a captured frame. -/
def captured (location : Location) (id : FrameId) (slot : Nat) : Compile Value :=
  evaluating (Eval.force evaluate held id slot (.place location none))

/-- Reads a slot of a symbolic frame. A definition is compiled when it is read for the first time,
and then keeps its term. -/
def force (location : Location) (id slot : Nat) : Compile Term := do
  let slots := (← frame id).slots
  match slots[slot]? with
  | none => defect (.shaderSlotOutOfRange slot slots.length)
  | some (.ready term) => pure term
  | some .busy => raise location .recursiveDefinition
  | some .empty => defect (.emptyShaderSlot slot)
  | some (.pending definition) => do
    store id slot .busy
    settling id slot definition (compile id definition)

/-- The function that is called: a builtin function, a captured closure, a function literal, or a
function that is defined in the code that is compiled. -/
def callee (id : Nat) (function : Expr) : Compile Callee := do
  let computed : Compile Callee :=
    unsupported function.location "call of a computed function value"
  match function with
  | .constant _ (.builtin function) => pure (.builtin function)
  | .lambda location paramCount slotCount body =>
    pure (.lambda ⟨location, paramCount, slotCount, body⟩ (.symbolic id))
  | .slot location depth slot =>
    match ← ancestor id depth with
    | .symbolic owner =>
      match (← frame owner).slots[slot]? with
      | some (.pending (.lambda location paramCount slotCount body)) =>
        pure (.lambda ⟨location, paramCount, slotCount, body⟩ (.symbolic owner))
      | _ => computed
    | .captured owner =>
      match Callee.ofValue? (← captured evaluate held location owner slot) with
      | some callee => pure callee
      | none => computed
  | _ => computed

/-- Inlines a call: the arguments fill the first slots of a new symbolic frame, in which the body
is compiled. A function that is being inlined already calls itself, and has no shader code. The
function literal is known by its place, whatever program it was compiled with. -/
def inlineCall (lambda : Lambda) (outer : Outer) (args : List Term) (location : Location) :
    Compile Term := do
  if args.length ≠ lambda.paramCount then
    raise location (.argumentCount lambda.paramCount args.length)
  if lambda.location ∈ (← compiler).inlining then unsupported location "recursion"
  let id ← alloc lambda.slotCount outer
  storeAll id 0 args
  inlining lambda.location (compile id lambda.body)

/-- Compiles one expression, given how the expressions inside it are compiled. -/
def step : Inliner := fun id expr => do
  let location := expr.location
  match expr with
  | .constant _ value => constant location value.toValue
  | .slot _ depth slot =>
    match ← ancestor id depth with
    | .symbolic owner => force compile location owner slot
    | .captured owner => do
      let value ← captured evaluate held location owner slot
      constant location value
  | .call _ function args => do
    let callee ← callee evaluate held id function
    let args ← args.mapM (compile id)
    match callee with
    | .lambda lambda outer => inlineCall compile lambda outer args location
    | .builtin function => builtin location function args
  | .list _ items => do
    let items ← items.mapM (compile id)
    vector location items
  | .record _ _ => unsupported location "record"
  | .module _ _ _ _ => unsupported location "module"
  | .lambda _ _ _ _ => unsupported location "function value"
  | .forEach _ _ _ _ => unsupported location "for loop"
  | .letIn _ bindings body => do
    storePending id bindings
    compile id body
  | .unary _ op operand => do
    let x ← compile id operand
    unary location op x
  | .binary _ op left right => do
    let a ← compile id left
    let b ← compile id right
    binary location op a b
  | .conditional _ condition whenTrue whenFalse => do
    let c ← compile id condition
    if c.type ≠ .bool then unsupported condition.location s!"{c.type.name} condition"
    let a ← compile id whenTrue
    let b ← compile id whenFalse
    if a.type ≠ b.type then
      unsupported location s!"conditional with {a.type.name} and {b.type.name} branches"
    define a.type (.select c a b)
  | .dot _ base name => do
    let v ← compile id base
    field location name v
  | .index _ base index => do
    let v ← compile id base
    match v.type.count?.filter fun _ => v.type.isVector with
    | none => unsupported location s!"indexing a {v.type.name}"
    | some count => do
      let i ← compile id index
      if i.type ≠ .float then unsupported index.location s!"{i.type.name} index"
      match i.literal? with
      | some x =>
        match Eval.position? x count with
        | some i => define .float (.component v i)
        | none => raise index.location (.indexOutOfRange (Value.numberText x) count)
      | none => define .float (.element v i)

end Step

/-- Compiles expressions that are nested, through everything that is inlined on the way, less than
`fuel` times. -/
def upTo (evaluate : Evaluator) (held : List Held) : Nat → Inliner
  | 0 => fun _ _ => throw .outOfFuel
  | fuel + 1 => step evaluate held (upTo evaluate held fuel)

end Compile

end ShapeLang.Shader
