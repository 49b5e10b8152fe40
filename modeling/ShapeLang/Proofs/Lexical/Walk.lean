import ShapeLang.Eval
import ShapeLang.Proofs.Scope.Resolution

/-! # Evaluation by names

The rules of the language without slots and frames: a phrase is evaluated as it is written, in an
environment of named scopes. A name stands for what the innermost scope with that name binds it
to, and names without a scope stand for constants of the program. Every scope is made once and
then keeps what its names are bound to, so that `let`s, modules, calls and rounds of a loop never
share a variable.
-/

namespace ShapeLang.Lexical

/-- The number of a scope, in the order in which scopes are made. -/
abbrev ScopeId := Nat

/-- Where a phrase is evaluated: the scopes around it, the innermost first, and the number of
calls around it. -/
structure Env where
  scopes : List ScopeId
  depth : Nat

/-- What phrases evaluate to. -/
inductive Value where
  | bool (value : Bool)
  | num (value : Float)
  | text (content : String)
  | list (items : List Value)
  | record (fields : List (String × Value))
  /-- The fields are the names of a scope. -/
  | module (scope : ScopeId) (names : List String)
  /-- The parameters and the body of a function literal, and the scopes around it. -/
  | closure (serial : Nat) (params : List String) (body : Phrase) (scopes : List ScopeId)
  | builtin (function : Builtin)

namespace Value

mutual

/-- A value as operators and builtin functions see it. Of a module they see the identity and the
names, of a function the identity and the number of parameters. -/
def outline : Value → ShapeLang.Value
  | bool value => .bool value
  | num value => .num value
  | text content => .text content
  | list items => .list (outlines items) []
  | record fields => .record (outlineFields fields) []
  | module scope names => .module scope (names.map (·, 0))
  | closure serial params body _ =>
    .closure serial ⟨body.location, params.length, 0, .constant body.location (.bool false)⟩ 0
  | builtin function => .builtin function

def outlines : List Value → List ShapeLang.Value
  | [] => []
  | item :: items => item.outline :: outlines items

def outlineFields : List (String × Value) → List (String × ShapeLang.Value)
  | [] => []
  | (name, value) :: fields => (name, value.outline) :: outlineFields fields

end

mutual

/-- Constants and results of operators. They have no modules and no functions of the program
inside, for which there would be no scope. -/
def ofPlain : ShapeLang.Value → Value
  | .bool value => bool value
  | .num value => num value
  | .text content => text content
  | .list items _ => list (ofPlains items)
  | .record fields _ => record (ofPlainFields fields)
  | .builtin function => builtin function
  | .module _ _ | .closure _ _ _ => list []

def ofPlains : List ShapeLang.Value → List Value
  | [] => []
  | item :: items => ofPlain item :: ofPlains items

def ofPlainFields : List (String × ShapeLang.Value) → List (String × Value)
  | [] => []
  | (name, value) :: fields => (name, ofPlain value) :: ofPlainFields fields

end

end Value

/-- What a name is bound to. -/
inductive Cell where
  /-- A definition that was not needed yet. -/
  | waiting (body : Phrase)
  | busy
  | done (value : Value)

structure Scope where
  cells : List (String × Cell)
  /-- The scopes around this one. -/
  outer : List ScopeId
  depth : Nat

/-- All scopes, by number, and how many closures were made. -/
structure Store where
  scopes : Array Scope
  closures : Nat

/-- Binds a name anew. -/
def rebind (name : String) (cell : Cell) : List (String × Cell) → List (String × Cell)
  | [] => []
  | bound :: rest =>
    if name == bound.1 then (bound.1, cell) :: rest else bound :: rebind name cell rest

namespace Store

/-- One more scope. -/
def push (store : Store) (cells : List (String × Cell)) (env : Env) : Store :=
  { store with scopes := store.scopes.push ⟨cells, env.scopes, env.depth⟩ }

def set (store : Store) (id : ScopeId) (name : String) (cell : Cell) : Store :=
  { store with
    scopes := store.scopes.modify id fun scope =>
      { scope with cells := rebind name cell scope.cells } }

/-- What a scope binds a name to. -/
def cell? (store : Store) (id : ScopeId) (name : String) : Option Cell :=
  store.scopes[id]?.bind (·.cells.lookup name)

/-- The innermost scope that has the name. -/
def find? (store : Store) (name : String) : List ScopeId → Option ScopeId
  | [] => none
  | id :: outer => if (store.cell? id name).isSome then some id else find? store name outer

end Store

/-- Why there is no value. -/
inductive Stop where
  | mistake (kind : ErrorKind)
  | outOfFuel

/-- A computation over the scopes. -/
abbrev Walk := ExceptT Stop (StateM Store)

/-- Evaluates a phrase in an environment. -/
abbrev Walker := Env → Phrase → Walk Value

variable {α : Type}

def raise (kind : ErrorKind) : Walk α := throw (.mistake kind)

def expect : Except ErrorKind α → Walk α
  | .ok a => pure a
  | .error kind => raise kind

/-- Makes a new scope. -/
def enter (cells : List (String × Cell)) (env : Env) : Walk ScopeId :=
  modifyGet fun store => (store.scopes.size, store.push cells env)

/-- Runs a computation, and keeps its value for the name. -/
def memoizing (id : ScopeId) (name : String) (body : Phrase) (action : Walk Value) :
    Walk Value := fun store =>
  match action store with
  | (.ok value, after) => (.ok value, after.set id name (.done value))
  | (.error stop, after) => (.error stop, after.set id name (.waiting body))

/-- A closure over the current environment, different from all closures before. -/
def close (params : List String) (body : Phrase) (env : Env) : Walk Value :=
  modifyGet fun store =>
    (.closure store.closures params body env.scopes,
      { store with closures := store.closures + 1 })

/-- The definitions of a `let` or a module. -/
def definitions (items : List Phrase) : Walk (List (String × Cell)) :=
  match items.mapM Phrase.binding? with
  | some group => pure (group.map fun definition => (definition.1, .waiting definition.2))
  | none => raise .notADefinition

def toList : Value → Except ErrorKind (List Value)
  | .list items => .ok items
  | other => .error (wrongType "list" other.outline)

section Step

variable (m : Machine) (names : Namespace) (walk : Walker)

/-- What a name of a scope stands for. A definition is evaluated when it is needed first, in its
own scope, and keeps its value. -/
def force (id : ScopeId) (name : String) : Walk Value := do
  let store ← get
  match store.scopes[id]?, store.cell? id name with
  | some scope, some (.waiting body) => do
    modify (·.set id name .busy)
    memoizing id name body (walk ⟨id :: scope.outer, scope.depth⟩ body)
  | _, some (.done value) => pure value
  | _, some .busy => raise .recursiveDefinition
  | _, _ => raise (.unboundIdentifier name)

/-- The field of a record or a module, if it has one of that name. -/
def field? (value : Value) (name : String) : Walk (Option Value) := do
  match value with
  | .record fields => pure (fields.lookup name)
  | .module scope names => if name ∈ names then some <$> force walk scope name else pure none
  | _ => pure none

/-- Evaluates phrases one after the other. -/
def walkAll (env : Env) : List Phrase → Walk (List Value)
  | [] => pure []
  | phrase :: phrases => do
    let value ← walk env phrase
    let values ← walkAll env phrases
    pure (value :: values)

/-- Evaluates the fields of a record. -/
def walkFields (env : Env) : List (Ident × Phrase) → Walk (List (String × Value))
  | [] => pure []
  | (id, phrase) :: fields => do
    let value ← walk env phrase
    let values ← walkFields env fields
    pure ((id.name, value) :: values)

/-- Evaluates the body of a loop for each item, with a variable of its own. -/
def walkEach (env : Env) (name : String) (body : Phrase) : List Value → Walk (List Value)
  | [] => pure []
  | item :: items => do
    let round ← enter [(name, .done item)] env
    let value ← walk ⟨round :: env.scopes, env.depth⟩ body
    let values ← walkEach env name body items
    pure (value :: values)

/-- Calls a function, from code that has `depth` calls around it. -/
def call (function : Value) (args : List Value) (depth : Nat) : Walk Value := do
  match function with
  | .closure _ params body scopes =>
    if args.length ≠ params.length then raise (.argumentCount params.length args.length)
    if m.maxCallDepth < depth + 1 then raise (.stackOverflow m.maxCallDepth)
    let id ← enter (params.zip (args.map .done)) ⟨scopes, depth + 1⟩
    walk ⟨id :: scopes, depth + 1⟩ body
  | .builtin builtin =>
    if args.length ≠ builtin.arity then raise (.argumentCount builtin.arity args.length)
    match builtin.apply m.arithmetic (args.map Value.outline) with
    | .ok value => pure (.ofPlain value)
    | .error (.mistake kind) | .error (.reported kind) => raise kind
    | .error .missing => raise (.argumentCount builtin.arity args.length)
  | other => raise (wrongType "function" other.outline)

/-- The result of an operator other than `&&` and `||`. -/
def combine (op : BinaryOp) (a b : Value) : Walk Value := do
  match Eval.compare? op with
  | some holds => do
    let x ← expect (Eval.toNumber a.outline)
    let y ← expect (Eval.toNumber b.outline)
    pure (.bool (holds x y))
  | none => .ofPlain <$> expect (Eval.operate m.arithmetic op a.outline b.outline)

/-- Evaluates one phrase, given how the phrases inside it are evaluated. -/
def step : Walker := fun env phrase =>
  match phrase with
  | .numeral _ value => pure (.num value)
  | .boolean _ value => pure (.bool value)
  | .text _ content => pure (.text content)
  | .ident _ id => do
    match (← get).find? id.name env.scopes with
    | some scope => force walk scope id.name
    | none =>
      match names.lookup id.name with
      | some value => pure (.ofPlain value.toValue)
      | none => raise (.unboundIdentifier id.name)
  | .list _ items => .list <$> walkAll walk env items
  | .record _ fields => .record <$> walkFields walk env fields
  | .module _ items => do
    let cells ← definitions items
    let scope ← enter cells env
    pure (.module scope (cells.map (·.1)))
  | .definition _ _ _ => raise .notAnExpression
  | .lambda _ params body => close (params.map (·.name)) body env
  | .call _ function args => do
    let callee ← walk env function
    let args ← walkAll walk env args
    call m walk callee args env.depth
  | .dot _ base name => do
    let value ← walk env base
    match ← field? walk value name.name with
    | some found => pure found
    | none =>
      match value.outline.numbers?.bind fun xs => (componentIndex? name.name).bind (xs[·]?) with
      | some x => pure (.num x)
      | none =>
        match value with
        | .record _ | .module _ _ | .list _ => raise (.noSuchField name.name)
        | other => raise (wrongType "record or module" other.outline)
  | .index _ base index => do
    let value ← walk env base
    let items ← expect (toList value)
    let place ← walk env index
    let x ← expect (Eval.toNumber place.outline)
    match (Eval.position? x items.length).bind (items[·]?) with
    | some item => pure item
    | none => raise (.indexOutOfRange (ShapeLang.Value.numberText x) items.length)
  | .unary _ op operand => do
    let value ← walk env operand
    .ofPlain <$> expect (
      match op with
      | .negate => value.outline.mapNumbers Float.neg
      | .not => (fun b => .bool !b) <$> Eval.toBool value.outline)
  | .binary _ .and left right => do
    let a ← walk env left
    if ← expect (Eval.toBool a.outline) then
      let b ← walk env right
      .bool <$> expect (Eval.toBool b.outline)
    else pure (.bool false)
  | .binary _ .or left right => do
    let a ← walk env left
    if ← expect (Eval.toBool a.outline) then pure (.bool true)
    else
      let b ← walk env right
      .bool <$> expect (Eval.toBool b.outline)
  | .binary _ op left right => do
    let a ← walk env left
    let b ← walk env right
    combine m op a b
  | .conditional _ condition whenTrue whenFalse => do
    let value ← walk env condition
    if ← expect (Eval.toBool value.outline) then walk env whenTrue else walk env whenFalse
  | .letIn _ items body => do
    let cells ← definitions items
    let scope ← enter cells env
    walk ⟨scope :: env.scopes, env.depth⟩ body
  | .forEach _ item list body => do
    let value ← walk env list
    let items ← expect (toList value)
    .list <$> walkEach walk env item.name body items

end Step

/-- Evaluates phrases that are nested, through everything that is evaluated on the way, less than
`fuel` times. -/
def upTo (m : Machine) (names : Namespace) : Nat → Walker
  | 0 => fun _ _ => throw .outOfFuel
  | fuel + 1 => step m names (upTo m names fuel)

end ShapeLang.Lexical
