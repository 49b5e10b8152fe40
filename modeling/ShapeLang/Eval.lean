import ShapeLang.Builtin.Apply
import ShapeLang.Frame.Liveness

/-! # Evaluation

Arguments are evaluated before a call; definitions of modules and of `let` are evaluated when they
are read first, in the frame that they belong to, and keep their value. An evaluation that fails
leaves every definition as it was before.

`Eval.step` evaluates one expression, given how the expressions inside it are evaluated. An
evaluator is told what the evaluations around it hold on to: this includes the calls under way, and
always the frame that it works in.
-/

namespace ShapeLang

/-- What programs run on. -/
structure Machine where
  arithmetic : Arithmetic
  /-- The largest call depth of a frame. -/
  maxCallDepth : Nat

namespace Machine

/-- Arithmetic on floats of 64 bits, and at most a thousand calls inside each other. -/
def standard : Machine := ⟨.binary64, 1000⟩

end Machine

/-- A computation over the frames. The frames are kept on a fault. -/
abbrev Eval := ExceptT Fault (StateM Heap)

/-- Evaluates an expression in a frame. -/
abbrev Evaluator := List Held → FrameId → Expr → Eval Value

namespace Eval

variable {α : Type}

/-- All frames. -/
def heap : Eval Heap := get

def defect (d : Defect) : Eval α := throw (.defect d)

def raise (held : List Held) (context : Context) (kind : ErrorKind) : Eval α := do
  throw (.exception ⟨kind, context.locations (← heap) held⟩)

/-- Runs a computation, and gives its fault if it fails. -/
def attempt (action : Eval α) : Eval (Except Fault α) := fun heap =>
  let (result, after) := action heap
  (.ok result, after)

def frame (id : FrameId) : Eval Frame := do
  match (← heap).frame? id with
  | some frame => pure frame
  | none => defect .noFrame

/-- Makes a new frame. -/
def alloc (slotCount : Nat) (parent caller : Option FrameId) (callSite : Option Location)
    (depth : Nat) : Eval FrameId :=
  modifyGet fun heap => heap.alloc slotCount parent caller callSite depth

/-- The outermost frame of a program, perhaps one that another program's frame asked for. -/
def allocRoot (slotCount : Nat) (caller : Option FrameId) : Eval FrameId := do
  let depth ← match caller with
    | some caller => (·.depth) <$> frame caller
    | none => pure 0
  alloc slotCount none caller none depth

/-- A frame inside another one, for a module or for one round of a loop. -/
def allocChild (slotCount : Nat) (parent : FrameId) : Eval FrameId := do
  alloc slotCount (some parent) (some parent) none (← frame parent).depth

/-- The frame of a call, one call deeper than the frame that makes the call. -/
def allocCall (m : Machine) (held : List Held) (slotCount : Nat) (env caller : FrameId)
    (site : Location) : Eval FrameId := do
  let depth := (← frame caller).depth + 1
  if m.maxCallDepth < depth then
    raise held (.place site (some caller)) (.stackOverflow m.maxCallDepth)
  alloc slotCount (some env) (some caller) (some site) depth

/-- The frame that is some steps further out. -/
def ancestor (id : FrameId) (depth : Nat) : Eval FrameId := do
  match (← heap).ancestor? id depth with
  | some ancestor => pure ancestor
  | none => defect (.noAncestor depth)

/-- Puts something into a slot. -/
def store (id : FrameId) (slot : Nat) (content : Slot) : Eval Unit := do
  let size := (← frame id).slots.length
  if slot < size then modify (·.put id slot content) else defect (.slotOutOfRange slot size)

/-- Puts values into consecutive slots. -/
def storeAll (id : FrameId) (slot : Nat) : List Value → Eval Unit
  | [] => pure ()
  | value :: values => do
    store id slot (.ready value)
    storeAll id (slot + 1) values

/-- Puts definitions into their slots, to be evaluated when they are needed. -/
def storePending (id : FrameId) : List (Nat × Expr) → Eval Unit
  | [] => pure ()
  | (slot, expr) :: definitions => do
    store id slot (.pending expr)
    storePending id definitions

/-- Empties all slots of a frame. -/
def clear (id : FrameId) : Eval Unit :=
  modify (·.mapSlots id (·.map fun _ => .empty))

/-- Runs a computation, and puts the definition back into its slot if it fails. -/
def settling (id : FrameId) (slot : Nat) (definition : Expr) (action : Eval Value) :
    Eval Value := fun heap =>
  match action heap with
  | (.ok value, after) => (.ok value, after.put id slot (.ready value))
  | (.error fault, after) => (.error fault, after.put id slot (.pending definition))

/-- A closure over the current frame, different from all closures before. -/
def close (lambda : Lambda) (env : FrameId) : Eval Value :=
  modifyGet fun heap =>
    (.closure heap.closures lambda env, { heap with closures := heap.closures + 1 })

/-- Turns a complaint into an exception that is blamed on the context. -/
def blaming (held : List Held) (context : Context) (result : Except ErrorKind α) : Eval α :=
  match result with
  | .ok a => pure a
  | .error kind => raise held context kind

def toNumber (value : Value) : Except ErrorKind Float :=
  match value with
  | .num x => .ok x
  | other => .error (wrongType "number" other)

def toBool (value : Value) : Except ErrorKind Bool :=
  match value with
  | .bool b => .ok b
  | other => .error (wrongType "bool" other)

def toList (value : Value) : Except ErrorKind (List Value) :=
  match value with
  | .list items _ => .ok items
  | other => .error (wrongType "list" other)

/-- The place of an index in a list, if it is a whole number in range. -/
def position? (index : Float) (length : Nat) : Option Nat :=
  match integerValue? index with
  | some (.ofNat i) => if i < length then some i else none
  | _ => none

section Step

variable (m : Machine) (evaluate : Evaluator)

/-- Reads a slot. A definition that is read for the first time is evaluated, in its own frame; if
it is read again meanwhile, it depends on itself. -/
def force (held : List Held) (id : FrameId) (slot : Nat) (context : Context) : Eval Value := do
  let slots := (← frame id).slots
  match slots[slot]? with
  | none => defect (.slotOutOfRange slot slots.length)
  | some (.ready value) => pure value
  | some .busy => raise held context .recursiveDefinition
  | some .empty => defect (.emptySlot slot)
  | some (.pending definition) => do
    store id slot .busy
    settling id slot definition (evaluate (.frame id :: held) id definition)

/-- The field of a record or a module, if it has one of that name. -/
def field? (held : List Held) (value : Value) (name : String) (context : Context) :
    Eval (Option Value) := do
  match value with
  | .record fields _ => pure (fields.lookup name)
  | .module frame fields =>
    match fields.lookup name with
    | some slot => some <$> force evaluate (.value value :: held) frame slot context
    | none => pure none
  | _ => pure none

/-- Evaluates expressions one after the other; `done` are the values before, the last one first. -/
def evaluateAll (held : List Held) (frame : FrameId) (done : List Value) :
    List Expr → Eval (List Value)
  | [] => pure done.reverse
  | expr :: exprs => do
    let value ← evaluate (.values done :: held) frame expr
    evaluateAll held frame (value :: done) exprs

/-- Evaluates the fields of a record. -/
def evaluateFields (held : List Held) (frame : FrameId) (done : List (String × Value)) :
    List (String × Expr) → Eval (List (String × Value))
  | [] => pure done.reverse
  | (name, expr) :: fields => do
    let value ← evaluate (.values (done.map (·.2)) :: held) frame expr
    evaluateFields held frame ((name, value) :: done) fields

/-- Evaluates the body of a loop for each item, in a frame of its own. -/
def evaluateEach (held : List Held) (frame : FrameId) (slotCount : Nat) (body : Expr)
    (done : List Value) : List Value → Eval (List Value)
  | [] => pure done.reverse
  | item :: items => do
    let round ← allocChild slotCount frame
    store round 0 (.ready item)
    let value ← evaluate (.frame round :: .values done :: held) round body
    evaluateEach held frame slotCount body (value :: done) items

/-- Calls a function. The caller is the frame that makes the call, at the given place. -/
def call (held : List Held) (function : Value) (args : List Value) (caller : FrameId)
    (site : Location) : Eval Value := do
  let held := .value function :: held
  let here : Context := .place site (some caller)
  match function with
  | .closure _ lambda env =>
    if args.length ≠ lambda.paramCount then
      raise (.values args :: held) here (.argumentCount lambda.paramCount args.length)
    let id ← allocCall m (.values args :: held) lambda.slotCount env caller site
    storeAll id 0 args
    evaluate (.call id site :: held) id lambda.body
  | .builtin builtin =>
    if args.length ≠ builtin.arity then
      raise (.values args :: held) here (.argumentCount builtin.arity args.length)
    match builtin.apply m.arithmetic args with
    | .ok value => pure value
    | .error (.mistake kind) => raise (.values args :: held) here kind
    | .error (.reported kind) => raise (.values args :: held) (.frame caller) kind
    | .error .missing => defect (.builtinArguments builtin.name)
  | other => raise held here (wrongType "function" other)

/-- The result of an operator that evaluates both operands. -/
def operate (a : Arithmetic) (op : BinaryOp) (left right : Value) :
    Except ErrorKind Value :=
  match op with
  | .add => Value.broadcast a.add left right
  | .subtract => Value.broadcast a.sub left right
  | .multiply => Value.broadcast a.mul left right
  | .divide => Value.broadcast a.div left right
  | .power => Value.broadcast a.pow left right
  | .equal => .ok (.bool (left.equal right))
  | .notEqual => .ok (.bool (!left.equal right))
  | _ => .error (wrongType "number" left)

/-- How two numbers compare, for the operators that compare numbers. -/
def compare? : BinaryOp → Option (Float → Float → Bool)
  | .less => some fun x y => x < y
  | .lessEqual => some fun x y => x ≤ y
  | .greater => some fun x y => y < x
  | .greaterEqual => some fun x y => y ≤ x
  | _ => none

/-- Evaluates one expression, given how the expressions inside it are evaluated. -/
def step : Evaluator := fun held frame expr =>
  let at_ (e : Expr) : Context := .place e.location (some frame)
  let here := at_ expr
  match expr with
  | .constant _ value => pure value.toValue
  | .slot _ depth slot => do
    let owner ← ancestor frame depth
    force evaluate held owner slot here
  | .call site function args => do
    let callee ← evaluate held frame function
    let args ← evaluateAll evaluate (.value callee :: held) frame [] args
    match callee with
    | .closure _ _ _ | .builtin _ => call m evaluate held callee args frame site
    | other =>
      raise (.values args :: .value callee :: held) (at_ function) (wrongType "function" other)
  | .list _ items => .ofItems <$> evaluateAll evaluate held frame [] items
  | .record _ fields => .ofFields <$> evaluateFields evaluate held frame [] fields
  | .module _ slotCount fields definitions => do
    let id ← allocChild slotCount frame
    storePending id definitions
    pure (.module id fields)
  | .letIn _ bindings body => do
    storePending frame bindings
    evaluate held frame body
  | .lambda location paramCount slotCount body =>
    close ⟨location, paramCount, slotCount, body⟩ frame
  | .unary _ op operand => do
    let value ← evaluate held frame operand
    blaming (.value value :: held) (at_ operand) <|
      match op with
      | .negate => value.mapNumbers Float.neg
      | .not => (fun b => .bool !b) <$> toBool value
  | .binary _ .and left right => do
    let a ← evaluate held frame left
    if ← blaming (.value a :: held) (at_ left) (toBool a) then
      let b ← evaluate held frame right
      .bool <$> blaming (.value b :: held) (at_ right) (toBool b)
    else pure (.bool false)
  | .binary _ .or left right => do
    let a ← evaluate held frame left
    if ← blaming (.value a :: held) (at_ left) (toBool a) then pure (.bool true)
    else
      let b ← evaluate held frame right
      .bool <$> blaming (.value b :: held) (at_ right) (toBool b)
  | .binary _ op left right => do
    let a ← evaluate held frame left
    let b ← evaluate (.value a :: held) frame right
    let held := .values [a, b] :: held
    match compare? op with
    | some holds => do
      let x ← blaming held (at_ left) (toNumber a)
      let y ← blaming held (at_ right) (toNumber b)
      pure (.bool (holds x y))
    | none => blaming held here (operate m.arithmetic op a b)
  | .conditional _ condition whenTrue whenFalse => do
    let value ← evaluate held frame condition
    if ← blaming (.value value :: held) (at_ condition) (toBool value) then
      evaluate held frame whenTrue
    else evaluate held frame whenFalse
  | .dot _ base name => do
    let value ← evaluate held frame base
    match ← field? evaluate held value name here with
    | some found => pure found
    | none =>
      match value.numbers?.bind fun xs => (componentIndex? name).bind (xs[·]?) with
      | some x => pure (.num x)
      | none =>
        let held := .value value :: held
        match value with
        | .record _ _ | .module _ _ | .list _ _ => raise held here (.noSuchField name)
        | other => raise held (at_ base) (wrongType "record or module" other)
  | .index _ base index => do
    let value ← evaluate held frame base
    let held := .value value :: held
    let items ← blaming held (at_ base) (toList value)
    let place ← evaluate held frame index
    let x ← blaming (.value place :: held) (at_ index) (toNumber place)
    match (position? x items.length).bind (items[·]?) with
    | some item => pure item
    | none => raise held (at_ index) (.indexOutOfRange (Value.numberText x) items.length)
  | .forEach _ slotCount list body => do
    let value ← evaluate held frame list
    let held := .value value :: held
    let items ← blaming held here (toList value)
    .ofItems <$> evaluateEach evaluate held frame slotCount body [] items

end Step

/-- Evaluates expressions that are nested, through everything that is evaluated on the way, less
than `fuel` times. -/
def upTo (m : Machine) : Nat → Evaluator
  | 0 => fun _ _ _ => throw .outOfFuel
  | fuel + 1 => step m (upTo m fuel)

end Eval

end ShapeLang
