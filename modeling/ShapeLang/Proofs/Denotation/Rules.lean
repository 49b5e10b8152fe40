import ShapeLang.Eval
import ShapeLang.Proofs.Denotation.Places

/-! # What expressions denote

Evaluation without memory: there are no frames to write to, and a definition is evaluated anew
whenever it is read. What comes out is the same each time, down to the identity of modules and
functions, because they are named by the places where they are made. A definition that depends on
itself has no denotation.
-/

namespace ShapeLang.Denotation

mutual

/-- What expressions denote. -/
inductive Den where
  | bool (value : Bool)
  | num (value : Float)
  | text (content : String)
  | list (items : List Den)
  | record (fields : List (String × Den))
  | module (env : Env) (fields : List (String × Nat))
  /-- A function literal, the place where it was evaluated, and the environment there. -/
  | closure (place : Place) (lambda : Lambda) (env : Env)
  | builtin (function : Builtin)

/-- A frame that is never written: the place it was made at, all definitions that can be read from
it, the number of calls around it, the values of its first slots, and the frame around it. -/
inductive Env where
  | frame (name : Place) (definitions : List Definition) (depth : Nat) (args : List Den)
    (parent : Option Env)

end

namespace Env

def name : Env → Place
  | frame name _ _ _ _ => name

def definitions : Env → List Definition
  | frame _ definitions _ _ _ => definitions

def depth : Env → Nat
  | frame _ _ depth _ _ => depth

def args : Env → List Den
  | frame _ _ _ args _ => args

def parent : Env → Option Env
  | frame _ _ _ _ parent => parent

section Frame

variable (w : Place) (all : List Definition) (calls : Nat) (values : List Den)
  (outer : Option Env)

@[simp] theorem name_frame : (frame w all calls values outer).name = w := rfl

@[simp] theorem definitions_frame : (frame w all calls values outer).definitions = all := rfl

@[simp] theorem depth_frame : (frame w all calls values outer).depth = calls := rfl

@[simp] theorem args_frame : (frame w all calls values outer).args = values := rfl

@[simp] theorem parent_frame : (frame w all calls values outer).parent = outer := rfl

end Frame

/-- The frame that is some steps further out. -/
def ancestor? (env : Env) : Nat → Option Env
  | 0 => some env
  | depth + 1 =>
    match env.parent with
    | some parent => parent.ancestor? depth
    | none => none

end Env

namespace Den

mutual

/-- A denotation as operators and builtin functions see it: places are numbered. -/
def outline : Den → Value
  | bool value => .bool value
  | num value => .num value
  | text content => .text content
  | list items => .list (outlines items) []
  | record fields => .record (outlineFields fields) []
  | module env fields => .module (Encodable.encode env.name) fields
  | closure place lambda _ => .closure (Encodable.encode place) lambda 0
  | builtin function => .builtin function

def outlines : List Den → List Value
  | [] => []
  | item :: items => item.outline :: outlines items

def outlineFields : List (String × Den) → List (String × Value)
  | [] => []
  | (name, value) :: fields => (name, value.outline) :: outlineFields fields

end

mutual

/-- Constants and results of operators. They have no modules and no functions of the program
inside, for which there would be no place. -/
def ofPlain : Value → Den
  | .bool value => bool value
  | .num value => num value
  | .text content => text content
  | .list items _ => list (ofPlains items)
  | .record fields _ => record (ofPlainFields fields)
  | .builtin function => builtin function
  | .module _ _ => list []
  | .closure _ _ _ => list []

def ofPlains : List Value → List Den
  | [] => []
  | item :: items => ofPlain item :: ofPlains items

def ofPlainFields : List (String × Value) → List (String × Den)
  | [] => []
  | (name, value) :: fields => (name, ofPlain value) :: ofPlainFields fields

end

end Den

/-- A result or a mistake, if there is any. -/
abbrev Outcome := ExceptT ErrorKind Option

/-- What an expression denotes in an environment, if it is evaluated at a place. -/
abbrev Denoter := Env → Place → Expr → Outcome Den

/-- There is no result. -/
def nothing {α : Type} : Outcome α := (none : Option (Except ErrorKind α))

def expect {α : Type} (result : Except ErrorKind α) : Outcome α := some result

def toList : Den → Except ErrorKind (List Den)
  | .list items => .ok items
  | other => .error (wrongType "list" other.outline)

section Rules

variable (m : Machine) (den : Denoter)

/-- What is in a slot: a value from the beginning, or what its definition denotes. -/
def read (env : Env) (slot : Nat) : Outcome Den :=
  match env.args[slot]? with
  | some value => pure value
  | none =>
    match definition? env.definitions slot with
    | some definition => den env definition.inner definition.expr
    | none => nothing

/-- The field of a record or a module, if it has one of that name. -/
def field? (value : Den) (name : String) : Outcome (Option Den) :=
  match value with
  | .record fields => pure (fields.lookup name)
  | .module env fields =>
    match fields.lookup name with
    | some slot => some <$> read den env slot
    | none => pure none
  | _ => pure none

/-- Expressions one after the other; `done` are the values before, the last one first. -/
def denoteAll (env : Env) (w : Place) (done : List Den) : List Expr → Outcome (List Den)
  | [] => pure done.reverse
  | expr :: exprs => do
    let value ← den env (.part 0 :: w) expr
    denoteAll env (.part 1 :: w) (value :: done) exprs

def denoteFields (env : Env) (w : Place) (done : List (String × Den)) :
    List (String × Expr) → Outcome (List (String × Den))
  | [] => pure done.reverse
  | (name, expr) :: fields => do
    let value ← den env (.part 0 :: w) expr
    denoteFields env (.part 1 :: w) ((name, value) :: done) fields

/-- The environment of one round of a loop. -/
def round (env : Env) (w : Place) (body : Expr) (item : Den) : Env :=
  .frame w (definitions (.part 0 :: w) body) env.depth [item] (some env)

/-- The body of a loop for each item. -/
def denoteEach (env : Env) (w : Place) (body : Expr) (done : List Den) :
    List Den → Outcome (List Den)
  | [] => pure done.reverse
  | item :: items => do
    let value ← den (round env (.part 0 :: w) body item) (.part 0 :: .part 0 :: w) body
    denoteEach env (.part 1 :: w) body (value :: done) items

/-- The environment of a call. -/
def callee (env : Env) (w : Place) (depth : Nat) (lambda : Lambda) (args : List Den) : Env :=
  .frame w (definitions (.part 0 :: w) lambda.body) depth args (some env)

/-- A call of a function at a place, from code that has `depth` calls around it. -/
def call (function : Den) (args : List Den) (depth : Nat) (w : Place) : Outcome Den :=
  match function with
  | .closure _ lambda env => do
    if args.length ≠ lambda.paramCount then
      throw (.argumentCount lambda.paramCount args.length)
    if m.maxCallDepth < depth + 1 then throw (.stackOverflow m.maxCallDepth)
    den (callee env w (depth + 1) lambda args) (.part 0 :: w) lambda.body
  | .builtin builtin => do
    if args.length ≠ builtin.arity then throw (.argumentCount builtin.arity args.length)
    match builtin.apply m.arithmetic (args.map Den.outline) with
    | .ok value => pure (.ofPlain value)
    | .error (.mistake kind) => throw kind
    | .error (.reported kind) => throw kind
    | .error .missing => nothing
  | other => throw (wrongType "function" other.outline)

/-- The result of an operator other than `&&` and `||`. -/
def combine (op : BinaryOp) (a b : Den) : Outcome Den :=
  match Eval.compare? op with
  | some holds => do
    let x ← expect (Eval.toNumber a.outline)
    let y ← expect (Eval.toNumber b.outline)
    pure (.bool (holds x y))
  | none => .ofPlain <$> expect (Eval.operate m.arithmetic op a.outline b.outline)

/-- The component of a vector, when a value has no field of that name. -/
def component (value : Den) (name : String) : Outcome Den :=
  match value.outline.numbers?.bind fun xs => (componentIndex? name).bind (xs[·]?) with
  | some x => pure (.num x)
  | none =>
    match value with
    | .record _ => throw (.noSuchField name)
    | .module _ _ => throw (.noSuchField name)
    | .list _ => throw (.noSuchField name)
    | other => throw (wrongType "record or module" other.outline)

/-- What an expression denotes, given what the expressions inside it denote. -/
def rule : Denoter := fun env w expr =>
  match expr with
  | .constant _ value => pure (.ofPlain value.toValue)
  | .slot _ depth slot =>
    match env.ancestor? depth with
    | some owner => read den owner slot
    | none => nothing
  | .call _ function args => do
    let function ← den env (.part 0 :: w) function
    let args ← denoteAll den env (.part 1 :: w) [] args
    call m den function args env.depth (.part 2 :: w)
  | .list _ items => .list <$> denoteAll den env w [] items
  | .record _ fields => .record <$> denoteFields den env w [] fields
  | .module _ _ fields bindings =>
    pure (.module (.frame w (group w bindings ++ definitionsGroup w bindings) env.depth []
      (some env)) fields)
  | .letIn _ _ body => den env (.part 0 :: w) body
  | .lambda location paramCount slotCount body =>
    pure (.closure w ⟨location, paramCount, slotCount, body⟩ env)
  | .unary _ op operand => do
    let value ← den env (.part 0 :: w) operand
    .ofPlain <$> expect (
      match op with
      | .negate => value.outline.mapNumbers Float.neg
      | .not => (fun b => .bool !b) <$> Eval.toBool value.outline)
  | .binary _ .and left right => do
    let a ← den env (.part 0 :: w) left
    if ← expect (Eval.toBool a.outline) then
      let b ← den env (.part 1 :: w) right
      .bool <$> expect (Eval.toBool b.outline)
    else pure (.bool false)
  | .binary _ .or left right => do
    let a ← den env (.part 0 :: w) left
    if ← expect (Eval.toBool a.outline) then pure (.bool true)
    else
      let b ← den env (.part 1 :: w) right
      .bool <$> expect (Eval.toBool b.outline)
  | .binary _ op left right => do
    let a ← den env (.part 0 :: w) left
    let b ← den env (.part 1 :: w) right
    combine m op a b
  | .conditional _ condition whenTrue whenFalse => do
    let value ← den env (.part 0 :: w) condition
    if ← expect (Eval.toBool value.outline) then den env (.part 1 :: w) whenTrue
    else den env (.part 2 :: w) whenFalse
  | .dot _ base name => do
    let value ← den env (.part 0 :: w) base
    match ← field? den value name with
    | some found => pure found
    | none => component value name
  | .index _ base index => do
    let value ← den env (.part 0 :: w) base
    let items ← expect (toList value)
    let place ← den env (.part 1 :: w) index
    let x ← expect (Eval.toNumber place.outline)
    match (Eval.position? x items.length).bind (items[·]?) with
    | some item => pure item
    | none => throw (.indexOutOfRange (Value.numberText x) items.length)
  | .forEach _ _ list body => do
    let value ← den env (.part 0 :: w) list
    let items ← expect (toList value)
    .list <$> denoteEach den env (.part 1 :: w) body [] items

end Rules

/-- What an expression denotes, if it is found with definitions and calls nested less than `fuel`
times. -/
def upTo (m : Machine) : Nat → Denoter
  | 0 => fun _ _ _ => nothing
  | fuel + 1 => rule m (upTo m fuel)

section Settles

variable {α β : Type} {family : Nat → Outcome α} {result : Except ErrorKind α}

/-- Outcomes for different amounts of fuel are the given result as soon as there is any. -/
structure Settles (family : Nat → Outcome α) (result : Except ErrorKind α) : Prop where
  only : ∀ n other, (family n).run = some other → other = result
  found : ∃ enough, ∀ n, enough ≤ n → (family n).run = some result

/-- No amount of fuel suffices. -/
def Diverges (family : Nat → Outcome α) : Prop := ∀ n, (family n).run = none

theorem run_bind_ok {outcome : Outcome α} {a : α} (next : α → Outcome β)
    (ran : outcome.run = some (.ok a)) : (outcome >>= next).run = (next a).run := by
  rw [ExceptT.run_bind, ran]
  rfl

theorem run_bind_error {outcome : Outcome α} {kind : ErrorKind} (next : α → Outcome β)
    (ran : outcome.run = some (.error kind)) : (outcome >>= next).run = some (.error kind) := by
  rw [ExceptT.run_bind, ran]
  rfl

theorem run_bind_none {outcome : Outcome α} (next : α → Outcome β) (ran : outcome.run = none) :
    (outcome >>= next).run = none := by
  rw [ExceptT.run_bind, ran]
  rfl

namespace Settles

theorem of_run {outcome : Outcome α} (ran : outcome.run = some result) :
    Settles (fun _ => outcome) result :=
  ⟨fun _ _ same => Option.some.inj (same.symm.trans ran), 0, fun _ _ => ran⟩

theorem pure (a : α) : Settles (fun _ => (Pure.pure a : Outcome α)) (.ok a) := .of_run rfl

theorem throw (kind : ErrorKind) : Settles (fun _ => (MonadExcept.throw kind : Outcome α))
    (.error kind) := .of_run rfl

theorem unique (settles : Settles family result) {result' : Except ErrorKind α}
    (settles' : Settles family result') : result = result' := by
  obtain ⟨enough, found⟩ := settles.found
  exact settles'.only enough result (found enough (Nat.le_refl _))

theorem not_diverges (settles : Settles family result) : ¬ Diverges family := by
  intro diverges
  obtain ⟨enough, found⟩ := settles.found
  have stuck := diverges enough
  rw [found enough (Nat.le_refl _)] at stuck
  cases stuck

theorem bind {a : α} {next : Nat → α → Outcome β} {result' : Except ErrorKind β}
    (first : Settles family (.ok a)) (second : Settles (next · a) result') :
    Settles (fun n => family n >>= next n) result' := by
  constructor
  · intro n other ran
    cases here : (family n).run with
    | none => simp [run_bind_none _ here] at ran
    | some outcome =>
      obtain rfl := first.only n outcome here
      rw [run_bind_ok _ here] at ran
      exact second.only n other ran
  · obtain ⟨enough, found⟩ := first.found
    obtain ⟨enough', found'⟩ := second.found
    refine ⟨max enough enough', fun n le => ?_⟩
    have here := found n (Nat.le_trans (Nat.le_max_left ..) le)
    exact (run_bind_ok _ here).trans (found' n (Nat.le_trans (Nat.le_max_right ..) le))

theorem stop {kind : ErrorKind} {next : Nat → α → Outcome β}
    (first : Settles family (.error kind)) :
    Settles (fun n => family n >>= next n) (.error kind) := by
  constructor
  · intro n other ran
    cases here : (family n).run with
    | none => simp [run_bind_none _ here] at ran
    | some outcome =>
      obtain rfl := first.only n outcome here
      rw [run_bind_error _ here] at ran
      exact (Option.some.inj ran).symm
  · obtain ⟨enough, found⟩ := first.found
    exact ⟨enough, fun n le => run_bind_error _ (found n le)⟩

/-- One more unit of fuel makes no difference. -/
theorem of_succ (settles : Settles (fun n => family (n + 1)) result)
    (zero : (family 0).run = none) : Settles family result := by
  constructor
  · intro n other ran
    cases n with
    | zero => simp [zero] at ran
    | succ n => exact settles.only n other ran
  · obtain ⟨enough, found⟩ := settles.found
    refine ⟨enough + 1, fun n le => ?_⟩
    obtain ⟨less, rfl⟩ : ∃ less, n = less + 1 := ⟨n - 1, by omega⟩
    exact found less (by omega)

end Settles

end Settles

end ShapeLang.Denotation
