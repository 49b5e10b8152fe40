import ShapeLang.Expr

/-! # Well-scoped expressions

An expression is well-scoped if every slot that it reads is one that it can see. The slots of
`let` belong to the frame around it; whatever opens a frame has to lay out the slots of its own
definitions and of all the `let`s in it next to each other.
-/

namespace ShapeLang

/-- Which slots can be seen, by the number of frames further out and by the slot. -/
abbrev Visibility := Nat → Nat → Prop

namespace Visibility

/-- What is seen with further slots of the current frame. -/
def extend (vis : Visibility) (slots : List Nat) : Visibility :=
  fun depth slot => depth = 0 ∧ slot ∈ slots ∨ vis depth slot

/-- What is seen from a new frame, with the given slots. -/
def enter (vis : Visibility) (slots : List Nat) : Visibility
  | 0, slot => slot ∈ slots
  | depth + 1, slot => vis depth slot

variable {vis vis' : Visibility} {slots : List Nat}

theorem extend_mono (wider : ∀ depth slot, vis depth slot → vis' depth slot) (depth slot : Nat)
    (visible : vis.extend slots depth slot) : vis'.extend slots depth slot :=
  visible.imp_right (wider depth slot)

theorem enter_mono (wider : ∀ depth slot, vis depth slot → vis' depth slot) (depth slot : Nat)
    (visible : vis.enter slots depth slot) : vis'.enter slots depth slot := by
  cases depth with
  | zero => exact visible
  | succ depth => exact wider depth slot visible

end Visibility

/-- A frame has room for the given slots, all different. -/
structure Room (slotCount : Nat) (slots : List Nat) : Prop where
  nodup : slots.Nodup
  inside : ∀ slot ∈ slots, slot < slotCount

/-- A frame with room for parameters has as many slots. -/
theorem Room.length_le {slotCount count : Nat} {slots : List Nat}
    (room : Room slotCount (List.range count ++ slots)) : count ≤ slotCount := by
  refine Nat.le_of_not_lt fun less => Nat.lt_irrefl slotCount (room.inside slotCount ?_)
  exact List.mem_append_left _ (List.mem_range.mpr less)

namespace Expr

mutual

/-- The definitions that an expression puts into slots of the frame that it is evaluated in. -/
def lets : Expr → List (Nat × Expr)
  | constant _ _ | slot _ _ _ | module _ _ _ _ | lambda _ _ _ _ => []
  | call _ function args => function.lets ++ letsAll args
  | list _ items => letsAll items
  | record _ fields => letsFields fields
  | letIn _ bindings body => bindings ++ letsBindings bindings ++ body.lets
  | unary _ _ operand => operand.lets
  | binary _ _ left right => left.lets ++ right.lets
  | conditional _ condition whenTrue whenFalse =>
    condition.lets ++ whenTrue.lets ++ whenFalse.lets
  | dot _ base _ => base.lets
  | index _ base place => base.lets ++ place.lets
  | forEach _ _ items _ => items.lets

def letsAll : List Expr → List (Nat × Expr)
  | [] => []
  | expr :: exprs => expr.lets ++ letsAll exprs

def letsFields : List (String × Expr) → List (Nat × Expr)
  | [] => []
  | (_, expr) :: fields => expr.lets ++ letsFields fields

def letsBindings : List (Nat × Expr) → List (Nat × Expr)
  | [] => []
  | (_, expr) :: bindings => expr.lets ++ letsBindings bindings

end

theorem letsAll_cons (expr : Expr) (exprs : List Expr) :
    letsAll (expr :: exprs) = expr.lets ++ letsAll exprs := rfl

theorem letsFields_cons (field : String × Expr) (fields : List (String × Expr)) :
    letsFields (field :: fields) = field.2.lets ++ letsFields fields := rfl

theorem letsBindings_cons (binding : Nat × Expr) (bindings : List (Nat × Expr)) :
    letsBindings (binding :: bindings) = binding.2.lets ++ letsBindings bindings := rfl

@[simp] theorem letsAll_eq (exprs : List Expr) : letsAll exprs = exprs.flatMap lets := by
  induction exprs with
  | nil => rfl
  | cons expr exprs ih => rw [letsAll_cons, ih, List.flatMap_cons]

@[simp] theorem letsFields_eq (fields : List (String × Expr)) :
    letsFields fields = fields.flatMap (·.2.lets) := by
  induction fields with
  | nil => rfl
  | cons field fields ih => rw [letsFields_cons, ih, List.flatMap_cons]

@[simp] theorem letsBindings_eq (bindings : List (Nat × Expr)) :
    letsBindings bindings = bindings.flatMap (·.2.lets) := by
  induction bindings with
  | nil => rfl
  | cons binding bindings ih => rw [letsBindings_cons, ih, List.flatMap_cons]

/-- The slots of the `let`s of an expression. -/
def letSlots (expr : Expr) : List Nat := expr.lets.map (·.1)

section LetSlots

variable {location : Location}

@[simp] theorem letSlots_constant {value : Constant} : (constant location value).letSlots = [] :=
  rfl

@[simp] theorem letSlots_slot {depth slot : Nat} : (Expr.slot location depth slot).letSlots = [] :=
  rfl

@[simp] theorem letSlots_module {slotCount : Nat} {fields : List (String × Nat)}
    {definitions : List (Nat × Expr)} :
    (module location slotCount fields definitions).letSlots = [] :=
  rfl

@[simp] theorem letSlots_lambda {paramCount slotCount : Nat} {body : Expr} :
    (lambda location paramCount slotCount body).letSlots = [] :=
  rfl

@[simp] theorem letSlots_call {function : Expr} {args : List Expr} :
    (call location function args).letSlots = function.letSlots ++ args.flatMap letSlots := by
  change (function.lets ++ letsAll args).map (·.1) = _
  rw [letsAll_eq, List.map_append, List.map_flatMap]
  rfl

@[simp] theorem letSlots_list {items : List Expr} :
    (list location items).letSlots = items.flatMap letSlots := by
  change (letsAll items).map (·.1) = _
  rw [letsAll_eq, List.map_flatMap]
  rfl

@[simp] theorem letSlots_record {fields : List (String × Expr)} :
    (record location fields).letSlots = fields.flatMap (·.2.letSlots) := by
  change (letsFields fields).map (·.1) = _
  rw [letsFields_eq, List.map_flatMap]
  rfl

@[simp] theorem letSlots_letIn {bindings : List (Nat × Expr)} {body : Expr} :
    (letIn location bindings body).letSlots =
      bindings.map (·.1) ++ bindings.flatMap (·.2.letSlots) ++ body.letSlots := by
  change (bindings ++ letsBindings bindings ++ body.lets).map (·.1) = _
  rw [letsBindings_eq, List.map_append, List.map_append, List.map_flatMap]
  rfl

@[simp] theorem letSlots_unary {op : UnaryOp} {operand : Expr} :
    (unary location op operand).letSlots = operand.letSlots :=
  rfl

@[simp] theorem letSlots_binary {op : BinaryOp} {left right : Expr} :
    (binary location op left right).letSlots = left.letSlots ++ right.letSlots := by
  change (left.lets ++ right.lets).map (·.1) = _
  rw [List.map_append]
  rfl

@[simp] theorem letSlots_conditional {condition whenTrue whenFalse : Expr} :
    (conditional location condition whenTrue whenFalse).letSlots =
      condition.letSlots ++ whenTrue.letSlots ++ whenFalse.letSlots := by
  change (condition.lets ++ whenTrue.lets ++ whenFalse.lets).map (·.1) = _
  rw [List.map_append, List.map_append]
  rfl

@[simp] theorem letSlots_dot {base : Expr} {name : String} :
    (dot location base name).letSlots = base.letSlots :=
  rfl

@[simp] theorem letSlots_index {base place : Expr} :
    (index location base place).letSlots = base.letSlots ++ place.letSlots := by
  change (base.lets ++ place.lets).map (·.1) = _
  rw [List.map_append]
  rfl

@[simp] theorem letSlots_forEach {slotCount : Nat} {items body : Expr} :
    (forEach location slotCount items body).letSlots = items.letSlots :=
  rfl

end LetSlots

/-- An expression reads slots that it can see, and everything in it that opens a frame has a frame
large enough. -/
inductive Scoped : Visibility → Expr → Prop
  | constant {vis location value} : Scoped vis (.constant location value)
  | slot {vis location depth slot} (visible : vis depth slot) :
      Scoped vis (.slot location depth slot)
  | call {vis location function args} (head : Scoped vis function)
      (rest : ∀ arg ∈ args, Scoped vis arg) : Scoped vis (.call location function args)
  | list {vis location items} (parts : ∀ item ∈ items, Scoped vis item) :
      Scoped vis (.list location items)
  | record {vis location fields} (parts : ∀ field ∈ fields, Scoped vis field.2) :
      Scoped vis (.record location fields)
  | module {vis location slotCount fields definitions}
      (layout : Room slotCount
        (definitions.map (·.1) ++ definitions.flatMap (·.2.letSlots)))
      (named : ∀ field ∈ fields, field.2 ∈ definitions.map (·.1))
      (parts : ∀ definition ∈ definitions,
        Scoped (vis.enter (definitions.map (·.1))) definition.2) :
      Scoped vis (.module location slotCount fields definitions)
  | letIn {vis location bindings body}
      (parts : ∀ binding ∈ bindings, Scoped (vis.extend (bindings.map (·.1))) binding.2)
      (rest : Scoped (vis.extend (bindings.map (·.1))) body) :
      Scoped vis (.letIn location bindings body)
  | lambda {vis location paramCount slotCount body}
      (layout : Room slotCount (List.range paramCount ++ body.letSlots))
      (inner : Scoped (vis.enter (List.range paramCount)) body) :
      Scoped vis (.lambda location paramCount slotCount body)
  | unary {vis location op operand} (part : Scoped vis operand) :
      Scoped vis (.unary location op operand)
  | binary {vis location op left right} (first : Scoped vis left) (second : Scoped vis right) :
      Scoped vis (.binary location op left right)
  | conditional {vis location condition whenTrue whenFalse} (first : Scoped vis condition)
      (second : Scoped vis whenTrue) (third : Scoped vis whenFalse) :
      Scoped vis (.conditional location condition whenTrue whenFalse)
  | dot {vis location base name} (part : Scoped vis base) : Scoped vis (.dot location base name)
  | index {vis location base place} (first : Scoped vis base) (second : Scoped vis place) :
      Scoped vis (.index location base place)
  | forEach {vis location slotCount items body} (first : Scoped vis items)
      (layout : Room slotCount (0 :: body.letSlots)) (inner : Scoped (vis.enter [0]) body) :
      Scoped vis (.forEach location slotCount items body)

/-- Seeing more slots does no harm. -/
theorem Scoped.mono {vis vis' : Visibility} {expr : Expr} (known : Scoped vis expr)
    (wider : ∀ depth slot, vis depth slot → vis' depth slot) : Scoped vis' expr := by
  induction known generalizing vis' with
  | constant => exact .constant
  | slot visible => exact .slot (wider _ _ visible)
  | call _ _ head rest => exact .call (head wider) fun arg mem => rest arg mem wider
  | list _ parts => exact .list fun item mem => parts item mem wider
  | record _ parts => exact .record fun field mem => parts field mem wider
  | «module» layout named _ parts =>
    exact .module layout named fun definition mem =>
      parts definition mem (Visibility.enter_mono wider)
  | letIn _ _ parts rest =>
    exact .letIn (fun binding mem => parts binding mem (Visibility.extend_mono wider))
      (rest (Visibility.extend_mono wider))
  | lambda layout _ inner => exact .lambda layout (inner (Visibility.enter_mono wider))
  | unary _ part => exact .unary (part wider)
  | binary _ _ first second => exact .binary (first wider) (second wider)
  | conditional _ _ _ first second third =>
    exact .conditional (first wider) (second wider) (third wider)
  | dot _ part => exact .dot (part wider)
  | index _ _ first second => exact .index (first wider) (second wider)
  | forEach _ layout _ first inner =>
    exact .forEach (first wider) layout (inner (Visibility.enter_mono wider))

end Expr

end ShapeLang
