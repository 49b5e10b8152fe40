import Mathlib.Data.Finset.Basic
import ShapeLang.Expr

/-! # The function literals of an expression

An expression has finitely many function literals in it, and so have the functions that it makes:
those are literals inside each other.
-/

namespace ShapeLang

namespace Expr

mutual

/-- The places of all function literals in an expression, however deep inside. -/
@[simp] def literals : Expr → List Location
  | constant _ _ | slot _ _ _ => []
  | call _ function args => function.literals ++ literalsAll args
  | list _ items => literalsAll items
  | record _ fields => literalsFields fields
  | module _ _ _ definitions => literalsBindings definitions
  | letIn _ bindings body => literalsBindings bindings ++ body.literals
  | lambda location _ _ body => location :: body.literals
  | unary _ _ operand => operand.literals
  | binary _ _ left right => left.literals ++ right.literals
  | conditional _ condition whenTrue whenFalse =>
    condition.literals ++ whenTrue.literals ++ whenFalse.literals
  | dot _ base _ => base.literals
  | index _ base place => base.literals ++ place.literals
  | forEach _ _ items body => items.literals ++ body.literals

@[simp] def literalsAll : List Expr → List Location
  | [] => []
  | expr :: exprs => expr.literals ++ literalsAll exprs

@[simp] def literalsFields : List (String × Expr) → List Location
  | [] => []
  | (_, expr) :: fields => expr.literals ++ literalsFields fields

@[simp] def literalsBindings : List (Nat × Expr) → List Location
  | [] => []
  | (_, expr) :: bindings => expr.literals ++ literalsBindings bindings

end

/-- All function literals are known ones. -/
def Within (known : Finset Location) (expr : Expr) : Prop := ∀ place ∈ expr.literals, place ∈ known

variable {known more : Finset Location} {location : Location}

theorem Within.mono {expr : Expr} (within : expr.Within known) (wider : known ⊆ more) :
    expr.Within more :=
  fun place mem => wider (within place mem)

theorem within_all {exprs : List Expr} :
    (∀ place ∈ literalsAll exprs, place ∈ known) ↔ ∀ expr ∈ exprs, expr.Within known := by
  induction exprs with
  | nil => simp
  | cons expr exprs ih =>
    rw [literalsAll, List.forall_mem_append, ih, List.forall_mem_cons]
    rfl

theorem within_fields {fields : List (String × Expr)} :
    (∀ place ∈ literalsFields fields, place ∈ known) ↔ ∀ field ∈ fields, field.2.Within known := by
  induction fields with
  | nil => simp
  | cons field fields ih =>
    rw [literalsFields, List.forall_mem_append, ih, List.forall_mem_cons]
    rfl

theorem within_bindings {bindings : List (Nat × Expr)} :
    (∀ place ∈ literalsBindings bindings, place ∈ known) ↔
      ∀ binding ∈ bindings, binding.2.Within known := by
  induction bindings with
  | nil => simp
  | cons binding bindings ih =>
    rw [literalsBindings, List.forall_mem_append, ih, List.forall_mem_cons]
    rfl

@[simp] theorem within_call {function : Expr} {args : List Expr} :
    (call location function args).Within known ↔
      function.Within known ∧ ∀ arg ∈ args, arg.Within known := by
  rw [Within, literals, List.forall_mem_append, within_all]
  rfl

@[simp] theorem within_list {items : List Expr} :
    (list location items).Within known ↔ ∀ item ∈ items, item.Within known := by
  rw [Within, literals, within_all]

@[simp] theorem within_record {fields : List (String × Expr)} :
    (record location fields).Within known ↔ ∀ field ∈ fields, field.2.Within known := by
  rw [Within, literals, within_fields]

@[simp] theorem within_module {slotCount : Nat} {fields : List (String × Nat)}
    {definitions : List (Nat × Expr)} :
    (module location slotCount fields definitions).Within known ↔
      ∀ definition ∈ definitions, definition.2.Within known := by
  rw [Within, literals, within_bindings]

@[simp] theorem within_letIn {bindings : List (Nat × Expr)} {body : Expr} :
    (letIn location bindings body).Within known ↔
      (∀ binding ∈ bindings, binding.2.Within known) ∧ body.Within known := by
  rw [Within, literals, List.forall_mem_append, within_bindings]
  rfl

@[simp] theorem within_lambda {paramCount slotCount : Nat} {body : Expr} :
    (lambda location paramCount slotCount body).Within known ↔
      location ∈ known ∧ body.Within known := by
  rw [Within, literals, List.forall_mem_cons]
  rfl

@[simp] theorem within_unary {op : UnaryOp} {operand : Expr} :
    (unary location op operand).Within known ↔ operand.Within known := by
  rw [Within, literals]
  rfl

@[simp] theorem within_binary {op : BinaryOp} {left right : Expr} :
    (binary location op left right).Within known ↔ left.Within known ∧ right.Within known := by
  rw [Within, literals, List.forall_mem_append]
  rfl

@[simp] theorem within_conditional {condition whenTrue whenFalse : Expr} :
    (conditional location condition whenTrue whenFalse).Within known ↔
      condition.Within known ∧ whenTrue.Within known ∧ whenFalse.Within known := by
  rw [Within, literals, List.forall_mem_append, List.forall_mem_append, and_assoc]
  rfl

@[simp] theorem within_dot {base : Expr} {name : String} :
    (dot location base name).Within known ↔ base.Within known := by
  rw [Within, literals]
  rfl

@[simp] theorem within_index {base place : Expr} :
    (index location base place).Within known ↔ base.Within known ∧ place.Within known := by
  rw [Within, literals, List.forall_mem_append]
  rfl

@[simp] theorem within_forEach {slotCount : Nat} {items body : Expr} :
    (forEach location slotCount items body).Within known ↔
      items.Within known ∧ body.Within known := by
  rw [Within, literals, List.forall_mem_append]
  rfl

end Expr

end ShapeLang
