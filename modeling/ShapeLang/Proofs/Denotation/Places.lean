import Mathlib.Logic.Equiv.List
import Mathlib.Tactic.DeriveEncodable
import ShapeLang.Proofs.Expr.Scoped

/-! # Places in an evaluation

A place says how an expression is reached from the whole program: through the parts of an
expression, through a definition of a `let` or a module, and through the body of a call. Evaluation
without memory reaches every place at most once on the way to a value, so that places can name
frames, closures and definitions independently of when they come into being.
-/

namespace ShapeLang.Denotation

/-- One step from an expression to something inside it. -/
inductive Step where
  /-- A part; the parts after the first one are parts of part one. -/
  | part (number : Nat)
  /-- The definition of a slot. -/
  | slot (number : Nat)
  /-- The expression of a definition. -/
  | body
deriving DecidableEq, Encodable

/-- The steps to a place, the last one first. A place is inside another one if the other one is a
suffix of it. -/
abbrev Place := List Step

/-- A definition of a frame: the slot for its value, its place, and its expression, which is
evaluated inside that place. -/
structure Definition where
  slot : Nat
  place : Place
  expr : Expr

/-- The place where the expression of a definition is evaluated. -/
def Definition.inner (definition : Definition) : Place := .body :: definition.place

/-- The definitions of a group that is evaluated at a place. -/
def group (w : Place) (bindings : List (Nat × Expr)) : List Definition :=
  bindings.map fun binding => ⟨binding.1, .slot binding.1 :: w, binding.2⟩

mutual

/-- The definitions that the evaluation of an expression at a place puts into its frame. -/
def definitions (w : Place) : Expr → List Definition
  | .constant _ _ => []
  | .slot _ _ _ => []
  | .module _ _ _ _ => []
  | .lambda _ _ _ _ => []
  | .call _ function args =>
    definitions (.part 0 :: w) function ++ definitionsAll (.part 1 :: w) args
  | .list _ items => definitionsAll w items
  | .record _ fields => definitionsFields w fields
  | .letIn _ bindings body =>
    group w bindings ++ definitionsGroup w bindings ++ definitions (.part 0 :: w) body
  | .unary _ _ operand => definitions (.part 0 :: w) operand
  | .binary _ _ left right => definitions (.part 0 :: w) left ++ definitions (.part 1 :: w) right
  | .conditional _ condition whenTrue whenFalse =>
    definitions (.part 0 :: w) condition ++ definitions (.part 1 :: w) whenTrue ++
      definitions (.part 2 :: w) whenFalse
  | .dot _ base _ => definitions (.part 0 :: w) base
  | .index _ base index => definitions (.part 0 :: w) base ++ definitions (.part 1 :: w) index
  | .forEach _ _ items _ => definitions (.part 0 :: w) items

def definitionsAll (w : Place) : List Expr → List Definition
  | [] => []
  | expr :: exprs => definitions (.part 0 :: w) expr ++ definitionsAll (.part 1 :: w) exprs

def definitionsFields (w : Place) : List (String × Expr) → List Definition
  | [] => []
  | (_, expr) :: fields =>
    definitions (.part 0 :: w) expr ++ definitionsFields (.part 1 :: w) fields

def definitionsGroup (w : Place) : List (Nat × Expr) → List Definition
  | [] => []
  | (slot, expr) :: bindings =>
    definitions (.body :: .slot slot :: w) expr ++ definitionsGroup w bindings

end

attribute [simp] definitions definitionsAll definitionsFields definitionsGroup

mutual

/-- Every definition fills the slot that the analysis has set apart for it. -/
theorem map_slot_definitions (w : Place) : (expr : Expr) →
    (definitions w expr).map (·.slot) = expr.letSlots
  | .constant _ _ => rfl
  | .slot _ _ _ => rfl
  | .module _ _ _ _ => rfl
  | .lambda _ _ _ _ => rfl
  | .call _ function args => by
    simp [map_slot_definitions _ function, map_slot_definitionsAll _ args]
  | .list _ items => by simp [map_slot_definitionsAll _ items]
  | .record _ fields => by simp [map_slot_definitionsFields _ fields]
  | .letIn _ bindings body => by
    simp [group, map_slot_definitionsGroup _ bindings, map_slot_definitions _ body]
  | .unary _ _ operand => by simp [map_slot_definitions _ operand]
  | .binary _ _ left right => by
    simp [map_slot_definitions _ left, map_slot_definitions _ right]
  | .conditional _ condition whenTrue whenFalse => by
    simp [map_slot_definitions _ condition, map_slot_definitions _ whenTrue,
      map_slot_definitions _ whenFalse]
  | .dot _ base _ => by simp [map_slot_definitions _ base]
  | .index _ base index => by simp [map_slot_definitions _ base, map_slot_definitions _ index]
  | .forEach _ _ items _ => by simp [map_slot_definitions _ items]

theorem map_slot_definitionsAll (w : Place) : (exprs : List Expr) →
    (definitionsAll w exprs).map (·.slot) = exprs.flatMap Expr.letSlots
  | [] => rfl
  | expr :: exprs => by simp [map_slot_definitions _ expr, map_slot_definitionsAll _ exprs]

theorem map_slot_definitionsFields (w : Place) : (fields : List (String × Expr)) →
    (definitionsFields w fields).map (·.slot) = fields.flatMap (·.2.letSlots)
  | [] => rfl
  | (_, expr) :: fields => by
    simp [map_slot_definitions _ expr, map_slot_definitionsFields _ fields]

theorem map_slot_definitionsGroup (w : Place) : (bindings : List (Nat × Expr)) →
    (definitionsGroup w bindings).map (·.slot) = bindings.flatMap (·.2.letSlots)
  | [] => rfl
  | (_, expr) :: bindings => by
    simp [map_slot_definitions _ expr, map_slot_definitionsGroup _ bindings]

end

/-- Some definitions lie at or inside a place, and with each one come those inside it. -/
structure Nested (w : Place) (all : List Definition) : Prop where
  inside : ∀ d ∈ all, w <:+ d.place
  closed : ∀ d ∈ all, (definitions d.inner d.expr).Sublist all

namespace Nested

variable {w w' : Place} {all more : List Definition}

theorem nil : Nested w [] := ⟨by simp, by simp⟩

theorem append (first : Nested w all) (second : Nested w more) : Nested w (all ++ more) := by
  constructor
  · intro d mem
    exact (List.mem_append.mp mem).elim (first.inside d) (second.inside d)
  · intro d mem
    rcases List.mem_append.mp mem with mem | mem
    · exact (first.closed d mem).trans (List.sublist_append_left _ _)
    · exact (second.closed d mem).trans (List.sublist_append_right _ _)

theorem outer (nested : Nested w' all) (le : w <:+ w') : Nested w all :=
  ⟨fun d mem => le.trans (nested.inside d mem), nested.closed⟩

theorem cons {step : Step} (nested : Nested (step :: w) all) : Nested w all :=
  nested.outer (List.suffix_cons step w)

end Nested

mutual

theorem nested_definitions (w : Place) : (expr : Expr) → Nested w (definitions w expr)
  | .constant _ _ => .nil
  | .slot _ _ _ => .nil
  | .module _ _ _ _ => .nil
  | .lambda _ _ _ _ => .nil
  | .call _ function args =>
    (nested_definitions _ function).cons.append (nested_definitionsAll _ args).cons
  | .list _ items => nested_definitionsAll w items
  | .record _ fields => nested_definitionsFields w fields
  | .letIn _ bindings body => (nested_group w bindings).append (nested_definitions _ body).cons
  | .unary _ _ operand => (nested_definitions _ operand).cons
  | .binary _ _ left right =>
    (nested_definitions _ left).cons.append (nested_definitions _ right).cons
  | .conditional _ condition whenTrue whenFalse =>
    ((nested_definitions _ condition).cons.append (nested_definitions _ whenTrue).cons).append
      (nested_definitions _ whenFalse).cons
  | .dot _ base _ => (nested_definitions _ base).cons
  | .index _ base index =>
    (nested_definitions _ base).cons.append (nested_definitions _ index).cons
  | .forEach _ _ items _ => (nested_definitions _ items).cons

theorem nested_definitionsAll (w : Place) : (exprs : List Expr) →
    Nested w (definitionsAll w exprs)
  | [] => .nil
  | expr :: exprs => (nested_definitions _ expr).cons.append (nested_definitionsAll _ exprs).cons

theorem nested_definitionsFields (w : Place) : (fields : List (String × Expr)) →
    Nested w (definitionsFields w fields)
  | [] => .nil
  | (_, expr) :: fields =>
    (nested_definitions _ expr).cons.append (nested_definitionsFields _ fields).cons

/-- A group comes with the definitions inside its own ones. -/
theorem nested_group (w : Place) : (bindings : List (Nat × Expr)) →
    Nested w (group w bindings ++ definitionsGroup w bindings)
  | [] => .nil
  | (slot, expr) :: bindings => by
    have first := (nested_definitions (.body :: .slot slot :: w) expr).cons.cons
    have rest := nested_group w bindings
    have inner : (definitions (.body :: .slot slot :: w) expr).Sublist
        (group w ((slot, expr) :: bindings) ++ definitionsGroup w ((slot, expr) :: bindings)) :=
      (List.sublist_append_left _ _).trans (List.sublist_append_right _ _)
    have later : (group w bindings ++ definitionsGroup w bindings).Sublist
        (group w ((slot, expr) :: bindings) ++ definitionsGroup w ((slot, expr) :: bindings)) :=
      (List.sublist_cons_self _ _).append (List.sublist_append_right _ _)
    have split (d : Definition)
        (mem : d ∈ group w ((slot, expr) :: bindings) ++
          definitionsGroup w ((slot, expr) :: bindings)) :
        d = ⟨slot, .slot slot :: w, expr⟩ ∨ d ∈ definitions (.body :: .slot slot :: w) expr ∨
          d ∈ group w bindings ++ definitionsGroup w bindings := by
      simp only [group, List.map_cons, definitionsGroup, List.cons_append, List.mem_cons,
        List.mem_append] at mem ⊢
      tauto
    constructor
    · intro d mem
      rcases split d mem with rfl | mem | mem
      · exact List.suffix_cons _ w
      · exact first.inside d mem
      · exact rest.inside d mem
    · intro d mem
      rcases split d mem with rfl | mem | mem
      · exact inner
      · exact (first.closed d mem).trans inner
      · exact (rest.closed d mem).trans later

end

/-- Which definition of a list a slot belongs to. -/
def definition? (all : List Definition) (slot : Nat) : Option Definition :=
  all.find? (·.slot == slot)

theorem definition?_of_mem {all : List Definition} (distinct : (all.map (·.slot)).Nodup)
    {d : Definition} (mem : d ∈ all) : definition? all d.slot = some d := by
  induction all with
  | nil => simp at mem
  | cons first rest ih =>
    rw [List.map_cons, List.nodup_cons] at distinct
    rcases List.mem_cons.mp mem with rfl | mem
    · simp [definition?]
    · have different : first.slot ≠ d.slot := fun same =>
        distinct.1 (same ▸ List.mem_map_of_mem mem)
      rw [definition?, List.find?_cons_of_neg (by simpa using different)]
      exact ih distinct.2 mem

/-- Two definitions of one slot are the same. -/
theorem eq_of_slot_eq {all : List Definition} (distinct : (all.map (·.slot)).Nodup)
    {d d' : Definition} (mem : d ∈ all) (mem' : d' ∈ all) (same : d.slot = d'.slot) : d = d' := by
  have found := definition?_of_mem distinct mem
  rw [same, definition?_of_mem distinct mem'] at found
  exact (Option.some.inj found).symm

end ShapeLang.Denotation
