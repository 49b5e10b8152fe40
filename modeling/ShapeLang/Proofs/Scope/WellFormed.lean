import Mathlib.Algebra.Ring.Nat
import Mathlib.Data.List.Nodup
import ShapeLang.Proofs.Scope.Resolution

/-! # Well-formed programs

Which phrases can be resolved, said apart from the order in which an analysis looks at them: every
name that is read is bound around the place where it is read, definitions stand where definitions
belong and nowhere else, and the names of a group are different.
-/

namespace ShapeLang

/-- The names that are bound inside a scope. -/
def within (names : List String) (bound : String → Prop) (name : String) : Prop :=
  name ∈ names ∨ bound name

namespace Phrase

/-- A phrase that can stand where an expression has to be, among the names that are bound there. A
definition cannot. The names of a `let` or a module are bound in all of its definitions, also in
those that nobody uses. -/
inductive WellFormed : (String → Prop) → Phrase → Prop
  | numeral {bound location value} : WellFormed bound (.numeral location value)
  | boolean {bound location value} : WellFormed bound (.boolean location value)
  | text {bound location content} : WellFormed bound (.text location content)
  | ident {bound location} {id : Ident} (known : bound id.name) :
      WellFormed bound (.ident location id)
  | list {bound location items} (parts : ∀ item ∈ items, WellFormed bound item) :
      WellFormed bound (.list location items)
  | record {bound location} {fields : List (Ident × Phrase)}
      (distinct : (fields.map (·.1.name)).Nodup)
      (parts : ∀ field ∈ fields, WellFormed bound field.2) :
      WellFormed bound (.record location fields)
  | module {bound location items} {definitions : List (String × Phrase)}
      (written : items.mapM binding? = some definitions)
      (distinct : (definitions.map (·.1)).Nodup)
      (parts : ∀ definition ∈ definitions,
        WellFormed (within (definitions.map (·.1)) bound) definition.2) :
      WellFormed bound (.module location items)
  | lambda {bound location body} {params : List Ident}
      (distinct : (params.map (·.name)).Nodup)
      (inner : WellFormed (within (params.map (·.name)) bound) body) :
      WellFormed bound (.lambda location params body)
  | call {bound location function args} (head : WellFormed bound function)
      (rest : ∀ arg ∈ args, WellFormed bound arg) : WellFormed bound (.call location function args)
  | dot {bound location base field} (part : WellFormed bound base) :
      WellFormed bound (.dot location base field)
  | index {bound location base index} (first : WellFormed bound base)
      (second : WellFormed bound index) : WellFormed bound (.index location base index)
  | unary {bound location op operand} (part : WellFormed bound operand) :
      WellFormed bound (.unary location op operand)
  | binary {bound location op left right} (first : WellFormed bound left)
      (second : WellFormed bound right) : WellFormed bound (.binary location op left right)
  | conditional {bound location condition whenTrue whenFalse}
      (first : WellFormed bound condition) (second : WellFormed bound whenTrue)
      (third : WellFormed bound whenFalse) :
      WellFormed bound (.conditional location condition whenTrue whenFalse)
  | letIn {bound location items body} {definitions : List (String × Phrase)}
      (written : items.mapM binding? = some definitions)
      (distinct : (definitions.map (·.1)).Nodup)
      (parts : ∀ definition ∈ definitions,
        WellFormed (within (definitions.map (·.1)) bound) definition.2)
      (rest : WellFormed (within (definitions.map (·.1)) bound) body) :
      WellFormed bound (.letIn location items body)
  | forEach {bound location body list} {item : Ident} (first : WellFormed bound list)
      (inner : WellFormed (within [item.name] bound) body) :
      WellFormed bound (.forEach location item list body)

/-- What a definition stands for is not larger than the definition. -/
theorem size_binding? {item : Phrase} {definition : String × Phrase}
    (written : item.binding? = some definition) : definition.2.size ≤ item.size := by
  unfold binding? at written
  split at written
  · cases written
    simp only [size]
    omega
  · obtain ⟨params, -, rfl⟩ := Option.map_eq_some_iff.mp written
    simp only [size]
    omega
  · cases written

theorem size_bindings {items : List Phrase} {definitions : List (String × Phrase)}
    (written : items.mapM binding? = some definitions) :
    (definitions.map (·.2.size)).sum ≤ sizeAll items := by
  induction items generalizing definitions with
  | nil =>
    cases written
    simp
  | cons item items ih =>
    rw [List.mapM_cons] at written
    obtain ⟨definition, first, written⟩ := Option.bind_eq_some_iff.mp written
    obtain ⟨rest, later, same⟩ := Option.bind_eq_some_iff.mp written
    cases same
    have head := size_binding? first
    have tail := ih later
    simp only [List.map_cons, List.sum_cons, sizeAll]
    omega

end Phrase

end ShapeLang
