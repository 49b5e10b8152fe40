import ShapeLang.Proofs.Scope.Resolution

/-! # Where function literals stand

A function literal is known by its place. A definition with a header is a function literal too, at
the place of the whole definition.
-/

namespace ShapeLang

namespace Phrase

/-- What a definition stands for is a function literal if its target is a header. -/
def headerLiteral (location : Location) : Phrase → List Location
  | call _ (ident _ _) _ => [location]
  | _ => []

mutual

/-- The places of the function literals in a phrase. The target of a definition has none. -/
def literals : Phrase → List Location
  | numeral _ _ | boolean _ _ | text _ _ | ident _ _ => []
  | list _ items => literalsAll items
  | record _ fields => literalsFields fields
  | module _ items => literalsAll items
  | definition location target definiens => target.headerLiteral location ++ definiens.literals
  | lambda location _ body => location :: body.literals
  | call _ function args => function.literals ++ literalsAll args
  | dot _ base _ => base.literals
  | index _ base place => base.literals ++ place.literals
  | unary _ _ operand => operand.literals
  | binary _ _ left right => left.literals ++ right.literals
  | conditional _ condition whenTrue whenFalse =>
    condition.literals ++ whenTrue.literals ++ whenFalse.literals
  | letIn _ definitions body => literalsAll definitions ++ body.literals
  | forEach _ _ items body => items.literals ++ body.literals

def literalsAll : List Phrase → List Location
  | [] => []
  | phrase :: phrases => phrase.literals ++ literalsAll phrases

def literalsFields : List (Ident × Phrase) → List Location
  | [] => []
  | (_, phrase) :: fields => phrase.literals ++ literalsFields fields

end

theorem literals_binary (location : Location) (op : BinaryOp) (left right : Phrase) :
    (binary location op left right).literals = left.literals ++ right.literals := by
  rw [literals]

@[simp] theorem literalsAll_eq (phrases : List Phrase) :
    literalsAll phrases = phrases.flatMap literals := by
  induction phrases with
  | nil => rfl
  | cons phrase phrases ih => rw [literalsAll, ih, List.flatMap_cons]

@[simp] theorem literalsFields_eq (fields : List (Ident × Phrase)) :
    literalsFields fields = fields.flatMap (·.2.literals) := by
  induction fields with
  | nil => rfl
  | cons field fields ih => rw [literalsFields, ih, List.flatMap_cons]

/-- A definition has the function literals of what it stands for. -/
theorem literals_binding? {item : Phrase} {definition : String × Phrase}
    (written : item.binding? = some definition) : item.literals = definition.2.literals := by
  unfold binding? at written
  split at written
  · cases written
    rfl
  · obtain ⟨params, -, rfl⟩ := Option.map_eq_some_iff.mp written
    rfl
  · cases written

theorem literals_bindings {items : List Phrase} {definitions : List (String × Phrase)}
    (written : items.mapM binding? = some definitions) :
    items.flatMap literals = definitions.flatMap (·.2.literals) := by
  induction items generalizing definitions with
  | nil =>
    cases written
    rfl
  | cons item items ih =>
    rw [List.mapM_cons] at written
    obtain ⟨definition, first, written⟩ := Option.bind_eq_some_iff.mp written
    obtain ⟨rest, later, same⟩ := Option.bind_eq_some_iff.mp written
    cases same
    rw [List.flatMap_cons, List.flatMap_cons, literals_binding? first, ih later]

end Phrase

end ShapeLang
