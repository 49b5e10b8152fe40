import Mathlib.Data.List.Sort
import Mathlib.Data.String.Basic
import ShapeLang.Proofs.Value.Alike
import ShapeLang.Shape

/-! # Values whose modules have their names in another order

A module shows the names of its definitions in the order in which they were written. Values that
differ in this order only are shown alike as soon as the names are sorted.
-/

namespace ShapeLang

namespace Value

/-- Values that differ in the order of names in modules only. -/
abbrev Rearranged : Value → Value → Prop := Alike List.Perm Eq Eq

mutual

/-- The value with the names of each module sorted. -/
def arranged : Value → Value
  | list items frames => list (arrangedItems items) frames
  | record fields frames => record (arrangedFields fields) frames
  | module frame fields => module frame (fields.mergeSort (·.1 ≤ ·.1))
  | other => other

def arrangedItems : List Value → List Value
  | [] => []
  | item :: items => item.arranged :: arrangedItems items

def arrangedFields : List (String × Value) → List (String × Value)
  | [] => []
  | (name, value) :: fields => (name, value.arranged) :: arrangedFields fields

end

theorem oneToOne_eq : OneToOne Eq := by
  rintro _ a _ b rfl rfl
  rfl

namespace Rearranged

variable {value value' : Value}

/-- Names that are sorted do not depend on their order before. -/
private theorem sorted_names {fields fields' : List (String × Nat)}
    (named : (fields.map (·.1)).Perm (fields'.map (·.1))) :
    (fields.mergeSort (·.1 ≤ ·.1)).map (·.1) = (fields'.mergeSort (·.1 ≤ ·.1)).map (·.1) := by
  have sorted (fields : List (String × Nat)) :
      ((fields.mergeSort (·.1 ≤ ·.1)).map (·.1)).Pairwise (· ≤ ·) := by
    rw [List.pairwise_map]
    refine (List.pairwise_mergeSort (fun a b c first second => ?_) (fun a b => ?_) fields).imp
      fun le => by simpa using le
    · simp only [decide_eq_true_eq] at first second ⊢
      exact le_trans first second
    · simpa using le_total a.1 b.1
  have order (fields : List (String × Nat)) :
      ((fields.mergeSort (·.1 ≤ ·.1)).map (·.1)).Perm (fields.map (·.1)) :=
    (List.mergeSort_perm fields _).map (·.1)
  exact List.Perm.eq_of_pairwise (fun _ _ _ _ => le_antisymm) (sorted fields) (sorted fields')
    ((order fields).trans (named.trans (order fields').symm))

private theorem shownItems_eq (items : List (Value × Value))
    (parts : ∀ item ∈ items, item.1.arranged.shown = item.2.arranged.shown) :
    shownItems (arrangedItems (items.map (·.1))) = shownItems (arrangedItems (items.map (·.2))) := by
  induction items with
  | nil => rfl
  | cons item items ih =>
    simp only [List.map_cons, arrangedItems, shownItems]
    rw [parts item (by simp), ih fun other mem => parts other (by simp [mem])]

private theorem shownFields_eq (fields : List (String × Value × Value))
    (parts : ∀ field ∈ fields, field.2.1.arranged.shown = field.2.2.arranged.shown) :
    shownFields (arrangedFields (fields.map fun field => (field.1, field.2.1))) =
      shownFields (arrangedFields (fields.map fun field => (field.1, field.2.2))) := by
  induction fields with
  | nil => rfl
  | cons field fields ih =>
    simp only [List.map_cons, arrangedFields, shownFields]
    rw [parts field (by simp), ih fun other mem => parts other (by simp [mem])]

/-- The same text, once the names in modules are sorted. -/
theorem shown (rearranged : value.Rearranged value') :
    value.arranged.shown = value'.arranged.shown := by
  induction rearranged with
  | list items _ parts => simp only [arranged, Value.shown, shownItems_eq items parts]
  | record fields _ parts => simp only [arranged, Value.shown, shownFields_eq fields parts]
  | @«module» _ _ fields fields' _ named =>
    have each (fields : List (String × Nat)) : fields.map (·.1 ++ "=...") =
        (fields.map (·.1)).map (· ++ "=...") := by simp
    simp only [arranged, Value.shown]
    rw [each, sorted_names named, ← each]
  | closure _ count => simp only [arranged, Value.shown, count]
  | _ => rfl

end Rearranged

end Value

/-- The same mistake, up to the order of names where it quotes a value. -/
inductive ErrorKind.Rearranged : ErrorKind → ErrorKind → Prop
  | same (kind : ErrorKind) : Rearranged kind kind
  | wrongType (expected : String) {value value' : Value} (found : value.Rearranged value') :
      Rearranged (.wrongType expected value.shown) (.wrongType expected value'.shown)
  | userError {value value' : Value} (message : value.Rearranged value') :
      Rearranged (.userError value.shown) (.userError value'.shown)

/-- Faults that differ in the places, and in the order of names where they quote a value. -/
inductive Fault.Rearranged : Fault → Fault → Prop
  | exception {e e' : Exception} (kind : e.kind.Rearranged e'.kind) :
      Rearranged (.exception e) (.exception e')
  | outOfFuel : Rearranged .outOfFuel .outOfFuel

/-- Two results that are the same in some sense, or faults that are. -/
inductive ResultsAlike {α β : Type} (same : α → β → Prop) : Except Fault α → Except Fault β → Prop
  | ok {a : α} {b : β} (both : same a b) : ResultsAlike same (.ok a) (.ok b)
  | error {fault fault' : Fault} (both : fault.Rearranged fault') :
      ResultsAlike same (.error fault) (.error fault')

/-- Values that are shown alike, up to the order of the names in modules. -/
structure Value.ShownAlike (value value' : Value) : Prop where
  rearranged : value.Rearranged value'
  shown : value.arranged.shown = value'.arranged.shown

end ShapeLang
