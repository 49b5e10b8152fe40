import ShapeLang.Proofs.Lexical.Placement

/-! # Operators see outlines

Operators and builtin functions cannot tell a value of an expression from the outline of the value
of a phrase that corresponds to it. What they give is plain, and corresponds to itself.
-/

namespace ShapeLang.Lexical

variable {names : Namespace} {base : Nat} {placement : Placement} {heap : Heap} {store : Store}
  {value : ShapeLang.Value} {value' : Value}

/-- A module lies in the frame that its scope opened. -/
def SameModule (placement : Placement) (id scope : Nat) : Prop :=
  ∃ slots, placement[scope]? = some (id, ⟨slots, true⟩)

theorem Mirrors.oneToOne (mirrors : Mirrors names base placement heap store) :
    ShapeLang.Value.OneToOne (SameModule placement) := by
  rintro a a' b b' ⟨slots, placed⟩ ⟨slots', placed'⟩
  constructor
  · rintro rfl
    by_contra different
    have shares := (mirrors.apart a' b' a _ _ placed placed' different).2 rfl
    cases shares
  · rintro rfl
    exact congrArg Prod.fst (Option.some.inj (placed.symm.trans placed'))

private theorem outlines_eq (items : List Value) :
    Value.outlines items = items.map Value.outline := by
  induction items with
  | nil => rfl
  | cons item items ih => rw [Value.outlines, ih, List.map_cons]

private theorem outlineFields_eq (fields : List (String × Value)) :
    Value.outlineFields fields = fields.map fun field => (field.1, field.2.outline) := by
  induction fields with
  | nil => rfl
  | cons field fields ih =>
    obtain ⟨name, value⟩ := field
    rw [Value.outlineFields, ih, List.map_cons]

theorem Corresponds.alike (same : Corresponds names base placement heap value value') :
    value.Alike Eq (SameModule placement) Eq value'.outline := by
  induction same with
  | bool value => exact .bool value
  | num value => exact .num value
  | text content => exact .text content
  | @list items frames _ parts =>
    have alike : (ShapeLang.Value.list
        ((items.map fun item => (item.1, item.2.outline)).map (·.1)) frames).Alike Eq
        (SameModule placement) Eq
        (.list ((items.map fun item => (item.1, item.2.outline)).map (·.2)) []) := by
      refine .list _ fun item mem => ?_
      obtain ⟨item', mem', rfl⟩ := List.mem_map.mp mem
      exact parts item' mem'
    simpa [Value.outline, outlines_eq, Function.comp_def] using alike
  | @record fields frames _ parts =>
    let outlined := fields.map fun field => (field.1, field.2.1, field.2.2.outline)
    have alike : (ShapeLang.Value.record
        (outlined.map fun field => (field.1, field.2.1)) frames).Alike Eq (SameModule placement) Eq
        (.record (outlined.map fun field => (field.1, field.2.2)) []) := by
      refine .record _ fun field mem => ?_
      obtain ⟨field', mem', rfl⟩ := List.mem_map.mp mem
      exact parts field' mem'
    simpa [outlined, Value.outline, outlineFields_eq, Function.comp_def] using alike
  | @«module» id scope slots placed =>
    rw [Value.outline]
    exact .module ⟨slots, placed⟩ (by simp [Function.comp_def])
  | closure count => exact .closure rfl count
  | builtin function => exact .builtin function

private theorem ofPlains_eq (items : List ShapeLang.Value) :
    Value.ofPlains items = items.map Value.ofPlain := by
  induction items with
  | nil => rfl
  | cons item items ih => rw [Value.ofPlains, ih, List.map_cons]

private theorem ofPlainFields_eq (fields : List (String × ShapeLang.Value)) :
    Value.ofPlainFields fields = fields.map fun field => (field.1, Value.ofPlain field.2) := by
  induction fields with
  | nil => rfl
  | cons field fields ih =>
    obtain ⟨name, value⟩ := field
    rw [Value.ofPlainFields, ih, List.map_cons]

/-- Plain values mean the same everywhere. -/
theorem Corresponds.of_plain (plain : value.Plain) :
    Corresponds names base placement heap value (.ofPlain value) := by
  induction plain with
  | bool value => exact .bool value
  | num value => exact .num value
  | text content => exact .text content
  | @list items frames _ parts =>
    have same : Corresponds names base placement heap
        (.list ((items.map fun item => (item, Value.ofPlain item)).map (·.1)) frames)
        (.list ((items.map fun item => (item, Value.ofPlain item)).map (·.2))) := by
      refine .list _ fun item mem => ?_
      obtain ⟨item', mem', rfl⟩ := List.mem_map.mp mem
      exact parts item' mem'
    simpa [Value.ofPlain, ofPlains_eq, Function.comp_def] using same
  | @record fields frames _ parts =>
    let doubled := fields.map fun field => (field.1, field.2, Value.ofPlain field.2)
    have same : Corresponds names base placement heap
        (.record (doubled.map fun field => (field.1, field.2.1)) frames)
        (.record (doubled.map fun field => (field.1, field.2.2))) := by
      refine .record _ fun field mem => ?_
      obtain ⟨field', mem', rfl⟩ := List.mem_map.mp mem
      exact parts field' mem'
    simpa [doubled, Value.ofPlain, ofPlainFields_eq, Function.comp_def] using same
  | «module» impossible => exact impossible.elim
  | closure impossible => exact impossible.elim
  | builtin function => exact .builtin function

end ShapeLang.Lexical
