import ShapeLang.Proofs.Denotation.View
import ShapeLang.Proofs.Value.Alike
import ShapeLang.Proofs.Value.Contents

/-! # Operators see outlines of denotations

Operators and builtin functions cannot tell a value from the outline of the denotation that it
stands for. What they give is plain, and stands for itself.
-/

namespace ShapeLang.Denotation

variable {m : Machine} {busy : List Task} {view : View} {heap : Heap} {w : Place} {value : Value}
  {value' : Den}

/-- A frame stands for an environment that was made at the place with the number. -/
def SameFrame (view : View) (id code : Nat) : Prop :=
  ∃ env, view.env id = some env ∧ Encodable.encode env.name = code

/-- A closure was made at the place with the number. -/
def SameOrigin (view : View) (serial code : Nat) : Prop :=
  ∃ x, view.origin serial = some x ∧ Encodable.encode x = code

theorem Reflects.sameFrame (reflects : Reflects m busy view heap) :
    Value.OneToOne (SameFrame view) := by
  rintro a a' b b' ⟨env, known, rfl⟩ ⟨env', known', rfl⟩
  constructor
  · rintro rfl
    rw [Option.some.inj (known.symm.trans known')]
  · intro same
    exact reflects.frames a b env env' known known' (Encodable.encode_injective same)

theorem Reflects.sameOrigin (reflects : Reflects m busy view heap) :
    Value.OneToOne (SameOrigin view) := by
  rintro a a' b b' ⟨x, known, rfl⟩ ⟨x', known', rfl⟩
  constructor
  · rintro rfl
    rw [Option.some.inj (known.symm.trans known')]
  · intro same
    obtain rfl := Encodable.encode_injective same
    exact reflects.origins a b x known known'

theorem outlines_eq (items : List Den) : Den.outlines items = items.map Den.outline := by
  induction items with
  | nil => rfl
  | cons item items ih => rw [Den.outlines, ih, List.map_cons]

theorem outlineFields_eq (fields : List (String × Den)) :
    Den.outlineFields fields = fields.map fun field => (field.1, field.2.outline) := by
  induction fields with
  | nil => rfl
  | cons field fields ih =>
    obtain ⟨name, value⟩ := field
    rw [Den.outlineFields, ih, List.map_cons]

theorem Means.alike (means : Means busy view w value value') :
    value.Alike Eq (SameFrame view) (SameOrigin view) value'.outline := by
  induction means with
  | bool value => exact .bool value
  | num value => exact .num value
  | text content => exact .text content
  | @list items frames _ parts =>
    have alike : (Value.list ((items.map fun item => (item.1, item.2.outline)).map (·.1))
        frames).Alike Eq (SameFrame view) (SameOrigin view)
        (.list ((items.map fun item => (item.1, item.2.outline)).map (·.2)) []) := by
      refine .list _ fun item mem => ?_
      obtain ⟨item', mem', rfl⟩ := List.mem_map.mp mem
      exact parts item' mem'
    simpa [Den.outline, outlines_eq, Function.comp_def] using alike
  | @record fields frames _ parts =>
    let outlined := fields.map fun field => (field.1, field.2.1, field.2.2.outline)
    have alike : (Value.record (outlined.map fun field => (field.1, field.2.1))
        frames).Alike Eq (SameFrame view) (SameOrigin view)
        (.record (outlined.map fun field => (field.1, field.2.2)) []) := by
      refine .record _ fun field mem => ?_
      obtain ⟨field', mem', rfl⟩ := List.mem_map.mp mem
      exact parts field' mem'
    simpa [outlined, Den.outline, outlineFields_eq, Function.comp_def] using alike
  | «module» known =>
    rw [Den.outline]
    exact .module ⟨_, known, rfl⟩ rfl
  | closure made =>
    rw [Den.outline]
    exact .closure ⟨_, made, rfl⟩ rfl
  | builtin function => exact .builtin function

theorem ofPlains_eq (items : List Value) : Den.ofPlains items = items.map Den.ofPlain := by
  induction items with
  | nil => rfl
  | cons item items ih => rw [Den.ofPlains, ih, List.map_cons]

theorem ofPlainFields_eq (fields : List (String × Value)) :
    Den.ofPlainFields fields = fields.map fun field => (field.1, Den.ofPlain field.2) := by
  induction fields with
  | nil => rfl
  | cons field fields ih =>
    obtain ⟨name, value⟩ := field
    rw [Den.ofPlainFields, ih, List.map_cons]

/-- Plain values mean the same everywhere. -/
theorem Means.of_plain (plain : value.Plain) : Means busy view w value (.ofPlain value) := by
  induction plain with
  | bool value => exact .bool value
  | num value => exact .num value
  | text content => exact .text content
  | @list items frames _ parts =>
    have means : Means busy view w
        (.list ((items.map fun item => (item, Den.ofPlain item)).map (·.1)) frames)
        (.list ((items.map fun item => (item, Den.ofPlain item)).map (·.2))) := by
      refine .list _ fun item mem => ?_
      obtain ⟨item', mem', rfl⟩ := List.mem_map.mp mem
      exact parts item' mem'
    simpa [Den.ofPlain, ofPlains_eq, Function.comp_def] using means
  | @record fields frames _ parts =>
    let doubled := fields.map fun field => (field.1, field.2, Den.ofPlain field.2)
    have means : Means busy view w
        (.record (doubled.map fun field => (field.1, field.2.1)) frames)
        (.record (doubled.map fun field => (field.1, field.2.2))) := by
      refine .record _ fun field mem => ?_
      obtain ⟨field', mem', rfl⟩ := List.mem_map.mp mem
      exact parts field' mem'
    simpa [doubled, Den.ofPlain, ofPlainFields_eq, Function.comp_def] using means
  | «module» impossible => exact impossible.elim
  | closure impossible => exact impossible.elim
  | builtin function => exact .builtin function

end ShapeLang.Denotation
