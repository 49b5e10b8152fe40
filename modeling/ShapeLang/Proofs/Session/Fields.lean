import ShapeLang.Proofs.Session.Careful

/-! # What makes a value a shape

A value is a shape if all five fields that matter can be read and each of them fits. Recognition
reads them one after the other and stops at the first that does not fit, so that a value whose
later fields cannot even be read is told from a value that is no shape by the same answer. What it
answers is compared here with a reading of all fields.
-/

namespace ShapeLang

namespace Value

/-- A value with named fields. -/
def HasFields (value : Value) : Prop :=
  (∃ fields frames, value = .record fields frames) ∨ ∃ frame fields, value = .module frame fields

/-- A function of a point and a time, which come as one argument or as two. -/
def IsPointFunction (value : Value) : Prop :=
  ∃ serial lambda env, value = .closure serial lambda env ∧
    (lambda.paramCount = 1 ∨ lambda.paramCount = 2)

def IsBool (value : Value) : Prop :=
  ∃ b, value = .bool b

/-- Two corners with equally many coordinates, two or three. -/
def IsBox (value : Value) : Prop :=
  ∃ least greatest frames xs ys, value = .list [least, greatest] frames ∧
    least.numbers? = some xs ∧ greatest.numbers? = some ys ∧ xs.length = ys.length ∧
    (xs.length = 2 ∨ xs.length = 3)

end Value

namespace Shape

/-- What is in the fields that say whether a value is a shape. -/
structure Fields where
  dist : Option Value
  colour : Option Value
  flat : Option Value
  solid : Option Value
  box : Option Value

/-- The fields of a shape: both functions are there, and the others are left out or fit. -/
structure Fields.Fit (fields : Fields) : Prop where
  dist : ∃ value ∈ fields.dist, value.IsPointFunction
  colour : ∃ value ∈ fields.colour, value.IsPointFunction
  flat : ∀ value ∈ fields.flat, value.IsBool
  solid : ∀ value ∈ fields.solid, value.IsBool
  box : ∀ value ∈ fields.box, value.IsBox

/-- Reads all fields of a value that say whether it is a shape. -/
def readFields (evaluate : Evaluator) (held : List Held) (context : Context) (value : Value) :
    Eval Fields := do
  let read (name : String) : Eval (Option Value) :=
    Eval.field? evaluate (.value value :: held) value name context
  return ⟨← read "dist", ← read "colour", ← read "is_2d_shape", ← read "is_3d_shape",
    ← read "bbox"⟩

/-- A value describes a shape: it has fields, all of them can be read, and they fit. -/
structure Describes (evaluate : Evaluator) (held : List Held) (context : Context) (value : Value)
    (heap : Heap) (fields : Fields) (later : Heap) : Prop where
  kind : value.HasFields
  read : readFields evaluate held context value heap = (.ok fields, later)
  fit : fields.Fit

end Shape

/-- The function was made of a closure: it has its code, and a new frame of its own inside the
captured one. -/
structure ShapeFunction.Captures (function : ShapeFunction) (found : Option Value)
    (before after : Heap) : Prop where
  new : before.frame? function.frame = none
  code : ∃ serial env frame, found = some (.closure serial function.lambda env) ∧
    after.frame? function.frame = some frame ∧ frame.parent = some env ∧
    frame.slots.length = function.lambda.slotCount

/-- The shape is what the fields of a value describe. -/
structure Shape.MadeOf (shape : Shape) (fields : Fields) (before after : Heap) : Prop where
  dist : shape.dist.Captures fields.dist before after
  colour : shape.colour.Captures fields.colour before after
  apart : shape.dist.frame ≠ shape.colour.frame
  flat : shape.is2d = true ↔ fields.flat = some (.bool true)
  solid : shape.is3d = true ↔ fields.solid = some (.bool true) ∨ shape.is2d = false
  space : fields.box = none → shape.bounds = if shape.is3d then .infinite3 else .infinite2
  box : ∀ value ∈ fields.box, BoundingBox.ofValue? value = some shape.bounds

/-- A shape has two dimensions or three. -/
theorem Shape.MadeOf.dimension {shape : Shape} {fields : Fields} {before after : Heap}
    (made : shape.MadeOf fields before after) : shape.is2d = true ∨ shape.is3d = true := by
  cases flat : shape.is2d with
  | true => exact .inl rfl
  | false => exact .inr (made.solid.mpr (.inr flat))

namespace Shape

theorem bind_closure?_eq_some_iff {found : Option Value} {lambda : Lambda} {env : FrameId} :
    found.bind closure? = some (lambda, env) ↔
      (lambda.paramCount = 1 ∨ lambda.paramCount = 2) ∧
        ∃ serial, found = some (.closure serial lambda env) := by
  constructor
  · intro taken
    obtain ⟨value, rfl, same⟩ := Option.bind_eq_some_iff.mp taken
    clear taken
    cases value with
    | closure serial code frame =>
      simp only [closure?] at same
      split at same
      · rename_i count
        obtain ⟨rfl, rfl⟩ := Prod.mk.inj (Option.some.inj same)
        exact ⟨count, serial, rfl⟩
      · cases same
    | _ => cases same
  · rintro ⟨count, serial, rfl⟩
    simp [closure?, count]

theorem isSome_bind_closure?_iff {found : Option Value} :
    (found.bind closure?).isSome ↔ ∃ value ∈ found, value.IsPointFunction := by
  constructor
  · intro taken
    obtain ⟨⟨lambda, env⟩, same⟩ := Option.isSome_iff_exists.mp taken
    obtain ⟨count, serial, rfl⟩ := bind_closure?_eq_some_iff.mp same
    exact ⟨_, rfl, serial, lambda, env, rfl, count⟩
  · rintro ⟨_, mem, serial, lambda, env, rfl, count⟩
    exact Option.isSome_of_eq_some (bind_closure?_eq_some_iff.mpr ⟨count, serial, mem⟩)

theorem isSome_flag?_iff {found : Option Value} :
    (flag? found).isSome ↔ ∀ value ∈ found, value.IsBool := by
  rcases found with _ | (_ | _) <;> simp [flag?, Value.IsBool]

/-- A flag is set where a field says so. -/
theorem flag?_eq_some {found : Option Value} {b : Bool} (taken : flag? found = some b) :
    b = true ↔ found = some (.bool true) := by
  rcases found with _ | (_ | _) <;> simp_all [flag?, eq_comm]

end Shape

/-- Exactly the boxes are taken as boxes. -/
theorem BoundingBox.isSome_ofValue?_iff {value : Value} :
    (BoundingBox.ofValue? value).isSome ↔ value.IsBox := by
  constructor
  · intro taken
    unfold BoundingBox.ofValue? at taken
    split at taken
    · rename_i least greatest frames
      cases first : least.numbers? with
      | none => simp [first] at taken
      | some xs =>
        cases second : greatest.numbers? with
        | none => simp [first, second] at taken
        | some ys =>
          refine ⟨least, greatest, frames, xs, ys, rfl, first, second, ?_⟩
          simp only [first, second, Option.bind_eq_bind, Option.bind_some] at taken
          split at taken
          · exact ⟨rfl, .inl rfl⟩
          · exact ⟨rfl, .inr rfl⟩
          · cases taken
    · cases taken
  · rintro ⟨least, greatest, frames, xs, ys, rfl, first, second, same, size⟩
    rcases size with size | size
    · obtain ⟨x, y, rfl⟩ := List.length_eq_two.mp size
      obtain ⟨x', y', rfl⟩ := List.length_eq_two.mp (same.symm.trans size)
      simp [BoundingBox.ofValue?, first, second]
    · obtain ⟨x, y, z, rfl⟩ := List.length_eq_three.mp size
      obtain ⟨x', y', z', rfl⟩ := List.length_eq_three.mp (same.symm.trans size)
      simp [BoundingBox.ofValue?, first, second]

namespace Shape

theorem bounds?_eq_some {is3d : Bool} {found : Option Value} {box : BoundingBox}
    (taken : bounds? is3d found = some box) :
    (found = none → box = if is3d then .infinite3 else .infinite2) ∧
      ∀ value ∈ found, BoundingBox.ofValue? value = some box := by
  cases found with
  | none =>
    constructor
    · intro _
      exact (Option.some.inj taken).symm
    · simp
  | some value =>
    constructor
    · simp
    · intro other same
      obtain rfl := Option.some.inj same
      exact taken

theorem isSome_bounds?_iff {is3d : Bool} {found : Option Value} :
    (bounds? is3d found).isSome ↔ ∀ value ∈ found, value.IsBox := by
  cases found with
  | none => simp [bounds?]
  | some value => simpa [bounds?] using BoundingBox.isSome_ofValue?_iff

section Reading

variable {evaluate : Evaluator} {held : List Held} {context : Context} {value : Value}
  {heap after : Heap} {fields : Fields}

/-- The fields are read one after the other, each in the frames that the one before has left. -/
inductive Readings (evaluate : Evaluator) (held : List Held) (context : Context) (value : Value)
    (heap : Heap) (fields : Fields) (after : Heap) : Prop
  | intro {heap₁ heap₂ heap₃ heap₄ : Heap}
    (dist : Eval.field? evaluate (.value value :: held) value "dist" context heap =
      (.ok fields.dist, heap₁))
    (colour : Eval.field? evaluate (.value value :: held) value "colour" context heap₁ =
      (.ok fields.colour, heap₂))
    (flat : Eval.field? evaluate (.value value :: held) value "is_2d_shape" context heap₂ =
      (.ok fields.flat, heap₃))
    (solid : Eval.field? evaluate (.value value :: held) value "is_3d_shape" context heap₃ =
      (.ok fields.solid, heap₄))
    (box : Eval.field? evaluate (.value value :: held) value "bbox" context heap₄ =
      (.ok fields.box, after))

theorem readings_of_readFields
    (ran : readFields evaluate held context value heap = (.ok fields, after)) :
    Readings evaluate held context value heap fields after := by
  have reads : Ends (readFields evaluate held context value) heap
      (Readings evaluate held context value heap) fun _ _ => True := ?_
  · exact reads.returned ran
  refine Ends.through _ (.ran fun _ _ _ => trivial) fun dist heap₁ ran₁ => ?_
  refine Ends.through _ (.ran fun _ _ _ => trivial) fun colour heap₂ ran₂ => ?_
  refine Ends.through _ (.ran fun _ _ _ => trivial) fun flat heap₃ ran₃ => ?_
  refine Ends.through _ (.ran fun _ _ _ => trivial) fun solid heap₄ ran₄ => ?_
  refine Ends.through _ (.ran fun _ _ _ => trivial) fun box heap₅ ran₅ => ?_
  exact .pure (.intro ran₁ ran₂ ran₃ ran₄ ran₅)

/-- Only records and modules have a field to read. -/
theorem hasFields_of_field? {name : String} {found : Value}
    (ran : Eval.field? evaluate held value name context heap = (.ok (some found), after)) :
    value.HasFields := by
  cases value with
  | record fields frames => exact .inl ⟨fields, frames, rfl⟩
  | module frame fields => exact .inr ⟨frame, fields, rfl⟩
  | _ => cases ran

end Reading

end Shape

end ShapeLang
