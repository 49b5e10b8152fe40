import ShapeLang.Shape
import ShapeLang.Proofs.Eval.Stage

/-! # Trust from one request to the next

Between requests a session relies on a trusted set of frames. The frames of the functions of a
shape are left out of it, since they are emptied before each call: no trusted frame refers to
them.
-/

namespace ShapeLang

/-- A shape function that can be called at any point, and whose frame nothing else relies on. -/
structure Heap.Serves (heap : Heap) (trust : Trust) (function : ShapeFunction) : Prop where
  paramCount : function.lambda.paramCount = 1 ∨ function.lambda.paramCount = 2
  apart : ¬ trust function.frame
  frame : ∃ frame env, heap.frame? function.frame = some frame ∧
    frame.slots.length = function.lambda.slotCount ∧ frame.parent = some env ∧ trust env ∧
    Expr.Scoped (heap.visible env) (.lambda function.lambda.location function.lambda.paramCount
      function.lambda.slotCount function.lambda.body)

/-- What was trusted before is trusted afterwards, and of the old frames no others are. -/
structure Advance (before : Heap) (trust : Trust) (after : Heap) (wider : Trust) : Prop where
  extension : before.Extends after
  included : ∀ id, trust id → wider id
  new : ∀ id, wider id → trust id ∨ before.frames.size ≤ id
  sound : after.Sound wider
  visible : ∀ id depth slot, trust id → before.visible id depth slot → after.visible id depth slot

namespace Advance

variable {before middle after : Heap} {trust between wider : Trust}

theorem refl (sound : before.Sound trust) : Advance before trust before trust :=
  ⟨.refl before, fun _ known => known, fun _ known => .inl known, sound, fun _ _ _ _ seen => seen⟩

theorem trans (first : Advance before trust middle between)
    (second : Advance middle between after wider) : Advance before trust after wider := by
  refine ⟨first.extension.trans second.extension,
    fun id known => second.included id (first.included id known), fun id known => ?_, second.sound,
    fun id depth slot known seen => second.visible id depth slot (first.included id known)
      (first.visible id depth slot known seen)⟩
  rcases second.new id known with known | late
  · exact first.new id known
  · exact .inr (Nat.le_trans first.extension.size_le late)

theorem of_grows (grows : before.Grows after) (included : ∀ id, trust id → wider id)
    (new : ∀ id, wider id → trust id ∨ before.frames.size ≤ id) (sound : after.Sound wider) :
    Advance before trust after wider :=
  ⟨grows.extension, included, new, sound, fun _ depth slot _ => grows.visible depth slot⟩

/-- Evaluation in trusted frames. -/
theorem of_stage {owners : List FrameId} {entry values : List Value}
    (stage : Eval.Stage before owners entry after values) (sound : before.Sound trust)
    (inside : ∀ id ∈ owners, trust id) (trusted : ∀ value ∈ entry, before.Trusts trust value) :
    ∃ wider, Advance before trust after wider ∧ ∀ value ∈ values, after.Trusts wider value := by
  obtain ⟨wider, included, new, sound', rest⟩ := stage.sound trust sound
  exact ⟨wider, .of_grows stage.grows included new sound', (rest inside trusted).2⟩

/-- Evaluation in frames that need not be trusted. -/
theorem of_stage_apart {owners : List FrameId} {entry values : List Value}
    (stage : Eval.Stage before owners entry after values) (sound : before.Sound trust) :
    ∃ wider, Advance before trust after wider := by
  obtain ⟨wider, included, new, sound', -⟩ := stage.sound trust sound
  exact ⟨wider, .of_grows stage.grows included new sound'⟩

private theorem trusts_of_visible {value : Value} (trusted : before.Trusts trust value)
    (included : ∀ id, trust id → wider id)
    (visible : ∀ id depth slot, trust id → before.visible id depth slot →
      after.visible id depth slot) : after.Trusts wider value :=
  Value.Holds.mono trusted
    (fun _ env known => ⟨included env known.1,
      known.2.mono fun depth slot => visible env depth slot known.1⟩)
    fun frame _ known => ⟨included frame known.1, fun field mem =>
      visible frame 0 field.2 known.1 (known.2 field mem)⟩

/-- Nothing happened to the trusted frames. -/
theorem of_agree (extension : before.Extends after) (sound : before.Sound trust)
    (agree : ∀ id, trust id → after.frame? id = before.frame? id) :
    Advance before trust after trust := by
  have filled {id slot : Nat} (known : trust id) (seen : before.Filled id slot) :
      after.Filled id slot := by
    obtain ⟨frame, content, found, rest⟩ := seen
    exact ⟨frame, content, (agree id known).trans found, rest⟩
  have visible (id depth slot : Nat) (known : trust id) (seen : before.visible id depth slot) :
      after.visible id depth slot := by
    obtain ⟨owner, reached, full⟩ := seen
    exact ⟨owner, extension.ancestor? reached, filled (sound.ancestor known reached) full⟩
  refine ⟨extension, fun _ known => known, fun _ known => .inl known, ?_, visible⟩
  refine ⟨fun id known => ?_, fun id frame parent known found => ?_,
    fun id frame slot content known found holds => ?_⟩
  · rw [agree id known]
    exact sound.found id known
  · exact sound.parent id frame parent known (agree id known ▸ found)
  · rw [agree id known] at found
    have fitting := sound.fitting id frame slot content known found holds
    cases content with
    | empty => trivial
    | busy => trivial
    | pending expr =>
      obtain ⟨sees, other, found', room⟩ := fitting
      exact ⟨sees.mono fun depth slot => visible id depth slot known, other,
        (agree id known).trans found', room⟩
    | ready value =>
      exact trusts_of_visible fitting (fun _ known => known) visible

theorem trusts (advance : Advance before trust after wider) {value : Value}
    (trusted : before.Trusts trust value) : after.Trusts wider value :=
  trusts_of_visible trusted advance.included advance.visible

theorem fits (advance : Advance before trust after wider) {id : FrameId} {expr : Expr}
    (known : trust id) (fits : before.Fits id expr) : after.Fits id expr := by
  obtain ⟨sees, frame, found, room⟩ := fits
  obtain ⟨later, found', -, -, size⟩ := advance.extension.kept id frame found
  exact ⟨sees.mono fun depth slot => advance.visible id depth slot known, later, found',
    size ▸ room⟩

theorem serves (advance : Advance before trust after wider) {function : ShapeFunction}
    (serves : before.Serves trust function) : after.Serves wider function := by
  obtain ⟨frame, env, found, size, atParent, known, sees⟩ := serves.frame
  obtain ⟨later, found', parent, -, size'⟩ := advance.extension.kept _ frame found
  refine ⟨serves.paramCount, fun inside => ?_, later, env, found', size'.trans size,
    parent.trans atParent, advance.included env known,
    sees.mono fun depth slot => advance.visible env depth slot known⟩
  rcases advance.new _ inside with inside | late
  · exact serves.apart inside
  · exact absurd (Heap.lt_size_of_frame? found) (Nat.not_lt.mpr late)

end Advance

end ShapeLang
