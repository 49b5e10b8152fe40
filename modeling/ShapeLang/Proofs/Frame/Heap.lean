import ShapeLang.Frame

/-! # What changes frames

Frames are added, and their slots are written. Parents, depths and numbers of slots never change,
so that whatever is found along the parents is found again later.
-/

namespace ShapeLang

namespace Heap

variable {heap before middle after : Heap} {id other slot depth : Nat}

theorem frame?_mapSlots (heap : Heap) (id other : FrameId) (f : List Slot → List Slot) :
    (heap.mapSlots id f).frame? other =
      if id = other then (heap.frame? other).map fun frame => { frame with slots := f frame.slots }
      else heap.frame? other := by
  simp only [frame?, mapSlots, Array.getElem?_modify]

theorem frame?_mapSlots_self {frame : Frame} {f : List Slot → List Slot}
    (found : heap.frame? id = some frame) :
    (heap.mapSlots id f).frame? id = some { frame with slots := f frame.slots } := by
  rw [frame?_mapSlots, if_pos rfl, found, Option.map_some]

theorem frame?_mapSlots_ne {f : List Slot → List Slot} (different : id ≠ other) :
    (heap.mapSlots id f).frame? other = heap.frame? other := by
  rw [frame?_mapSlots, if_neg different]

theorem frame?_put_self {frame : Frame} {content : Slot} (found : heap.frame? id = some frame) :
    (heap.put id slot content).frame? id =
      some { frame with slots := frame.slots.set slot content } :=
  frame?_mapSlots_self found

theorem frame?_put_ne {content : Slot} (different : id ≠ other) :
    (heap.put id slot content).frame? other = heap.frame? other :=
  frame?_mapSlots_ne different

theorem size_mapSlots (heap : Heap) (id : FrameId) (f : List Slot → List Slot) :
    (heap.mapSlots id f).frames.size = heap.frames.size := by
  simp only [mapSlots, Array.size_modify]

theorem lt_size_of_frame? {frame : Frame} (found : heap.frame? id = some frame) :
    id < heap.frames.size := by
  simp only [frame?] at found
  exact (Array.getElem?_eq_some_iff.mp found).1

theorem frame?_eq_none_iff : heap.frame? id = none ↔ heap.frames.size ≤ id := by
  simp only [frame?, Array.getElem?_eq_none_iff]

section Alloc

variable (heap : Heap) (slotCount : Nat) (parent caller : Option FrameId)
  (callSite : Option Location) (callDepth : Nat)

/-- The frame that `alloc` adds. -/
def fresh : Frame := ⟨List.replicate slotCount .empty, parent, caller, callSite, callDepth⟩

theorem frame?_alloc_self :
    (heap.alloc slotCount parent caller callSite callDepth).2.frame? heap.frames.size =
      some (fresh slotCount parent caller callSite callDepth) := by
  simp [frame?, alloc, fresh]

theorem frame?_alloc_ne (old : other ≠ heap.frames.size) :
    (heap.alloc slotCount parent caller callSite callDepth).2.frame? other = heap.frame? other := by
  simp only [frame?, alloc, Array.getElem?_push]
  rw [if_neg old]

theorem frame?_alloc_of_some {frame : Frame} (found : heap.frame? other = some frame) :
    (heap.alloc slotCount parent caller callSite callDepth).2.frame? other = some frame := by
  rw [frame?_alloc_ne heap slotCount parent caller callSite callDepth
    (Nat.ne_of_lt (lt_size_of_frame? found)), found]

theorem size_alloc :
    (heap.alloc slotCount parent caller callSite callDepth).2.frames.size =
      heap.frames.size + 1 := by
  simp only [alloc, Array.size_push]

end Alloc

/-- Every frame is still there, with the same place among the others and as many slots. -/
structure Extends (before after : Heap) : Prop where
  size_le : before.frames.size ≤ after.frames.size
  kept : ∀ id frame, before.frame? id = some frame → ∃ later, after.frame? id = some later ∧
    later.parent = frame.parent ∧ later.depth = frame.depth ∧
    later.slots.length = frame.slots.length

namespace Extends

theorem refl (heap : Heap) : Extends heap heap :=
  ⟨Nat.le_refl _, fun _ frame found => ⟨frame, found, rfl, rfl, rfl⟩⟩

theorem trans (first : Extends before middle) (second : Extends middle after) :
    Extends before after := by
  refine ⟨Nat.le_trans first.size_le second.size_le, fun id frame found => ?_⟩
  obtain ⟨between, atMiddle, parent, depth, size⟩ := first.kept id frame found
  obtain ⟨later, atEnd, parent', depth', size'⟩ := second.kept id between atMiddle
  exact ⟨later, atEnd, parent'.trans parent, depth'.trans depth, size'.trans size⟩

theorem mapSlots (heap : Heap) (id : FrameId) {f : List Slot → List Slot}
    (size : ∀ slots, (f slots).length = slots.length) : Extends heap (heap.mapSlots id f) := by
  refine ⟨Nat.le_of_eq (size_mapSlots heap id f).symm, fun other frame found => ?_⟩
  by_cases same : id = other
  · subst same
    exact ⟨_, frame?_mapSlots_self found, rfl, rfl, size _⟩
  · exact ⟨frame, (frame?_mapSlots_ne same).trans found, rfl, rfl, rfl⟩

theorem put (heap : Heap) (id : FrameId) (slot : Nat) (content : Slot) :
    Extends heap (heap.put id slot content) :=
  mapSlots heap id fun _ => List.length_set ..

theorem alloc (heap : Heap) (slotCount : Nat) (parent caller : Option FrameId)
    (callSite : Option Location) (callDepth : Nat) :
    Extends heap (heap.alloc slotCount parent caller callSite callDepth).2 := by
  refine ⟨by rw [size_alloc]; omega, fun id frame found => ?_⟩
  exact ⟨frame, frame?_alloc_of_some heap slotCount parent caller callSite callDepth found,
    rfl, rfl, rfl⟩

theorem frame? (extension : Extends before after) {frame : Frame}
    (found : before.frame? id = some frame) : ∃ later, after.frame? id = some later :=
  (extension.kept id frame found).imp fun _ kept => kept.1

end Extends

/-- The frame that is `depth` steps out is found in one step and `depth` further ones. -/
theorem ancestor?_succ {frame : Frame} (found : heap.frame? id = some frame) :
    heap.ancestor? id (depth + 1) = frame.parent.bind (heap.ancestor? · depth) := by
  rw [ancestor?, found, Option.bind_some]
  cases frame.parent <;> rfl

theorem ancestor?_succ_eq_some_iff {owner : FrameId} :
    heap.ancestor? id (depth + 1) = some owner ↔
      ∃ frame parent, heap.frame? id = some frame ∧ frame.parent = some parent ∧
        heap.ancestor? parent depth = some owner := by
  constructor
  · intro reached
    cases found : heap.frame? id with
    | none => simp [ancestor?, found] at reached
    | some frame =>
      rw [ancestor?_succ found, Option.bind_eq_some_iff] at reached
      obtain ⟨parent, atParent, reached⟩ := reached
      exact ⟨frame, parent, rfl, atParent, reached⟩
  · rintro ⟨frame, parent, found, atParent, reached⟩
    rw [ancestor?_succ found, atParent, Option.bind_some, reached]

theorem Extends.ancestor? (extension : Extends before after) {owner : FrameId}
    (reached : before.ancestor? id depth = some owner) :
    after.ancestor? id depth = some owner := by
  induction depth generalizing id with
  | zero => exact reached
  | succ depth ih =>
    obtain ⟨frame, parent, found, atParent, reached⟩ := ancestor?_succ_eq_some_iff.mp reached
    obtain ⟨later, found', parent', _⟩ := extension.kept id frame found
    exact ancestor?_succ_eq_some_iff.mpr
      ⟨later, parent, found', parent'.trans atParent, ih reached⟩

end Heap

end ShapeLang
