import Mathlib.Algebra.BigOperators.Group.List.Basic
import Mathlib.Data.Multiset.DershowitzManna
import Mathlib.Data.Prod.Lex
import Mathlib.Order.WellFounded
import ShapeLang.Eval
import ShapeLang.Proofs.Frame.Heap

/-! # Work that is left

A task is an expression that is still to be evaluated, measured by the calls that can still be made
from its frame and then by its size. Evaluating an expression replaces its task by finitely many
smaller ones: its parts have the same frame, the bodies of the functions that it calls lie deeper,
and a definition that it forces is a task of its own, which every pending slot stands for. So the
multiset of all tasks gets smaller, whatever frame a definition takes evaluation back to.
-/

namespace ShapeLang

open Multiset

/-- Calls that are left, and the size of the expression. -/
abbrev Task := ℕ ×ₗ ℕ

namespace Task

/-- The first multiset arises from the second one by replacing tasks by smaller ones, if at all. -/
def AtMost (less more : Multiset Task) : Prop := less = more ∨ IsDershowitzMannaLT less more

variable {base less middle more rest : Multiset Task} {task bound : Task}

theorem dershowitzMannaLT_add_right (smaller : IsDershowitzMannaLT less more) :
    IsDershowitzMannaLT (less + rest) (more + rest) := by
  obtain ⟨kept, added, removed, nonempty, rfl, rfl, below⟩ := smaller
  exact ⟨kept + rest, added, removed, nonempty, add_right_comm .., add_right_comm .., below⟩

theorem dershowitzMannaLT_of_below (below : ∀ t ∈ rest, t < bound) :
    IsDershowitzMannaLT (base + rest) (base + {bound}) :=
  ⟨base, rest, {bound}, by simp, rfl, rfl, fun t mem => ⟨bound, by simp, below t mem⟩⟩

namespace AtMost

theorem refl (tasks : Multiset Task) : AtMost tasks tasks := .inl rfl

theorem of_le (included : less ≤ more) : AtMost less more := by
  obtain ⟨rest, rfl⟩ := Multiset.le_iff_exists_add.mp included
  by_cases empty : rest = 0
  · exact .inl (by rw [empty, add_zero])
  · exact .inr ⟨less, 0, rest, empty, (add_zero less).symm, rfl, by simp⟩

theorem trans (first : AtMost less middle) (second : AtMost middle more) : AtMost less more := by
  rcases first with rfl | first
  · exact second
  · rcases second with rfl | second
    · exact .inr first
    · exact .inr (first.trans second)

theorem add_right (smaller : AtMost less more) (rest : Multiset Task) :
    AtMost (less + rest) (more + rest) := by
  rcases smaller with rfl | smaller
  · exact refl _
  · exact .inr (dershowitzMannaLT_add_right smaller)

theorem trans_lt (first : AtMost less middle) (second : IsDershowitzMannaLT middle more) :
    IsDershowitzMannaLT less more := by
  rcases first with rfl | first
  · exact second
  · exact first.trans second

end AtMost

/-- What is left of the tasks `base` when only tasks below `bound` were added and done since. -/
def Left (base : Multiset Task) (bound : Task) (tasks : Multiset Task) : Prop :=
  ∃ added, (∀ t ∈ added, t < bound) ∧ AtMost tasks (base + added)

namespace Left

theorem refl (base : Multiset Task) (bound : Task) : Left base bound base :=
  ⟨0, by simp, .inl (add_zero base).symm⟩

/-- Adding tasks below the bound, or doing some. -/
theorem next (left : Left base bound middle) (rest : Multiset Task) (below : ∀ t ∈ rest, t < bound)
    (smaller : AtMost less (middle + rest)) : Left base bound less := by
  obtain ⟨added, addedBelow, atMost⟩ := left
  refine ⟨added + rest, fun t mem => ?_, ?_⟩
  · exact (Multiset.mem_add.mp mem).elim (addedBelow t) (below t)
  · rw [← add_assoc]
    exact smaller.trans (atMost.add_right rest)

theorem of_atMost (left : Left base bound middle) (smaller : AtMost less middle) :
    Left base bound less :=
  left.next 0 (by simp) (by rwa [add_zero])

/-- One more task below the bound is still less than the bound itself. -/
theorem add_lt (left : Left base bound middle) (below : task < bound) :
    IsDershowitzMannaLT (middle + {task}) (base + {bound}) := by
  obtain ⟨added, addedBelow, atMost⟩ := left
  refine (atMost.add_right {task}).trans_lt ?_
  rw [add_assoc]
  refine dershowitzMannaLT_of_below fun t mem => ?_
  rcases Multiset.mem_add.mp mem with mem | mem
  · exact addedBelow t mem
  · exact Multiset.mem_singleton.mp mem ▸ below

theorem lt (left : Left base bound middle) : IsDershowitzMannaLT middle (base + {bound}) := by
  obtain ⟨added, addedBelow, atMost⟩ := left
  exact atMost.trans_lt (dershowitzMannaLT_of_below addedBelow)

end Left

end Task

/-- Replacing one summand. -/
theorem sum_set_add {M : Type*} [AddCommMonoid M] {xs : List M} {i : ℕ} {x : M} (y : M)
    (found : xs[i]? = some x) : (xs.set i y).sum + x = xs.sum + y := by
  induction xs generalizing i with
  | nil => simp at found
  | cons head tail ih =>
    cases i with
    | zero =>
      obtain rfl : head = x := by simpa using found
      simp only [List.set_cons_zero, List.sum_cons]
      rw [add_comm, ← add_assoc, add_right_comm]
    | succ i =>
      simp only [List.set_cons_succ, List.sum_cons, add_assoc]
      rw [ih (by simpa using found)]

namespace Heap

/-- The depth of a frame; zero if there is no such frame. -/
def depthOf (heap : Heap) (id : FrameId) : ℕ := ((heap.frame? id).map (·.depth)).getD 0

variable (m : Machine) {heap after : Heap} {id : FrameId}

theorem Extends.depthOf_le (extension : heap.Extends after) (id : FrameId) :
    heap.depthOf id ≤ after.depthOf id := by
  unfold depthOf
  cases found : heap.frame? id with
  | none => simp
  | some frame =>
    obtain ⟨later, found', -, depth, -⟩ := extension.kept id frame found
    simp [found', depth]

/-- The task of evaluating an expression in a frame. -/
noncomputable def task (heap : Heap) (id : FrameId) (expr : Expr) : Task :=
  toLex (m.maxCallDepth - heap.depthOf id, sizeOf expr)

theorem Extends.task_lt (extension : heap.Extends after) {part expr : Expr}
    (smaller : sizeOf part < sizeOf expr) : after.task m id part < heap.task m id expr := by
  have depth := extension.depthOf_le id
  rw [task, task, Prod.Lex.toLex_lt_toLex]
  by_cases same : m.maxCallDepth - after.depthOf id = m.maxCallDepth - heap.depthOf id
  · exact .inr ⟨same, smaller⟩
  · exact .inl (by dsimp only; omega)

theorem depthOf_put {other : FrameId} {slot : ℕ} {content : Slot} :
    (heap.put id slot content).depthOf other = heap.depthOf other := by
  by_cases same : id = other
  · subst same
    cases found : heap.frame? id with
    | none =>
      simp [depthOf, put, frame?_mapSlots, found]
    | some frame => simp [depthOf, frame?_put_self found, found]
  · simp [depthOf, frame?_put_ne same]

theorem task_put {other : FrameId} {slot : ℕ} {content : Slot} {expr : Expr} :
    (heap.put id slot content).task m other expr = heap.task m other expr := by
  rw [task, depthOf_put, task]

/-- The task that a slot stands for. -/
noncomputable def slotWork (callDepth : ℕ) : Slot → Multiset Task
  | .pending definition => {toLex (m.maxCallDepth - callDepth, sizeOf definition)}
  | _ => 0

noncomputable def frameWork (frame : Frame) : Multiset Task :=
  (frame.slots.map (slotWork m frame.depth)).sum

/-- The tasks of all pending slots. -/
noncomputable def work (heap : Heap) : Multiset Task := (heap.frames.toList.map (frameWork m)).sum

theorem frameWork_set {frame : Frame} {slot : ℕ} {old : Slot} (content : Slot)
    (holds : frame.slots[slot]? = some old) :
    frameWork m { frame with slots := frame.slots.set slot content } + slotWork m frame.depth old =
      frameWork m frame + slotWork m frame.depth content := by
  simp only [frameWork, List.map_set]
  exact sum_set_add _ (by simp [holds])

theorem work_mapSlots {frame : Frame} {f : List Slot → List Slot}
    (found : heap.frame? id = some frame) :
    (heap.mapSlots id f).work m + frameWork m frame =
      heap.work m + frameWork m { frame with slots := f frame.slots } := by
  have listed : heap.frames.toList[id]? = some frame := by
    simpa [frame?] using found
  have set : (heap.mapSlots id f).frames.toList =
      heap.frames.toList.set id { frame with slots := f frame.slots } := by
    simp only [mapSlots, Array.toList_modify]
    apply List.ext_getElem?
    intro j
    rw [List.getElem?_modify, List.getElem?_set]
    by_cases same : id = j
    · subst same
      rw [if_pos rfl, if_pos (List.getElem?_eq_some_iff.mp listed).1, listed]
      simp
    · simp [same]
  simp only [work, set, List.map_set]
  exact sum_set_add _ (by simp [listed])

theorem work_put {frame : Frame} {slot : ℕ} {old : Slot} (content : Slot)
    (found : heap.frame? id = some frame) (holds : frame.slots[slot]? = some old) :
    (heap.put id slot content).work m + slotWork m frame.depth old =
      heap.work m + slotWork m frame.depth content := by
  have whole := work_mapSlots m (f := (·.set slot content)) found
  have part := frameWork_set m content holds
  have joined : (heap.put id slot content).work m + slotWork m frame.depth old + frameWork m frame =
      heap.work m + slotWork m frame.depth content + frameWork m frame := by
    rw [add_right_comm, put, whole, add_assoc, part]
    rw [← add_assoc, add_right_comm]
  exact add_right_cancel joined

/-- Writing into a slot adds at most the task that is written. -/
theorem work_put_le (heap : Heap) (id : FrameId) (slot : ℕ) (content : Slot) :
    (heap.put id slot content).work m ≤
      heap.work m + slotWork m (heap.depthOf id) content := by
  cases found : heap.frame? id with
  | none =>
    have same : heap.put id slot content = heap := by
      have outside := frame?_eq_none_iff.mp found
      simp only [put, mapSlots]
      congr 1
      apply Array.ext_getElem?
      intro j
      rw [Array.getElem?_modify]
      split
      · rename_i eq
        subst eq
        simp [Array.getElem?_eq_none outside]
      · rfl
    rw [same]
    exact Multiset.le_add_right _ _
  | some frame =>
    have depth : heap.depthOf id = frame.depth := by simp [depthOf, found]
    rw [depth]
    by_cases inside : slot < frame.slots.length
    · rw [← work_put m content found (List.getElem?_eq_getElem inside)]
      exact Multiset.le_add_right _ _
    · have same := work_mapSlots m (f := (·.set slot content)) found
      rw [show (frame.slots.set slot content) = frame.slots from
        List.set_eq_of_length_le (Nat.le_of_not_lt inside)] at same
      rw [put, add_right_cancel same]
      exact Multiset.le_add_right _ _

theorem work_alloc (slotCount : ℕ) (parent caller : Option FrameId) (callSite : Option Location)
    (callDepth : ℕ) :
    (heap.alloc slotCount parent caller callSite callDepth).2.work m = heap.work m := by
  simp [work, alloc, frameWork, slotWork]

end Heap

end ShapeLang
