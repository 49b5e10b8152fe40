import Mathlib.Data.Finset.Card
import ShapeLang.Proofs.Eval.Literals
import ShapeLang.Proofs.Eval.Work
import ShapeLang.Proofs.Shader.Operations

/-! # Work that is left for compilation

A function literal is not inlined inside itself. So each symbolic frame has a rank: the number of
literals that were not being inlined when it was made. The frames around it have at least its rank,
and the frame of a function that is called from it has less. A task is an expression that is still to
be compiled, measured by the rank of its frame and by its size; compiling it replaces its task by
smaller ones, as for evaluation.
-/

namespace ShapeLang

namespace Shader

open Multiset

section Literals

variable {known : Finset Location} {inlining : List Location} {place : Location}

/-- How many literals are not being inlined. -/
def outside (known : Finset Location) (inlining : List Location) : ℕ :=
  (known.filter (· ∉ inlining)).card

theorem outside_cons (mem : place ∈ known) (apart : place ∉ inlining) :
    outside known (place :: inlining) < outside known inlining := by
  apply Finset.card_lt_card
  rw [Finset.ssubset_iff_of_subset]
  · exact ⟨place, by simp [mem, apart], by simp⟩
  · intro other inside
    simp only [Finset.mem_filter, List.mem_cons, not_or] at inside ⊢
    exact ⟨inside.1, inside.2.2⟩

end Literals

/-- For each symbolic frame a rank. -/
abbrev Ranks := ℕ → ℕ

/-- The task that a slot stands for. -/
noncomputable def SymbolicSlot.work (rank : ℕ) : SymbolicSlot → Multiset Task
  | .pending definition => {toLex (rank, sizeOf definition)}
  | _ => 0

noncomputable def SymbolicFrame.work (rank : ℕ) (frame : SymbolicFrame) : Multiset Task :=
  (frame.slots.map (SymbolicSlot.work rank)).sum

theorem SymbolicFrame.work_set {rank slot : ℕ} {frame : SymbolicFrame} {old : SymbolicSlot}
    (content : SymbolicSlot) (holds : frame.slots[slot]? = some old) :
    SymbolicFrame.work rank { frame with slots := frame.slots.set slot content } + old.work rank =
      frame.work rank + content.work rank := by
  simp only [SymbolicFrame.work, List.map_set]
  exact sum_set_add _ (by simp [holds])

namespace Compiler

/-- The tasks of all pending slots. -/
noncomputable def work (ranks : Ranks) (compiler : Compiler) : Multiset Task :=
  (compiler.frames.toList.mapIdx fun id frame => frame.work (ranks id)).sum

variable {ranks : Ranks} {compiler : Compiler} {id slot : ℕ} {frame : SymbolicFrame}

theorem frames_put (found : compiler.frames[id]? = some frame) (content : SymbolicSlot) :
    (compiler.put id slot content).frames.toList =
      compiler.frames.toList.set id { frame with slots := frame.slots.set slot content } := by
  simp only [put, Array.toList_modify]
  apply List.ext_getElem?
  intro j
  have listed : compiler.frames.toList[id]? = some frame := by simpa using found
  rw [List.getElem?_modify, List.getElem?_set]
  by_cases same : id = j
  · subst same
    rw [if_pos rfl, if_pos (List.getElem?_eq_some_iff.mp listed).1, listed]
    simp
  · simp [same]

theorem work_put {old : SymbolicSlot} (content : SymbolicSlot)
    (found : compiler.frames[id]? = some frame) (holds : frame.slots[slot]? = some old) :
    (compiler.put id slot content).work ranks + old.work (ranks id) =
      compiler.work ranks + content.work (ranks id) := by
  have listed : (compiler.frames.toList.mapIdx fun id frame => frame.work (ranks id))[id]? =
      some (frame.work (ranks id)) := by
    simp [found]
  have whole : (compiler.put id slot content).work ranks + frame.work (ranks id) =
      compiler.work ranks +
        SymbolicFrame.work (ranks id) { frame with slots := frame.slots.set slot content } := by
    rw [work, frames_put found, List.mapIdx_set]
    exact sum_set_add _ listed
  have joined : (compiler.put id slot content).work ranks + old.work (ranks id) +
      frame.work (ranks id) =
        compiler.work ranks + content.work (ranks id) + frame.work (ranks id) := by
    rw [add_right_comm, whole, add_assoc, SymbolicFrame.work_set content holds, ← add_assoc,
      add_right_comm]
  exact add_right_cancel joined

/-- Writing into a slot adds at most the task that is written. -/
theorem work_put_le (content : SymbolicSlot) :
    (compiler.put id slot content).work ranks ≤ compiler.work ranks + content.work (ranks id) := by
  have unchanged (same : (compiler.put id slot content).frames.toList = compiler.frames.toList) :
      (compiler.put id slot content).work ranks ≤
        compiler.work ranks + content.work (ranks id) := by
    rw [work, same]
    exact Multiset.le_add_right _ _
  cases found : compiler.frames[id]? with
  | none =>
    apply unchanged
    simp only [put, Array.toList_modify]
    apply List.ext_getElem?
    intro j
    rw [List.getElem?_modify]
    split
    · rename_i same
      subst same
      simp [found]
    · exact id_map _
  | some frame =>
    cases holds : frame.slots[slot]? with
    | none =>
      apply unchanged
      rw [frames_put found, List.set_eq_of_length_le (List.getElem?_eq_none_iff.mp holds)]
      apply List.ext_getElem?
      intro j
      rw [List.getElem?_set]
      split
      · rename_i same
        subst same
        split <;> simp_all
      · rfl
    | some old =>
      rw [← work_put content found holds]
      exact Multiset.le_add_right _ _

/-- A new frame has nothing to do yet, whatever its rank is. -/
theorem work_alloc {ranks' : Ranks} {slotCount : ℕ} {outer : Outer}
    (agree : ∀ id < compiler.frames.size, ranks' id = ranks id) :
    (compiler.alloc slotCount outer).work ranks' = compiler.work ranks := by
  have fresh (rank : ℕ) :
      SymbolicFrame.work rank ⟨List.replicate slotCount .empty, outer⟩ = 0 := by
    simp [SymbolicFrame.work, SymbolicSlot.work]
  have old : (compiler.frames.toList.mapIdx fun id frame => frame.work (ranks' id)) =
      compiler.frames.toList.mapIdx fun id frame => frame.work (ranks id) := by
    apply List.ext_getElem?
    intro id
    simp only [List.getElem?_mapIdx, Array.getElem?_toList]
    cases found : compiler.frames[id]? with
    | none => rfl
    | some frame =>
      rw [Option.map_some, Option.map_some, agree id (Array.getElem?_eq_some_iff.mp found).1]
  simp only [work, alloc, Array.toList_push, List.mapIdx_concat, List.sum_append, fresh, old,
    List.sum_singleton, add_zero]

end Compiler

end Shader

end ShapeLang
