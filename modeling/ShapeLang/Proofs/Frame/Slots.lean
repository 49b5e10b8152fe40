/-! # Writing several places of a list

The slots of frames and of symbolic frames are written in batches.
-/

namespace ShapeLang

/-- Puts contents into slots of a list, one after the other. -/
def setEach {α : Type} (slots : List α) : List (Nat × α) → List α
  | [] => slots
  | (slot, content) :: rest => setEach (slots.set slot content) rest

section SetEach

variable {α : Type} {slots : List α} {contents : List (Nat × α)} {slot : Nat} {content : α}

@[simp] theorem length_setEach : (setEach slots contents).length = slots.length := by
  induction contents generalizing slots with
  | nil => rfl
  | cons first rest ih => rw [setEach, ih, List.length_set]

theorem getElem?_setEach_of_not_mem (absent : slot ∉ contents.map (·.1)) :
    (setEach slots contents)[slot]? = slots[slot]? := by
  induction contents generalizing slots with
  | nil => rfl
  | cons first rest ih =>
    simp only [List.map_cons, List.mem_cons, not_or] at absent
    rw [setEach, ih absent.2, List.getElem?_set_ne (Ne.symm absent.1)]

theorem getElem?_setEach_of_mem (distinct : (contents.map (·.1)).Nodup)
    (mem : (slot, content) ∈ contents) (inside : slot < slots.length) :
    (setEach slots contents)[slot]? = some content := by
  induction contents generalizing slots with
  | nil => simp at mem
  | cons first rest ih =>
    rw [List.map_cons, List.nodup_cons] at distinct
    rcases List.mem_cons.mp mem with rfl | mem
    · rw [setEach, getElem?_setEach_of_not_mem distinct.1]
      exact List.getElem?_set_self inside
    · rw [setEach]
      exact ih distinct.2 mem (by simpa using inside)

/-- What is in a slot afterwards was there before or was put there. -/
theorem mem_of_getElem?_setEach (holds : (setEach slots contents)[slot]? = some content) :
    slots[slot]? = some content ∨ (slot, content) ∈ contents := by
  induction contents generalizing slots with
  | nil => exact .inl holds
  | cons first rest ih =>
    rcases ih holds with old | new
    · by_cases here : first.1 = slot
      · subst here
        have inside : first.1 < slots.length := by
          simpa using (List.getElem?_eq_some_iff.mp old).1
        rw [List.getElem?_set_self inside] at old
        obtain rfl := Option.some.inj old
        exact .inr List.mem_cons_self
      · rw [List.getElem?_set_ne here] at old
        exact .inl old
    · exact .inr (List.mem_cons_of_mem _ new)

end SetEach

end ShapeLang
