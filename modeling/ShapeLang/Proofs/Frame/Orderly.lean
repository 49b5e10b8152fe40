import Mathlib.Data.List.Nodup
import Mathlib.Data.List.Pairwise
import ShapeLang.Proofs.Frame.Batch

/-! # Slots that nobody else uses

A frame is orderly if each definition that waits in it will find the slots of its `let`s empty,
and shares them with no other waiting definition. Code that is evaluated once in an orderly frame
never writes over anything.
-/

namespace ShapeLang

/-- A slot that is empty and that no waiting definition is going to fill. -/
def Free (slots : List Slot) (place : Nat) : Prop :=
  slots[place]? = some .empty ∧
    ∀ (other : Nat) expr, slots[other]? = some (.pending expr) → place ∉ expr.letSlots

/-- Different slots, all of them free. -/
structure Spare (slots : List Slot) (places : List Nat) : Prop where
  nodup : places.Nodup
  free : ∀ place ∈ places, Free slots place

/-- Each waiting definition has the slots that it is going to fill for itself. -/
def Orderly (slots : List Slot) : Prop :=
  ∀ (slot : Nat) expr, slots[slot]? = some (.pending expr) →
    Spare (slots.set slot .busy) expr.letSlots

/-- Something that is no waiting definition. -/
def Slot.Idle (content : Slot) : Prop := ∀ expr, content ≠ .pending expr

section Slots

variable {slots : List Slot} {slot place : Nat} {content : Slot} {places more : List Nat}

theorem Spare.left (spare : Spare slots (places ++ more)) : Spare slots places :=
  ⟨(List.nodup_append'.mp spare.nodup).1, fun place mem =>
    spare.free place (List.mem_append_left _ mem)⟩

theorem Spare.right (spare : Spare slots (places ++ more)) : Spare slots more :=
  ⟨(List.nodup_append'.mp spare.nodup).2.1, fun place mem =>
    spare.free place (List.mem_append_right _ mem)⟩

theorem Spare.disjoint (spare : Spare slots (places ++ more)) {place : Nat}
    (mem : place ∈ places) : place ∉ more :=
  fun mem' => (List.nodup_append'.mp spare.nodup).2.2 mem mem'

theorem Free.set (free : Free slots place) (idle : content.Idle) (different : slot ≠ place) :
    Free (slots.set slot content) place := by
  refine ⟨by rw [List.getElem?_set_ne different, free.1], fun other expr pending => ?_⟩
  by_cases here : slot = other
  · subst here
    have inside : slot < slots.length := by
      simpa using (List.getElem?_eq_some_iff.mp pending).1
    rw [List.getElem?_set_self inside] at pending
    exact (idle expr (Option.some.inj pending)).elim
  · rw [List.getElem?_set_ne here] at pending
    exact free.2 other expr pending

theorem Spare.set (spare : Spare slots places) (idle : content.Idle)
    (taken : slots[slot]? ≠ some .empty) : Spare (slots.set slot content) places := by
  refine ⟨spare.nodup, fun place mem => (spare.free place mem).set idle ?_⟩
  rintro rfl
  exact taken (spare.free slot mem).1

/-- Writing over a slot that was in use already does not disturb the others. -/
theorem Orderly.set (orderly : Orderly slots) (idle : content.Idle)
    (taken : slots[slot]? ≠ some .empty) : Orderly (slots.set slot content) := by
  intro other expr pending
  have different : slot ≠ other := by
    rintro rfl
    have inside : slot < slots.length := by
      simpa using (List.getElem?_eq_some_iff.mp pending).1
    rw [List.getElem?_set_self inside] at pending
    exact idle expr (Option.some.inj pending)
  rw [List.getElem?_set_ne different] at pending
  rw [List.set_comm _ _ different]
  refine (orderly other expr pending).set idle ?_
  rwa [List.getElem?_set_ne different.symm]

/-- A frame in which nothing waits. -/
theorem Orderly.of_idle (idle : ∀ content ∈ slots, content.Idle) : Orderly slots :=
  fun _ expr pending => (idle _ (List.mem_of_getElem? pending) expr rfl).elim

theorem Spare.of_idle (idle : ∀ content ∈ slots, content.Idle) (nodup : places.Nodup)
    (empty : ∀ place ∈ places, slots[place]? = some .empty) : Spare slots places :=
  ⟨nodup, fun place mem => ⟨empty place mem, fun _ expr pending =>
    (idle _ (List.mem_of_getElem? pending) expr rfl).elim⟩⟩

theorem Slot.Idle.busy : Slot.busy.Idle := fun _ same => by cases same

theorem Slot.Idle.ready (value : Value) : (Slot.ready value).Idle := fun _ same => by cases same

end Slots

section Pendings

variable {slots : List Slot} {definitions : List (Nat × Expr)} {rest : List Nat} {place : Nat}

private theorem mem_pendings {slot : Nat} {expr : Expr}
    (mem : (slot, Slot.pending expr) ∈ pendings definitions) : (slot, expr) ∈ definitions := by
  obtain ⟨definition, inside, same⟩ := List.mem_map.mp mem
  obtain ⟨rfl, same⟩ := Prod.mk.inj same
  cases same
  exact inside

private theorem map_pendings : (pendings definitions).map (·.1) = definitions.map (·.1) := by
  simp [pendings]

/-- A slot that the new definitions do not use stays free. -/
theorem Free.setEach_pendings (free : Free slots place)
    (unused : place ∉ definitions.map (·.1) ++ definitions.flatMap (·.2.letSlots)) :
    Free (setEach slots (pendings definitions)) place := by
  simp only [List.mem_append, not_or] at unused
  refine ⟨?_, fun other expr pending inside => ?_⟩
  · rw [getElem?_setEach_of_not_mem (map_pendings ▸ unused.1), free.1]
  · rcases mem_of_getElem?_setEach pending with old | new
    · exact free.2 other expr old inside
    · exact unused.2 (List.mem_flatMap.mpr ⟨_, mem_pendings new, inside⟩)

/-- Two definitions of a group that both use a slot are the same. -/
private theorem eq_of_mem_letSlots
    (nodup : (definitions.flatMap (·.2.letSlots)).Nodup) {first second : Nat × Expr}
    (mem : first ∈ definitions) (mem' : second ∈ definitions) (inside : place ∈ first.2.letSlots)
    (inside' : place ∈ second.2.letSlots) : first = second := by
  by_contra different
  have symmetric : Std.Symm (Function.onFun List.Disjoint fun definition : Nat × Expr =>
      definition.2.letSlots) := ⟨fun _ _ apart _ mem mem' => apart mem' mem⟩
  exact (List.nodup_flatMap.mp nodup).2.forall mem mem' different inside inside'

/-- Storing definitions in slots that are free, as are those that they are going to fill. -/
theorem Orderly.setEach_pendings (orderly : Orderly slots)
    (spare : Spare slots
      (definitions.map (·.1) ++ definitions.flatMap (·.2.letSlots) ++ rest)) :
    Orderly (setEach slots (pendings definitions)) := by
  have used := spare.left
  intro slot expr pending
  rcases mem_of_getElem?_setEach pending with old | new
  · obtain ⟨nodup, free⟩ := orderly slot expr old
    refine ⟨nodup, fun place mem => ?_⟩
    have different : slot ≠ place := by
      rintro rfl
      have inside := (List.getElem?_eq_some_iff.mp old).1
      have empty := (free slot mem).1
      rw [List.getElem?_set_self inside] at empty
      cases empty
    have unused : place ∉ definitions.map (·.1) ++ definitions.flatMap (·.2.letSlots) :=
      fun mem' => (used.free place mem').2 slot expr old mem
    refine ⟨?_, fun other expr' pending' mem' => ?_⟩
    · have empty := (free place mem).1
      rw [List.getElem?_set_ne different] at empty ⊢
      rw [getElem?_setEach_of_not_mem (map_pendings ▸ fun mem' =>
        unused (List.mem_append_left _ mem')), empty]
    · by_cases here : slot = other
      · subst here
        rw [List.getElem?_set_self (List.getElem?_eq_some_iff.mp pending).1] at pending'
        cases pending'
      · rw [List.getElem?_set_ne here] at pending'
        rcases mem_of_getElem?_setEach pending' with old' | new'
        · refine (free place mem).2 other expr' ?_ mem'
          rwa [List.getElem?_set_ne here]
        · exact unused (List.mem_append_right _ (List.mem_flatMap.mpr ⟨_, mem_pendings new', mem'⟩))
  · have inside := mem_pendings new
    have nodup := (List.nodup_flatMap.mp used.right.nodup).1 _ inside
    refine ⟨nodup, fun place mem => ?_⟩
    have mem' : place ∈ definitions.flatMap (·.2.letSlots) := List.mem_flatMap.mpr ⟨_, inside, mem⟩
    have unstored : place ∉ definitions.map (·.1) := fun stored => used.disjoint stored mem'
    have different : slot ≠ place := by
      rintro rfl
      exact unstored (List.mem_map_of_mem inside)
    refine ⟨?_, fun other expr' pending' mem'' => ?_⟩
    · rw [List.getElem?_set_ne different, getElem?_setEach_of_not_mem (map_pendings ▸ unstored)]
      exact (used.right.free place mem').1
    · by_cases here : slot = other
      · subst here
        rw [List.getElem?_set_self (List.getElem?_eq_some_iff.mp pending).1] at pending'
        cases pending'
      · rw [List.getElem?_set_ne here] at pending'
        rcases mem_of_getElem?_setEach pending' with old' | new'
        · exact (used.right.free place mem').2 other expr' old' mem''
        · exact here (congrArg Prod.fst
            (eq_of_mem_letSlots used.right.nodup inside (mem_pendings new') mem mem''))

end Pendings

end ShapeLang
