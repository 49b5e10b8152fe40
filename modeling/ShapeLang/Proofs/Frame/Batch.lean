import ShapeLang.Proofs.Eval.Operations
import ShapeLang.Proofs.Frame.Slots
import ShapeLang.Proofs.Frame.Trust

/-! # Writing several slots of a frame

Definitions of a group see each other, so that it says little how a frame looks while some of them
are stored and others are not. What counts is the frame after all of them.
-/

namespace ShapeLang

namespace Heap

/-- Puts contents into slots of a frame. -/
def putEach (heap : Heap) (id : FrameId) : List (Nat × Slot) → Heap
  | [] => heap
  | (slot, content) :: rest => (heap.put id slot content).putEach id rest

variable {heap : Heap} {id other : FrameId} {contents : List (Nat × Slot)} {frame : Frame}

theorem frame?_putEach_self (found : heap.frame? id = some frame) :
    (heap.putEach id contents).frame? id =
      some { frame with slots := setEach frame.slots contents } := by
  induction contents generalizing heap frame with
  | nil => exact found
  | cons first rest ih => rw [putEach, ih (frame?_put_self found), setEach]

theorem frame?_putEach_ne (different : id ≠ other) :
    (heap.putEach id contents).frame? other = heap.frame? other := by
  induction contents generalizing heap with
  | nil => rfl
  | cons first rest ih => rw [putEach, ih, frame?_put_ne different]

theorem size_putEach : (heap.putEach id contents).frames.size = heap.frames.size := by
  induction contents generalizing heap with
  | nil => rfl
  | cons first rest ih =>
    rw [putEach, ih]
    exact size_mapSlots ..

theorem closures_putEach : (heap.putEach id contents).closures = heap.closures := by
  induction contents generalizing heap with
  | nil => rfl
  | cons first rest ih =>
    rw [putEach, ih]
    rfl

theorem Grows.putEach (heap : Heap) (id : FrameId)
    (nonempty : ∀ content ∈ contents, content.2 ≠ .empty) :
    heap.Grows (heap.putEach id contents) := by
  induction contents generalizing heap with
  | nil => exact .refl heap
  | cons first rest ih =>
    exact (Grows.put heap id first.1 (nonempty first (by simp))).trans
      (ih _ fun content mem => nonempty content (by simp [mem]))

theorem filled_putEach (found : heap.frame? id = some frame)
    (nonempty : ∀ content ∈ contents, content.2 ≠ .empty) {content : Nat × Slot}
    (mem : content ∈ contents) (inside : content.1 < frame.slots.length) :
    (heap.putEach id contents).Filled id content.1 := by
  induction contents generalizing heap frame with
  | nil => simp at mem
  | cons first rest ih =>
    have nonempty' : ∀ content ∈ rest, content.2 ≠ .empty := fun other mem =>
      nonempty other (by simp [mem])
    rcases List.mem_cons.mp mem with rfl | mem
    · refine (Grows.putEach _ id nonempty').filled id content.1 ?_
      exact ⟨_, content.2, frame?_put_self found, List.getElem?_set_self inside,
        nonempty content (by simp)⟩
    · exact ih (frame?_put_self found) nonempty' mem (by simpa using inside)

theorem Sound.putEach {trust : Trust} (sound : heap.Sound trust)
    (nonempty : ∀ content ∈ contents, content.2 ≠ .empty)
    (fitting : trust id → ∀ content ∈ contents,
      (heap.putEach id contents).Fitting trust id content.2) :
    (heap.putEach id contents).Sound trust := by
  refine sound.of_written id (fun new => ∃ content ∈ contents, content.2 = new)
    (.putEach heap id nonempty) (fun other different => frame?_putEach_ne different.symm) ?_ ?_
  · intro frame later found found' slot new holds
    obtain rfl := Option.some.inj ((frame?_putEach_self found).symm.trans found')
    exact (mem_of_getElem?_setEach holds).imp (fun old => old) fun mem => ⟨_, mem, rfl⟩
  · rintro trusted _ ⟨content, mem, rfl⟩
    exact fitting trusted content mem

end Heap

/-- Definitions that wait in their slots. -/
def pendings (definitions : List (Nat × Expr)) : List (Nat × Slot) :=
  definitions.map fun definition => (definition.1, .pending definition.2)

/-- Values in consecutive slots. -/
def readies (slot : Nat) : List Value → List (Nat × Slot)
  | [] => []
  | value :: values => (slot, .ready value) :: readies (slot + 1) values

theorem pendings_nonempty {definitions : List (Nat × Expr)} (content : Nat × Slot)
    (mem : content ∈ pendings definitions) : content.2 ≠ .empty := by
  obtain ⟨definition, -, rfl⟩ := List.mem_map.mp mem
  simp

theorem mem_readies {slot : Nat} {values : List Value} {content : Nat × Slot}
    (mem : content ∈ readies slot values) :
    slot ≤ content.1 ∧ content.1 < slot + values.length ∧
      ∃ value ∈ values, content.2 = .ready value := by
  induction values generalizing slot with
  | nil => simp [readies] at mem
  | cons value values ih =>
    rcases List.mem_cons.mp mem with rfl | mem
    · exact ⟨Nat.le_refl _, by simp, value, by simp, rfl⟩
    · obtain ⟨low, high, other, mem', same⟩ := ih mem
      exact ⟨by omega, by simp only [List.length_cons]; omega, other, by simp [mem'], same⟩

theorem mem_readies_of_getElem? (slot : Nat) (values : List Value) (i : Nat) (value : Value)
    (found : values[i]? = some value) : (slot + i, .ready value) ∈ readies slot values := by
  induction values generalizing slot i with
  | nil => simp at found
  | cons first values ih =>
    cases i with
    | zero =>
      obtain rfl := Option.some.inj found
      exact List.mem_cons_self
    | succ i =>
      have mem := ih (slot + 1) i found
      rw [Nat.add_assoc, Nat.add_comm 1 i] at mem
      exact List.mem_cons_of_mem _ mem

theorem readies_nonempty {slot : Nat} {values : List Value} (content : Nat × Slot)
    (mem : content ∈ readies slot values) : content.2 ≠ .empty := by
  obtain ⟨-, -, value, -, same⟩ := mem_readies mem
  simp [same]

theorem map_readies (slot : Nat) (values : List Value) :
    (readies slot values).map (·.1) = List.range' slot values.length := by
  induction values generalizing slot with
  | nil => rfl
  | cons value values ih => rw [readies, List.map_cons, ih, List.length_cons, List.range'_succ]

namespace Ends

variable {heap : Heap} {id : FrameId} {frame : Frame} {returns : Unit → Heap → Prop}
  {fails : Fault → Heap → Prop}

theorem storePending {definitions : List (Nat × Expr)} (found : heap.frame? id = some frame)
    (inside : ∀ definition ∈ definitions, definition.1 < frame.slots.length)
    (ok : returns () (heap.putEach id (pendings definitions))) :
    Ends (Eval.storePending id definitions) heap returns fails := by
  induction definitions generalizing heap frame with
  | nil => exact .pure ok
  | cons definition definitions ih =>
    refine Ends.through (fun _ after =>
      heap.put id definition.1 (.pending definition.2) = after)
      (store_found found
      (inside definition (by simp)) rfl) ?_
    rintro _ _ rfl
    exact ih (Heap.frame?_put_self found) (fun other mem => by
      simpa using inside other (by simp [mem])) ok

theorem storeAll {slot : Nat} {values : List Value} (found : heap.frame? id = some frame)
    (inside : slot + values.length ≤ frame.slots.length)
    (ok : returns () (heap.putEach id (readies slot values))) :
    Ends (Eval.storeAll id slot values) heap returns fails := by
  induction values generalizing heap frame slot with
  | nil => exact .pure ok
  | cons value values ih =>
    simp only [List.length_cons] at inside
    refine Ends.through (fun _ after => heap.put id slot (.ready value) = after)
      (store_found found
      (by omega) rfl) ?_
    rintro _ _ rfl
    exact ih (Heap.frame?_put_self found) (by simp; omega) ok

end Ends

end ShapeLang
