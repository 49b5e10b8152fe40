import ShapeLang.Proofs.Frame.Trust
import ShapeLang.Proofs.Shader.Operations

/-! # Symbolic frames

The symbolic frames that a compilation makes are to it what trusted frames are to evaluation. Around
them lie captured frames, which have to be trusted themselves. Symbolic frames that were there
before may hold anything: no frame made later refers to them.
-/

namespace ShapeLang

namespace Shader

namespace CompilerState

variable {state before middle after : CompilerState} {id slot depth : Nat}

/-- Something was put into a slot of a symbolic frame. -/
def Filled (state : CompilerState) (id slot : Nat) : Prop :=
  ∃ frame content, state.compiler.frames[id]? = some frame ∧ frame.slots[slot]? = some content ∧
    content ≠ .empty

/-- The slots around a frame, symbolic or captured, that something was put into. -/
def sees (state : CompilerState) : Outer → Visibility
  | .captured id, depth, slot => state.heap.visible id depth slot
  | .symbolic id, 0, slot => state.Filled id slot
  | .symbolic id, depth + 1, slot =>
    ∃ frame, state.compiler.frames[id]? = some frame ∧ state.sees frame.outer depth slot
termination_by _ depth => depth

/-- Frames are kept, and what is filled stays filled. -/
structure Grows (before after : CompilerState) : Prop where
  heap : before.heap.Grows after.heap
  size_le : before.compiler.frames.size ≤ after.compiler.frames.size
  kept : ∀ (id : Nat) frame, before.compiler.frames[id]? = some frame →
    ∃ later, after.compiler.frames[id]? = some later ∧ later.outer = frame.outer ∧
      later.slots.length = frame.slots.length
  filled : ∀ id slot, before.Filled id slot → after.Filled id slot

namespace Grows

theorem refl (state : CompilerState) : Grows state state :=
  ⟨.refl state.heap, Nat.le_refl _, fun _ frame found => ⟨frame, found, rfl, rfl⟩,
    fun _ _ filled => filled⟩

theorem trans (first : Grows before middle) (second : Grows middle after) : Grows before after := by
  refine ⟨first.heap.trans second.heap, Nat.le_trans first.size_le second.size_le,
    fun id frame found => ?_, fun id slot filled =>
      second.filled id slot (first.filled id slot filled)⟩
  obtain ⟨between, found', outer, size⟩ := first.kept id frame found
  obtain ⟨later, found'', outer', size'⟩ := second.kept id between found'
  exact ⟨later, found'', outer'.trans outer, size'.trans size⟩

theorem sees (grows : Grows before after) {outer : Outer} (depth slot : Nat)
    (seen : before.sees outer depth slot) : after.sees outer depth slot := by
  induction depth generalizing outer with
  | zero =>
    cases outer with
    | captured id =>
      rw [CompilerState.sees] at seen ⊢
      exact grows.heap.visible 0 slot seen
    | symbolic id =>
      rw [CompilerState.sees] at seen ⊢
      exact grows.filled id slot seen
  | succ depth ih =>
    cases outer with
    | captured id =>
      rw [CompilerState.sees] at seen ⊢
      exact grows.heap.visible (depth + 1) slot seen
    | symbolic id =>
      rw [CompilerState.sees] at seen ⊢
      obtain ⟨frame, found, seen⟩ := seen
      obtain ⟨later, found', outer, -⟩ := grows.kept id frame found
      exact ⟨later, found', outer ▸ ih seen⟩

theorem put (state : CompilerState) (id slot : Nat) {content : SymbolicSlot}
    (nonempty : content ≠ .empty) :
    Grows state { state with compiler := state.compiler.put id slot content } := by
  refine ⟨.refl _, Nat.le_of_eq Compiler.size_put.symm, fun other frame found => ?_,
    fun other place filled => ?_⟩
  · by_cases same : id = other
    · subst same
      exact ⟨_, Compiler.frame?_put_self found, rfl, by simp⟩
    · exact ⟨frame, (Compiler.frame?_put_ne same).trans found, rfl, rfl⟩
  · obtain ⟨frame, old, found, holds, filled⟩ := filled
    by_cases same : id = other
    · subst same
      by_cases here : slot = place
      · subst here
        have inside := (List.getElem?_eq_some_iff.mp holds).1
        exact ⟨_, content, Compiler.frame?_put_self found, by simp [inside], nonempty⟩
      · exact ⟨_, old, Compiler.frame?_put_self found, by rw [List.getElem?_set_ne here, holds],
          filled⟩
    · exact ⟨frame, old, (Compiler.frame?_put_ne same).trans found, holds, filled⟩

theorem putEach (state : CompilerState) (id : Nat) {contents : List (Nat × SymbolicSlot)}
    (nonempty : ∀ content ∈ contents, content.2 ≠ .empty) :
    Grows state { state with compiler := state.compiler.putEach id contents } := by
  induction contents generalizing state with
  | nil => exact .refl state
  | cons first rest ih =>
    exact (put state id first.1 (nonempty first (by simp))).trans
      (ih { state with compiler := state.compiler.put id first.1 first.2 } fun content mem =>
        nonempty content (by simp [mem]))

theorem alloc (state : CompilerState) (slotCount : Nat) (outer : Outer) :
    Grows state { state with compiler := state.compiler.alloc slotCount outer } := by
  have old {id : Nat} {frame : SymbolicFrame} (found : state.compiler.frames[id]? = some frame) :
      (state.compiler.alloc slotCount outer).frames[id]? = some frame :=
    (Compiler.frame?_alloc_ne (Nat.ne_of_lt (Array.getElem?_eq_some_iff.mp found).1)).trans found
  refine ⟨.refl _, by simp [Compiler.alloc], fun id frame found => ⟨frame, old found, rfl, rfl⟩,
    fun id slot filled => ?_⟩
  obtain ⟨frame, content, found, holds, nonempty⟩ := filled
  exact ⟨frame, content, old found, holds, nonempty⟩

/-- Changes that leave the frames alone. -/
theorem of_frames (heap : before.heap.Grows after.heap)
    (frames : after.compiler.frames = before.compiler.frames) : Grows before after :=
  ⟨heap, Nat.le_of_eq (congrArg Array.size frames).symm,
    fun _ frame found => ⟨frame, frames ▸ found, rfl, rfl⟩,
    fun _ _ ⟨frame, content, found, holds⟩ => ⟨frame, content, frames ▸ found, holds⟩⟩

end Grows

/-- Code that can be compiled in a symbolic frame. -/
structure Fits (state : CompilerState) (id : Nat) (expr : Expr) : Prop where
  sees : expr.Scoped (state.sees (.symbolic id))
  room : ∃ frame, state.compiler.frames[id]? = some frame ∧
    ∀ slot ∈ expr.letSlots, slot < frame.slots.length

theorem Fits.mono {expr : Expr} (fits : before.Fits id expr) (grows : before.Grows after) :
    after.Fits id expr := by
  obtain ⟨frame, found, inside⟩ := fits.room
  obtain ⟨later, found', -, size⟩ := grows.kept id frame found
  exact ⟨fits.sees.mono grows.sees, later, found', size ▸ inside⟩

theorem filled_putEach (state : CompilerState) {contents : List (Nat × SymbolicSlot)}
    {frame : SymbolicFrame} (found : state.compiler.frames[id]? = some frame)
    (nonempty : ∀ content ∈ contents, content.2 ≠ .empty) {content : Nat × SymbolicSlot}
    (mem : content ∈ contents) (inside : content.1 < frame.slots.length) :
    Filled { state with compiler := state.compiler.putEach id contents } id content.1 := by
  induction contents generalizing state frame with
  | nil => simp at mem
  | cons first rest ih =>
    have nonempty' : ∀ content ∈ rest, content.2 ≠ .empty := fun other mem =>
      nonempty other (by simp [mem])
    rcases List.mem_cons.mp mem with rfl | mem
    · refine (Grows.putEach { state with compiler := state.compiler.put id content.1 content.2 } id
        nonempty').filled id content.1 ?_
      exact ⟨_, content.2, Compiler.frame?_put_self found, List.getElem?_set_self inside,
        nonempty content (by simp)⟩
    · exact ih { state with compiler := state.compiler.put id first.1 first.2 }
        (Compiler.frame?_put_self found) nonempty' mem (by simpa using inside)

/-- Symbolic frames from `base` on: around them lie such frames and the captured ones, and the
code that waits in them fits. -/
structure Sound (state : CompilerState) (base : Nat) (captured : List FrameId) : Prop where
  base_le : base ≤ state.compiler.frames.size
  symbolic : ∀ (id : Nat) frame outer, base ≤ id → state.compiler.frames[id]? = some frame →
    frame.outer = .symbolic outer → base ≤ outer
  captured : ∀ (id : Nat) frame outer, base ≤ id → state.compiler.frames[id]? = some frame →
    frame.outer = .captured outer → outer ∈ captured
  pending : ∀ (id : Nat) frame (slot : Nat) expr, base ≤ id →
    state.compiler.frames[id]? = some frame → frame.slots[slot]? = some (.pending expr) →
    state.Fits id expr

namespace Sound

variable {base : Nat} {captured : List FrameId}

theorem subset {more : List FrameId} (sound : state.Sound base captured)
    (included : ∀ id ∈ captured, id ∈ more) : state.Sound base more :=
  ⟨sound.base_le, sound.symbolic, fun id frame outer low found same =>
    included outer (sound.captured id frame outer low found same), sound.pending⟩

/-- Changes that leave the symbolic frames alone. -/
theorem of_frames (sound : before.Sound base captured) (heap : before.heap.Grows after.heap)
    (frames : after.compiler.frames = before.compiler.frames) : after.Sound base captured := by
  have grows := Grows.of_frames heap frames
  refine ⟨by rw [frames]; exact sound.base_le, fun id frame outer low found =>
    sound.symbolic id frame outer low (frames ▸ found), fun id frame outer low found =>
    sound.captured id frame outer low (frames ▸ found), fun id frame slot expr low found holds =>
    (sound.pending id frame slot expr low (frames ▸ found) holds).mono grows⟩

theorem putEach (sound : state.Sound base captured) (contents : List (Nat × SymbolicSlot))
    (nonempty : ∀ content ∈ contents, content.2 ≠ .empty)
    (pending : ∀ content ∈ contents, ∀ expr, content.2 = .pending expr →
      Fits { state with compiler := state.compiler.putEach id contents } id expr) :
    Sound { state with compiler := state.compiler.putEach id contents } base captured := by
  have grows := Grows.putEach state id nonempty
  -- The frame that is written keeps its surroundings, and all others stay as they are.
  have origin {other : Nat} {later : SymbolicFrame}
      (found : (state.compiler.putEach id contents).frames[other]? = some later) :
      ∃ frame, state.compiler.frames[other]? = some frame ∧ later.outer = frame.outer ∧
        ∀ (slot : Nat) content, later.slots[slot]? = some content →
          frame.slots[slot]? = some content ∨ id = other ∧ (slot, content) ∈ contents := by
    have size : (state.compiler.putEach id contents).frames.size = state.compiler.frames.size :=
      Compiler.size_putEach
    have inside : other < state.compiler.frames.size := by
      rw [← size]
      exact (Array.getElem?_eq_some_iff.mp found).1
    have found' := Array.getElem?_eq_getElem inside
    by_cases same : id = other
    · subst same
      obtain rfl := Option.some.inj ((Compiler.frame?_putEach_self found').symm.trans found)
      exact ⟨_, found', rfl, fun slot content holds =>
        (mem_of_getElem?_setEach holds).imp (fun old => old) fun mem => ⟨rfl, mem⟩⟩
    · rw [Compiler.frame?_putEach_ne same] at found
      exact ⟨later, found, rfl, fun slot content holds => .inl holds⟩
  refine ⟨Nat.le_trans sound.base_le grows.size_le, fun other later outer low found same => ?_,
    fun other later outer low found same => ?_, fun other later slot expr low found holds => ?_⟩
  · obtain ⟨frame, found', sameOuter, -⟩ := origin found
    exact sound.symbolic other frame outer low found' (sameOuter ▸ same)
  · obtain ⟨frame, found', sameOuter, -⟩ := origin found
    exact sound.captured other frame outer low found' (sameOuter ▸ same)
  · obtain ⟨frame, found', -, content⟩ := origin found
    rcases content slot _ holds with old | ⟨rfl, mem⟩
    · exact (sound.pending other frame slot expr low found' old).mono grows
    · exact pending _ mem expr rfl

theorem alloc (sound : state.Sound base captured) (slotCount : Nat) {outer : Outer}
    (symbolic : ∀ id, outer = .symbolic id → base ≤ id)
    (inside : ∀ id, outer = .captured id → id ∈ captured) :
    Sound { state with compiler := state.compiler.alloc slotCount outer } base captured := by
  have grows := Grows.alloc state slotCount outer
  have origin {other : Nat} {later : SymbolicFrame}
      (found : (state.compiler.alloc slotCount outer).frames[other]? = some later) :
      later = ⟨List.replicate slotCount .empty, outer⟩ ∨
        state.compiler.frames[other]? = some later := by
    by_cases new : other = state.compiler.frames.size
    · subst new
      exact .inl (Option.some.inj (found.symm.trans (Compiler.frame?_alloc_self slotCount outer)))
    · rw [Compiler.frame?_alloc_ne new] at found
      exact .inr found
  refine ⟨Nat.le_trans sound.base_le grows.size_le, fun other later around low found same => ?_,
    fun other later around low found same => ?_, fun other later slot expr low found holds => ?_⟩
  · rcases origin found with rfl | old
    · exact symbolic around same
    · exact sound.symbolic other later around low old same
  · rcases origin found with rfl | old
    · exact inside around same
    · exact sound.captured other later around low old same
  · rcases origin found with rfl | old
    · simp [List.getElem?_replicate] at holds
    · exact (sound.pending other later slot expr low old holds).mono grows

end Sound

section Enter

variable {slotCount : Nat} {outer : Outer} {contents : List (Nat × SymbolicSlot)}

theorem frame?_enter_self :
    (state.enter slotCount outer contents).compiler.frames[state.compiler.frames.size]? =
      some ⟨setEach (List.replicate slotCount .empty) contents, outer⟩ :=
  Compiler.frame?_putEach_self (Compiler.frame?_alloc_self slotCount outer)

theorem Grows.enter (nonempty : ∀ content ∈ contents, content.2 ≠ .empty) :
    state.Grows (state.enter slotCount outer contents) :=
  (Grows.alloc state slotCount outer).trans (.putEach _ _ nonempty)

theorem Sound.enter {base : Nat} {captured : List FrameId} (sound : state.Sound base captured)
    (symbolic : ∀ id, outer = .symbolic id → base ≤ id)
    (inside : ∀ id, outer = .captured id → id ∈ captured)
    (ready : ∀ content ∈ contents, ∃ term, content.2 = .ready term) :
    (state.enter slotCount outer contents).Sound base captured :=
  (sound.alloc slotCount symbolic inside).putEach contents
    (fun content mem => by
      obtain ⟨term, same⟩ := ready content mem
      simp [same])
    fun content mem expr pending => by
      obtain ⟨term, same⟩ := ready content mem
      simp [same] at pending

/-- Code that is compiled in the new frame. -/
theorem fits_enter {expr : Expr} {slots : List Nat}
    (sees : expr.Scoped (Visibility.enter (state.sees outer) slots))
    (nonempty : ∀ content ∈ contents, content.2 ≠ .empty)
    (stored : ∀ slot ∈ slots, ∃ content ∈ contents, content.1 = slot)
    (room : ∀ slot ∈ slots ++ expr.letSlots, slot < slotCount) :
    (state.enter slotCount outer contents).Fits state.compiler.frames.size expr := by
  refine ⟨sees.mono fun depth slot seen => ?_, _, frame?_enter_self, fun slot mem => ?_⟩
  · cases depth with
    | zero =>
      obtain ⟨content, mem, rfl⟩ := stored slot seen
      rw [CompilerState.sees]
      refine filled_putEach { state with compiler := state.compiler.alloc slotCount outer }
        (Compiler.frame?_alloc_self slotCount outer) nonempty mem ?_
      simpa using room content.1 (List.mem_append_left _ seen)
    | succ depth =>
      rw [CompilerState.sees]
      exact ⟨_, frame?_enter_self, (Grows.enter nonempty).sees depth slot seen⟩
  · simpa using room slot (List.mem_append_right _ mem)

end Enter

end CompilerState

end Shader

end ShapeLang
