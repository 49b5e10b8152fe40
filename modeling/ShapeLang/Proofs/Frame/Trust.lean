import ShapeLang.Frame
import ShapeLang.Proofs.Expr.Scoped
import ShapeLang.Proofs.Frame.Heap
import ShapeLang.Proofs.Value.Contents

/-! # Trusted frames

A set of frames can be trusted if the parents of its frames belong to it, and if all code and all
values in its frames fit: code sees only slots that something was put into, and values refer to
trusted frames only. Frames outside the set may hold anything, so that a frame that is emptied to
be used again leaves the others trusted.
-/

namespace ShapeLang

/-- A set of frames. -/
abbrev Trust := FrameId → Prop

namespace Heap

variable {heap before middle after : Heap} {id other owner slot depth : Nat} {trust : Trust}

/-- Something was put into a slot. -/
def Filled (heap : Heap) (id : FrameId) (slot : Nat) : Prop :=
  ∃ frame content, heap.frame? id = some frame ∧ frame.slots[slot]? = some content ∧
    content ≠ .empty

/-- The slots around a frame that something was put into. -/
def visible (heap : Heap) (id : FrameId) : Visibility := fun depth slot =>
  ∃ owner, heap.ancestor? id depth = some owner ∧ heap.Filled owner slot

/-- Frames are kept, and what is filled stays filled. -/
structure Grows (before after : Heap) : Prop where
  extension : before.Extends after
  filled : ∀ id slot, before.Filled id slot → after.Filled id slot

namespace Grows

theorem refl (heap : Heap) : Grows heap heap := ⟨.refl heap, fun _ _ filled => filled⟩

theorem trans (first : Grows before middle) (second : Grows middle after) : Grows before after :=
  ⟨first.extension.trans second.extension, fun id slot filled =>
    second.filled id slot (first.filled id slot filled)⟩

theorem visible (grows : Grows before after) (depth slot : Nat)
    (seen : before.visible id depth slot) : after.visible id depth slot := by
  obtain ⟨owner, reached, filled⟩ := seen
  exact ⟨owner, grows.extension.ancestor? reached, grows.filled owner slot filled⟩

theorem alloc (heap : Heap) (slotCount : Nat) (parent caller : Option FrameId)
    (callSite : Option Location) (callDepth : Nat) :
    Grows heap (heap.alloc slotCount parent caller callSite callDepth).2 := by
  refine ⟨.alloc .., fun id slot filled => ?_⟩
  obtain ⟨frame, content, found, holds, nonempty⟩ := filled
  exact ⟨frame, content, frame?_alloc_of_some heap slotCount parent caller callSite callDepth found,
    holds, nonempty⟩

theorem put (heap : Heap) (id : FrameId) (slot : Nat) {content : Slot}
    (nonempty : content ≠ .empty) : Grows heap (heap.put id slot content) := by
  refine ⟨.put .., fun other place filled => ?_⟩
  obtain ⟨frame, old, found, holds, filled⟩ := filled
  by_cases same : id = other
  · subst same
    by_cases here : slot = place
    · subst here
      have inside := (List.getElem?_eq_some_iff.mp holds).1
      exact ⟨_, content, frame?_put_self found, by simp [inside], nonempty⟩
    · exact ⟨_, old, frame?_put_self found, by rw [List.getElem?_set_ne here, holds], filled⟩
  · exact ⟨frame, old, (frame?_put_ne same).trans found, holds, filled⟩

theorem close (heap : Heap) (closures : Nat) : Grows heap { heap with closures } :=
  ⟨⟨Nat.le_refl _, fun _ frame found => ⟨frame, found, rfl, rfl, rfl⟩⟩, fun _ _ filled => filled⟩

end Grows

/-- Code that can run in a frame: it sees what it reads, and the frame has room for its `let`s. -/
structure Fits (heap : Heap) (id : FrameId) (expr : Expr) : Prop where
  sees : expr.Scoped (heap.visible id)
  room : ∃ frame, heap.frame? id = some frame ∧ ∀ slot ∈ expr.letSlots, slot < frame.slots.length

theorem Fits.mono {expr : Expr} (fits : before.Fits id expr) (grows : before.Grows after) :
    after.Fits id expr := by
  obtain ⟨frame, found, inside⟩ := fits.room
  obtain ⟨later, found', _, _, size⟩ := grows.extension.kept id frame found
  exact ⟨fits.sees.mono grows.visible, later, found', size ▸ inside⟩

/-- A value whose functions and modules belong to trusted frames. -/
def Trusts (heap : Heap) (trust : Trust) : Value → Prop :=
  Value.Holds
    (fun lambda env => trust env ∧ Expr.Scoped (heap.visible env)
      (.lambda lambda.location lambda.paramCount lambda.slotCount lambda.body))
    (fun frame fields => trust frame ∧ ∀ field ∈ fields, heap.visible frame 0 field.2)

theorem Trusts.mono {trust' : Trust} {value : Value} (trusted : before.Trusts trust value)
    (grows : before.Grows after) (wider : ∀ id, trust id → trust' id) :
    after.Trusts trust' value :=
  Value.Holds.mono trusted
    (fun _ env known => ⟨wider env known.1, known.2.mono grows.visible⟩)
    fun frame _ known => ⟨wider frame known.1, fun field mem =>
      grows.visible 0 field.2 (known.2 field mem)⟩

/-- What a slot of a trusted frame may hold. -/
def Fitting (heap : Heap) (trust : Trust) (id : FrameId) : Slot → Prop
  | .pending expr => heap.Fits id expr
  | .ready value => heap.Trusts trust value
  | _ => True

theorem Fitting.mono {trust' : Trust} {content : Slot}
    (fitting : before.Fitting trust id content) (grows : before.Grows after)
    (wider : ∀ id, trust id → trust' id) : after.Fitting trust' id content := by
  cases content with
  | empty => trivial
  | pending expr => exact Fits.mono fitting grows
  | busy => trivial
  | ready value => exact Trusts.mono fitting grows wider

/-- The frames of the set exist, and can be trusted. -/
structure Sound (heap : Heap) (trust : Trust) : Prop where
  found : ∀ id, trust id → ∃ frame, heap.frame? id = some frame
  parent : ∀ id frame parent, trust id → heap.frame? id = some frame →
    frame.parent = some parent → trust parent
  fitting : ∀ id (frame : Frame) (slot : Nat) content, trust id → heap.frame? id = some frame →
    frame.slots[slot]? = some content → heap.Fitting trust id content

namespace Sound

theorem lt_size (sound : heap.Sound trust) (trusted : trust id) : id < heap.frames.size := by
  obtain ⟨frame, found⟩ := sound.found id trusted
  exact lt_size_of_frame? found

theorem ancestor (sound : heap.Sound trust) (trusted : trust id)
    (reached : heap.ancestor? id depth = some owner) : trust owner := by
  induction depth generalizing id with
  | zero => exact Option.some.inj reached ▸ trusted
  | succ depth ih =>
    obtain ⟨frame, parent, found, atParent, reached⟩ := ancestor?_succ_eq_some_iff.mp reached
    exact ih (sound.parent id frame parent trusted found atParent) reached

/-- The frames of a trusted set after slots of one frame were written. -/
theorem of_written (sound : heap.Sound trust) (id : FrameId) (content : Slot → Prop)
    (grows : heap.Grows after)
    (same : ∀ other, other ≠ id → after.frame? other = heap.frame? other)
    (written : ∀ frame later, heap.frame? id = some frame → after.frame? id = some later →
      ∀ (slot : Nat) new, later.slots[slot]? = some new →
        frame.slots[slot]? = some new ∨ content new)
    (fitting : trust id → ∀ new, content new → after.Fitting trust id new) :
    after.Sound trust := by
  refine ⟨fun other trusted => ?_, fun other frame parent trusted found atParent => ?_,
    fun other frame slot new trusted found holds => ?_⟩
  · obtain ⟨frame, found⟩ := sound.found other trusted
    exact grows.extension.frame? found
  · obtain ⟨earlier, found'⟩ := sound.found other trusted
    obtain ⟨later, found'', sameParent, _⟩ := grows.extension.kept other earlier found'
    obtain rfl := Option.some.inj (found.symm.trans found'')
    exact sound.parent other earlier parent trusted found' (sameParent ▸ atParent)
  · obtain ⟨earlier, found'⟩ := sound.found other trusted
    by_cases here : other = id
    · subst here
      rcases written earlier frame found' found slot new holds with old | fresh
      · exact (sound.fitting other earlier slot new trusted found' old).mono grows
          fun _ known => known
      · exact fitting trusted new fresh
    · rw [same other here] at found
      exact (sound.fitting other frame slot new trusted found holds).mono grows fun _ known => known

theorem put (sound : heap.Sound trust) {content : Slot} (nonempty : content ≠ .empty)
    (fitting : trust id → (heap.put id slot content).Fitting trust id content) :
    (heap.put id slot content).Sound trust := by
  refine sound.of_written id (· = content) (.put heap id slot nonempty)
    (fun other different => frame?_put_ne different.symm)
    (fun frame later found found' place new holds => ?_)
    fun trusted new same => same ▸ fitting trusted
  rw [frame?_put_self found] at found'
  obtain rfl := Option.some.inj found'
  by_cases here : slot = place
  · subst here
    have inside : slot < frame.slots.length := by
      simpa using (List.getElem?_eq_some_iff.mp holds).1
    exact .inr (by simpa [inside] using holds.symm)
  · exact .inl (by rwa [List.getElem?_set_ne here] at holds)

theorem close (sound : heap.Sound trust) (closures : Nat) :
    Sound { heap with closures } trust :=
  ⟨sound.found, sound.parent, fun id frame slot content trusted found holds =>
    (sound.fitting id frame slot content trusted found holds).mono (.close heap closures)
      fun _ known => known⟩

section Alloc

variable {slotCount : Nat} {parent caller : Option FrameId} {callSite : Option Location}
  {callDepth : Nat}

theorem alloc (sound : heap.Sound trust) :
    (heap.alloc slotCount parent caller callSite callDepth).2.Sound trust := by
  have old (id : FrameId) (trusted : trust id) : id ≠ heap.frames.size :=
    Nat.ne_of_lt (sound.lt_size trusted)
  have grows := Grows.alloc heap slotCount parent caller callSite callDepth
  refine ⟨fun id trusted => ?_, fun id frame outer trusted found atParent => ?_,
    fun id frame slot content trusted found holds => ?_⟩
  · obtain ⟨frame, found⟩ := sound.found id trusted
    exact grows.extension.frame? found
  · rw [frame?_alloc_ne _ _ _ _ _ _ (old id trusted)] at found
    exact sound.parent id frame outer trusted found atParent
  · rw [frame?_alloc_ne _ _ _ _ _ _ (old id trusted)] at found
    exact (sound.fitting id frame slot content trusted found holds).mono grows fun _ known => known

/-- A frame can be trusted as well if its parent is and its contents fit. -/
theorem insert (sound : heap.Sound trust) {frame : Frame} (found : heap.frame? id = some frame)
    (outer : ∀ parent, frame.parent = some parent → trust parent)
    (fitting : ∀ (slot : Nat) content, frame.slots[slot]? = some content →
      heap.Fitting (fun other => trust other ∨ other = id) id content) :
    heap.Sound fun other => trust other ∨ other = id := by
  refine ⟨fun other known => ?_, fun other frame' parent known found' atParent => ?_,
    fun other frame' slot content known found' holds => ?_⟩
  · rcases known with known | rfl
    · exact sound.found other known
    · exact ⟨frame, found⟩
  · rcases known with known | rfl
    · exact .inl (sound.parent other frame' parent known found' atParent)
    · obtain rfl := Option.some.inj (found.symm.trans found')
      exact .inl (outer parent atParent)
  · rcases known with known | rfl
    · exact (sound.fitting other frame' slot content known found' holds).mono (.refl _)
        fun _ => .inl
    · obtain rfl := Option.some.inj (found.symm.trans found')
      exact fitting slot content holds

/-- A new frame can be trusted if its parent can. -/
theorem alloc_trusted (sound : heap.Sound trust) (outer : ∀ id, parent = some id → trust id) :
    (heap.alloc slotCount parent caller callSite callDepth).2.Sound
      fun id => trust id ∨ id = heap.frames.size := by
  refine sound.alloc.insert (frame?_alloc_self heap slotCount parent caller callSite callDepth)
    outer fun slot content holds => ?_
  simp only [fresh, List.getElem?_replicate] at holds
  split at holds
  · obtain rfl := Option.some.inj holds
    trivial
  · cases holds

end Alloc

end Sound

end Heap

end ShapeLang
