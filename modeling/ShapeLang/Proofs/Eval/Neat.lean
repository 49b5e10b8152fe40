import ShapeLang.Proofs.Eval.Stage
import ShapeLang.Proofs.Frame.Orderly

/-! # Orderly frames during evaluation

What evaluation may do to frames while nothing fails. Among the slots that were free only those of
its own `let`s are filled. A value that is in a slot stays there, and a definition that waits in a
slot stays there until its value takes the place.
-/

namespace ShapeLang

/-- How a slot can change while nothing fails. -/
inductive Slot.Settles : Slot → Slot → Prop
  | fill (content : Slot) : Settles .empty content
  | keep (content : Slot) : Settles content content
  | finish (expr : Expr) (value : Value) : Settles (.pending expr) (.ready value)

theorem Slot.Settles.trans {before middle after : Slot} (first : before.Settles middle)
    (second : middle.Settles after) : before.Settles after := by
  cases first with
  | fill => exact .fill after
  | keep => exact second
  | finish expr value =>
    cases second with
    | keep => exact .finish expr value

namespace Heap

variable {heap before middle after : Heap} {base id other place : Nat} {places : List Nat}

/-- The frames from some number on. -/
def Since (heap : Heap) (base : Nat) : Trust := fun id => base ≤ id ∧ id < heap.frames.size

theorem Since.mono (size : before.frames.size ≤ after.frames.size) (id : FrameId)
    (known : before.Since base id) : after.Since base id :=
  ⟨known.1, Nat.lt_of_lt_of_le known.2 size⟩

/-- A free slot of a frame. -/
def FreeAt (heap : Heap) (id place : Nat) : Prop :=
  ∃ frame, heap.frame? id = some frame ∧ Free frame.slots place

/-- Slots of a frame that are spare. -/
def SpareAt (heap : Heap) (id : FrameId) (places : List Nat) : Prop :=
  ∃ frame, heap.frame? id = some frame ∧ Spare frame.slots places

def OrderlyFrom (heap : Heap) (base : Nat) : Prop :=
  ∀ id frame, base ≤ id → heap.frame? id = some frame → Orderly frame.slots

/-- Every slot of every frame only changed as slots do while nothing fails. -/
def Settled (before after : Heap) : Prop :=
  ∀ id (frame later : Frame) (slot : Nat) content content', before.frame? id = some frame →
    after.frame? id = some later → frame.slots[slot]? = some content →
    later.slots[slot]? = some content' → content.Settles content'

theorem SpareAt.left {more : List Nat} (spare : heap.SpareAt id (places ++ more)) :
    heap.SpareAt id places :=
  spare.imp fun _ known => ⟨known.1, known.2.left⟩

theorem SpareAt.right {more : List Nat} (spare : heap.SpareAt id (places ++ more)) :
    heap.SpareAt id more :=
  spare.imp fun _ known => ⟨known.1, known.2.right⟩

theorem SpareAt.sublist {more : List Nat} (spare : heap.SpareAt id places)
    (part : more.Sublist places) : heap.SpareAt id more :=
  spare.imp fun _ known => ⟨known.1, part.nodup known.2.nodup, fun place mem =>
    known.2.free place (part.mem mem)⟩

theorem SpareAt.disjoint {more : List Nat} (spare : heap.SpareAt id (places ++ more))
    (mem : place ∈ places) : place ∉ more := by
  obtain ⟨_, -, spare'⟩ := spare
  exact spare'.disjoint mem

theorem SpareAt.free (spare : heap.SpareAt id places) (mem : place ∈ places) :
    heap.FreeAt id place := by
  obtain ⟨frame, found, spare⟩ := spare
  exact ⟨frame, found, spare.free place mem⟩

theorem FreeAt.lt_size (free : heap.FreeAt id place) : id < heap.frames.size := by
  obtain ⟨frame, found, -⟩ := free
  exact lt_size_of_frame? found

theorem Settled.refl (heap : Heap) : Settled heap heap := by
  intro id frame later slot content content' found found' holds holds'
  obtain rfl := Option.some.inj (found.symm.trans found')
  obtain rfl := Option.some.inj (holds.symm.trans holds')
  exact .keep content

theorem Settled.trans (extension : before.Extends middle) (first : Settled before middle)
    (second : Settled middle after) : Settled before after := by
  intro id frame later slot content content' found found' holds holds'
  obtain ⟨between, atMiddle, -, -, size⟩ := extension.kept id frame found
  have inside : slot < between.slots.length := by
    rw [size]
    exact (List.getElem?_eq_some_iff.mp holds).1
  have holds'' := List.getElem?_eq_getElem inside
  exact (first id frame between slot _ _ found atMiddle holds holds'').trans
    (second id between later slot _ _ atMiddle found' holds'' holds')

/-- What is filled stays filled. -/
theorem Settled.grows (extension : before.Extends after) (settled : Settled before after) :
    before.Grows after := by
  refine ⟨extension, fun id slot filled => ?_⟩
  obtain ⟨frame, content, found, holds, nonempty⟩ := filled
  obtain ⟨later, found', -, -, size⟩ := extension.kept id frame found
  have inside : slot < later.slots.length := by
    rw [size]
    exact (List.getElem?_eq_some_iff.mp holds).1
  obtain ⟨content', holds'⟩ : ∃ content, later.slots[slot]? = some content :=
    ⟨_, List.getElem?_eq_getElem inside⟩
  refine ⟨later, content', found', holds', ?_⟩
  cases settled id frame later slot content content' found found' holds holds' with
  | fill => exact (nonempty rfl).elim
  | keep => exact nonempty
  | finish => simp

end Heap

namespace Eval

/-- What an evaluation in the frame `id` leaves of the frames: of the slots that were free only
those at `places` in that frame may be in use. -/
structure Tidied (base : Nat) (start : Heap) (id : FrameId) (places : List Nat) (heap : Heap) :
    Prop where
  extension : start.Extends heap
  settled : start.Settled heap
  spared : ∀ other place, start.FreeAt other place → ¬ (other = id ∧ place ∈ places) →
    heap.FreeAt other place
  orderly : heap.OrderlyFrom base

/-- Frames that are orderly and can be trusted, and values that refer to them. -/
structure Neat (base : Nat) (heap : Heap) (values : List Value) : Prop where
  orderly : heap.OrderlyFrom base
  sound : heap.Sound (heap.Since base)
  trusted : ∀ value ∈ values, heap.Trusts (heap.Since base) value

/-- Code that can run in a frame, once. -/
structure Prepared (base : Nat) (heap : Heap) (id : FrameId) (expr : Expr) : Prop where
  inside : heap.Since base id
  fits : heap.Fits id expr
  spare : heap.SpareAt id expr.letSlots

/-- Code that sees what it reads, and for whose `let`s there are spare slots. -/
theorem Prepared.of_spare {base : Nat} {heap : Heap} {id : FrameId} {expr : Expr}
    (inside : heap.Since base id) (sees : expr.Scoped (heap.visible id))
    (spare : heap.SpareAt id expr.letSlots) : Prepared base heap id expr := by
  obtain ⟨frame, found, spare'⟩ := spare
  exact ⟨inside, ⟨sees, frame, found, fun slot mem =>
    (List.getElem?_eq_some_iff.mp (spare'.free slot mem).1).1⟩, frame, found, spare'⟩

namespace Tidied

variable {base : Nat} {start heap later : Heap} {id other : FrameId} {places more : List Nat}

theorem refl (orderly : start.OrderlyFrom base) : Tidied base start id [] start :=
  ⟨.refl start, .refl start, fun _ _ free _ => free, orderly⟩

theorem andThen (first : Tidied base start id places heap)
    (second : Tidied base heap id more later) : Tidied base start id (places ++ more) later := by
  refine ⟨first.extension.trans second.extension, first.settled.trans first.extension
    second.settled, fun other place free unused => ?_, second.orderly⟩
  refine second.spared other place (first.spared other place free ?_) ?_
  · exact fun used => unused ⟨used.1, List.mem_append_left _ used.2⟩
  · exact fun used => unused ⟨used.1, List.mem_append_right _ used.2⟩

/-- A further evaluation, in a frame whose slots were not free at the start. -/
theorem elsewhere (first : Tidied base start id places heap)
    (second : Tidied base heap other more later)
    (hidden : ∀ place ∈ more, ¬ start.FreeAt other place) :
    Tidied base start id places later := by
  refine ⟨first.extension.trans second.extension, first.settled.trans first.extension
    second.settled, fun frame place free unused => ?_, second.orderly⟩
  refine second.spared frame place (first.spared frame place free unused) ?_
  rintro ⟨rfl, mem⟩
  exact hidden place mem free

theorem widen (tidied : Tidied base start id places heap)
    (included : ∀ place ∈ places, place ∈ more) : Tidied base start id more heap :=
  ⟨tidied.extension, tidied.settled, fun other place free unused =>
    tidied.spared other place free fun used => unused ⟨used.1, included place used.2⟩,
    tidied.orderly⟩

/-- If no slot was used, then it does not matter where the evaluation took place. -/
theorem anywhere (tidied : Tidied base start other [] heap) (id : FrameId) :
    Tidied base start id [] heap :=
  ⟨tidied.extension, tidied.settled, fun frame place free _ =>
    tidied.spared frame place free fun used => by simp at used, tidied.orderly⟩

theorem grows (tidied : Tidied base start id places heap) : start.Grows heap :=
  tidied.settled.grows tidied.extension

/-- What is spare and is not used stays spare. -/
theorem spareAt (tidied : Tidied base start id places heap) (spare : start.SpareAt id more)
    (unused : ∀ place ∈ more, place ∉ places) : heap.SpareAt id more := by
  obtain ⟨frame, found, spare'⟩ := spare
  obtain ⟨after, found', -⟩ := tidied.extension.kept id frame found
  refine ⟨after, found', spare'.nodup, fun place mem => ?_⟩
  obtain ⟨after', found'', free⟩ := tidied.spared id place ⟨frame, found, spare'.free place mem⟩
    fun used => unused place mem used.2
  exact Option.some.inj (found'.symm.trans found'') ▸ free

end Tidied

section Since

variable {base : Nat} {start heap : Heap} {owners : List FrameId} {entry values : List Value}

/-- Frames from some number on are trusted later if they were at the start. -/
theorem Stage.since (stage : Stage start owners entry heap values)
    (sound : start.Sound (start.Since base)) (low : base ≤ start.frames.size)
    (inside : ∀ id ∈ owners, start.Since base id)
    (trusted : ∀ value ∈ entry, start.Trusts (start.Since base) value) :
    heap.Sound (heap.Since base) ∧ ∀ value ∈ values, heap.Trusts (heap.Since base) value := by
  obtain ⟨wider, grown, new, sound', rest⟩ := stage.sound _ sound
  obtain ⟨fresh, trusted'⟩ := rest inside trusted
  have same : wider = heap.Since base := by
    funext id
    refine propext ⟨fun known => ⟨?_, sound'.lt_size known⟩, fun known => ?_⟩
    · rcases new id known with old | late
      · exact old.1
      · exact Nat.le_trans low late
    · by_cases early : id < start.frames.size
      · exact grown id ⟨known.1, early⟩
      · exact fresh id (Nat.le_of_not_lt early) known.2
  exact ⟨same ▸ sound', same ▸ trusted'⟩

theorem Neat.mono (neat : Neat base heap values) {values' : List Value}
    (included : ∀ value ∈ values', value ∈ values) : Neat base heap values' :=
  ⟨neat.orderly, neat.sound, fun value mem => neat.trusted value (included value mem)⟩

end Since

namespace Tidied

section Writing

variable {base : Nat} {heap after : Heap} {id : FrameId} {frame later : Frame} {places : List Nat}

/-- Slots of one frame are written. -/
theorem of_written (orderly : heap.OrderlyFrom base) (extension : heap.Extends after)
    (found : heap.frame? id = some frame) (found' : after.frame? id = some later)
    (same : ∀ other, other ≠ id → after.frame? other = heap.frame? other)
    (settles : ∀ (slot : Nat) content content', frame.slots[slot]? = some content →
      later.slots[slot]? = some content' → content.Settles content')
    (spared : ∀ place, Free frame.slots place → place ∉ places → Free later.slots place)
    (kept : base ≤ id → Orderly later.slots) : Tidied base heap id places after := by
  refine ⟨extension, fun other frame' later' slot content content' atStart atEnd holds holds' => ?_,
    fun other place free unused => ?_, fun other frame' low atEnd => ?_⟩
  · by_cases here : other = id
    · subst here
      obtain rfl := Option.some.inj (found.symm.trans atStart)
      obtain rfl := Option.some.inj (found'.symm.trans atEnd)
      exact settles slot content content' holds holds'
    · rw [same other here, atStart] at atEnd
      obtain rfl := Option.some.inj atEnd
      obtain rfl := Option.some.inj (holds.symm.trans holds')
      exact .keep content
  · obtain ⟨frame', atStart, free⟩ := free
    by_cases here : other = id
    · subst here
      obtain rfl := Option.some.inj (found.symm.trans atStart)
      exact ⟨later, found', spared place free fun mem => unused ⟨rfl, mem⟩⟩
    · exact ⟨frame', (same other here).trans atStart, free⟩
  · by_cases here : other = id
    · subst here
      exact Option.some.inj (found'.symm.trans atEnd) ▸ kept low
    · exact orderly other frame' low ((same other here).symm.trans atEnd)

/-- A new frame is entered. -/
theorem enter (orderly : heap.OrderlyFrom base) (id : FrameId) (slotCount : Nat)
    (env caller : FrameId) (callSite : Option Location) (callDepth : Nat)
    (contents : List (Nat × Slot)) (nonempty : ∀ content ∈ contents, content.2 ≠ .empty)
    (kept : Orderly (setEach (List.replicate slotCount .empty) contents)) :
    Tidied base heap id [] (heap.enter slotCount env caller callSite callDepth contents) := by
  have same (other : FrameId) (old : other ≠ heap.frames.size) :
      (heap.enter slotCount env caller callSite callDepth contents).frame? other =
        heap.frame? other :=
    (Heap.frame?_putEach_ne old.symm).trans
      (Heap.frame?_alloc_ne heap slotCount (some env) (some caller) callSite callDepth old)
  have old {other : FrameId} {frame : Frame} (found : heap.frame? other = some frame) :
      (heap.enter slotCount env caller callSite callDepth contents).frame? other = some frame :=
    (same other (Nat.ne_of_lt (Heap.lt_size_of_frame? found))).trans found
  refine ⟨(Heap.Grows.enter heap slotCount env caller callSite callDepth nonempty).extension,
    fun other frame later slot content content' found found' holds holds' => ?_,
    fun other place free _ => ?_, fun other frame low found => ?_⟩
  · obtain rfl := Option.some.inj ((old found).symm.trans found')
    obtain rfl := Option.some.inj (holds.symm.trans holds')
    exact .keep content
  · obtain ⟨frame, found, free⟩ := free
    exact ⟨frame, old found, free⟩
  · by_cases here : other = heap.frames.size
    · subst here
      exact Option.some.inj (Heap.frame?_enter_self.symm.trans found) ▸ kept
    · exact orderly other frame low ((same other here).symm.trans found)

end Writing

end Tidied

section Slots

variable {slotCount : Nat} {places : List Nat}

private theorem idle_replicate (content : Slot) (mem : content ∈ List.replicate slotCount .empty) :
    content.Idle := by
  obtain rfl := List.eq_of_mem_replicate mem
  exact fun _ same => by cases same

/-- The frame of a call or of a round, whose parameters have values. -/
theorem idle_setEach_readies {slot : Nat} {values : List Value} (content : Slot)
    (mem : content ∈ setEach (List.replicate slotCount .empty) (readies slot values)) :
    content.Idle := by
  obtain ⟨place, holds⟩ := List.getElem?_of_mem mem
  rcases mem_of_getElem?_setEach holds with old | new
  · exact idle_replicate content (List.mem_of_getElem? old)
  · obtain ⟨-, -, value, -, same⟩ := mem_readies new
    obtain rfl : content = .ready value := same
    exact .ready value

theorem spare_setEach_readies {values : List Value}
    (room : Room slotCount (List.range values.length ++ places)) :
    Spare (setEach (List.replicate slotCount .empty) (readies 0 values)) places := by
  refine .of_idle idle_setEach_readies (List.nodup_append'.mp room.nodup).2.1
    fun place mem => ?_
  have outside : place ∉ (readies 0 values).map (·.1) := by
    rw [map_readies, ← List.range_eq_range']
    exact fun param => (List.nodup_append'.mp room.nodup).2.2 param mem
  rw [getElem?_setEach_of_not_mem outside,
    List.getElem?_replicate_of_lt (room.inside place (List.mem_append_right _ mem))]

/-- The frame of a module, whose definitions wait. -/
theorem orderly_setEach_pendings {definitions : List (Nat × Expr)}
    (room : Room slotCount (definitions.map (·.1) ++ definitions.flatMap (·.2.letSlots))) :
    Orderly (setEach (List.replicate slotCount .empty) (pendings definitions)) := by
  have spare : Spare (List.replicate slotCount .empty)
      (definitions.map (·.1) ++ definitions.flatMap (·.2.letSlots) ++ []) := by
    rw [List.append_nil]
    exact .of_idle idle_replicate room.nodup fun place mem =>
      List.getElem?_replicate_of_lt (room.inside place mem)
  exact (Orderly.of_idle idle_replicate).setEach_pendings spare

end Slots

section Entering

variable {base : Nat} {heap : Heap} {id : FrameId} {values : List Value}

theorem Neat.world (neat : Neat base heap values) (inside : heap.Since base id) :
    World heap [id] values :=
  ⟨heap.Since base, neat.sound, by simpa using inside, neat.trusted⟩

theorem Neat.later {later : Heap} {values' : List Value} (neat : Neat base heap values)
    (inside : heap.Since base id) (stage : Stage heap [id] values later values')
    (orderly : later.OrderlyFrom base) : Neat base later values' := by
  obtain ⟨sound, trusted⟩ := stage.since neat.sound
    (Nat.le_trans inside.1 (Nat.le_of_lt inside.2)) (by simpa using inside) neat.trusted
  exact ⟨orderly, sound, trusted⟩

/-- While the definition that waited in a slot is evaluated, it does not wait, and the slots of its
`let`s are spare. -/
theorem orderlyFrom_busy {slot : Nat} {definition : Expr} {frame : Frame}
    (orderly : heap.OrderlyFrom base) (low : base ≤ id) (found : heap.frame? id = some frame)
    (pending : frame.slots[slot]? = some (.pending definition)) :
    (heap.put id slot .busy).OrderlyFrom base ∧
      (heap.put id slot .busy).SpareAt id definition.letSlots := by
  have foundBusy : (heap.put id slot .busy).frame? id =
      some { frame with slots := frame.slots.set slot .busy } := Heap.frame?_put_self found
  refine ⟨fun other frame' low' found' => ?_, _, foundBusy, orderly id frame low found slot _ pending⟩
  by_cases here : other = id
  · subst here
    obtain rfl := Option.some.inj (foundBusy.symm.trans found')
    exact (orderly other frame low found).set .busy (by simp [pending])
  · exact orderly other frame' low' ((Heap.frame?_put_ne (Ne.symm here)).symm.trans found')

theorem Neat.busy {slot : Nat} {definition : Expr} {frame : Frame} (neat : Neat base heap values)
    (inside : heap.Since base id) (found : heap.frame? id = some frame)
    (pending : frame.slots[slot]? = some (.pending definition)) :
    Neat base (heap.put id slot .busy) [] ∧
      Prepared base (heap.put id slot .busy) id definition := by
  obtain ⟨orderly, spare⟩ := orderlyFrom_busy neat.orderly inside.1 found pending
  have since : (heap.put id slot .busy).Since base = heap.Since base := by
    funext other
    simp only [Heap.Since, Heap.put, Heap.size_mapSlots]
  have fits : heap.Fits id definition :=
    neat.sound.fitting id frame slot _ inside found pending
  refine ⟨⟨orderly, ?_, by simp⟩, since ▸ inside, fits.mono (.put heap id slot (by simp)), spare⟩
  rw [since]
  exact neat.sound.put (by simp) fun _ => trivial

/-- The definition that waited in a slot was evaluated, and its value is put into the slot. -/
theorem Tidied.finish {slot : Nat} {definition : Expr} {frame : Frame} {later : Heap}
    {value : Value} (tidied : Tidied base (heap.put id slot .busy) id definition.letSlots later)
    (found : heap.frame? id = some frame)
    (pending : frame.slots[slot]? = some (.pending definition)) :
    Tidied base heap id [] (later.put id slot (.ready value)) := by
  have within : slot < frame.slots.length := (List.getElem?_eq_some_iff.mp pending).1
  have foundBusy : (heap.put id slot .busy).frame? id =
      some { frame with slots := frame.slots.set slot .busy } := Heap.frame?_put_self found
  obtain ⟨after, found', -, -, size⟩ := tidied.extension.kept id _ foundBusy
  have within' : slot < after.slots.length := by simpa [size] using within
  obtain ⟨content, holds⟩ : ∃ content, after.slots[slot]? = some content :=
    ⟨_, List.getElem?_eq_getElem within'⟩
  have settles := tidied.settled id _ after slot .busy content foundBusy found'
    (List.getElem?_set_self within) holds
  have foundReady : (later.put id slot (.ready value)).frame? id =
      some { after with slots := after.slots.set slot (.ready value) } :=
    Heap.frame?_put_self found'
  -- The slot was waiting before and has its value afterwards; every other slot is as evaluation
  -- has left it.
  refine ⟨((Heap.Extends.put heap id slot .busy).trans tidied.extension).trans
      (.put later id slot (.ready value)),
    fun other frame' last place content content' atStart atEnd holds holds' => ?_,
    fun other place free _ => ?_, fun other frame' low atEnd => ?_⟩
  · by_cases here : other = id
    · subst here
      obtain rfl := Option.some.inj (found.symm.trans atStart)
      obtain rfl := Option.some.inj (foundReady.symm.trans atEnd)
      by_cases same : slot = place
      · subst same
        obtain rfl := Option.some.inj (pending.symm.trans holds)
        obtain rfl := Option.some.inj ((List.getElem?_set_self within').symm.trans holds')
        exact .finish definition value
      · refine tidied.settled other _ after place content content' foundBusy found' ?_ ?_
        · rwa [List.getElem?_set_ne same]
        · rwa [List.getElem?_set_ne same] at holds'
    · refine tidied.settled other frame' last place content content' ?_ ?_ holds holds'
      · rwa [Heap.frame?_put_ne (Ne.symm here)]
      · rwa [Heap.frame?_put_ne (Ne.symm here)] at atEnd
  · obtain ⟨frame', atStart, free⟩ := free
    by_cases here : other = id
    · subst here
      obtain rfl := Option.some.inj (found.symm.trans atStart)
      have different : slot ≠ place := by
        rintro rfl
        rw [free.1] at pending
        cases pending
      obtain ⟨after', found'', free'⟩ := tidied.spared other place
        ⟨_, foundBusy, free.set .busy different⟩ fun used => free.2 slot definition pending used.2
      obtain rfl := Option.some.inj (found'.symm.trans found'')
      exact ⟨_, foundReady, free'.set (.ready value) different⟩
    · obtain ⟨after', found'', free'⟩ := tidied.spared other place
        ⟨frame', (Heap.frame?_put_ne (Ne.symm here)).trans atStart, free⟩ fun used => here used.1
      exact ⟨after', (Heap.frame?_put_ne (Ne.symm here)).trans found'', free'⟩
  · by_cases here : other = id
    · subst here
      obtain rfl := Option.some.inj (foundReady.symm.trans atEnd)
      refine (tidied.orderly other after low found').set (.ready value) ?_
      cases settles
      simp [holds]
    · exact tidied.orderly other frame' low
        ((Heap.frame?_put_ne (Ne.symm here)).symm.trans atEnd)

private theorem since_enter {slotCount : Nat} {env caller : FrameId}
    {callSite : Option Location} {callDepth : Nat} {contents : List (Nat × Slot)}
    (low : base ≤ heap.frames.size) :
    (heap.enter slotCount env caller callSite callDepth contents).Since base =
      fun other => heap.Since base other ∨ other = heap.frames.size := by
  funext other
  simp only [Heap.Since, Heap.size_enter]
  refine propext ⟨fun known => ?_, fun known => ?_⟩
  · rcases Nat.lt_succ_iff_lt_or_eq.mp known.2 with early | rfl
    · exact .inl ⟨known.1, early⟩
    · exact .inr rfl
  · rcases known with known | rfl
    · exact ⟨known.1, Nat.lt_succ_of_lt known.2⟩
    · exact ⟨low, Nat.lt_succ_self _⟩

/-- A new frame is entered whose contents fit. -/
theorem Neat.enter (neat : Neat base heap values) (slotCount : Nat) (env caller : FrameId)
    (callSite : Option Location) (callDepth : Nat) (contents : List (Nat × Slot))
    (inside : heap.Since base env) (nonempty : ∀ content ∈ contents, content.2 ≠ .empty)
    (kept : Orderly (setEach (List.replicate slotCount .empty) contents))
    (fitting : ∀ content ∈ contents,
      (heap.enter slotCount env caller callSite callDepth contents).Fitting
        ((heap.enter slotCount env caller callSite callDepth contents).Since base)
        heap.frames.size content.2) :
    Neat base (heap.enter slotCount env caller callSite callDepth contents) values := by
  have low := Nat.le_trans inside.1 (Nat.le_of_lt inside.2)
  have grows := Heap.Grows.enter heap slotCount env caller callSite callDepth nonempty
  refine ⟨(Tidied.enter neat.orderly env slotCount env caller callSite callDepth contents nonempty
    kept).orderly, ?_, fun value mem => (neat.trusted value mem).mono grows
    (Heap.Since.mono grows.extension.size_le)⟩
  rw [since_enter low] at fitting ⊢
  refine Heap.Sound.putEach (neat.sound.alloc_trusted fun outer same => ?_) nonempty fun _ => fitting
  exact Option.some.inj same ▸ inside

/-- A root frame. Nothing is known of the frames from before. -/
theorem Neat.root (heap : Heap) (slotCount callDepth : Nat) (caller : Option FrameId) :
    Neat heap.frames.size (heap.alloc slotCount none caller none callDepth).2 [] := by
  have nothing : heap.Sound fun _ => False :=
    ⟨fun _ known => known.elim, fun _ _ _ known => known.elim, fun _ _ _ _ known => known.elim⟩
  have size : (heap.alloc slotCount none caller none callDepth).2.frames.size =
      heap.frames.size + 1 := by simp [Heap.alloc]
  have only : (heap.alloc slotCount none caller none callDepth).2.Since heap.frames.size =
      fun id => False ∨ id = heap.frames.size := by
    funext id
    simp only [Heap.Since, size, false_or, eq_iff_iff]
    constructor
    · exact fun known => Nat.le_antisymm (Nat.le_of_lt_succ known.2) known.1
    · rintro rfl
      exact ⟨Nat.le_refl _, Nat.lt_succ_self _⟩
  refine ⟨fun id frame low found => ?_, only ▸ nothing.alloc_trusted (by simp), by simp⟩
  have inside := Heap.lt_size_of_frame? found
  rw [size] at inside
  obtain rfl : id = heap.frames.size := Nat.le_antisymm (Nat.le_of_lt_succ inside) low
  obtain rfl := Option.some.inj ((Heap.frame?_alloc_self ..).symm.trans found)
  exact .of_idle idle_replicate

theorem spareAt_root {places : List Nat} {slotCount : Nat} (heap : Heap) (callDepth : Nat)
    (caller : Option FrameId) (room : Room slotCount places) :
    (heap.alloc slotCount none caller none callDepth).2.SpareAt heap.frames.size places :=
  ⟨_, Heap.frame?_alloc_self .., .of_idle idle_replicate room.nodup fun place mem =>
    List.getElem?_replicate_of_lt (room.inside place mem)⟩

section Parameters

variable {slotCount : Nat} {env : FrameId} {args : List Value}

theorem Neat.enter_values (neat : Neat base heap values) (caller : FrameId)
    (callSite : Option Location) (callDepth : Nat) (inside : heap.Since base env)
    (given : ∀ arg ∈ args, arg ∈ values) :
    Neat base (heap.enter slotCount env caller callSite callDepth (readies 0 args)) values := by
  have nonempty : ∀ content ∈ readies 0 args, content.2 ≠ .empty := readies_nonempty
  have grows := Heap.Grows.enter heap slotCount env caller callSite callDepth nonempty
  refine neat.enter slotCount env caller callSite callDepth (readies 0 args) inside nonempty
    (.of_idle idle_setEach_readies) fun content mem => ?_
  obtain ⟨-, -, arg, mem, same⟩ := mem_readies mem
  rw [same]
  exact (neat.trusted arg (given arg mem)).mono grows (Heap.Since.mono grows.extension.size_le)

/-- The body of a function in the frame of a call. -/
theorem Prepared.enter_values {body : Expr} (caller : FrameId) (callSite : Option Location)
    (callDepth : Nat) (inside : heap.Since base env)
    (room : Room slotCount (List.range args.length ++ body.letSlots))
    (sees : body.Scoped ((heap.visible env).enter (List.range args.length))) :
    Prepared base (heap.enter slotCount env caller callSite callDepth (readies 0 args))
      heap.frames.size body := by
  refine ⟨⟨Nat.le_trans inside.1 (Nat.le_of_lt inside.2), ?_⟩, ?_, _, Heap.frame?_enter_self,
    spare_setEach_readies room⟩
  · rw [Heap.size_enter]
    exact Nat.lt_succ_self _
  · refine Heap.fits_enter _ sees readies_nonempty (fun slot mem => ?_) room.inside
    have inRange : slot ∈ (readies 0 args).map (·.1) := by
      rw [map_readies]
      simpa using mem
    exact List.mem_map.mp inRange

end Parameters

end Entering

section Bindings

variable {base : Nat} {start : Heap} {id : FrameId} {values : List Value} {location : Location}
  {bindings : List (Nat × Expr)} {body : Expr}

theorem Tidied.storeLet (orderly : start.OrderlyFrom base)
    (spare : start.SpareAt id (Expr.letIn location bindings body).letSlots) :
    Tidied base start id (bindings.map (·.1) ++ bindings.flatMap (·.2.letSlots))
      (start.putEach id (pendings bindings)) := by
  obtain ⟨frame, found, spare'⟩ := spare
  rw [Expr.letSlots_letIn] at spare'
  refine .of_written orderly (Heap.Grows.putEach start id pendings_nonempty).extension found
    (Heap.frame?_putEach_self found) (fun other different => Heap.frame?_putEach_ne different.symm)
    (fun slot content content' holds holds' => ?_) (fun place free => free.setEach_pendings)
    fun low => (orderly id frame low found).setEach_pendings spare'
  rcases mem_of_getElem?_setEach holds' with old | new
  · obtain rfl := Option.some.inj (holds.symm.trans old)
    exact .keep content
  · obtain ⟨binding, mem, same⟩ := List.mem_map.mp new
    obtain ⟨rfl, rfl⟩ := Prod.mk.inj same
    have free := spare'.left.left.free binding.1 (List.mem_map_of_mem mem)
    obtain rfl := Option.some.inj (holds.symm.trans free.1)
    exact .fill _

/-- After its bindings are stored, the body of a `let` can run. -/
theorem Prepared.storeLet (neat : Neat base start values)
    (prepared : Prepared base start id (.letIn location bindings body)) :
    Neat base (start.putEach id (pendings bindings)) values ∧
      Prepared base (start.putEach id (pendings bindings)) id body := by
  have tidied := Tidied.storeLet neat.orderly prepared.spare
  have spare := prepared.spare
  rw [Expr.letSlots_letIn] at spare
  obtain ⟨frame, found, roomy⟩ := prepared.fits.room
  have stored (binding : Nat × Expr) (mem : binding ∈ bindings) :
      binding.1 < frame.slots.length := by
    refine roomy binding.1 ?_
    rw [Expr.letSlots_letIn, List.append_assoc]
    exact List.mem_append_left _ (List.mem_map_of_mem mem)
  have extended (depth slot : Nat)
      (seen : (start.visible id).extend (bindings.map (·.1)) depth slot) :
      (start.putEach id (pendings bindings)).visible id depth slot := by
    rcases seen with ⟨rfl, mem⟩ | seen
    · obtain ⟨binding, bound, rfl⟩ := List.mem_map.mp mem
      exact ⟨id, rfl, Heap.filled_putEach found pendings_nonempty
        (List.mem_map_of_mem bound) (stored binding bound)⟩
    · exact tidied.grows.visible depth slot seen
  obtain ⟨parts, rest⟩ : (∀ binding ∈ bindings,
      binding.2.Scoped ((start.visible id).extend (bindings.map (·.1)))) ∧
      body.Scoped ((start.visible id).extend (bindings.map (·.1))) := by
    cases prepared.fits.sees with
    | letIn parts rest => exact ⟨parts, rest⟩
  have since : (start.putEach id (pendings bindings)).Since base = start.Since base := by
    funext other
    simp only [Heap.Since, Heap.size_putEach]
  refine ⟨⟨tidied.orderly, ?_, fun value mem => ?_⟩, .of_spare (since ▸ prepared.inside)
    (rest.mono extended) (tidied.spareAt spare.right fun _ mem mem' => spare.disjoint mem' mem)⟩
  · rw [since]
    refine neat.sound.putEach pendings_nonempty fun _ content mem => ?_
    obtain ⟨binding, bound, rfl⟩ := List.mem_map.mp mem
    refine ⟨(parts binding bound).mono extended, _, Heap.frame?_putEach_self found,
      fun slot inner => ?_⟩
    have mem' : slot ∈ (Expr.letIn location bindings body).letSlots := by
      rw [Expr.letSlots_letIn]
      exact List.mem_append_left _
        (List.mem_append_right _ (List.mem_flatMap.mpr ⟨binding, bound, inner⟩))
    simpa using roomy slot mem'
  · exact (neat.trusted value mem).mono tidied.grows (Heap.Since.mono tidied.extension.size_le)

end Bindings

end Eval

end ShapeLang
