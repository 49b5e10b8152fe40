import ShapeLang.Proofs.Frame.Batch

/-! # Trust during evaluation

What is trusted when an evaluation starts is trusted when it ends, together with frames that were
made in between. This holds for every trusted set, whether or not the evaluation takes place
inside it: an evaluation outside of the set can only reach in by forcing definitions.
-/

namespace ShapeLang

namespace Eval

/-- Some set of frames is trusted that has the given frames and that the given values refer to. -/
def World (heap : Heap) (owners : List FrameId) (values : List Value) : Prop :=
  ∃ trust, heap.Sound trust ∧ (∀ id ∈ owners, trust id) ∧
    ∀ value ∈ values, heap.Trusts trust value

/-- A heap that is reached from `start`. If the owners and the entry values were trusted there, then
so are the given values and all frames that were made since. -/
structure Stage (start : Heap) (owners : List FrameId) (entry : List Value) (heap : Heap)
    (values : List Value) : Prop where
  grows : start.Grows heap
  sound : ∀ trust, start.Sound trust → ∃ wider : Trust, (∀ id, trust id → wider id) ∧
    (∀ id, wider id → trust id ∨ start.frames.size ≤ id) ∧ heap.Sound wider ∧
    ((∀ id ∈ owners, trust id) → (∀ value ∈ entry, start.Trusts trust value) →
      (∀ id, start.frames.size ≤ id → id < heap.frames.size → wider id) ∧
      ∀ value ∈ values, heap.Trusts wider value)

/-- A fault that leaves what was trusted trusted. -/
def Broken (start : Heap) (owners : List FrameId) (entry : List Value) (fault : Fault)
    (heap : Heap) : Prop :=
  fault.Harmless ∧ Stage start owners entry heap []

namespace Stage

variable {start heap later : Heap} {owners owners' : List FrameId}
  {entry entry' values values' : List Value}

/-- What holds of every trusted set at this point in which evaluation takes place. -/
def Secures (start : Heap) (owners : List FrameId) (heap : Heap) (values : List Value)
    (claim : Trust → Prop) : Prop :=
  ∀ trust, heap.Sound trust → (∀ id ∈ owners, trust id) →
    (∀ id, start.frames.size ≤ id → id < heap.frames.size → trust id) →
    (∀ value ∈ values, heap.Trusts trust value) → claim trust

theorem refl (start : Heap) (owners : List FrameId) (entry : List Value) :
    Stage start owners entry start entry :=
  ⟨.refl start, fun trust sound => ⟨trust, fun _ known => known, fun _ known => .inl known, sound,
    fun _ trusted => ⟨fun _ low high => by omega, trusted⟩⟩⟩

/-- The trusted set in which evaluation takes place. -/
theorem witness (stage : Stage start owners entry heap values) (world : World start owners entry) :
    ∃ trust, heap.Sound trust ∧ (∀ id ∈ owners, trust id) ∧
      (∀ id, start.frames.size ≤ id → id < heap.frames.size → trust id) ∧
      ∀ value ∈ values, heap.Trusts trust value := by
  obtain ⟨trust, sound, inside, trusted⟩ := world
  obtain ⟨wider, grown, -, sound', rest⟩ := stage.sound trust sound
  obtain ⟨fresh, trusted'⟩ := rest inside trusted
  exact ⟨wider, sound', fun id mem => grown id (inside id mem), fresh, trusted'⟩

theorem secured (stage : Stage start owners entry heap values) (world : World start owners entry)
    {claim : Prop} (secures : Secures start owners heap values fun _ => claim) : claim := by
  obtain ⟨trust, sound, inside, fresh, trusted⟩ := stage.witness world
  exact secures trust sound inside fresh trusted

/-- A further evaluation, whose frames and values are trusted here. -/
theorem andThen (first : Stage start owners entry heap values)
    (second : Stage heap owners' entry' later values')
    (enter : Secures start owners heap values fun trust =>
      (∀ id ∈ owners', trust id) ∧ ∀ value ∈ entry', heap.Trusts trust value) :
    Stage start owners entry later (values' ++ values) := by
  refine ⟨first.grows.trans second.grows, fun trust sound => ?_⟩
  obtain ⟨wider, grown, new, sound', inside⟩ := first.sound trust sound
  obtain ⟨widest, grown', new', sound'', inside'⟩ := second.sound wider sound'
  have size := first.grows.extension.size_le
  refine ⟨widest, fun id known => grown' id (grown id known), fun id known => ?_, sound'',
    fun here trusted => ?_⟩
  · rcases new' id known with known | late
    · exact new id known
    · exact .inr (Nat.le_trans size late)
  · obtain ⟨fresh, trusted'⟩ := inside here trusted
    obtain ⟨here', entered⟩ := enter wider sound' (fun id mem => grown id (here id mem)) fresh
      trusted'
    obtain ⟨fresh', trusted''⟩ := inside' here' entered
    refine ⟨fun id low high => ?_, fun value mem => ?_⟩
    · by_cases early : id < heap.frames.size
      · exact grown' id (fresh id low early)
      · exact fresh' id (Nat.le_of_not_lt early) high
    · rcases List.mem_append.mp mem with mem | mem
      · exact trusted'' value mem
      · exact (trusted' value mem).mono second.grows grown'

/-- Values that are trusted whenever those at hand are. -/
theorem derive (stage : Stage start owners entry heap values)
    (secures : Secures start owners heap values fun trust =>
      ∀ value ∈ values', heap.Trusts trust value) :
    Stage start owners entry heap values' := by
  refine ⟨stage.grows, fun trust sound => ?_⟩
  obtain ⟨wider, grown, new, sound', inside⟩ := stage.sound trust sound
  refine ⟨wider, grown, new, sound', fun here trusted => ?_⟩
  obtain ⟨fresh, trusted'⟩ := inside here trusted
  exact ⟨fresh, secures wider sound' (fun id mem => grown id (here id mem)) fresh trusted'⟩

theorem subset (stage : Stage start owners entry heap values)
    (included : ∀ value ∈ values', value ∈ values) : Stage start owners entry heap values' :=
  stage.derive fun _ _ _ _ trusted value mem => trusted value (included value mem)

theorem push (stage : Stage start owners entry heap values) {value : Value}
    (secures : Secures start owners heap values fun trust => heap.Trusts trust value) :
    Stage start owners entry heap (value :: values) :=
  stage.derive fun trust sound inside fresh trusted other mem => by
    rcases List.mem_cons.mp mem with rfl | mem
    · exact secures trust sound inside fresh trusted
    · exact trusted other mem

theorem push_plain (stage : Stage start owners entry heap values) {value : Value}
    (plain : value.Plain) : Stage start owners entry heap (value :: values) :=
  stage.push fun _ _ _ _ _ => plain.holds

theorem broken (stage : Stage start owners entry heap values) (e : Exception) :
    Broken start owners entry (.exception e) heap :=
  ⟨.exception e, stage.subset (by simp)⟩

theorem close (stage : Stage start owners entry heap values) (closures : Nat) :
    Stage start owners entry { heap with closures } values := by
  refine ⟨stage.grows.trans (.close heap closures), fun trust sound => ?_⟩
  obtain ⟨wider, grown, new, sound', inside⟩ := stage.sound trust sound
  refine ⟨wider, grown, new, sound'.close closures, fun here trusted => ?_⟩
  obtain ⟨fresh, trusted'⟩ := inside here trusted
  exact ⟨fresh, fun value mem =>
    (trusted' value mem).mono (.close heap closures) fun _ known => known⟩

/-- Definitions that fit their frame are stored in it. -/
theorem putEach (stage : Stage start owners entry heap values) (id : FrameId)
    (contents : List (Nat × Slot)) (nonempty : ∀ content ∈ contents, content.2 ≠ .empty)
    (fitting : ∀ trust : Trust, ∀ content ∈ contents,
      (heap.putEach id contents).Fitting trust id content.2) :
    Stage start owners entry (heap.putEach id contents) values := by
  have grows := Heap.Grows.putEach heap id nonempty
  refine ⟨stage.grows.trans grows, fun trust sound => ?_⟩
  obtain ⟨wider, grown, new, sound', inside⟩ := stage.sound trust sound
  refine ⟨wider, grown, new, sound'.putEach nonempty fun _ => fitting wider, fun here trusted => ?_⟩
  obtain ⟨fresh, trusted'⟩ := inside here trusted
  rw [Heap.size_putEach]
  exact ⟨fresh, fun value mem => (trusted' value mem).mono grows fun _ known => known⟩

end Stage

end Eval

namespace Heap

/-- A new frame around which lies the frame `env`, with something in its slots already. -/
def enter (heap : Heap) (slotCount : Nat) (env caller : FrameId) (callSite : Option Location)
    (callDepth : Nat) (contents : List (Nat × Slot)) : Heap :=
  (heap.alloc slotCount (some env) (some caller) callSite callDepth).2.putEach heap.frames.size
    contents

section Enter

variable {heap : Heap} {slotCount : Nat} {env caller : FrameId} {callSite : Option Location}
  {callDepth : Nat} {contents : List (Nat × Slot)}

theorem frame?_enter_self :
    (heap.enter slotCount env caller callSite callDepth contents).frame? heap.frames.size =
      some ⟨setEach (List.replicate slotCount .empty) contents, some env, some caller, callSite,
        callDepth⟩ :=
  frame?_putEach_self (frame?_alloc_self heap slotCount (some env) (some caller) callSite callDepth)

theorem size_enter :
    (heap.enter slotCount env caller callSite callDepth contents).frames.size =
      heap.frames.size + 1 :=
  size_putEach.trans (size_alloc heap slotCount (some env) (some caller) callSite callDepth)

theorem Grows.enter (heap : Heap) (slotCount : Nat) (env caller : FrameId)
    (callSite : Option Location) (callDepth : Nat)
    (nonempty : ∀ content ∈ contents, content.2 ≠ .empty) :
    heap.Grows (heap.enter slotCount env caller callSite callDepth contents) :=
  (Grows.alloc heap slotCount (some env) (some caller) callSite callDepth).trans
    (.putEach _ _ nonempty)

/-- Code that runs in the new frame. -/
theorem fits_enter {expr : Expr} (slots : List Nat)
    (sees : expr.Scoped ((heap.visible env).enter slots))
    (nonempty : ∀ content ∈ contents, content.2 ≠ .empty)
    (stored : ∀ slot ∈ slots, ∃ content ∈ contents, content.1 = slot)
    (room : ∀ slot ∈ slots ++ expr.letSlots, slot < slotCount) :
    (heap.enter slotCount env caller callSite callDepth contents).Fits heap.frames.size expr := by
  have allocated := frame?_alloc_self heap slotCount (some env) (some caller) callSite callDepth
  refine ⟨sees.mono fun depth slot seen => ?_, _, frame?_enter_self, fun slot mem => ?_⟩
  · cases depth with
    | zero =>
      obtain ⟨content, mem, rfl⟩ := stored slot seen
      refine ⟨_, rfl, filled_putEach allocated nonempty mem ?_⟩
      simpa [fresh] using room content.1 (List.mem_append_left _ seen)
    | succ depth =>
      obtain ⟨owner, reached, filled⟩ := (Grows.enter heap slotCount env
        caller callSite callDepth nonempty).visible depth slot seen
      exact ⟨owner, ancestor?_succ_eq_some_iff.mpr ⟨_, env, frame?_enter_self, rfl, reached⟩,
        filled⟩
  · simpa using room slot (List.mem_append_right _ mem)

end Enter

end Heap

namespace Eval.Stage

variable {start heap : Heap} {owners : List FrameId} {entry values : List Value} {slotCount : Nat}
  {env caller : FrameId} {callSite : Option Location} {callDepth : Nat}
  {contents : List (Nat × Slot)}

/-- Entering a new frame. -/
theorem enter (stage : Stage start owners entry heap values) (slotCount : Nat)
    (env caller : FrameId) (callSite : Option Location) (callDepth : Nat)
    (contents : List (Nat × Slot)) (nonempty : ∀ content ∈ contents, content.2 ≠ .empty)
    (outer : Secures start owners heap values (· env))
    (fitting : Secures start owners heap values fun trust => ∀ content ∈ contents,
      (heap.enter slotCount env caller callSite callDepth contents).Fitting
        (fun id => trust id ∨ id = heap.frames.size) heap.frames.size content.2) :
    Stage start owners entry (heap.enter slotCount env caller callSite callDepth contents)
      values := by
  have grows := Heap.Grows.enter heap slotCount env caller callSite callDepth nonempty
  have size := stage.grows.extension.size_le
  refine ⟨stage.grows.trans grows, fun trust sound => ?_⟩
  obtain ⟨wider, grown, new, sound', inside⟩ := stage.sound trust sound
  by_cases here : (∀ id ∈ owners, trust id) ∧ ∀ value ∈ entry, start.Trusts trust value
  · obtain ⟨fresh, trusted⟩ := inside here.1 here.2
    have owned : ∀ id ∈ owners, wider id := fun id mem => grown id (here.1 id mem)
    refine ⟨fun id => wider id ∨ id = heap.frames.size, fun id known => .inl (grown id known), ?_,
      Heap.Sound.putEach (sound'.alloc_trusted ?_) nonempty fun _ =>
        fitting wider sound' owned fresh trusted, fun _ _ => ⟨fun id low high => ?_,
        fun value mem => (trusted value mem).mono grows fun _ => .inl⟩⟩
    · rintro id (known | rfl)
      · exact new id known
      · exact .inr size
    · rintro id same
      obtain rfl := Option.some.inj same
      exact outer wider sound' owned fresh trusted
    · rw [Heap.size_enter] at high
      by_cases early : id < heap.frames.size
      · exact .inl (fresh id low early)
      · exact .inr (Nat.le_antisymm (Nat.le_of_lt_succ high) (Nat.le_of_not_lt early))
  · refine ⟨wider, grown, new, sound'.alloc.putEach nonempty fun known => ?_, fun owned trusted =>
      (here ⟨owned, trusted⟩).elim⟩
    exact (Nat.lt_irrefl _ (sound'.lt_size known)).elim

end Eval.Stage

end ShapeLang
