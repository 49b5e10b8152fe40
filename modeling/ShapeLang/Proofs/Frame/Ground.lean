import ShapeLang.Proofs.Frame.Callers
import ShapeLang.Proofs.Value.Contents

/-! # The ground that a program stands on

A program is evaluated in frames that were made after all others, and none of them refers to a frame
from before. So it makes no difference to the program what its root frame stands on. It shows in two
places: depths are counted from there, and the lists of callers go on there if they get to the root
frame.
-/

namespace ShapeLang

/-- What the root frame of a program stands on: the frame that asked for the program, a call site
and the number of calls around. -/
structure Ground where
  caller : Option FrameId
  callSite : Option Location
  depth : Nat

/-- A frame as it is if the root frame stands on the ground. -/
def Frame.on (ground : Ground) (root id : FrameId) (frame : Frame) : Frame :=
  if id < root then frame
  else
    { frame with
      caller := if id = root then ground.caller else frame.caller
      callSite := if id = root then ground.callSite else frame.callSite
      depth := frame.depth + ground.depth }

namespace Frame

variable (ground : Ground) (root id : FrameId) (frame : Frame)

theorem slots_on : (frame.on ground root id).slots = frame.slots := by
  unfold on
  split <;> rfl

theorem parent_on : (frame.on ground root id).parent = frame.parent := by
  unfold on
  split <;> rfl

theorem references_on : (frame.on ground root id).references = frame.references := by
  rw [references, references, slots_on, parent_on]

variable {root id}

theorem depth_on (above : root ≤ id) :
    (frame.on ground root id).depth = frame.depth + ground.depth := by
  rw [on, if_neg (Nat.not_lt.mpr above)]

theorem on_before (before : id < root) : frame.on ground root id = frame := if_pos before

theorem caller_on (above : root < id) : (frame.on ground root id).caller = frame.caller := by
  rw [on, if_neg (Nat.not_lt.mpr (Nat.le_of_lt above)), if_neg (Nat.ne_of_gt above)]

theorem callSite_on (above : root < id) : (frame.on ground root id).callSite = frame.callSite := by
  rw [on, if_neg (Nat.not_lt.mpr (Nat.le_of_lt above)), if_neg (Nat.ne_of_gt above),
    if_neg (Nat.ne_of_gt above)]

theorem on_root : frame.on ground root root =
    { frame with
      caller := ground.caller
      callSite := ground.callSite
      depth := frame.depth + ground.depth } := by
  simp [on]

end Frame

namespace Heap

/-- The frames as they are if the root frame stands on the ground. -/
def on (heap : Heap) (root : FrameId) (ground : Ground) : Heap :=
  { heap with frames := heap.frames.mapIdx (Frame.on ground root) }

/-- Whether the list of callers of a frame gets to another frame before it ends. -/
def reaches (heap : Heap) (live : ReferenceCounts) (target : FrameId) : Nat → FrameId → Bool
  | 0, _ => false
  | fuel + 1, id =>
    id = target ||
      match (heap.frame? id).bind (·.caller) with
      | some caller => live[caller]?.getD 0 ≠ 0 && heap.reaches live target fuel caller
      | none => false

section On

variable (heap : Heap) (root : FrameId) (ground : Ground)

theorem frame?_on (id : FrameId) :
    (heap.on root ground).frame? id = (heap.frame? id).map (Frame.on ground root id) := by
  simp [on, frame?]

theorem size_on : (heap.on root ground).frames.size = heap.frames.size := by
  simp [on]

theorem references_on (id : FrameId) :
    (heap.on root ground).references id = heap.references id := by
  unfold references
  rw [frame?_on]
  cases heap.frame? id with
  | none => rfl
  | some frame => exact frame.references_on ground root id

theorem live_on (roots : List FrameId) (id : FrameId) :
    (heap.on root ground).Live roots id ↔ heap.Live roots id :=
  live_congr (fun _ _ => by rw [size_on]) (fun _ _ => Iff.rfl)
    (fun _ _ holder => by rw [references_on]) (fun _ _ _ _ => trivial) (trivial : True)

theorem ancestor?_on (id : FrameId) (depth : Nat) :
    (heap.on root ground).ancestor? id depth = heap.ancestor? id depth := by
  induction depth generalizing id with
  | zero => rfl
  | succ depth ih =>
    have parent : ((heap.on root ground).frame? id).bind (·.parent) =
        (heap.frame? id).bind (·.parent) := by
      rw [frame?_on]
      cases heap.frame? id with
      | none => rfl
      | some frame => exact frame.parent_on ground root id
    unfold ancestor?
    rw [parent]
    cases (heap.frame? id).bind (·.parent) with
    | none => rfl
    | some parent => exact ih parent

theorem put_on (id slot : Nat) (content : Slot) :
    (heap.put id slot content).on root ground = (heap.on root ground).put id slot content := by
  unfold on put mapSlots
  dsimp only
  congr 1
  apply Array.ext_getElem?
  intro other
  simp only [Array.getElem?_mapIdx, Array.getElem?_modify]
  split
  · rw [Option.map_map, Option.map_map]
    congr 1
    funext frame
    simp only [Function.comp_apply, Frame.on]
    split <;> rfl
  · rfl

theorem alloc_on {root : FrameId} (above : root < heap.frames.size) (slotCount : Nat)
    (parent caller : Option FrameId) (callSite : Option Location) (depth : Nat) :
    (heap.alloc slotCount parent caller callSite depth).2.on root ground =
      ((heap.on root ground).alloc slotCount parent caller callSite (depth + ground.depth)).2 := by
  have new : (Frame.mk (List.replicate slotCount .empty) parent caller callSite depth).on ground
      root heap.frames.size =
        ⟨List.replicate slotCount .empty, parent, caller, callSite, depth + ground.depth⟩ := by
    rw [Frame.on, if_neg (Nat.not_lt.mpr (Nat.le_of_lt above)), if_neg (Nat.ne_of_gt above),
      if_neg (Nat.ne_of_gt above)]
  simp only [alloc, on, Array.mapIdx_push, new]

/-- A root frame that is made on the ground is one that is made without, put on the ground. -/
theorem root_on (slotCount : Nat) :
    (heap.alloc slotCount none none none 0).2.on heap.frames.size ground =
      (heap.alloc slotCount none ground.caller ground.callSite ground.depth).2 := by
  have new : (Frame.mk (List.replicate slotCount .empty) none none none 0).on ground
      heap.frames.size heap.frames.size =
        ⟨List.replicate slotCount .empty, none, ground.caller, ground.callSite, ground.depth⟩ := by
    simp [Frame.on]
  have old : heap.frames.mapIdx (Frame.on ground heap.frames.size) = heap.frames := by
    apply Array.ext_getElem?
    intro id
    rw [Array.getElem?_mapIdx]
    cases found : heap.frames[id]? with
    | none => rfl
    | some frame => exact congrArg some (frame.on_before ground (lt_size_of_frame? found))
  simp only [alloc, on, Array.mapIdx_push, new, old]

end On

/-- The frames from a program's root frame on refer to each other only; the frames from before are
as they were when the root frame was made. -/
structure Secluded (start heap : Heap) : Prop where
  size : start.frames.size < heap.frames.size
  before : ∀ id, id < start.frames.size → heap.frame? id = start.frame? id
  unsigned : ∀ frame, heap.frame? start.frames.size = some frame → frame.callSite = none
  caller : ∀ {id : Nat} {frame}, start.frames.size ≤ id → heap.frame? id = some frame →
    ∀ {caller : Nat}, frame.caller = some caller → start.frames.size ≤ caller ∧ caller < id
  parent : ∀ {id : Nat} {frame}, start.frames.size ≤ id → heap.frame? id = some frame →
    ∀ {parent : Nat}, frame.parent = some parent → start.frames.size ≤ parent
  values : ∀ {id slot : Nat} {frame : Frame} {value}, start.frames.size ≤ id →
    heap.frame? id = some frame → frame.slots[slot]? = some (.ready value) →
      value.Inside (start.frames.size ≤ ·)

namespace Secluded

variable {start heap : Heap} {id slot : Nat} {held inner : List Held}

/-- The root frame alone. -/
theorem root (start : Heap) (slotCount : Nat) :
    Secluded start (start.alloc slotCount none none none 0).2 := by
  have new {id : Nat} {frame : Frame} (above : start.frames.size ≤ id)
      (found : (start.alloc slotCount none none none 0).2.frame? id = some frame) :
      frame = fresh slotCount none none none 0 := by
    have size := lt_size_of_frame? found
    rw [size_alloc] at size
    obtain rfl : id = start.frames.size := by omega
    exact Option.some.inj (found.symm.trans (frame?_alloc_self ..))
  constructor
  · rw [size_alloc]
    exact Nat.lt_succ_self _
  · exact fun id before => frame?_alloc_ne _ _ _ _ _ _ (Nat.ne_of_lt before)
  · intro frame found
    rw [new (Nat.le_refl _) found]
    rfl
  · intro id frame above found caller called
    rw [new above found] at called
    cases called
  · intro id frame above found parent around
    rw [new above found] at around
    cases around
  · intro id slot frame value above found content
    rw [new above found] at content
    simp [fresh, List.getElem?_replicate] at content

variable (secluded : Secluded start heap)
include secluded

theorem put (above : start.frames.size ≤ id) {content : Slot}
    (inside : ∀ value, content = .ready value → value.Inside (start.frames.size ≤ ·)) :
    Secluded start (heap.put id slot content) := by
  have earlier {other : Nat} {later : Frame}
      (found : (heap.put id slot content).frame? other = some later) :
      ∃ frame, heap.frame? other = some frame ∧ later.caller = frame.caller ∧
        later.callSite = frame.callSite ∧ later.parent = frame.parent ∧
        ∀ (place : Nat) value, later.slots[place]? = some (.ready value) →
          frame.slots[place]? = some (.ready value) ∨ content = .ready value := by
    by_cases same : id = other
    · subst same
      rw [Heap.put, frame?_mapSlots, if_pos rfl] at found
      obtain ⟨frame, found', rfl⟩ := Option.map_eq_some_iff.mp found
      refine ⟨frame, found', rfl, rfl, rfl, fun place value held => ?_⟩
      by_cases here : slot = place
      · subst here
        rw [List.getElem?_set_self'] at held
        obtain ⟨_, -, is⟩ := Option.map_eq_some_iff.mp held
        exact .inr is
      · exact .inl (by rwa [List.getElem?_set_ne here] at held)
    · exact ⟨later, (frame?_put_ne same).symm.trans found, rfl, rfl, rfl,
        fun _ _ held => .inl held⟩
  constructor
  · rw [Heap.put, size_mapSlots]
    exact secluded.size
  · intro other before
    have different : id ≠ other := Nat.ne_of_gt (Nat.lt_of_lt_of_le before above)
    rw [frame?_put_ne different, secluded.before other before]
  · intro later found
    obtain ⟨frame, found', -, site, -⟩ := earlier found
    exact site.trans (secluded.unsigned frame found')
  · intro other later above' found caller called
    obtain ⟨frame, found', same, -⟩ := earlier found
    exact secluded.caller above' found' (same ▸ called)
  · intro other later above' found parent around
    obtain ⟨frame, found', -, -, same, -⟩ := earlier found
    exact secluded.parent above' found' (same ▸ around)
  · intro other place later value above' found held
    obtain ⟨frame, found', -, -, -, content'⟩ := earlier found
    rcases content' place value held with old | new
    · exact secluded.values above' found' old
    · exact inside value new

theorem alloc (slotCount : Nat) {parent caller : Option FrameId} (callSite : Option Location)
    (depth : Nat) (called : ∀ id : Nat, caller = some id → start.frames.size ≤ id ∧
      id < heap.frames.size)
    (around : ∀ id : Nat, parent = some id → start.frames.size ≤ id) :
    Secluded start (heap.alloc slotCount parent caller callSite depth).2 := by
  have cases {id : Nat} {frame : Frame}
      (found : (heap.alloc slotCount parent caller callSite depth).2.frame? id = some frame) :
      id = heap.frames.size ∧ frame = fresh slotCount parent caller callSite depth ∨
        heap.frame? id = some frame := by
    by_cases new : id = heap.frames.size
    · subst new
      exact .inl ⟨rfl, Option.some.inj (found.symm.trans (frame?_alloc_self ..))⟩
    · exact .inr ((frame?_alloc_ne _ _ _ _ _ _ new).symm.trans found)
  have size := secluded.size
  constructor
  · rw [size_alloc]
    exact Nat.lt_succ_of_lt size
  · intro id before
    rw [frame?_alloc_ne _ _ _ _ _ _ (Nat.ne_of_lt (Nat.lt_trans before size)),
      secluded.before id before]
  · intro frame found
    rcases cases found with ⟨new, -⟩ | old
    · omega
    · exact secluded.unsigned frame old
  · intro id frame above found other is
    rcases cases found with ⟨rfl, rfl⟩ | old
    · exact called other is
    · exact secluded.caller above old is
  · intro id frame above found other is
    rcases cases found with ⟨-, rfl⟩ | old
    · exact around other is
    · exact secluded.parent above old is
  · intro id slot frame value above found content
    rcases cases found with ⟨-, rfl⟩ | old
    · simp [fresh, List.getElem?_replicate] at content
    · exact secluded.values above old content

/-- The root frame has no caller. -/
theorem alone {frame : Frame} (found : heap.frame? start.frames.size = some frame) :
    frame.caller = none := by
  cases called : frame.caller with
  | none => rfl
  | some caller =>
    have := secluded.caller (Nat.le_refl _) found called
    omega

theorem close (closures : Nat) : Secluded start { heap with closures } :=
  ⟨secluded.size, secluded.before, secluded.unsigned, secluded.caller, secluded.parent,
    secluded.values⟩

theorem ancestor {depth owner : Nat} (above : start.frames.size ≤ id)
    (reached : heap.ancestor? id depth = some owner) : start.frames.size ≤ owner := by
  induction depth generalizing id with
  | zero => exact Option.some.inj reached ▸ above
  | succ depth ih =>
    obtain ⟨frame, parent, found, around, reached⟩ := ancestor?_succ_eq_some_iff.mp reached
    exact ih (secluded.parent above found around) reached

theorem references {other : Nat} (above : start.frames.size ≤ id)
    (mem : other ∈ heap.references id) : start.frames.size ≤ other := by
  unfold Heap.references at mem
  split at mem
  · rename_i frame found
    rcases List.mem_append.mp mem with parent | held
    · exact secluded.parent above found (Option.mem_toList.mp parent)
    · obtain ⟨content, among, here⟩ := List.mem_flatMap.mp held
      obtain ⟨slot, there⟩ := List.mem_iff_getElem?.mp among
      cases content with
      | ready value => exact (secluded.values above found there).frames other here
      | _ => cases here
  · cases mem

/-- What is live among the frames from before is decided among them. -/
theorem live_before (within : ∀ id ∈ inner.flatMap Held.frames, start.frames.size ≤ id)
    {other : Nat} (before : other < start.frames.size) :
    heap.Live ((inner ++ held).flatMap Held.frames) other ↔
      start.Live (held.flatMap Held.frames) other := by
  have size := secluded.size
  have same {holder : Nat} (inside : holder < start.frames.size) :
      heap.references holder = start.references holder := by
    rw [Heap.references, Heap.references, secluded.before holder inside]
  have closed (id : Nat) (inside : id < start.frames.size) (holder : FrameId)
      (mem : id ∈ heap.references holder) : holder < start.frames.size := by
    by_contra above
    have := secluded.references (Nat.le_of_not_lt above) mem
    omega
  have known (id : Nat) (inside : id < start.frames.size) :
      id < heap.frames.size ↔ id < start.frames.size := by omega
  have rooted (id : Nat) (inside : id < start.frames.size) :
      id ∈ (inner ++ held).flatMap Held.frames ↔ id ∈ held.flatMap Held.frames := by
    rw [List.flatMap_append, List.mem_append]
    refine or_iff_right fun mem => ?_
    have := within id mem
    omega
  refine live_congr known rooted ?_ closed before
  intro id inside holder
  constructor
  · exact fun mem => same (closed id inside holder mem) ▸ mem
  · exact fun mem => (same (lt_size_of_mem_references mem)).symm ▸ mem

end Secluded

end Heap

namespace Ground

variable {start heap : Heap} {held inner : List Held} {ground : Ground} {id : Nat}

/-- The frame that asked for the program is still there. -/
def Stands (ground : Ground) (start : Heap) (held : List Held) : Prop :=
  ∀ parent : Nat, ground.caller = some parent → start.Live (held.flatMap Held.frames) parent

/-- What the lists of callers go on with that get to the root frame. -/
def trace (ground : Ground) (start : Heap) (held : List Held) : List Location :=
  ground.callSite.toList ++
    match ground.caller with
    | some parent => start.callers held parent
    | none => []

end Ground

namespace Heap

variable {start heap : Heap} {held inner : List Held} {ground : Ground} {id : Nat}

/-- Callers are older than the frames that they called. -/
def Older (heap : Heap) : Prop :=
  ∀ (id : Nat) frame, heap.frame? id = some frame →
    ∀ {caller : Nat}, frame.caller = some caller → caller < id

/-- The callers from before are the same whatever is evaluated in the frames of the program. -/
theorem Secluded.callChain_before (secluded : Secluded start heap) (older : start.Older)
    (above : start.frames.size ≤ id)
    (within : ∀ id ∈ inner.flatMap Held.frames, start.frames.size ≤ id) {parent fuel : Nat}
    (live : start.Live (held.flatMap Held.frames) parent) (enough : parent < fuel) :
    (heap.on start.frames.size ground).callChain
        ((heap.on start.frames.size ground).liveCounts
          (id :: (inner ++ held).flatMap Held.frames)) fuel parent =
      start.callers held parent := by
  have known := (live_iff.mp live).1
  have within' : ∀ other ∈ (Held.frame id :: inner).flatMap Held.frames,
      start.frames.size ≤ other :=
    List.forall_mem_cons.mpr ⟨above, within⟩
  refine (callChain_congr (fun other (inside : other < start.frames.size) => ?_)
    (fun other inside => ?_) older known (Nat.lt_succ_of_lt known) enough).symm
  · rw [frame?_on, secluded.before other inside]
    cases found : start.frame? other with
    | none => rfl
    | some frame => exact congrArg some (frame.on_before ground inside).symm
  · have same : start.Live (parent :: held.flatMap Held.frames) other ↔
        (heap.on start.frames.size ground).Live (id :: (inner ++ held).flatMap Held.frames)
          other := by
      rw [live_cons live, live_on]
      exact (secluded.live_before within' inside).symm
    exact not_iff_not.mp same

/-- A list of callers that gets to the root frame goes on with what this stands on. -/
theorem Secluded.callChain_on (secluded : Secluded start heap) {roots : List FrameId}
    (asked : ∀ parent : Nat, ground.caller = some parent → parent < start.frames.size ∧
      (heap.on start.frames.size ground).Live roots parent ∧ ∀ fuel, parent < fuel →
        (heap.on start.frames.size ground).callChain
          ((heap.on start.frames.size ground).liveCounts roots) fuel parent =
            start.callers held parent)
    {fuel : Nat} (above : start.frames.size ≤ id) (enough : id < fuel) :
    (heap.on start.frames.size ground).callChain
        ((heap.on start.frames.size ground).liveCounts roots) fuel id =
      heap.callChain (heap.liveCounts roots) fuel id ++
        if heap.reaches (heap.liveCounts roots) start.frames.size fuel id then
          ground.trace start held else [] := by
  induction fuel generalizing id with
  | zero => omega
  | succ fuel ih =>
    unfold callChain reaches
    rw [frame?_on]
    by_cases root : id = start.frames.size
    · subst root
      obtain ⟨frame, found⟩ : ∃ frame, heap.frame? start.frames.size = some frame :=
        Option.isSome_iff_exists.mp (by simp [Heap.frame?, secluded.size])
      simp only [found, Option.map_some, Frame.on_root, secluded.unsigned frame found,
        secluded.alone found, decide_true, Bool.true_or, ↓reduceIte, Option.toList_none,
        List.nil_append]
      unfold Ground.trace
      congr 1
      cases at_ : ground.caller with
      | none => rfl
      | some parent =>
        obtain ⟨before, live, chain⟩ := asked parent at_
        exact (if_neg live).trans (chain fuel (by omega))
    · have above' : start.frames.size < id := by omega
      cases found : heap.frame? id with
      | none => simp [root]
      | some frame =>
        simp only [Option.map_some, Frame.caller_on ground frame above',
          Frame.callSite_on ground frame above', Option.bind_some, root, decide_false,
          Bool.false_or]
        cases called : frame.caller with
        | none => simp
        | some caller =>
          obtain ⟨inside, before⟩ := secluded.caller above found called
          have alike := not_iff_not.mp (heap.live_on start.frames.size ground roots caller)
          dsimp only
          by_cases gone : (heap.liveCounts roots)[caller]?.getD 0 = 0
          · rw [if_pos (alike.mpr gone), if_pos gone]
            simp [gone]
          · rw [if_neg (mt alike.mp gone), if_neg gone, ih inside (by omega)]
            simp [gone]

/-- The list of callers of a frame of the program. -/
theorem Secluded.callers_on (secluded : Secluded start heap) (older : start.Older)
    (stands : ground.Stands start held) (above : start.frames.size ≤ id)
    (within : ∀ id ∈ inner.flatMap Held.frames, start.frames.size ≤ id) :
    (heap.on start.frames.size ground).callers (inner ++ held) id =
      heap.callers (inner ++ held) id ++
        if heap.reaches (heap.liveCounts (id :: (inner ++ held).flatMap Held.frames))
          start.frames.size (heap.frames.size + 1) id then ground.trace start held else [] := by
  have size := secluded.size
  unfold callers
  rw [size_on]
  by_cases known : id < heap.frames.size
  · refine secluded.callChain_on (fun parent asked => ?_) above (Nat.lt_succ_of_lt known)
    have live := stands parent asked
    have before := (live_iff.mp live).1
    have within' : ∀ other ∈ (Held.frame id :: inner).flatMap Held.frames,
        start.frames.size ≤ other :=
      List.forall_mem_cons.mpr ⟨above, within⟩
    refine ⟨before, ?_, fun fuel enough => ?_⟩
    · rw [live_on]
      exact (secluded.live_before within' before).mpr live
    · exact secluded.callChain_before older above within live enough
  · have missing := frame?_eq_none_iff.mpr (Nat.le_of_not_lt known)
    have other : id ≠ start.frames.size := by omega
    simp [callChain, reaches, frame?_on, missing, other]

end Heap

end ShapeLang
