import ShapeLang.Proofs.Eval.Operations
import ShapeLang.Proofs.Eval.Work
import ShapeLang.Proofs.Frame.Callers

/-! # Depths and call chains

The depth of a frame is counted when the frame is made, from the depth of its caller. The calls that
an error lists are found afterwards, from one caller to the next, as long as the callers are still
there. The count and the list agree for every frame that can be made, whatever was released since.
-/

namespace ShapeLang

/-- The frames that can come to be on a machine: frames of programs, of calls and of modules and
loops are added, and slots are written over in any way. -/
inductive Heap.Made (m : Machine) : Heap → Prop
  | empty : Made m .empty
  | root {before after : Heap} {id : FrameId} (slotCount : Nat) (caller : Option FrameId)
    (made : Made m before) (ran : Eval.allocRoot slotCount caller before = (.ok id, after)) :
    Made m after
  | call {before after : Heap} {id : FrameId} (held : List Held) (slotCount : Nat)
    (env caller : FrameId) (site : Location) (made : Made m before)
    (ran : Eval.allocCall m held slotCount env caller site before = (.ok id, after)) :
    Made m after
  | child {before after : Heap} {id : FrameId} (slotCount : Nat) (parent : FrameId)
    (made : Made m before) (ran : Eval.allocChild slotCount parent before = (.ok id, after)) :
    Made m after
  | slots {heap : Heap} (id : FrameId) (change : List Slot → List Slot) (made : Made m heap) :
    Made m (heap.mapSlots id change)
  | closures {heap : Heap} (count : Nat) (made : Made m heap) :
    Made m { heap with closures := count }

namespace Heap

variable {heap : Heap} {limit id : Nat} {live : ReferenceCounts}

/-- None of the callers along the chain is gone. -/
def callersLive (heap : Heap) (live : ReferenceCounts) : Nat → FrameId → Bool
  | 0, _ => true
  | fuel + 1, id =>
    match (heap.frame? id).bind (·.caller) with
    | some caller => live[caller]?.getD 0 ≠ 0 && heap.callersLive live fuel caller
    | none => true

/-- None of the callers around a frame is gone, given what is held on to. -/
def callersKept (heap : Heap) (held : List Held) (id : FrameId) : Bool :=
  heap.callersLive (heap.liveCounts (id :: held.flatMap Held.frames)) (heap.frames.size + 1) id

/-- No frame is deeper than the limit. -/
def Shallow (heap : Heap) (limit : Nat) : Prop :=
  ∀ id frame, heap.frame? id = some frame → frame.depth ≤ limit

theorem Shallow.depthOf_le (shallow : heap.Shallow limit) (id : FrameId) :
    heap.depthOf id ≤ limit := by
  unfold depthOf
  cases found : heap.frame? id with
  | none => exact Nat.zero_le _
  | some frame => exact shallow id frame found

theorem Shallow.alloc (shallow : heap.Shallow limit) (slotCount : Nat)
    (parent caller : Option FrameId) (callSite : Option Location) {depth : Nat}
    (le : depth ≤ limit) : (heap.alloc slotCount parent caller callSite depth).2.Shallow limit := by
  intro other later found
  by_cases new : other = heap.frames.size
  · subst new
    rw [frame?_alloc_self] at found
    cases found
    exact le
  · rw [frame?_alloc_ne heap slotCount parent caller callSite depth new] at found
    exact shallow other later found

/-- The depth of a frame is that of its caller, and one more if it is the frame of a call. -/
structure Counted (limit : Nat) (heap : Heap) : Prop where
  older : ∀ {id frame}, heap.frame? id = some frame → ∀ caller ∈ frame.caller, caller < id
  depth : ∀ {id frame}, heap.frame? id = some frame →
    frame.depth = frame.caller.elim 0 heap.depthOf + frame.callSite.toList.length
  shallow : heap.Shallow limit

theorem depthOf_of_frame? {frame : Frame} (found : heap.frame? id = some frame) :
    heap.depthOf id = frame.depth := by
  simp [depthOf, found]

theorem depthOf_mapSlots (heap : Heap) (other id : FrameId) (change : List Slot → List Slot) :
    (heap.mapSlots other change).depthOf id = heap.depthOf id := by
  unfold depthOf
  rw [frame?_mapSlots]
  split
  · simp [Option.map_map, Function.comp_def]
  · rfl

theorem depthOf_alloc (slotCount : Nat) (parent caller : Option FrameId)
    (callSite : Option Location) (depth : Nat) (old : id ≠ heap.frames.size) :
    (heap.alloc slotCount parent caller callSite depth).2.depthOf id = heap.depthOf id := by
  unfold depthOf
  rw [frame?_alloc_ne _ _ _ _ _ _ old]

namespace Counted

theorem empty (limit : Nat) : Counted limit .empty := by
  constructor
  · simp [Heap.empty, frame?]
  · simp [Heap.empty, frame?]
  · intro id frame found
    simp [Heap.empty, frame?] at found

variable (counted : Counted limit heap)
include counted

theorem mapSlots (other : FrameId) (change : List Slot → List Slot) :
    Counted limit (heap.mapSlots other change) := by
  have before {id : FrameId} {later : Frame}
      (found : (heap.mapSlots other change).frame? id = some later) :
      ∃ frame, heap.frame? id = some frame ∧ later.caller = frame.caller ∧
        later.callSite = frame.callSite ∧ later.depth = frame.depth := by
    rw [frame?_mapSlots] at found
    split at found
    · obtain ⟨frame, found', rfl⟩ := Option.map_eq_some_iff.mp found
      exact ⟨frame, found', rfl, rfl, rfl⟩
    · exact ⟨later, found, rfl, rfl, rfl⟩
  constructor
  · intro id later found
    obtain ⟨frame, found', caller, -, -⟩ := before found
    exact caller ▸ counted.older found'
  · intro id later found
    obtain ⟨frame, found', caller, site, depth⟩ := before found
    have same : (heap.mapSlots other change).depthOf = heap.depthOf :=
      funext fun id => depthOf_mapSlots heap other id change
    rw [caller, site, depth, same]
    exact counted.depth found'
  · intro id later found
    obtain ⟨frame, found', -, -, depth⟩ := before found
    exact depth ▸ counted.shallow id frame found'

theorem alloc (slotCount : Nat) (parent : Option FrameId) {caller : Option FrameId}
    {callSite : Option Location} {depth : Nat} (known : ∀ id ∈ caller, (heap.frame? id).isSome)
    (count : depth = caller.elim 0 heap.depthOf + callSite.toList.length) (le : depth ≤ limit) :
    Counted limit (heap.alloc slotCount parent caller callSite depth).2 := by
  have inside : ∀ id ∈ caller, id < heap.frames.size := by
    intro id mem
    obtain ⟨frame, found⟩ := Option.isSome_iff_exists.mp (known id mem)
    exact lt_size_of_frame? found
  -- Callers are old frames, and old frames are as deep as they were.
  have same {called : Option FrameId} (old : ∀ id ∈ called, id < heap.frames.size) :
      called.elim 0 (heap.alloc slotCount parent caller callSite depth).2.depthOf =
        called.elim 0 heap.depthOf := by
    cases called with
    | none => rfl
    | some id => exact depthOf_alloc _ _ _ _ _ (Nat.ne_of_lt (old id rfl))
  constructor
  · intro id frame found
    by_cases new : id = heap.frames.size
    · subst new
      rw [frame?_alloc_self] at found
      cases found
      exact inside
    · rw [frame?_alloc_ne _ _ _ _ _ _ new] at found
      exact counted.older found
  · intro id frame found
    by_cases new : id = heap.frames.size
    · subst new
      rw [frame?_alloc_self] at found
      cases found
      exact count.trans (congrArg (· + _) (same inside).symm)
    · rw [frame?_alloc_ne _ _ _ _ _ _ new] at found
      have size := lt_size_of_frame? found
      rw [same fun id mem => Nat.lt_trans (counted.older found id mem) size]
      exact counted.depth found
  · exact counted.shallow.alloc slotCount parent caller callSite le

/-- The list of callers may end early. -/
theorem callChain_le (fuel : Nat) (id : FrameId) :
    (heap.callChain live fuel id).length ≤ heap.depthOf id := by
  induction fuel generalizing id with
  | zero => exact Nat.zero_le _
  | succ fuel ih =>
    unfold callChain
    cases found : heap.frame? id with
    | none => exact Nat.zero_le _
    | some frame =>
      rw [depthOf_of_frame? found, counted.depth found]
      dsimp only
      rw [List.length_append, Nat.add_comm]
      apply Nat.add_le_add_right
      cases frame.caller with
      | none => exact Nat.zero_le _
      | some caller =>
        dsimp only
        split
        · exact Nat.zero_le _
        · exact ih caller

/-- It does not end before the first program if no caller is gone. -/
theorem callChain_eq {fuel : Nat} (enough : id < fuel) (kept : heap.callersLive live fuel id) :
    (heap.callChain live fuel id).length = heap.depthOf id := by
  induction fuel generalizing id with
  | zero => omega
  | succ fuel ih =>
    unfold callChain
    unfold callersLive at kept
    cases found : heap.frame? id with
    | none => simp [depthOf, found]
    | some frame =>
      rw [depthOf_of_frame? found, counted.depth found]
      dsimp only
      rw [List.length_append, Nat.add_comm]
      congr 1
      cases called : frame.caller with
      | none => rfl
      | some caller =>
        have older := counted.older found caller called
        simp only [found, Option.bind_some, called, Bool.and_eq_true, decide_eq_true_eq] at kept
        simp only [kept.1, ↓reduceIte]
        exact ih (Nat.lt_of_lt_of_le older (Nat.le_of_lt_succ enough)) kept.2

/-- Whatever an exception is blamed on, it lists at most one place more than there can be calls. -/
theorem locations_le (held : List Held) (context : Context) :
    (context.locations heap held).length ≤ limit + 1 := by
  have chain (id : FrameId) : (heap.callers held id).length ≤ limit :=
    Nat.le_trans (counted.callChain_le _ id) (counted.shallow.depthOf_le id)
  cases context with
  | empty => exact Nat.zero_le _
  | frame id => exact Nat.le_succ_of_le (chain id)
  | place location current =>
    cases current with
    | none => simp [Context.locations]
    | some id => exact Nat.succ_le_succ (chain id)

end Counted

/-- What the making of frames keeps up holds of all frames that can come to be. In each of the three
ways to make one, the frame is as deep as its caller, or one deeper if it is the frame of a
call. -/
theorem Made.keeps {m : Machine} (made : heap.Made m) {kept : Heap → Prop} (empty : kept .empty)
    (alloc : ∀ {before slotCount parent caller callSite depth}, kept before →
      (∀ id ∈ caller, (before.frame? id).isSome) →
      (callSite = none → ∀ id, parent = some id → caller = some id) →
      depth = caller.elim 0 before.depthOf + callSite.toList.length →
      (callSite ≠ none → depth ≤ m.maxCallDepth) →
      kept (before.alloc slotCount parent caller callSite depth).2)
    (slots : ∀ {before id change}, kept before → kept (before.mapSlots id change))
    (closures : ∀ {before count}, kept before → kept { before with closures := count }) :
    kept heap := by
  induction made with
  | empty => exact empty
  | @root before after id slotCount caller _ ran ih =>
    have ends : Ends (Eval.allocRoot slotCount caller) before (fun _ later => kept later)
        fun _ _ => True := by
      unfold Eval.allocRoot
      cases caller with
      | none => exact alloc ih (by simp) (by simp) rfl (by simp)
      | some caller =>
        apply Ends.through fun depth later => later = before ∧
          (before.frame? caller).isSome ∧ depth = before.depthOf caller
        · apply Ends.map
          exact .frame (fun frame found => ⟨rfl, by simp [found], (depthOf_of_frame? found).symm⟩)
            fun _ => trivial
        · rintro depth _ ⟨rfl, known, rfl⟩
          exact alloc ih (by simpa using known) (by simp) (by simp) (by simp)
    exact ends.returned ran
  | @call before after id held slotCount env caller site _ ran ih =>
    have ends : Ends (Eval.allocCall m held slotCount env caller site) before
        (fun _ later => kept later) fun _ _ => True := by
      apply Ends.allocCall
      · intro frame found fits
        exact alloc ih (by simp [found]) (by simp) (by simp [depthOf_of_frame? found])
          fun _ => fits
      · exact fun _ _ _ _ => trivial
      · exact fun _ => trivial
    exact ends.returned ran
  | @child before after id slotCount parent _ ran ih =>
    have ends : Ends (Eval.allocChild slotCount parent) before (fun _ later => kept later)
        fun _ _ => True := by
      apply Ends.allocChild
      · intro frame found
        exact alloc ih (by simp [found]) (fun _ _ around => around)
          (by simp [depthOf_of_frame? found]) (by simp)
      · exact fun _ => trivial
    exact ends.returned ran
  | slots id change _ ih => exact slots ih
  | closures count _ ih => exact closures ih

/-- Every way to make a frame counts its depth. -/
theorem Made.counted {m : Machine} (made : heap.Made m) : Counted m.maxCallDepth heap := by
  refine made.keeps (.empty _) ?_ (fun counted => counted.mapSlots _ _)
    fun counted => ⟨counted.older, counted.depth, counted.shallow⟩
  intro before slotCount parent caller callSite depth counted known _ count fits
  refine counted.alloc slotCount parent known count ?_
  cases callSite with
  | some site => exact fits (by simp)
  | none =>
    cases caller with
    | none => simp [count]
    | some id => simpa [count] using counted.shallow.depthOf_le id

/-- However frames are made, callers and parents are older. -/
theorem Made.linked {m : Machine} (made : heap.Made m) : heap.Linked := by
  refine made.keeps .empty ?_ (fun linked => linked.mapSlots _ _)
    fun linked => ⟨linked.older, linked.inside⟩
  intro before slotCount parent caller callSite depth linked known inside _ _
  refine linked.alloc slotCount depth (fun id called => ?_) inside
  obtain ⟨frame, found⟩ := Option.isSome_iff_exists.mp (known id called)
  exact lt_size_of_frame? found

end Heap

end ShapeLang
