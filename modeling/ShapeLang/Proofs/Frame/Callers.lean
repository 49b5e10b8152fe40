import ShapeLang.Proofs.Frame.Liveness

/-! # The calls that callers tell of

The places of an error are found by following callers from the frame that is worked in. A definition
is evaluated in the frame that it belongs to, whatever calls led to it being needed. So the list
goes on with the call that the definition belongs to, and the calls in between are left out; if that
call has returned, what is left are the calls that led to it, as long as their frames are live.
Otherwise the list is complete.
-/

namespace ShapeLang

namespace Held

/-- The frame that is worked in. -/
def current : List Held → Option FrameId
  | [] => none
  | .frame id :: _ => some id
  | .call id _ :: _ => some id
  | .value _ :: held => current held
  | .values _ :: held => current held

/-- Where the calls were made that are under way, the innermost first. -/
def sites : List Held → List Location
  | [] => []
  | .call _ site :: held => site :: sites held
  | .frame _ :: held => sites held
  | .value _ :: held => sites held
  | .values _ :: held => sites held

/-- The frame of the innermost call that is under way. -/
def innermost : List Held → Option FrameId
  | [] => none
  | .call id _ :: _ => some id
  | .frame _ :: held => innermost held
  | .value _ :: held => innermost held
  | .values _ :: held => innermost held

theorem mem_frames_of_current {held : List Held} {id : FrameId} (worked : current held = some id) :
    id ∈ held.flatMap frames := by
  fun_induction current held with
  | case1 => simp at worked
  | case2 => simp [frames, Option.some.inj worked]
  | case3 => simp [frames, Option.some.inj worked]
  | case4 value held ih => exact List.mem_append_right _ (ih worked)
  | case5 values held ih => exact List.mem_append_right _ (ih worked)

end Held

namespace Heap

variable {heap before middle after : Heap} {roots : List FrameId} {live : ReferenceCounts}
  {id : Nat} {held : List Held}

/-- The frame of the call or the program that a frame belongs to. Modules and the rounds of loops
belong where they are made. -/
def home (heap : Heap) : Nat → FrameId → FrameId
  | 0, id => id
  | fuel + 1, id =>
    match heap.frame? id with
    | some ⟨_, some parent, _, none, _⟩ => heap.home fuel parent
    | _ => id

/-- The calls that an error lists. A definition that was begun leads back to the call that it
belongs to; the calls in between are left out. -/
def trace (heap : Heap) (live : ReferenceCounts) : Option FrameId → List Held → List Location
  | none, [] => []
  | some id, [] => heap.callChain live (heap.frames.size + 1) id
  | none, .call _ site :: held => site :: heap.trace live none held
  | some id, .call callee site :: held =>
    if heap.home heap.frames.size id = callee then site :: heap.trace live none held
    else heap.trace live (some id) held
  | none, .frame id :: held => heap.trace live (some id) held
  | some id, .frame _ :: held => heap.trace live (some id) held
  | sought, .value _ :: held => heap.trace live sought held
  | sought, .values _ :: held => heap.trace live sought held

/-- Callers are older than the frames that they called, and whoever makes a module or a round of a
loop is its caller. -/
structure Linked (heap : Heap) : Prop where
  older : ∀ {id caller : Nat} {frame}, heap.frame? id = some frame → frame.caller = some caller →
    caller < id
  inside : ∀ {id frame parent}, heap.frame? id = some frame → frame.callSite = none →
    frame.parent = some parent → frame.caller = some parent

/-- Every frame is still there, with the same place among the others. -/
structure Links (before after : Heap) : Prop where
  kept : ∀ id frame, before.frame? id = some frame → ∃ later, after.frame? id = some later ∧
    later.caller = frame.caller ∧ later.callSite = frame.callSite

theorem Links.refl (heap : Heap) : Links heap heap :=
  ⟨fun _ frame found => ⟨frame, found, rfl, rfl⟩⟩

theorem Links.trans (first : Links before middle) (second : Links middle after) :
    Links before after := by
  refine ⟨fun id frame found => ?_⟩
  obtain ⟨between, atMiddle, caller, site⟩ := first.kept id frame found
  obtain ⟨later, atEnd, caller', site'⟩ := second.kept id between atMiddle
  exact ⟨later, atEnd, caller'.trans caller, site'.trans site⟩

theorem Links.put (heap : Heap) (id : FrameId) (slot : Nat) (content : Slot) :
    Links heap (heap.put id slot content) := by
  refine ⟨fun other frame found => ?_⟩
  by_cases same : id = other
  · subst same
    exact ⟨_, frame?_put_self found, rfl, rfl⟩
  · exact ⟨frame, (frame?_put_ne same).trans found, rfl, rfl⟩

theorem Links.alloc (heap : Heap) (slotCount : Nat) (parent caller : Option FrameId)
    (callSite : Option Location) (callDepth : Nat) :
    Links heap (heap.alloc slotCount parent caller callSite callDepth).2 :=
  ⟨fun _ frame found => ⟨frame, frame?_alloc_of_some heap slotCount parent caller callSite
    callDepth found, rfl, rfl⟩⟩

/-- The list of callers depends on nothing but the frames up to the first one, and on which of them
are gone. Where callers are older, the number of the frame bounds how many there are. -/
theorem callChain_congr {other : Heap} {live' : ReferenceCounts} {bound fuel fuel' : Nat}
    (same : ∀ id, id < bound → heap.frame? id = other.frame? id)
    (alike : ∀ id : Nat, id < bound → (live[id]?.getD 0 = 0 ↔ live'[id]?.getD 0 = 0))
    (older : ∀ (id : Nat) frame, heap.frame? id = some frame →
      ∀ {caller : Nat}, frame.caller = some caller → caller < id)
    (inside : id < bound) (enough : id < fuel) (enough' : id < fuel') :
    heap.callChain live fuel id = other.callChain live' fuel' id := by
  induction fuel generalizing id fuel' with
  | zero => omega
  | succ fuel ih =>
    obtain ⟨fuel', rfl⟩ : ∃ n, fuel' = n + 1 := ⟨fuel' - 1, by omega⟩
    unfold callChain
    rw [← same id inside]
    cases found : heap.frame? id with
    | none => rfl
    | some frame =>
      dsimp only
      cases called : frame.caller with
      | none => rfl
      | some caller =>
        have before := older id frame found called
        have left := Nat.lt_of_lt_of_le before (Nat.le_of_lt_succ enough)
        have left' := Nat.lt_of_lt_of_le before (Nat.le_of_lt_succ enough')
        have inside' := Nat.lt_trans before inside
        dsimp only
        simp only [alike caller inside']
        rw [ih inside' left left']

namespace Linked

theorem empty : Heap.empty.Linked := by
  constructor <;> intro id frame _ found <;> simp [Heap.empty, frame?] at found

theorem mapSlots (linked : heap.Linked) (id : FrameId) (change : List Slot → List Slot) :
    (heap.mapSlots id change).Linked := by
  have before {other : FrameId} {later : Frame}
      (found : (heap.mapSlots id change).frame? other = some later) :
      ∃ frame, heap.frame? other = some frame ∧ later.caller = frame.caller ∧
        later.callSite = frame.callSite ∧ later.parent = frame.parent := by
    rw [frame?_mapSlots] at found
    split at found
    · obtain ⟨frame, found', rfl⟩ := Option.map_eq_some_iff.mp found
      exact ⟨frame, found', rfl, rfl, rfl⟩
    · exact ⟨later, found, rfl, rfl, rfl⟩
  constructor
  · intro other caller later found called
    obtain ⟨frame, found', same, -, -⟩ := before found
    exact linked.older found' (same ▸ called)
  · intro other later parent found noCall around
    obtain ⟨frame, found', caller, site, parent'⟩ := before found
    rw [caller]
    exact linked.inside found' (site ▸ noCall) (parent' ▸ around)

theorem put (linked : heap.Linked) (id : FrameId) (slot : Nat) (content : Slot) :
    (heap.put id slot content).Linked :=
  linked.mapSlots id _

theorem alloc (linked : heap.Linked) (slotCount : Nat) {parent caller : Option FrameId}
    {callSite : Option Location} (callDepth : Nat)
    (known : ∀ id : Nat, caller = some id → id < heap.frames.size)
    (inside : callSite = none → ∀ id, parent = some id → caller = some id) :
    (heap.alloc slotCount parent caller callSite callDepth).2.Linked := by
  constructor
  · intro id other frame found called
    by_cases new : id = heap.frames.size
    · subst new
      rw [frame?_alloc_self] at found
      cases found
      exact known other called
    · rw [frame?_alloc_ne heap slotCount parent caller callSite callDepth new] at found
      exact linked.older found called
  · intro id frame other found noCall around
    by_cases new : id = heap.frames.size
    · subst new
      rw [frame?_alloc_self] at found
      cases found
      exact inside noCall other around
    · rw [frame?_alloc_ne heap slotCount parent caller callSite callDepth new] at found
      exact linked.inside found noCall around

variable (linked : heap.Linked)
include linked

/-- The number of a frame bounds the number of its callers. -/
theorem callChain_fuel (fuel fuel' : Nat) (enough : id < fuel) (enough' : id < fuel') :
    heap.callChain live fuel id = heap.callChain live fuel' id :=
  callChain_congr (fun _ _ => rfl) (fun _ _ => Iff.rfl) (fun _ _ found => linked.older found)
    (Nat.lt_succ_self id) enough enough'

theorem callChain_some {frame : Frame} {caller : Nat} (found : heap.frame? id = some frame)
    (called : frame.caller = some caller) (kept : live[caller]?.getD 0 ≠ 0) :
    heap.callChain live (heap.frames.size + 1) id =
      frame.callSite.toList ++ heap.callChain live (heap.frames.size + 1) caller := by
  have older := linked.older found called
  have known := lt_size_of_frame? found
  rw [callChain]
  simp only [found, called, kept, ↓reduceIte]
  rw [linked.callChain_fuel _ (heap.frames.size + 1) (by omega) (by omega)]

omit linked in
theorem home_of_missing (missing : heap.frame? id = none) (fuel : Nat) : heap.home fuel id = id := by
  cases fuel <;> simp [home, missing]

/-- Callers that are held on to show in the list. -/
theorem callChain_home (kept : heap.Live roots id) (fuel : Nat) :
    heap.callChain (heap.liveCounts roots) (heap.frames.size + 1) (heap.home fuel id) =
      heap.callChain (heap.liveCounts roots) (heap.frames.size + 1) id := by
  induction fuel generalizing id with
  | zero => rfl
  | succ fuel ih =>
    unfold home
    split
    · rename_i slots parent caller depth found
      have called := linked.inside found rfl rfl
      have older := linked.older found called
      have known := lt_size_of_frame? found
      have kept' : heap.Live roots parent := by
        apply kept.reference (Nat.lt_trans older known)
        simp [references, found, Frame.references]
      rw [ih kept', linked.callChain_some found called kept']
      rfl
    · rfl

end Linked

/-- The calls under way are what the frames of the calls have recorded. -/
def Recorded (heap : Heap) : List Held → Prop
  | [] => True
  | .call id site :: held => heap.Recorded held ∧ ∃ frame caller, heap.frame? id = some frame ∧
    frame.callSite = some site ∧ frame.caller = some caller ∧ Held.current held = some caller
  | .frame _ :: held => heap.Recorded held
  | .value _ :: held => heap.Recorded held
  | .values _ :: held => heap.Recorded held

theorem Recorded.later (recorded : before.Recorded held) (links : Links before after) :
    after.Recorded held := by
  induction held with
  | nil => trivial
  | cons item held ih =>
    cases item with
    | call id site =>
      obtain ⟨rest, frame, caller, found, atSite, called, worked⟩ := recorded
      obtain ⟨later, found', caller', site'⟩ := links.kept id frame found
      exact ⟨ih rest, later, caller, found', site'.trans atSite, caller'.trans called, worked⟩
    | _ => exact ih recorded

/-- The list of callers is the trace of what is under way, for the frame that is worked in and for
every frame that a definition may belong to. -/
theorem Linked.trace_eq (linked : heap.Linked) (recorded : heap.Recorded held)
    (rooted : ∀ id ∈ held.flatMap Held.frames, id ∈ roots) :
    (∀ id, Held.current held = some id → heap.trace (heap.liveCounts roots) none held =
      heap.callChain (heap.liveCounts roots) (heap.frames.size + 1) id) ∧
    ∀ id ∈ roots, heap.trace (heap.liveCounts roots) (some id) held =
      heap.callChain (heap.liveCounts roots) (heap.frames.size + 1) id := by
  induction held with
  | nil => exact ⟨fun id worked => by simp [Held.current] at worked, fun id _ => rfl⟩
  | cons item held ih =>
    have rooted' : ∀ id ∈ held.flatMap Held.frames, id ∈ roots :=
      fun id mem => rooted id (List.mem_append_right _ mem)
    cases item with
    | value _ => exact ih recorded rooted'
    | values _ => exact ih recorded rooted'
    | frame begun =>
      obtain ⟨-, seeking⟩ := ih recorded rooted'
      constructor
      · intro id worked
        obtain rfl : begun = id := Option.some.inj worked
        exact seeking begun (rooted begun (by simp [Held.frames]))
      · exact seeking
    | call callee site =>
      obtain ⟨recorded', frame, caller, found, atSite, called, worked⟩ := recorded
      obtain ⟨tracing, seeking⟩ := ih recorded' rooted'
      have known := lt_size_of_frame? found
      have older := linked.older found called
      have kept : heap.Live roots caller :=
        live_of_mem (Nat.lt_trans older known) (rooted' caller (Held.mem_frames_of_current worked))
      have entered : site :: heap.trace (heap.liveCounts roots) none held =
          heap.callChain (heap.liveCounts roots) (heap.frames.size + 1) callee := by
        rw [tracing caller worked, linked.callChain_some found called kept, atSite]
        rfl
      constructor
      · intro id worked'
        obtain rfl : callee = id := Option.some.inj worked'
        exact entered
      · intro id root
        unfold trace
        split
        · rename_i belongs
          have there : id < heap.frames.size := by
            by_contra outside
            have missing := frame?_eq_none_iff.mpr (Nat.le_of_not_lt outside)
            rw [home_of_missing missing] at belongs
            simp [belongs, found] at missing
          rw [entered, ← belongs, linked.callChain_home (live_of_mem there root)]
        · exact seeking id root

/-- The frame belongs to the innermost call under way; if there is none, to a program that nothing
called. -/
def Owns (heap : Heap) (held : List Held) (id : FrameId) : Prop :=
  match Held.innermost held with
  | some callee => heap.home heap.frames.size id = callee
  | none => ∀ frame, heap.frame? (heap.home heap.frames.size id) = some frame →
    frame.callSite = none ∧ frame.caller = none

/-- Whatever was begun belongs to the innermost call around it. -/
def Confined (heap : Heap) : List Held → Prop
  | [] => True
  | .frame id :: held => heap.Confined held ∧ heap.Owns held id
  | .call _ _ :: held => heap.Confined held
  | .value _ :: held => heap.Confined held
  | .values _ :: held => heap.Confined held

theorem Linked.callChain_uncalled (linked : heap.Linked) {fuel : Nat}
    (uncalled : ∀ frame, heap.frame? (heap.home fuel id) = some frame →
      frame.callSite = none ∧ frame.caller = none) (more : Nat) :
    heap.callChain live more id = [] := by
  induction fuel generalizing id more with
  | zero =>
    cases more with
    | zero => rfl
    | succ more =>
      unfold callChain
      split
      · rfl
      · rename_i frame found
        obtain ⟨site, caller⟩ := uncalled frame found
        simp [site, caller]
  | succ fuel ih =>
    cases more with
    | zero => rfl
    | succ more =>
      unfold home at uncalled
      unfold callChain
      split at uncalled
      · rename_i slots parent caller depth found
        have called := linked.inside found rfl rfl
        dsimp only at called
        simp [found, called, ih uncalled more]
      · split
        · rfl
        · rename_i frame found
          obtain ⟨site, caller⟩ := uncalled frame found
          simp [site, caller]

/-- While everything that was begun belongs to the call around it, no call is left out, and no other
call is listed. -/
theorem Linked.trace_eq_sites (linked : heap.Linked) (confined : heap.Confined held) :
    heap.trace live none held = Held.sites held ∧
      ∀ id, heap.Owns held id → heap.trace live (some id) held = Held.sites held := by
  induction held with
  | nil => exact ⟨rfl, fun id owns => linked.callChain_uncalled owns _⟩
  | cons item held ih =>
    cases item with
    | value _ => exact ih confined
    | values _ => exact ih confined
    | frame begun =>
      obtain ⟨confined, owns⟩ := confined
      exact ⟨(ih confined).2 begun owns, (ih confined).2⟩
    | call callee site =>
      have entered := congrArg (site :: ·) (ih confined).1
      refine ⟨entered, fun id owns => ?_⟩
      have belongs : heap.home heap.frames.size id = callee := owns
      rw [trace, if_pos belongs]
      exact entered

end Heap

end ShapeLang
