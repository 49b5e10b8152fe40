import ShapeLang.Proofs.Builtin.Results
import ShapeLang.Proofs.Eval.Limits
import ShapeLang.Proofs.Frame.Ground

/-! # Evaluation on another ground

A program does the same whatever its root frame stands on, as long as the machine allows as many
calls more as there are around the root frame. Where it fails, what the root frame stands on is told
by one flag: the list of callers has got to the root frame or has ended before.
-/

namespace ShapeLang

/-- The same fault, seen from the given further callers. -/
def Fault.calledFrom (callers : List Location) : Fault → Fault
  | .exception e => .exception (e.calledFrom callers)
  | other => other

/-- The frames that there were before a program, and what is held on to around it. -/
structure Surroundings where
  start : Heap
  held : List Held
  older : start.Older

namespace Surroundings

variable (around : Surroundings)

/-- The root frame of the program. -/
def root : FrameId := around.start.frames.size

/-- All that is held on to for the program itself are frames of the program. -/
def Encloses (held : List Held) : Prop :=
  ∃ inner, held = inner ++ around.held ∧ ∀ id ∈ inner.flatMap Held.frames, around.root ≤ id

variable {around} {held : List Held}

theorem Encloses.refl (around : Surroundings) : around.Encloses around.held :=
  ⟨[], rfl, by simp⟩

theorem Encloses.cons (encloses : around.Encloses held) {item : Held}
    (inside : ∀ id ∈ item.frames, around.root ≤ id) : around.Encloses (item :: held) := by
  obtain ⟨inner, rfl, within⟩ := encloses
  refine ⟨item :: inner, rfl, fun id mem => ?_⟩
  rcases List.mem_append.mp mem with mem | mem
  · exact inside id mem
  · exact within id mem

theorem Encloses.frame (encloses : around.Encloses held) {id : FrameId} (above : around.root ≤ id) :
    around.Encloses (.frame id :: held) :=
  encloses.cons (List.forall_mem_singleton.mpr above)

theorem Encloses.call (encloses : around.Encloses held) {id : FrameId} (above : around.root ≤ id)
    (site : Location) : around.Encloses (.call id site :: held) :=
  encloses.cons (List.forall_mem_singleton.mpr above)

theorem Encloses.value (encloses : around.Encloses held) {value : Value}
    (inside : value.Inside (around.root ≤ ·)) : around.Encloses (.value value :: held) :=
  encloses.cons inside.frames

theorem Encloses.values (encloses : around.Encloses held) {values : List Value}
    (inside : ∀ value ∈ values, value.Inside (around.root ≤ ·)) :
    around.Encloses (.values values :: held) := by
  refine encloses.cons fun id mem => ?_
  obtain ⟨value, among, here⟩ := List.mem_flatMap.mp mem
  exact (inside value among).frames id here

end Surroundings

/-- Whatever the context is blamed for, the list of callers starts from a frame of the program. -/
def Context.Within (root : FrameId) : Context → Prop
  | .frame id => root ≤ id
  | .place _ (some id) => root ≤ id
  | _ => True

theorem Context.within_place {root id : FrameId} (above : root ≤ id) (location : Location) :
    (Context.place location (some id)).Within root := above

theorem Context.within_frame {root id : FrameId} (above : root ≤ id) :
    (Context.frame id).Within root := above

namespace Eval

/-- Of the computation it is known how it ends; the other one does the same on every ground. -/
def Mirrors {α : Type} (around : Surroundings) (action : Eval α) (mirrored : Ground → Eval α)
    (heap : Heap) (returns : α → Prop) : Prop :=
  Ends action heap
    (fun a later => around.start.Secluded later ∧ returns a ∧
      ∀ ground, ground.Stands around.start around.held →
        mirrored ground (heap.on around.root ground) = (.ok a, later.on around.root ground))
    fun fault later => fault.Overflow ∨ ∃ reached : Bool,
      ∀ ground, ground.Stands around.start around.held →
        mirrored ground (heap.on around.root ground) =
          (.error (fault.calledFrom
            (if reached then ground.trace around.start around.held else [])),
            later.on around.root ground)

namespace Mirrors

variable {α β : Type} {around : Surroundings} {action : Eval α} {mirrored : Ground → Eval α}
  {heap : Heap} {returns : α → Prop}

/-- Computations that run in the same way mirror each other in the same way. -/
theorem congr {action' : Eval α} {mirrored' : Ground → Eval α} {before : Heap}
    (run : action heap = action' before)
    (run' : ∀ ground, mirrored ground (heap.on around.root ground) =
      mirrored' ground (before.on around.root ground))
    (mirrors : Mirrors around action' mirrored' before returns) :
    Mirrors around action mirrored heap returns := by
  apply Ends.congr run
  apply Ends.mono mirrors
  · exact fun a later ⟨secluded, ok, same⟩ =>
      ⟨secluded, ok, fun ground stands => (run' ground).trans (same ground stands)⟩
  · exact fun fault later failed => failed.imp_right fun ⟨reached, same⟩ =>
      ⟨reached, fun ground stands => (run' ground).trans (same ground stands)⟩

theorem mono {returns' : α → Prop} (mirrors : Mirrors around action mirrored heap returns)
    (ok : ∀ a, returns a → returns' a) : Mirrors around action mirrored heap returns' :=
  Ends.mono mirrors (fun a _ ⟨secluded, returned, same⟩ => ⟨secluded, ok a returned, same⟩)
    fun _ _ failed => failed

theorem bind {next : α → Eval β} {next' : Ground → α → Eval β} {returns' : β → Prop}
    (first : Mirrors around action mirrored heap returns)
    (second : ∀ a later, around.start.Secluded later → returns a →
      Mirrors around (next a) (next' · a) later returns') :
    Mirrors around (action >>= next) (fun ground => mirrored ground >>= next' ground) heap
      returns' := by
  refine Ends.bind (Ends.mono first (fun _ _ ok => ok) fun fault later failed => ?_) ?_
  · refine failed.imp_right fun ⟨reached, same⟩ => ⟨reached, fun ground stands => ?_⟩
    dsimp only
    rw [bind_run, same ground stands]
  · rintro a later ⟨secluded, ok, same⟩
    have run (ground : Ground) (stands : ground.Stands around.start around.held) :
        (mirrored ground >>= next' ground) (heap.on around.root ground) =
          next' ground a (later.on around.root ground) := by
      rw [bind_run, same ground stands]
    apply Ends.mono (second a later secluded ok)
    · exact fun b last ⟨secluded', ok', same'⟩ =>
        ⟨secluded', ok', fun ground stands => (run ground stands).trans (same' ground stands)⟩
    · exact fun fault last failed => failed.imp_right fun ⟨reached, same'⟩ =>
        ⟨reached, fun ground stands => (run ground stands).trans (same' ground stands)⟩

theorem map {f : α → β} {returns' : β → Prop}
    (mirrors : Mirrors around action mirrored heap fun a => returns' (f a)) :
    Mirrors around (f <$> action) (fun ground => f <$> mirrored ground) heap returns' := by
  simp only [map_eq_pure_bind]
  exact mirrors.bind fun a later secluded ok => ⟨secluded, ok, fun _ _ => rfl⟩

variable (secluded : around.start.Secluded heap)

theorem defect {d : Defect} :
    Mirrors around (Eval.defect d) (fun _ => Eval.defect d) heap returns :=
  .inr ⟨false, fun _ _ => rfl⟩

include secluded

theorem pure {a : α} (ok : returns a) :
    Mirrors around (Pure.pure a) (fun _ => Pure.pure a) heap returns :=
  ⟨secluded, ok, fun _ _ => rfl⟩

theorem raise {held : List Held} (encloses : around.Encloses held) {context : Context}
    (within : context.Within around.root) {kind : ErrorKind} :
    Mirrors around (Eval.raise held context kind) (fun _ => Eval.raise held context kind) heap
      returns := by
  obtain ⟨inner, rfl, inside⟩ := encloses
  have listed (id : FrameId) (above : around.root ≤ id) : ∃ reached : Bool,
      ∀ ground, ground.Stands around.start around.held →
        (heap.on around.root ground).callers (inner ++ around.held) id =
          heap.callers (inner ++ around.held) id ++
            if reached then ground.trace around.start around.held else [] :=
    ⟨_, fun ground stands => secluded.callers_on around.older stands above inside⟩
  -- All that differs are the places.
  suffices ∃ reached : Bool, ∀ ground, ground.Stands around.start around.held →
      context.locations (heap.on around.root ground) (inner ++ around.held) =
        context.locations heap (inner ++ around.held) ++
          if reached then ground.trace around.start around.held else [] by
    obtain ⟨reached, same⟩ := this
    refine .inr ⟨reached, fun ground stands => ?_⟩
    change ((Except.error (Fault.exception ⟨kind, _⟩) : Except Fault α), _) = _
    rw [same ground stands]
    rfl
  cases context with
  | empty => exact ⟨false, fun _ _ => rfl⟩
  | frame id => exact listed id within
  | place location current =>
    cases current with
    | none => exact ⟨false, fun _ _ => rfl⟩
    | some id =>
      obtain ⟨reached, same⟩ := listed id within
      exact ⟨reached, fun ground stands => congrArg (location :: ·) (same ground stands)⟩

theorem blaming {held : List Held} (encloses : around.Encloses held) {context : Context}
    (within : context.Within around.root) {result : Except ErrorKind α}
    (ok : ∀ a, result = .ok a → returns a) :
    Mirrors around (Eval.blaming held context result) (fun _ => Eval.blaming held context result)
      heap returns := by
  cases result with
  | ok a => exact pure secluded (ok a rfl)
  | error kind => exact raise secluded encloses within

omit secluded in
/-- What a frame is read for may depend on the ground, as far as the frame does. -/
theorem frame {id : FrameId} {next : Frame → Eval β} {next' : Ground → Frame → Eval β}
    {returns' : β → Prop}
    (ok : ∀ frame, heap.frame? id = some frame → Mirrors around (next frame)
      (fun ground => next' ground (frame.on ground around.root id)) heap returns') :
    Mirrors around (Eval.frame id >>= next) (fun ground => Eval.frame id >>= next' ground) heap
      returns' := by
  have run {next : Frame → Eval β} {heap : Heap} {frame : Frame}
      (found : heap.frame? id = some frame) : (Eval.frame id >>= next) heap = next frame heap := by
    have ran : Eval.frame id heap = (.ok frame, heap) := Ends.exact (.frame_found found ⟨rfl, rfl⟩)
    rw [bind_run, ran]
  have stop {next : Frame → Eval β} {heap : Heap} (missing : heap.frame? id = none) :
      (Eval.frame id >>= next) heap = (Eval.defect .noFrame : Eval β) heap := by
    have ran : Eval.frame id heap = (.error (.defect .noFrame), heap) := by
      rw [Eval.frame, bind_run]
      change (_ : Eval Frame) heap = _
      rw [missing]
      rfl
    rw [bind_run, ran]
    rfl
  cases found : heap.frame? id with
  | none =>
    exact defect.congr (stop found) fun ground => stop (by rw [Heap.frame?_on, found]; rfl)
  | some frame =>
    exact (ok frame found).congr (run found) fun ground =>
      run (by rw [Heap.frame?_on, found]; rfl)

theorem ancestor {id depth : Nat} (above : around.root ≤ id) :
    Mirrors around (Eval.ancestor id depth) (fun _ => Eval.ancestor id depth) heap
      (around.root ≤ ·) := by
  have stop {heap : Heap} (missing : heap.ancestor? id depth = none) :
      Eval.ancestor id depth heap = (Eval.defect (.noAncestor depth) : Eval FrameId) heap := by
    rw [Eval.ancestor, bind_run]
    change (_ : Eval FrameId) heap = _
    rw [missing]
  have run {heap : Heap} {owner : FrameId} (reached : heap.ancestor? id depth = some owner) :
      Eval.ancestor id depth heap = (Pure.pure owner : Eval FrameId) heap := by
    rw [Eval.ancestor, bind_run]
    change (_ : Eval FrameId) heap = _
    rw [reached]
  have same (ground : Ground) := heap.ancestor?_on around.root ground id depth
  cases reached : heap.ancestor? id depth with
  | none => exact defect.congr (stop reached) fun ground => stop ((same ground).trans reached)
  | some owner =>
    exact (pure secluded (secluded.ancestor above reached)).congr (run reached) fun ground =>
      run ((same ground).trans reached)

theorem store {id slot : Nat} (above : around.root ≤ id) {content : Slot}
    (inside : ∀ value, content = .ready value → value.Inside (around.root ≤ ·)) :
    Mirrors around (Eval.store id slot content) (fun _ => Eval.store id slot content) heap
      fun _ => True := by
  apply frame
  intro found _
  simp only [Frame.slots_on]
  split
  · refine ⟨secluded.put above inside, trivial, fun ground _ => ?_⟩
    rw [Heap.put_on]
    rfl
  · exact defect

theorem storeAll {id slot : Nat} (above : around.root ≤ id) (values : List Value)
    (inside : ∀ value ∈ values, value.Inside (around.root ≤ ·)) :
    Mirrors around (Eval.storeAll id slot values) (fun _ => Eval.storeAll id slot values) heap
      fun _ => True := by
  induction values generalizing heap slot with
  | nil => exact pure secluded trivial
  | cons value values ih =>
    obtain ⟨first, others⟩ := List.forall_mem_cons.mp inside
    apply (store secluded above fun other same => ?_).bind
    · exact fun _ _ secluded' _ => ih secluded' others
    · cases same
      exact first

theorem storePending {id : Nat} (above : around.root ≤ id) (definitions : List (Nat × Expr)) :
    Mirrors around (Eval.storePending id definitions)
      (fun _ => Eval.storePending id definitions) heap fun _ => True := by
  induction definitions generalizing heap with
  | nil => exact pure secluded trivial
  | cons definition definitions ih =>
    apply (store secluded above fun _ same => by cases same).bind
    exact fun _ _ secluded' _ => ih secluded'

theorem close {lambda : Lambda} {env : FrameId} (above : around.root ≤ env) :
    Mirrors around (Eval.close lambda env) (fun _ => Eval.close lambda env) heap
      (Value.Inside (around.root ≤ ·)) :=
  ⟨secluded.close _, .closure above, fun _ _ => rfl⟩

omit secluded in
theorem settling {action : Eval Value} {mirrored : Ground → Eval Value} {id slot : Nat}
    {definition : Expr} (above : around.root ≤ id)
    (mirrors : Mirrors around action mirrored heap (Value.Inside (around.root ≤ ·))) :
    Mirrors around (Eval.settling id slot definition action)
      (fun ground => Eval.settling id slot definition (mirrored ground)) heap
      (Value.Inside (around.root ≤ ·)) := by
  refine Ends.settling (Ends.mono mirrors ?_ ?_)
  · rintro value later ⟨secluded, inside, same⟩
    refine ⟨secluded.put above fun other same => ?_, inside, fun ground stands => ?_⟩
    · cases same
      exact inside
    · unfold Eval.settling
      dsimp only
      rw [same ground stands, Heap.put_on]
  · intro fault later failed
    refine failed.imp_right fun ⟨reached, same⟩ => ⟨reached, fun ground stands => ?_⟩
    unfold Eval.settling
    dsimp only
    rw [same ground stands, Heap.put_on]

/-- The new frame is one of the program, and stands on the same ground. -/
theorem alloc {slotCount depth : Nat} {parent caller : Option FrameId}
    {callSite : Option Location}
    (called : ∀ id : Nat, caller = some id → around.root ≤ id ∧ id < heap.frames.size)
    (inside : ∀ id : Nat, parent = some id → around.root ≤ id) :
    Mirrors around (Eval.alloc slotCount parent caller callSite depth)
      (fun ground => Eval.alloc slotCount parent caller callSite (depth + ground.depth)) heap
      (around.root ≤ ·) := by
  have above : around.root < heap.frames.size := secluded.size
  refine Ends.alloc ⟨secluded.alloc slotCount callSite depth called inside, Nat.le_of_lt above,
    fun ground _ => ?_⟩
  rw [heap.alloc_on ground above, ← heap.size_on around.root ground]
  rfl

theorem allocChild {slotCount id : Nat} (above : around.root ≤ id) :
    Mirrors around (Eval.allocChild slotCount id) (fun _ => Eval.allocChild slotCount id) heap
      (around.root ≤ ·) := by
  apply frame
  intro found there
  simp only [Frame.depth_on _ _ above]
  apply alloc secluded
  · rintro _ ⟨⟩
    exact ⟨above, Heap.lt_size_of_frame? there⟩
  · rintro _ ⟨⟩
    exact above

/-- The machine allows as many calls more as there are around the root frame. -/
theorem allocCall {m : Machine} {held : List Held} {slotCount env caller : Nat}
    (inside : around.root ≤ env) (above : around.root ≤ caller) {site : Location} :
    Mirrors around (Eval.allocCall m held slotCount env caller site)
      (fun ground => Eval.allocCall (m.withLimit (m.maxCallDepth + ground.depth)) held slotCount
        env caller site) heap (around.root ≤ ·) := by
  apply frame
  intro found there
  dsimp only
  by_cases deep : m.maxCallDepth < found.depth + 1
  · rw [if_pos deep]
    exact Ends.stop (.raise fun _ => .inl ⟨_, rfl⟩)
  · have deeper (ground : Ground) :
        found.depth + ground.depth + 1 = found.depth + 1 + ground.depth := by omega
    have fits (ground : Ground) :
        ¬ m.maxCallDepth + ground.depth < found.depth + 1 + ground.depth := by omega
    simp only [if_neg deep, Machine.withLimit, Frame.depth_on _ _ above, fits, ↓reduceIte, deeper]
    apply alloc secluded
    · rintro _ ⟨⟩
      exact ⟨above, Heap.lt_size_of_frame? there⟩
    · rintro _ ⟨⟩
      exact inside

end Mirrors

/-- Of an evaluator it is known how it ends; there is one for each ground that does the same. -/
def Mirroring (around : Surroundings) (ev : Evaluator) (ev' : Ground → Evaluator) : Prop :=
  ∀ held id expr heap, around.start.Secluded heap → around.Encloses held → around.root ≤ id →
    Mirrors around (ev held id expr) (ev' · held id expr) heap (Value.Inside (around.root ≤ ·))

theorem mirrors_toList {around : Surroundings} {heap : Heap} {held : List Held}
    (secluded : around.start.Secluded heap) (encloses : around.Encloses held) {context : Context}
    (within : context.Within around.root) {value : Value}
    (inside : value.Inside (around.root ≤ ·)) :
    Mirrors around (blaming held context (toList value))
      (fun _ => blaming held context (toList value)) heap
      fun items => ∀ item ∈ items, item.Inside (around.root ≤ ·) := by
  refine .blaming secluded encloses within fun items made => ?_
  cases inside with
  | list parts _ =>
    cases made
    exact parts
  | _ => cases made

section Step

variable {around : Surroundings} {m : Machine} {ev : Evaluator} {ev' : Ground → Evaluator}
  {held : List Held} {heap : Heap} {id : FrameId} (mirroring : Mirroring around ev ev')
  (secluded : around.start.Secluded heap) (encloses : around.Encloses held)
include mirroring secluded encloses

theorem mirrors_force {slot : Nat} {context : Context} (above : around.root ≤ id)
    (within : context.Within around.root) :
    Mirrors around (force ev held id slot context)
      (fun ground => force (ev' ground) held id slot context) heap
      (Value.Inside (around.root ≤ ·)) := by
  unfold force
  apply Mirrors.frame
  intro found there
  simp only [Frame.slots_on]
  cases content : found.slots[slot]? with
  | none => exact .defect
  | some content' =>
    cases content' with
    | empty => exact .defect
    | busy => exact .raise secluded encloses within
    | ready value => exact .pure secluded (secluded.values above there content)
    | pending definition =>
      apply (Mirrors.store secluded above fun _ same => by cases same).bind
      intro _ marked secluded' _
      exact (mirroring _ id definition marked secluded' (encloses.frame above) above).settling above

theorem mirrors_field? {value : Value} (inside : value.Inside (around.root ≤ ·)) {name : String}
    {context : Context} (within : context.Within around.root) :
    Mirrors around (field? ev held value name context)
      (fun ground => field? (ev' ground) held value name context) heap
      fun found => ∀ value ∈ found, value.Inside (around.root ≤ ·) := by
  have enclosed := encloses.value inside
  unfold field?
  cases inside with
  | @record fields frames parts _ =>
    refine .pure secluded fun value found => ?_
    obtain ⟨before, after, rfl, -⟩ := List.lookup_eq_some_iff.mp found
    exact parts (name, value) (by simp)
  | @«module» frame fields above =>
    dsimp only
    cases fields.lookup name with
    | none => exact .pure secluded (by simp)
    | some slot =>
      apply Mirrors.map
      apply (mirrors_force mirroring secluded enclosed above within).mono
      exact fun value inside => by simpa using inside
  | _ => exact .pure secluded (by simp)

theorem mirrors_evaluateAll (above : around.root ≤ id) (exprs : List Expr) (done : List Value)
    (inside : ∀ value ∈ done, value.Inside (around.root ≤ ·)) :
    Mirrors around (evaluateAll ev held id done exprs)
      (fun ground => evaluateAll (ev' ground) held id done exprs) heap
      fun values => ∀ value ∈ values, value.Inside (around.root ≤ ·) := by
  induction exprs generalizing heap done with
  | nil => exact .pure secluded fun value mem => inside value (List.mem_reverse.mp mem)
  | cons expr exprs ih =>
    apply (mirroring _ id expr heap secluded (encloses.values inside) above).bind
    intro value later secluded' made
    exact ih secluded' (value :: done) (List.forall_mem_cons.mpr ⟨made, inside⟩)

theorem mirrors_evaluateFields (above : around.root ≤ id) (fields : List (String × Expr))
    (done : List (String × Value))
    (inside : ∀ field ∈ done, field.2.Inside (around.root ≤ ·)) :
    Mirrors around (evaluateFields ev held id done fields)
      (fun ground => evaluateFields (ev' ground) held id done fields) heap
      fun fields => ∀ field ∈ fields, field.2.Inside (around.root ≤ ·) := by
  induction fields generalizing heap done with
  | nil => exact .pure secluded fun field mem => inside field (List.mem_reverse.mp mem)
  | cons field fields ih =>
    have enclosed := encloses.values (List.forall_mem_map.mpr inside)
    apply (mirroring _ id field.2 heap secluded enclosed above).bind
    intro value later secluded' made
    exact ih secluded' ((field.1, value) :: done) (List.forall_mem_cons.mpr ⟨made, inside⟩)

theorem mirrors_evaluateEach (above : around.root ≤ id) {slotCount : Nat} {body : Expr}
    (items done : List Value) (inside : ∀ value ∈ items, value.Inside (around.root ≤ ·))
    (inside' : ∀ value ∈ done, value.Inside (around.root ≤ ·)) :
    Mirrors around (evaluateEach ev held id slotCount body done items)
      (fun ground => evaluateEach (ev' ground) held id slotCount body done items) heap
      fun values => ∀ value ∈ values, value.Inside (around.root ≤ ·) := by
  induction items generalizing heap done with
  | nil => exact .pure secluded fun value mem => inside' value (List.mem_reverse.mp mem)
  | cons item items ih =>
    obtain ⟨first, others⟩ := List.forall_mem_cons.mp inside
    apply (Mirrors.allocChild secluded above).bind
    intro round later secluded' above'
    have filled : Mirrors around (store round 0 (.ready item))
        (fun _ => store round 0 (.ready item)) later fun _ => True :=
      .store secluded' above' fun value same => by
        cases same
        exact first
    apply filled.bind
    intro _ stored secluded'' _
    have enclosed := (encloses.values inside').frame above'
    apply (mirroring _ round body stored secluded'' enclosed above').bind
    intro value last secluded₃ made
    exact ih secluded₃ (value :: done) others (List.forall_mem_cons.mpr ⟨made, inside'⟩)

/-- The machine allows as many calls more as there are around the root frame. -/
theorem mirrors_call (above : around.root ≤ id) {function : Value} {args : List Value}
    (inside : function.Inside (around.root ≤ ·))
    (inside' : ∀ value ∈ args, value.Inside (around.root ≤ ·)) {site : Location} :
    Mirrors around (call m ev held function args id site)
      (fun ground => call (m.withLimit (m.maxCallDepth + ground.depth)) (ev' ground) held function
        args id site) heap (Value.Inside (around.root ≤ ·)) := by
  have outer := encloses.value inside
  have enclosed := outer.values inside'
  unfold call
  cases inside with
  | @closure serial lambda env env_inside =>
    dsimp only
    split
    · exact .raise secluded enclosed (Context.within_place above site)
    · apply (Mirrors.allocCall secluded env_inside above).bind
      intro callee entered secluded' above'
      apply (Mirrors.storeAll secluded' above' args inside').bind
      exact fun _ stored secluded'' _ =>
        mirroring _ callee lambda.body stored secluded'' (outer.call above' site) above'
  | builtin builtin =>
    dsimp only [Machine.withLimit]
    split
    · exact .raise secluded enclosed (Context.within_place above site)
    · cases applied : builtin.apply m.arithmetic args with
      | ok value => exact .pure secluded (builtin.apply_detached _ _ value applied).inside
      | error failure =>
        cases failure with
        | mistake kind => exact .raise secluded enclosed (Context.within_place above site)
        | reported kind => exact .raise secluded enclosed (Context.within_frame above)
        | missing => exact .defect
  | _ => exact .raise secluded outer (Context.within_place above site)

omit mirroring in
theorem mirrors_combine (above : around.root ≤ id) {location : Location} {op : BinaryOp}
    {left right : Expr} {a b : Value} (inside : a.Inside (around.root ≤ ·))
    (inside' : b.Inside (around.root ≤ ·)) (limit : Ground → Nat) :
    Mirrors around (combine m held id location op left right a b)
      (fun ground => combine (m.withLimit (limit ground)) held id location op left right a b) heap
      (Value.Inside (around.root ≤ ·)) := by
  have enclosed : around.Encloses (.values [a, b] :: held) :=
    encloses.values (by simp [inside, inside'])
  have place := Context.within_place above
  unfold combine
  dsimp only [Machine.withLimit]
  cases compare? op with
  | some holds =>
    apply (Mirrors.blaming secluded enclosed (place _) fun _ _ => trivial).bind
    intro x later secluded' _
    apply (Mirrors.blaming secluded' enclosed (place _) fun _ _ => trivial).bind
    exact fun y last secluded'' _ => .pure secluded'' (.bool _)
  | none =>
    exact .blaming secluded enclosed (place _) fun value made =>
      (operate_detached _ _ _ _ value made).inside

/-- The machine on the ground. -/
theorem step_mirrors (above : around.root ≤ id) (expr : Expr) :
    Mirrors around (step m ev held id expr)
      (fun ground => step (m.withLimit (m.maxCallDepth + ground.depth)) (ev' ground) held id expr)
      heap (Value.Inside (around.root ≤ ·)) := by
  have place := Context.within_place above
  -- The second operand of `&&` and `||`.
  have decided {later : Heap} (secluded : around.start.Secluded later) (right : Expr) :
      Mirrors around
        (do
          let b ← ev held id right
          Value.bool <$> blaming (.value b :: held) (.place right.location (some id)) (toBool b))
        (fun ground => do
          let b ← ev' ground held id right
          Value.bool <$> blaming (.value b :: held) (.place right.location (some id)) (toBool b))
        later (Value.Inside (around.root ≤ ·)) := by
    apply (mirroring held id right later secluded encloses above).bind
    intro b last secluded' inside
    apply Mirrors.map
    exact .blaming secluded' (encloses.value inside) (place _) fun b _ => .bool b
  cases expr with
  | constant location value => exact .pure secluded (Constant.toValue_detached value).inside
  | slot location depth slot =>
    apply (Mirrors.ancestor secluded above).bind
    exact fun owner later secluded' above' =>
      mirrors_force mirroring secluded' encloses above' (place _)
  | call site function args =>
    apply (mirroring held id function heap secluded encloses above).bind
    intro callee later secluded' inside
    have enclosed := encloses.value inside
    apply (mirrors_evaluateAll mirroring secluded' enclosed above args [] (by simp)).bind
    intro args last secluded'' inside'
    cases callee with
    | closure => exact mirrors_call mirroring secluded'' encloses above inside inside'
    | builtin => exact mirrors_call mirroring secluded'' encloses above inside inside'
    | _ => exact .raise secluded'' (enclosed.values inside') (place _)
  | list location items =>
    apply Mirrors.map
    apply (mirrors_evaluateAll mirroring secluded encloses above items [] (by simp)).mono
    exact fun values inside => .ofItems inside
  | record location fields =>
    apply Mirrors.map
    apply (mirrors_evaluateFields mirroring secluded encloses above fields [] (by simp)).mono
    exact fun fields inside => .ofFields inside
  | «module» location slotCount fields definitions =>
    apply (Mirrors.allocChild secluded above).bind
    intro inner later secluded' above'
    apply (Mirrors.storePending secluded' above' definitions).bind
    exact fun _ last secluded'' _ => .pure secluded'' (.module above')
  | letIn location bindings body =>
    apply (Mirrors.storePending secluded above bindings).bind
    exact fun _ later secluded' _ => mirroring held id body later secluded' encloses above
  | lambda => exact .close secluded above
  | unary location op operand =>
    apply (mirroring held id operand heap secluded encloses above).bind
    intro value later secluded' inside
    refine .blaming secluded' (encloses.value inside) (place _) fun result made => ?_
    cases op with
    | negate => exact (Value.mapNumbers_detached _ _ result made).inside
    | not =>
      cases value with
      | bool b =>
        cases made
        exact .bool _
      | _ => cases made
  | binary location op left right =>
    have first := mirroring held id left heap secluded encloses above
    have strict (others : op ≠ .and ∧ op ≠ .or) :
        Mirrors around (step m ev held id (.binary location op left right))
          (fun ground => step (m.withLimit (m.maxCallDepth + ground.depth)) (ev' ground) held id
            (.binary location op left right)) heap (Value.Inside (around.root ≤ ·)) := by
      simp only [step_binary others]
      apply first.bind
      intro a later secluded' inside
      apply (mirroring _ id right later secluded' (encloses.value inside) above).bind
      exact fun b last secluded'' inside' =>
        mirrors_combine secluded'' encloses above inside inside' _
    cases op with
    | and =>
      apply first.bind
      intro a later secluded' inside
      apply (Mirrors.blaming secluded' (encloses.value inside) (place _) fun _ _ => trivial).bind
      intro chosen last secluded'' _
      cases chosen with
      | true => exact decided secluded'' right
      | false => exact .pure secluded'' (.bool false)
    | or =>
      apply first.bind
      intro a later secluded' inside
      apply (Mirrors.blaming secluded' (encloses.value inside) (place _) fun _ _ => trivial).bind
      intro chosen last secluded'' _
      cases chosen with
      | true => exact .pure secluded'' (.bool true)
      | false => exact decided secluded'' right
    | _ => exact strict (by simp)
  | conditional location condition whenTrue whenFalse =>
    apply (mirroring held id condition heap secluded encloses above).bind
    intro value later secluded' inside
    apply (Mirrors.blaming secluded' (encloses.value inside) (place _) fun _ _ => trivial).bind
    intro chosen last secluded'' _
    cases chosen with
    | true => exact mirroring held id whenTrue last secluded'' encloses above
    | false => exact mirroring held id whenFalse last secluded'' encloses above
  | dot location base name =>
    apply (mirroring held id base heap secluded encloses above).bind
    intro value later secluded' inside
    have enclosed := encloses.value inside
    apply (mirrors_field? mirroring secluded' encloses inside (place _)).bind
    intro found last secluded'' inside'
    cases found with
    | some found => exact .pure secluded'' (inside' found rfl)
    | none =>
      dsimp only
      split
      · exact .pure secluded'' (.num _)
      · cases value with
        | record | «module» | list => exact .raise secluded'' enclosed (place _)
        | _ => exact .raise secluded'' enclosed (place _)
  | index location base index =>
    apply (mirroring held id base heap secluded encloses above).bind
    intro value later secluded' inside
    have enclosed := encloses.value inside
    apply (mirrors_toList secluded' enclosed (place _) inside).bind
    intro items later' secluded'' parts
    apply (mirroring _ id index later' secluded'' enclosed above).bind
    intro number last secluded₃ inside'
    apply (Mirrors.blaming secluded₃ (enclosed.value inside') (place _) fun _ _ => trivial).bind
    intro x last' secluded₄ _
    cases found : (position? x items.length).bind (items[·]?) with
    | none => exact .raise secluded₄ enclosed (place _)
    | some item =>
      obtain ⟨i, -, there⟩ := Option.bind_eq_some_iff.mp found
      exact .pure secluded₄ (parts item (List.mem_of_getElem? there))
  | forEach location slotCount list body =>
    apply (mirroring held id list heap secluded encloses above).bind
    intro value later secluded' inside
    have enclosed := encloses.value inside
    apply (mirrors_toList secluded' enclosed (place _) inside).bind
    intro items last secluded'' parts
    apply Mirrors.map
    apply (mirrors_evaluateEach mirroring secluded'' enclosed above items [] parts (by simp)).mono
    exact fun values inside => .ofItems inside

end Step

/-- Evaluation is the same on every ground, on a machine that allows as many calls more as there are
around the root frame. -/
theorem upTo_mirroring (around : Surroundings) (m : Machine) (fuel : Nat) :
    Mirroring around (upTo m fuel)
      fun ground => upTo (m.withLimit (m.maxCallDepth + ground.depth)) fuel := by
  induction fuel with
  | zero => exact fun _ _ _ _ _ _ _ => .inr ⟨false, fun _ _ => rfl⟩
  | succ fuel ih =>
    exact fun held id expr heap secluded encloses above =>
      step_mirrors ih secluded encloses above expr

end Eval

end ShapeLang
