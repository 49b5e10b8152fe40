import ShapeLang.Proofs.Eval.Overflow
import ShapeLang.Proofs.Eval.Tracing

/-! # Calls that are under way

The depth of a frame counts the calls around it, one caller after the other. A definition is
evaluated in the frame that it belongs to, whatever calls led to it being needed. If that frame
belongs to the call that is worked in, nothing changes; otherwise evaluation leaps to another call,
and the count goes on from the depth of that one. What the limit of the call depth bounds are
therefore the calls between one leap and the next. Rounds of loops, modules and the definitions of
the innermost call are no leaps, so that recursion through them is bounded as well.
-/

namespace ShapeLang

namespace Held

/-- Number of calls that were entered and have not returned. -/
def calls : List Held → Nat
  | [] => 0
  | .call _ _ :: held => calls held + 1
  | .frame _ :: held => calls held
  | .value _ :: held => calls held
  | .values _ :: held => calls held

theorem calls_eq_zero {held : List Held} (unworked : current held = none) : calls held = 0 := by
  fun_induction current held with
  | case1 => rfl
  | case2 => simp at unworked
  | case3 => simp at unworked
  | case4 value held ih => exact ih unworked
  | case5 values held ih => exact ih unworked

end Held

namespace Heap

open Held (calls current)

/-- What is evaluated in the frame goes on with the call that is worked in. -/
def Stays (heap : Heap) (held : List Held) (id : FrameId) : Prop :=
  (current held).map (heap.home heap.frames.size) = some (heap.home heap.frames.size id)

instance (heap : Heap) (held : List Held) (id : FrameId) : Decidable (heap.Stays held id) :=
  inferInstanceAs (Decidable (_ = _))

/-- How often something was begun that does not belong to the call that was worked in. The program
itself counts, too. -/
def leaps (heap : Heap) : List Held → Nat
  | [] => 0
  | .frame id :: held => if heap.Stays held id then heap.leaps held else heap.leaps held + 1
  | .call _ _ :: held => heap.leaps held
  | .value _ :: held => heap.leaps held
  | .values _ :: held => heap.leaps held

/-- The depth that was reached: that of the frame that was leapt to last, and one more for each call
since then. -/
def reached (heap : Heap) : List Held → Nat
  | [] => 0
  | .frame id :: held => if heap.Stays held id then heap.reached held else heap.depthOf id
  | .call _ _ :: held => heap.reached held + 1
  | .value _ :: held => heap.reached held
  | .values _ :: held => heap.reached held

instance (heap : Heap) (held : List Held) (id : FrameId) : Decidable (heap.Owns held id) :=
  match innermost : Held.innermost held with
  | some callee =>
    decidable_of_iff (heap.home heap.frames.size id = callee) (by simp [Owns, innermost])
  | none =>
    decidable_of_iff (∀ frame ∈ heap.frame? (heap.home heap.frames.size id),
      frame.callSite = none ∧ frame.caller = none) (by simp [Owns, innermost])

instance Confined.decidable (heap : Heap) : (held : List Held) → Decidable (heap.Confined held)
  | [] => inferInstanceAs (Decidable True)
  | .frame _ :: held =>
    have := Confined.decidable heap held
    inferInstanceAs (Decidable (_ ∧ _))
  | .call _ _ :: held => Confined.decidable heap held
  | .value _ :: held => Confined.decidable heap held
  | .values _ :: held => Confined.decidable heap held

/-- How the calls under way are bounded: between two leaps there are as many as the depths differ
by, and no depth is greater than the limit. While everything that was begun belongs to the call
around it, these are all calls. -/
structure Bounded (limit : Nat) (heap : Heap) (held : List Held) : Prop where
  depth : (current held).map heap.depthOf = some (heap.reached held)
  limited : heap.reached held ≤ limit
  calls_le : calls held ≤ limit * heap.leaps held
  confined : heap.Confined held → calls held = heap.reached held ∧ calls held ≤ limit

instance (limit : Nat) (heap : Heap) (held : List Held) : Decidable (heap.Bounded limit held) :=
  decidable_of_iff ((current held).map heap.depthOf = some (heap.reached held) ∧
      heap.reached held ≤ limit ∧ calls held ≤ limit * heap.leaps held ∧
      (heap.Confined held → calls held = heap.reached held ∧ calls held ≤ limit))
    ⟨fun ⟨depth, limited, le, confined⟩ => ⟨depth, limited, le, confined⟩,
      fun ⟨depth, limited, le, confined⟩ => ⟨depth, limited, le, confined⟩⟩

variable {heap : Heap} {held : List Held} {limit id : Nat}

/-- Where frames are newer than those that they are made in, enough steps lead home. -/
theorem Linked.home_fuel (linked : heap.Linked) {fuel fuel' : Nat} (enough : id < fuel)
    (enough' : id < fuel') : heap.home fuel id = heap.home fuel' id := by
  induction fuel generalizing id fuel' with
  | zero => omega
  | succ fuel ih =>
    obtain ⟨fuel', rfl⟩ : ∃ n, fuel' = n + 1 := ⟨fuel' - 1, by omega⟩
    unfold home
    split
    · rename_i slots parent caller depth found
      have older := linked.older found (linked.inside found rfl rfl)
      exact ih (by omega) (by omega)
    · rfl

/-- A module, or a round of a loop, belongs where it is made. -/
theorem Linked.home_inside (linked : heap.Linked) {frame : Frame} {parent : FrameId}
    (found : heap.frame? id = some frame) (noCall : frame.callSite = none)
    (around : frame.parent = some parent) :
    heap.home heap.frames.size id = heap.home heap.frames.size parent := by
  have older := linked.older found (linked.inside found noCall around)
  have known := lt_size_of_frame? found
  obtain ⟨slots, frameParent, caller, site, depth⟩ := frame
  obtain rfl : site = none := noCall
  obtain rfl : frameParent = some parent := around
  rw [linked.home_fuel known (Nat.lt_succ_of_lt known), home]
  simp only [found]

/-- What is made or needed in the frame that is worked in is no leap. -/
theorem Linked.stays (linked : heap.Linked) (worked : current held = some id) {inner : FrameId}
    (inside : inner = id ∨ ∃ frame, heap.frame? inner = some frame ∧ frame.callSite = none ∧
      frame.parent = some id) : heap.Stays held inner := by
  rw [Stays, worked, Option.map_some]
  rcases inside with rfl | ⟨frame, found, noCall, around⟩
  · rfl
  · rw [linked.home_inside found noCall around]

/-- Modules and rounds are as deep as the call that they belong to. -/
theorem Counted.depthOf_home (counted : Counted limit heap) (linked : heap.Linked) (fuel : Nat)
    (id : FrameId) : heap.depthOf (heap.home fuel id) = heap.depthOf id := by
  induction fuel generalizing id with
  | zero => rfl
  | succ fuel ih =>
    unfold home
    split
    · rename_i slots parent caller depth found
      have called := linked.inside found rfl rfl
      have same := counted.depth found
      dsimp only at called same
      rw [ih parent, depthOf_of_frame? found]
      simp [same, called]
    · rfl

theorem Counted.depthOf_of_stays (counted : Counted limit heap) (linked : heap.Linked)
    (stays : heap.Stays held id) :
    ∃ before, current held = some before ∧ heap.depthOf before = heap.depthOf id := by
  obtain ⟨before, worked, same⟩ := Option.map_eq_some_iff.mp stays
  refine ⟨before, worked, ?_⟩
  rw [← counted.depthOf_home linked heap.frames.size before, same, counted.depthOf_home linked]

/-- A call is one deeper than the frame that it was made in. -/
theorem Counted.depthOf_entered (counted : Counted limit heap) {site : Location}
    (recorded : heap.Recorded (.call id site :: held)) : ∃ caller, current held = some caller ∧
      heap.depthOf id = heap.depthOf caller + 1 := by
  obtain ⟨-, frame, caller, found, atSite, called, worked⟩ := recorded
  refine ⟨caller, worked, ?_⟩
  rw [depthOf_of_frame? found, counted.depth found, called, atSite]
  rfl

section Bounds

variable (counted : Counted limit heap) (linked : heap.Linked) (recorded : heap.Recorded held)
include counted linked recorded

/-- The depth of the frame that is worked in is the one that was reached. -/
theorem Counted.depthOf_current (worked : current held = some id) :
    heap.depthOf id = heap.reached held := by
  induction held generalizing id with
  | nil => simp [current] at worked
  | cons item held ih =>
    cases item with
    | value _ => exact ih recorded worked
    | values _ => exact ih recorded worked
    | frame begun =>
      obtain rfl : begun = id := Option.some.inj worked
      unfold reached
      split
      · rename_i stays
        obtain ⟨before, worked', same⟩ := counted.depthOf_of_stays linked stays
        rw [← same, ih recorded worked']
      · rfl
    | call callee site =>
      obtain rfl : callee = id := Option.some.inj worked
      obtain ⟨caller, worked', deeper⟩ := counted.depthOf_entered recorded
      rw [deeper, ih recorded.1 worked', reached]

/-- Each leap gives up the calls that were still allowed, and allows as many as the limit anew. -/
theorem Counted.calls_add_le (worked : current held = some id) :
    calls held + limit ≤ limit * heap.leaps held + heap.depthOf id := by
  induction held generalizing id with
  | nil => simp [current] at worked
  | cons item held ih =>
    cases item with
    | value _ => exact ih recorded worked
    | values _ => exact ih recorded worked
    | frame begun =>
      obtain rfl : begun = id := Option.some.inj worked
      rw [calls, leaps]
      split
      · rename_i stays
        obtain ⟨before, worked', same⟩ := counted.depthOf_of_stays linked stays
        exact same ▸ ih recorded worked'
      · rw [Nat.mul_succ]
        cases worked' : current held with
        | none => rw [Held.calls_eq_zero worked']; omega
        | some before =>
          have shallow := counted.shallow.depthOf_le before
          have bounded := ih recorded worked'
          omega
    | call callee site =>
      obtain rfl : callee = id := Option.some.inj worked
      obtain ⟨caller, worked', deeper⟩ := counted.depthOf_entered recorded
      have bounded := ih recorded.1 worked'
      rw [calls, leaps, deeper]
      omega

/-- While everything that was begun belongs to the call around it, depths count all calls. -/
theorem Counted.depthOf_eq_calls (confined : heap.Confined held) :
    (∀ id, current held = some id → heap.depthOf id = calls held) ∧
      ∀ id, heap.Owns held id → heap.depthOf id = calls held := by
  induction held with
  | nil =>
    refine ⟨fun id worked => by simp [current] at worked, fun id uncalled => ?_⟩
    rw [← counted.depthOf_home linked heap.frames.size id, calls]
    cases found : heap.frame? (heap.home heap.frames.size id) with
    | none => simp [depthOf, found]
    | some frame =>
      obtain ⟨site, caller⟩ := uncalled frame found
      rw [depthOf_of_frame? found, counted.depth found, site, caller]
      rfl
  | cons item held ih =>
    cases item with
    | value _ => exact ih recorded confined
    | values _ => exact ih recorded confined
    | frame begun =>
      obtain ⟨confined, owned⟩ := confined
      obtain ⟨-, owning⟩ := ih recorded confined
      refine ⟨fun id worked => ?_, owning⟩
      obtain rfl : begun = id := Option.some.inj worked
      exact owning begun owned
    | call callee site =>
      obtain ⟨caller, worked', deeper⟩ := counted.depthOf_entered recorded
      have entered : heap.depthOf callee = calls held + 1 := by
        rw [deeper, (ih recorded.1 confined).1 caller worked']
      refine ⟨fun id worked => ?_, fun id belongs => ?_⟩
      · obtain rfl : callee = id := Option.some.inj worked
        exact entered
      · rw [← counted.depthOf_home linked heap.frames.size id, show _ = callee from belongs]
        exact entered

theorem Counted.bounded (worked : current held = some id) : heap.Bounded limit held := by
  have reached := counted.depthOf_current linked recorded worked
  have shallow := counted.shallow.depthOf_le id
  constructor
  · rw [worked, Option.map_some, reached]
  · exact reached ▸ shallow
  · have bounded := counted.calls_add_le linked recorded worked
    omega
  · intro confined
    have all := (counted.depthOf_eq_calls linked recorded confined).1 id worked
    omega

end Bounds

end Heap

namespace Eval

/-- Evaluates as `upTo` does, but gives up with an alarm at the first moment that is not allowed, as
seen from the frames and what is under way. -/
def watched (m : Machine) (alarm : Fault) (allowed : Heap → List Held → Bool) : Nat → Evaluator
  | 0 => fun _ _ _ => throw .outOfFuel
  | fuel + 1 => fun held id expr heap =>
    if allowed heap held then step m (watched m alarm allowed fuel) held id expr heap
    else (.error alarm, heap)

/-- What the limit of the call depth keeps up: frames are made as the machine makes them, and the
calls under way are those that the frames have recorded. -/
def nesting (m : Machine) : Discipline m where
  sound := Heap.Made m
  leads := (tracing m).leads
  allowed := (tracing m).allowed
  refl := (tracing m).refl
  trans := (tracing m).trans
  put id slot content made := ⟨made.put id slot content, .put _ id slot content⟩
  close made := ⟨made.closures _, ((tracing m).close made.linked).2⟩
  child slotCount made found := ⟨made.inside found slotCount, .alloc ..⟩
  enter slotCount env site made found fits :=
    ⟨made.entered found fits slotCount env site, .alloc ..⟩
  later := (tracing m).later
  value := (tracing m).value
  values := (tracing m).values
  begun other made allowed := (tracing m).begun other made.linked allowed
  called slotCount env site made allowed found :=
    (tracing m).called slotCount env site made.linked allowed found

/-- Watching for too many calls changes nothing: there never are. -/
theorem upTo_watches (m : Machine) (alarm : Fault) (fuel : Nat) :
    Alike (nesting m)
      (watched m alarm (fun heap held => heap.Bounded m.maxCallDepth held) fuel) (upTo m fuel) := by
  induction fuel with
  | zero => exact fun held id expr heap made _ => .throw made
  | succ fuel ih =>
    intro held id expr heap made allowed
    obtain ⟨worked, recorded⟩ := allowed
    have bounded := made.counted.bounded made.linked recorded worked
    refine (step_alike ih held id expr heap made ⟨worked, recorded⟩).congr ?_
    simp only [watched, bounded, decide_true, ↓reduceIte]

/-- A call that is made in a frame of the greatest depth is not entered. -/
theorem call_at_limit {m : Machine} (ev : Evaluator) (held : List Held) {heap : Heap}
    {caller : FrameId} (deepest : heap.depthOf caller = m.maxCallDepth)
    (found : (heap.frame? caller).isSome) (serial : Nat) {lambda : Lambda} (env : FrameId)
    {args : List Value} (count : args.length = lambda.paramCount) (site : Location) :
    ∃ locations, call m ev held (.closure serial lambda env) args caller site heap =
      (.error (.exception ⟨.stackOverflow m.maxCallDepth, locations⟩), heap) := by
  obtain ⟨frame, found⟩ := Option.isSome_iff_exists.mp found
  have deep : frame.depth = m.maxCallDepth := by simpa [Heap.depthOf, found] using deepest
  have stops : Ends (call m ev held (.closure serial lambda env) args caller site) heap
      (fun _ _ => False) fun fault later => later = heap ∧
        ∃ locations, fault = .exception ⟨.stackOverflow m.maxCallDepth, locations⟩ := by
    unfold call
    simp only [count, ne_eq, not_true_eq_false, ↓reduceIte]
    apply Ends.stop
    apply Ends.allocCall
    · intro other found' fits
      obtain rfl := Option.some.inj (found'.symm.trans found)
      omega
    · exact fun _ locations _ _ => ⟨rfl, locations, rfl⟩
    · intro missing
      simp [found] at missing
  rcases ran : call m ev held (.closure serial lambda env) args caller site heap with
    ⟨fault | value, later⟩
  · obtain ⟨rfl, locations, rfl⟩ := stops.failed ran
    exact ⟨locations, rfl⟩
  · exact (stops.returned ran).elim

end Eval

namespace Program

open Held (calls current)

/-- While a program is evaluated, the calls between two leaps lead from the depth of the frame that
was leapt to no deeper than the limit, so that all calls are at most as many as the limit allows for
each leap; while everything under way belongs to the call around it, they are at most as many as the
limit. Whatever is made or needed in the frame that is worked in is no leap, and from a frame whose
depth is the limit one more call is refused. -/
theorem calls_bounded (m : Machine) (names : Namespace) (held : List Held)
    (caller : Option FrameId) (source : Source) (heap : Heap) (made : heap.Made m)
    (p : Program) (compiled : Heap)
    (ran : compile names held caller source heap = (.ok (.ok p), compiled)) :
    compiled.Made m ∧
      (∀ before held, before.Made m → before.Recorded held →
        (∀ fuel alarm,
          Eval.watched m alarm (fun heap held => heap.Bounded m.maxCallDepth held) fuel
            (.frame p.frame :: held) p.frame p.expr before = p.eval m fuel held before ∧
          (p.eval m fuel held before).2.Made m) ∧
        ∀ id inner, current held = some id → (inner = id ∨ ∃ frame,
            before.frame? inner = some frame ∧ frame.callSite = none ∧ frame.parent = some id) →
          before.leaps (.frame inner :: held) = before.leaps held ∧
          before.reached (.frame inner :: held) = before.reached held) ∧
      ∀ (now : Heap) ev held caller serial lambda env args site, (now.frame? caller).isSome →
        now.depthOf caller = m.maxCallDepth → args.length = lambda.paramCount →
        ∃ locations, Eval.call m ev held (.closure serial lambda env) args caller site now =
          (.error (.exception ⟨.stackOverflow m.maxCallDepth, locations⟩), now) := by
  refine ⟨(made.compile names held caller source).returned ran, ?_, ?_⟩
  · intro before held made recorded
    constructor
    · intro fuel alarm
      have allowed : (Eval.nesting m).allowed (.frame p.frame :: held) before p.frame :=
        ⟨rfl, recorded⟩
      have alike := Eval.upTo_watches m alarm fuel _ p.frame p.expr before made allowed
      exact ⟨alike.1, alike.sound_after⟩
    · intro id inner worked inside
      have stays := made.linked.stays worked inside
      exact ⟨if_pos stays, if_pos stays⟩
  · intro now ev held caller serial lambda env args site found deepest count
    exact Eval.call_at_limit ev held deepest found serial env count site

section Forcing

/-- One definition calls a function that needs another one, which calls a function, too. -/
def forcing : Source := ⟨"test", "let a = (x -> b)(true); b = (x -> true)(true) in a"⟩

/-- A machine that allows one call. -/
def oneCall : Machine := ⟨.binary64, 1⟩

private theorem compiles_forcing :
    ∃ p compiled, compile [] [] none forcing .empty = (.ok (.ok p), compiled) := by
  have accepted : ((compile [] [] none forcing .empty).1.toOption.bind
      Except.toOption).isSome := by decide +kernel
  rcases ran : compile [] [] none forcing .empty with ⟨fault | errors | p, later⟩
  · simp [ran, Except.toOption] at accepted
  · simp [ran, Except.toOption] at accepted
  · exact ⟨p, later, rfl⟩

theorem calls_bounded_forcing : ∃ p compiled,
    compile [] [] none forcing .empty = (.ok (.ok p), compiled) ∧
    ∀ alarm, Eval.watched oneCall alarm (fun heap held => heap.Bounded 1 held) 9
      [.frame p.frame] p.frame p.expr compiled = p.eval oneCall 9 [] compiled := by
  obtain ⟨p, compiled, ran⟩ := compiles_forcing
  obtain ⟨made, bounded⟩ := calls_bounded oneCall [] [] none forcing .empty .empty p compiled ran
  exact ⟨p, compiled, ran, fun alarm => ((bounded.1 compiled [] made trivial).1 9 alarm).1⟩

/-- With one call allowed, two calls are under way at some moment, and nothing is refused. -/
theorem calls_exceed_limit : ∃ p compiled,
    compile [] [] none forcing .empty = (.ok (.ok p), compiled) ∧
    ((p.eval oneCall 9 [] compiled).1.toOption.bind fun value =>
      (Eval.toBool value).toOption) = some true ∧
    (Eval.watched oneCall .outOfFuel (fun _ held => calls held ≤ oneCall.maxCallDepth) 9
      [.frame p.frame] p.frame p.expr compiled).1.toOption.isNone := by
  have run : ((compile [] [] none forcing .empty).1.toOption.bind Except.toOption).all fun p =>
      ((p.eval oneCall 9 [] (compile [] [] none forcing .empty).2).1.toOption.bind fun value =>
        (Eval.toBool value).toOption) = some true ∧
      (Eval.watched oneCall .outOfFuel (fun _ held => calls held ≤ oneCall.maxCallDepth) 9
        [.frame p.frame] p.frame p.expr
        (compile [] [] none forcing .empty).2).1.toOption.isNone := by decide +kernel
  obtain ⟨p, compiled, ran⟩ := compiles_forcing
  rw [ran] at run
  exact ⟨p, compiled, ran, by simpa [Except.toOption] using run⟩

end Forcing

end Program

end ShapeLang
