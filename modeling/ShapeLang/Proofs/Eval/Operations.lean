import ShapeLang.Eval
import ShapeLang.Proofs.Computation
import ShapeLang.Proofs.Frame.Heap

/-! # How the operations on frames end

One rule for each operation that evaluation is made of. The rules leave open what is wanted of the
result, so that safety, termination and agreement of evaluators all start from them.
-/

namespace ShapeLang

open Eval

variable {α : Type} {heap : Heap} {id : FrameId} {held : List Held}
  {fails : Fault → Heap → Prop}

namespace Ends

theorem defect {d : Defect} {returns : α → Heap → Prop} (error : fails (.defect d) heap) :
    Ends (Eval.defect d) heap returns fails := error

theorem raise {context : Context} {kind : ErrorKind} {returns : α → Heap → Prop}
    (error : ∀ locations, fails (.exception ⟨kind, locations⟩) heap) :
    Ends (Eval.raise held context kind) heap returns fails :=
  error _

theorem blaming {context : Context} {result : Except ErrorKind α} {returns : α → Heap → Prop}
    (ok : ∀ a, result = .ok a → returns a heap)
    (error : ∀ kind locations, result = .error kind →
      fails (.exception ⟨kind, locations⟩) heap) :
    Ends (Eval.blaming held context result) heap returns fails := by
  cases result with
  | ok a => exact Ends.pure (ok a rfl)
  | error kind => exact Ends.raise fun locations => error kind locations rfl

theorem attempt {action : Eval α} {returns : Except Fault α → Heap → Prop}
    (ends : Ends action heap (fun a after => returns (.ok a) after)
      (fun fault after => returns (.error fault) after)) :
    Ends (Eval.attempt action) heap returns fails := by
  unfold Ends Eval.attempt
  unfold Ends at ends
  rcases ran : action heap with ⟨_ | _, after⟩ <;> simpa only [ran] using ends

theorem frame {returns : Frame → Heap → Prop}
    (ok : ∀ frame, heap.frame? id = some frame → returns frame heap)
    (missing : heap.frame? id = none → fails (.defect .noFrame) heap) :
    Ends (Eval.frame id) heap returns fails := by
  refine Ends.through (fun current after => current = heap ∧ after = heap)
    (.get ⟨rfl, rfl⟩) ?_
  rintro _ _ ⟨rfl, rfl⟩
  cases found : Heap.frame? _ id with
  | some frame => exact Ends.pure (ok frame found)
  | none => exact Ends.defect (missing found)

theorem frame_found {frame : Frame} {returns : Frame → Heap → Prop}
    (found : heap.frame? id = some frame) (ok : returns frame heap) :
    Ends (Eval.frame id) heap returns fails := by
  refine Ends.frame (fun other atId => ?_) fun missing => by simp [found] at missing
  rwa [Option.some.inj (atId.symm.trans found)]

theorem ancestor {depth : Nat} {returns : FrameId → Heap → Prop}
    (ok : ∀ owner, heap.ancestor? id depth = some owner → returns owner heap)
    (missing : heap.ancestor? id depth = none → fails (.defect (.noAncestor depth)) heap) :
    Ends (Eval.ancestor id depth) heap returns fails := by
  refine Ends.through (fun current after => current = heap ∧ after = heap)
    (.get ⟨rfl, rfl⟩) ?_
  rintro _ _ ⟨rfl, rfl⟩
  cases found : Heap.ancestor? _ id depth with
  | some owner => exact Ends.pure (ok owner found)
  | none => exact Ends.defect (missing found)

theorem alloc {slotCount callDepth : Nat} {parent caller : Option FrameId}
    {callSite : Option Location} {returns : FrameId → Heap → Prop}
    (ok : returns heap.frames.size (heap.alloc slotCount parent caller callSite callDepth).2) :
    Ends (Eval.alloc slotCount parent caller callSite callDepth) heap returns fails := ok

theorem allocChild {slotCount : Nat} {returns : FrameId → Heap → Prop}
    (ok : ∀ frame, heap.frame? id = some frame →
      returns heap.frames.size (heap.alloc slotCount (some id) (some id) none frame.depth).2)
    (missing : heap.frame? id = none → fails (.defect .noFrame) heap) :
    Ends (Eval.allocChild slotCount id) heap returns fails := by
  refine Ends.through (fun frame after => heap.frame? id = some frame ∧ after = heap)
    (.frame (fun frame found => ⟨found, rfl⟩) missing) ?_
  rintro frame _ ⟨found, rfl⟩
  exact Ends.alloc (ok frame found)

theorem allocCall {m : Machine} {slotCount : Nat} {env : FrameId} {site : Location}
    {returns : FrameId → Heap → Prop}
    (ok : ∀ frame, heap.frame? id = some frame → frame.depth + 1 ≤ m.maxCallDepth →
      returns heap.frames.size
        (heap.alloc slotCount (some env) (some id) (some site) (frame.depth + 1)).2)
    (tooDeep : ∀ frame locations, heap.frame? id = some frame →
      m.maxCallDepth < frame.depth + 1 →
      fails (.exception ⟨.stackOverflow m.maxCallDepth, locations⟩) heap)
    (missing : heap.frame? id = none → fails (.defect .noFrame) heap) :
    Ends (Eval.allocCall m held slotCount env id site) heap returns fails := by
  refine Ends.through (fun frame after => heap.frame? id = some frame ∧ after = heap)
    (.frame (fun frame found => ⟨found, rfl⟩) missing) ?_
  rintro frame _ ⟨found, rfl⟩
  by_cases deep : m.maxCallDepth < frame.depth + 1
  · rw [if_pos deep]
    exact Ends.stop (.raise fun locations =>
      tooDeep frame locations found deep)
  · rw [if_neg deep]
    exact Ends.alloc (ok frame found (Nat.le_of_not_lt deep))

theorem store {slot : Nat} {content : Slot} {returns : Unit → Heap → Prop}
    (ok : ∀ frame, heap.frame? id = some frame → slot < frame.slots.length →
      returns () (heap.put id slot content))
    (outside : ∀ frame, heap.frame? id = some frame → ¬ slot < frame.slots.length →
      fails (.defect (.slotOutOfRange slot frame.slots.length)) heap)
    (missing : heap.frame? id = none → fails (.defect .noFrame) heap) :
    Ends (Eval.store id slot content) heap returns fails := by
  refine Ends.through (fun frame after => heap.frame? id = some frame ∧ after = heap)
    (.frame (fun frame found => ⟨found, rfl⟩) missing) ?_
  rintro frame _ ⟨found, rfl⟩
  by_cases inside : slot < frame.slots.length
  · simp only [inside, ↓reduceIte]
    exact Ends.modify (ok frame found inside)
  · simp only [inside, ↓reduceIte]
    exact Ends.defect (outside frame found inside)

theorem store_found {slot : Nat} {content : Slot} {frame : Frame} {returns : Unit → Heap → Prop}
    (found : heap.frame? id = some frame) (inside : slot < frame.slots.length)
    (ok : returns () (heap.put id slot content)) :
    Ends (Eval.store id slot content) heap returns fails := by
  refine Ends.store (fun _ _ _ => ok) (fun other atId outside => ?_) fun missing => by
    simp [found] at missing
  rw [Option.some.inj (atId.symm.trans found)] at outside
  exact (outside inside).elim

theorem settling {slot : Nat} {definition : Expr} {action : Eval Value}
    {returns : Value → Heap → Prop}
    (ends : Ends action heap (fun value after => returns value (after.put id slot (.ready value)))
      fun fault after => fails fault (after.put id slot (.pending definition))) :
    Ends (Eval.settling id slot definition action) heap returns fails := by
  unfold Ends Eval.settling
  unfold Ends at ends
  rcases ran : action heap with ⟨_ | _, after⟩ <;> simpa only [ran] using ends

theorem close {lambda : Lambda} {returns : Value → Heap → Prop}
    (ok : returns (.closure heap.closures lambda id) { heap with closures := heap.closures + 1 }) :
    Ends (Eval.close lambda id) heap returns fails := ok

/-- Forcing a slot, by what is in the slot. -/
theorem force {evaluate : Evaluator} {slot : Nat} {context : Context}
    {returns : Value → Heap → Prop}
    (ready : ∀ frame value, heap.frame? id = some frame → frame.slots[slot]? = some (.ready value) →
      returns value heap)
    (pending : ∀ frame definition, heap.frame? id = some frame →
      frame.slots[slot]? = some (.pending definition) →
      Ends (evaluate (.frame id :: held) id definition) (heap.put id slot .busy)
        (fun value after => returns value (after.put id slot (.ready value)))
        fun fault after => fails fault (after.put id slot (.pending definition)))
    (busy : ∀ frame locations, heap.frame? id = some frame → frame.slots[slot]? = some .busy →
      fails (.exception ⟨.recursiveDefinition, locations⟩) heap)
    (empty : ∀ frame, heap.frame? id = some frame → frame.slots[slot]? = some .empty →
      fails (.defect (.emptySlot slot)) heap)
    (outside : ∀ frame, heap.frame? id = some frame → frame.slots[slot]? = none →
      fails (.defect (.slotOutOfRange slot frame.slots.length)) heap)
    (missing : heap.frame? id = none → fails (.defect .noFrame) heap) :
    Ends (Eval.force evaluate held id slot context) heap returns fails := by
  refine Ends.through (fun frame after => heap.frame? id = some frame ∧ after = heap)
    (.frame (fun frame found => ⟨found, rfl⟩) missing) ?_
  rintro frame _ ⟨found, rfl⟩
  dsimp only
  cases content : frame.slots[slot]? with
  | none => exact Ends.defect (outside frame found content)
  | some content' =>
    cases content' with
    | empty => exact Ends.defect (empty frame found content)
    | busy => exact Ends.raise fun locations => busy frame locations found content
    | ready value => exact Ends.pure (ready frame value found content)
    | pending definition =>
      have inside : slot < frame.slots.length := (List.getElem?_eq_some_iff.mp content).1
      refine Ends.through (fun _ after => after = Heap.put _ id slot .busy)
        (.store_found found inside rfl) ?_
      rintro _ _ rfl
      exact Ends.settling (pending frame definition found content)

end Ends

namespace Eval

/-- What an operator other than `&&` and `||` makes of its operands. -/
def combine (m : Machine) (held : List Held) (frame : FrameId) (location : Location)
    (op : BinaryOp) (left right : Expr) (a b : Value) : Eval Value :=
  let held := .values [a, b] :: held
  match compare? op with
  | some holds => do
    let x ← blaming held (.place left.location (some frame)) (toNumber a)
    let y ← blaming held (.place right.location (some frame)) (toNumber b)
    pure (.bool (holds x y))
  | none => blaming held (.place location (some frame)) (operate m.arithmetic op a b)

/-- An operator other than `&&` and `||` evaluates both operands. -/
theorem step_binary {m : Machine} {evaluate : Evaluator} {held : List Held} {frame : FrameId}
    {location : Location} {op : BinaryOp} {left right : Expr}
    (strict : op ≠ .and ∧ op ≠ .or) :
    step m evaluate held frame (.binary location op left right) = (do
      let a ← evaluate held frame left
      let b ← evaluate (.value a :: held) frame right
      combine m held frame location op left right a b) := by
  cases op with
  | and => exact (strict.1 rfl).elim
  | or => exact (strict.2 rfl).elim
  | _ => rfl

end Eval

end ShapeLang
