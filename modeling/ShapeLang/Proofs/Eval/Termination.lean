import ShapeLang.Proofs.Eval.Operations
import ShapeLang.Proofs.Eval.Work

/-! # Evaluation ends

Every evaluation ends with some amount of fuel, in every frame of every heap: what it starts has
less work left than itself. Neither the expression nor the frames need to be well-formed.
-/

namespace ShapeLang

open Multiset

namespace Terminates

theorem settling {id : FrameId} {slot : Nat} {definition : Expr} {action : Nat → Eval Value}
    {heap : Heap} {returns : Value → Heap → Prop}
    (ends : Terminates action heap fun value after =>
      returns value (after.put id slot (.ready value))) :
    Terminates (fun fuel => Eval.settling id slot definition (action fuel)) heap returns := by
  obtain ⟨enough, result, after, settled, fueled, ok⟩ := ends
  cases result with
  | error fault =>
    refine ⟨enough, .error fault, after.put id slot (.pending definition), fun fuel le => ?_,
      fueled, fun _ same => by cases same⟩
    simp only [Eval.settling, settled fuel le]
  | ok value =>
    refine ⟨enough, .ok value, after.put id slot (.ready value), fun fuel le => ?_, fueled,
      fun other same => ?_⟩
    · simp only [Eval.settling, settled fuel le]
    · exact Except.ok.inj same ▸ ok value rfl

end Terminates

namespace Eval

variable (m : Machine)

/-- A heap that an evaluation below the bound has reached from the heap `start`. -/
structure Progress (start : Heap) (bound : Task) (heap : Heap) : Prop where
  extension : start.Extends heap
  left : Task.Left (start.work m) bound (heap.work m)

namespace Progress

variable {m} {start heap after : Heap} {bound : Task}

theorem refl (start : Heap) (bound : Task) : Progress m start bound start :=
  ⟨.refl start, .refl _ _⟩

theorem alloc (progress : Progress m start bound heap) (slotCount : Nat)
    (parent caller : Option FrameId) (callSite : Option Location) (callDepth : Nat) :
    Progress m start bound (heap.alloc slotCount parent caller callSite callDepth).2 := by
  refine ⟨progress.extension.trans (.alloc ..), ?_⟩
  rw [Heap.work_alloc]
  exact progress.left

theorem put (progress : Progress m start bound heap) {id : FrameId} {slot : Nat} {content : Slot}
    (below : ∀ task ∈ Heap.slotWork m (heap.depthOf id) content, task < bound) :
    Progress m start bound (heap.put id slot content) :=
  ⟨progress.extension.trans (.put ..),
    progress.left.next _ below (.of_le (Heap.work_put_le m heap id slot content))⟩

theorem put_ready (progress : Progress m start bound heap) {id : FrameId} {slot : Nat}
    {value : Value} : Progress m start bound (heap.put id slot (.ready value)) :=
  progress.put (by simp [Heap.slotWork])

theorem close (progress : Progress m start bound heap) (closures : Nat) :
    Progress m start bound { heap with closures } :=
  ⟨progress.extension.trans ⟨Nat.le_refl _, fun _ frame found => ⟨frame, found, rfl, rfl, rfl⟩⟩,
    progress.left⟩

end Progress

section Step

variable {ev : Nat → Evaluator} {start heap : Heap} {bound : Task} {held : List Held}
  {id : FrameId}

/-- Whatever has less work left than the start and the bound together ends. -/
def EndsBelow (ev : Nat → Evaluator) (start : Heap) (bound : Task) : Prop :=
  ∀ heap held id expr,
    IsDershowitzMannaLT (heap.work m + {heap.task m id expr}) (start.work m + {bound}) →
    Terminates (fun fuel => ev fuel held id expr) heap fun _ after =>
      heap.Extends after ∧ IsDershowitzMannaLT (after.work m) (heap.work m + {heap.task m id expr})

variable {m} (below : EndsBelow m ev start bound)

include below

theorem EndsBelow.part (progress : Progress m start bound heap) {part : Expr}
    (smaller : heap.task m id part < bound) :
    Terminates (fun fuel => ev fuel held id part) heap fun _ after =>
      Progress m start bound after := by
  refine (below heap held id part (progress.left.add_lt smaller)).mono fun _ after done => ?_
  obtain ⟨extension, less⟩ := done
  exact ⟨progress.extension.trans extension,
    progress.left.next {heap.task m id part} (by simpa using smaller) (.inr less)⟩

theorem EndsBelow.force (progress : Progress m start bound heap) (slot : Nat) (context : Context) :
    Terminates (fun fuel => Eval.force (ev fuel) held id slot context) heap fun _ after =>
      Progress m start bound after := by
  refine Terminates.through (fun frame after =>
    heap.frame? id = some frame ∧ heap = after)
    (.of_ends (.frame (fun frame found => ⟨found, rfl⟩)
      (by simp))) ?_
  rintro frame _ ⟨found, rfl⟩
  dsimp only
  cases content : frame.slots[slot]? with
  | none => exact .of_ends (.defect (by simp))
  | some content' =>
    cases content' with
    | empty => exact .of_ends (.defect (by simp))
    | busy => exact .of_ends (.raise (by simp))
    | ready value => exact .of_ends (.pure progress)
    | pending definition =>
      refine Terminates.through (fun _ after =>
        heap.put id slot .busy = after)
        (.of_ends (.store (fun _ _ _ => rfl) (by simp) (by simp))) ?_
      rintro _ _ rfl
      -- The pending slot is the task that is now evaluated.
      have depth : (heap.put id slot .busy).depthOf id = frame.depth := by
        rw [Heap.depthOf_put]
        simp [Heap.depthOf, found]
      have same : (heap.put id slot .busy).work m +
          {(heap.put id slot .busy).task m id definition} = heap.work m := by
        have sum := Heap.work_put m .busy found content
        simpa [Heap.slotWork, Heap.task, depth] using sum
      refine Terminates.settling ((below _ _ id definition ?_).mono fun value after done => ?_)
      · rw [same]
        exact progress.left.lt
      · obtain ⟨extension, less⟩ := done
        rw [same] at less
        have reached : Progress m start bound after :=
          ⟨(progress.extension.trans (.put ..)).trans extension,
            progress.left.of_atMost (.inr less)⟩
        exact reached.put_ready

theorem EndsBelow.field? (progress : Progress m start bound heap) (value : Value) (name : String)
    (context : Context) :
    Terminates (fun fuel => Eval.field? (ev fuel) held value name context) heap fun _ after =>
      Progress m start bound after := by
  cases value with
  | module frame fields =>
    simp only [Eval.field?]
    cases fields.lookup name with
    | none => exact .of_ends (.pure progress)
    | some slot => exact .map (below.force progress slot context)
  | _ => exact .of_ends (.pure progress)

theorem EndsBelow.evaluateAll (progress : Progress m start bound heap) (exprs : List Expr)
    (done : List Value)
    (parts : ∀ expr ∈ exprs, ∀ after, start.Extends after → after.task m id expr < bound) :
    Terminates (fun fuel => Eval.evaluateAll (ev fuel) held id done exprs) heap fun _ after =>
      Progress m start bound after := by
  induction exprs generalizing heap done with
  | nil => exact .of_ends (.pure progress)
  | cons expr exprs ih =>
    refine (below.part progress (parts expr (by simp) _ progress.extension)).bind ?_
    intro value after progress
    exact ih progress _ fun part mem => parts part (by simp [mem])

theorem EndsBelow.evaluateFields (progress : Progress m start bound heap)
    (fields : List (String × Expr)) (done : List (String × Value))
    (parts : ∀ field ∈ fields, ∀ after, start.Extends after → after.task m id field.2 < bound) :
    Terminates (fun fuel => Eval.evaluateFields (ev fuel) held id done fields) heap fun _ after =>
      Progress m start bound after := by
  induction fields generalizing heap done with
  | nil => exact .of_ends (.pure progress)
  | cons field fields ih =>
    refine (below.part progress (parts field (by simp) _ progress.extension)).bind ?_
    intro value after progress
    exact ih progress _ fun part mem => parts part (by simp [mem])

theorem EndsBelow.evaluateEach (progress : Progress m start bound heap) (slotCount : Nat)
    (body : Expr) (items : List Value) (done : List Value)
    (part : ∀ after, start.Extends after → after.task m id body < bound) :
    Terminates (fun fuel => Eval.evaluateEach (ev fuel) held id slotCount body done items) heap
      fun _ after => Progress m start bound after := by
  induction items generalizing heap done with
  | nil => exact .of_ends (.pure progress)
  | cons item items ih =>
    refine Terminates.through (fun round after => Progress m start bound after ∧
        after.task m round body < bound)
      (.of_ends (.allocChild (fun frame found => ?_) (by simp))) ?_
    · refine ⟨progress.alloc .., lt_of_eq_of_lt ?_ (part heap progress.extension)⟩
      simp [Heap.task, Heap.depthOf, Heap.frame?_alloc_self, Heap.fresh, found]
    rintro round after ⟨progress, smaller⟩
    refine Terminates.through
      (fun _ later => Progress m start bound later ∧ later.task m round body < bound)
      (.of_ends (.store (fun _ _ _ => ⟨progress.put_ready, ?_⟩) (by simp) (by simp))) ?_
    · exact lt_of_eq_of_lt (Heap.task_put m) smaller
    rintro _ after ⟨progress, smaller⟩
    refine (below.part progress smaller).bind fun value after progress => ?_
    exact ih progress _

omit below in
private theorem ends_storeAll {slot : Nat} (progress : Progress m start bound heap) {expr : Expr}
    (smaller : heap.task m id expr < bound) (values : List Value) :
    Ends (Eval.storeAll id slot values) heap
      (fun _ after => Progress m start bound after ∧ after.task m id expr < bound)
      fun fault _ => fault ≠ .outOfFuel := by
  induction values generalizing heap slot with
  | nil => exact .pure ⟨progress, smaller⟩
  | cons value values ih =>
    refine Ends.through (fun _ after => heap.put id slot (.ready value) = after)
      (.store (fun _ _ _ => rfl) (by simp) (by simp)) ?_
    rintro _ _ rfl
    exact ih progress.put_ready (lt_of_eq_of_lt (Heap.task_put m) smaller)

omit below in
private theorem ends_storePending {owner : FrameId} (progress : Progress m start bound heap)
    (definitions : List (Nat × Expr)) (depth : heap.depthOf owner = start.depthOf id)
    (parts : ∀ definition ∈ definitions, start.task m id definition.2 < bound) :
    Ends (Eval.storePending owner definitions) heap (fun _ after => Progress m start bound after)
      fun fault _ => fault ≠ .outOfFuel := by
  induction definitions generalizing heap with
  | nil => exact .pure progress
  | cons definition definitions ih =>
    refine Ends.through (fun _ after =>
      heap.put owner definition.1 (.pending definition.2) = after)
      (.store (fun _ _ _ => rfl) (by simp) (by simp)) ?_
    rintro _ _ rfl
    refine ih (progress.put ?_) (Heap.depthOf_put.trans depth) fun part mem =>
      parts part (by simp [mem])
    simpa [Heap.slotWork, Heap.task, depth] using parts definition (by simp)

/-- A call ends if every expression one call deeper is below the bound. -/
theorem EndsBelow.call (progress : Progress m start bound heap) (function : Value)
    (args : List Value) (site : Location)
    (deeper : ∀ after, start.Extends after → after.depthOf id + 1 ≤ m.maxCallDepth → ∀ size,
      toLex (m.maxCallDepth - (after.depthOf id + 1), size) < bound) :
    Terminates (fun fuel => Eval.call m (ev fuel) held function args id site) heap fun _ after =>
      Progress m start bound after := by
  cases function with
  | closure serial lambda env =>
    simp only [Eval.call]
    by_cases count : args.length = lambda.paramCount
    · simp only [count, ne_eq, not_true_eq_false, ↓reduceIte]
      refine Terminates.through (fun entered after => Progress m start bound after ∧
          after.task m entered lambda.body < bound)
        (.of_ends
        (.allocCall (fun frame found room => ⟨progress.alloc .., ?_⟩) (by simp) (by simp))) ?_
      · have depth : heap.depthOf id = frame.depth := by simp [Heap.depthOf, found]
        have bounded := deeper heap progress.extension (by rwa [depth]) (sizeOf lambda.body)
        simpa [Heap.task, Heap.depthOf, Heap.frame?_alloc_self, Heap.fresh, found] using bounded
      rintro entered after ⟨progress, smaller⟩
      refine (Terminates.of_ends (ends_storeAll progress smaller args)).bind ?_
      rintro _ after ⟨progress, smaller⟩
      exact below.part progress smaller
    · simp only [count, ne_eq, not_false_eq_true, ↓reduceIte]
      exact Terminates.stop (.of_ends (.raise (by simp)))
  | builtin builtin =>
    simp only [Eval.call]
    by_cases count : args.length = builtin.arity
    · simp only [count, ne_eq, not_true_eq_false, ↓reduceIte]
      cases builtin.apply m.arithmetic args with
      | ok value => exact .of_ends (.pure progress)
      | error failure =>
        cases failure with
        | mistake kind => exact .of_ends (.raise (by simp))
        | reported kind => exact .of_ends (.raise (by simp))
        | missing => exact .of_ends (.defect (by simp))
    · simp only [count, ne_eq, not_false_eq_true, ↓reduceIte]
      exact Terminates.stop (.of_ends (.raise (by simp)))
  | _ => exact .of_ends (.raise (by simp))

omit below in
/-- A complaint about a value ends evaluation, and not for lack of fuel. -/
private theorem ends_blaming {α : Type} {after : Heap} {context : Context}
    {result : Except ErrorKind α} (progress : Progress m start bound after) :
    Ends (Eval.blaming held context result) after (fun _ later => Progress m start bound later)
      fun fault _ => fault ≠ .outOfFuel :=
  .blaming (fun _ _ => progress) (by simp)

omit below in
/-- The parts of an expression are smaller tasks than the expression. -/
private theorem part_below {expr part : Expr} {after : Heap} (smaller : sizeOf part < sizeOf expr)
    (extension : start.Extends after) : after.task m id part < start.task m id expr :=
  extension.task_lt m smaller

omit below in
private theorem call_below (site : Location) (function : Expr) (args : List Expr) (after : Heap)
    (extension : start.Extends after) (room : after.depthOf id + 1 ≤ m.maxCallDepth) (size : Nat) :
    toLex (m.maxCallDepth - (after.depthOf id + 1), size) <
      start.task m id (.call site function args) := by
  have depth := extension.depthOf_le id
  rw [Heap.task, Prod.Lex.toLex_lt_toLex]
  exact .inl (by dsimp only; omega)

omit below in
theorem step_terminates {expr : Expr} (below : EndsBelow m ev start (start.task m id expr)) :
    Terminates (fun fuel => Eval.step m (ev fuel) held id expr) start fun _ after =>
      Progress m start (start.task m id expr) after := by
  have refl := Progress.refl (m := m) start (start.task m id expr)
  cases expr with
  | constant location value => exact .of_ends (.pure refl)
  | slot location depth slot =>
    refine Terminates.through (fun _ after =>
      start = after) (.of_ends (.ancestor (fun _ _ => rfl) (by simp))) ?_
    rintro owner _ rfl
    exact below.force refl slot _
  | call site function args =>
    refine (below.part refl
      (part_below (by rw [Expr.call.sizeOf_spec]; omega) refl.extension)).bind ?_
    intro callee after progress
    refine (below.evaluateAll progress args [] fun part mem later extension => ?_).bind ?_
    · have := List.sizeOf_lt_of_mem mem
      exact part_below (by rw [Expr.call.sizeOf_spec]; omega) extension
    intro values after progress
    cases callee with
    | closure serial lambda env =>
      exact below.call progress _ values site (call_below site function args)
    | builtin builtin => exact below.call progress _ values site (call_below site function args)
    | _ => exact .of_ends (.raise (by simp))
  | list location items =>
    refine .map (below.evaluateAll refl items [] fun part mem later extension => ?_)
    have := List.sizeOf_lt_of_mem mem
    exact part_below (by rw [Expr.list.sizeOf_spec]; omega) extension
  | record location fields =>
    refine .map (below.evaluateFields refl fields [] fun part mem later extension => ?_)
    have := List.sizeOf_lt_of_mem mem
    refine part_below ?_ extension
    rcases part with ⟨name, value⟩
    simp at this ⊢
    omega
  | «module» location slotCount fields definitions =>
    refine Terminates.through (fun inner after => Progress m start _ after ∧
        after.depthOf inner = start.depthOf id)
      (.of_ends (.allocChild (fun frame found => ⟨refl.alloc .., ?_⟩) (by simp))) ?_
    · simp [Heap.depthOf, Heap.frame?_alloc_self, Heap.fresh, found]
    rintro inner after ⟨progress, depth⟩
    refine Terminates.through (fun _ after => Progress m start _ after)
      (.of_ends (ends_storePending progress definitions depth ?_)) fun _ after progress => ?_
    · intro definition mem
      have := List.sizeOf_lt_of_mem mem
      rcases definition with ⟨slot, expr⟩
      exact Heap.Extends.task_lt m (.refl start) (by simp at this ⊢; omega)
    · exact .of_ends (.pure progress)
  | letIn location bindings body =>
    refine Terminates.through (fun _ after => Progress m start _ after)
      (.of_ends (ends_storePending refl bindings rfl ?_)) fun _ after progress => ?_
    · intro definition mem
      have := List.sizeOf_lt_of_mem mem
      rcases definition with ⟨slot, expr⟩
      exact Heap.Extends.task_lt m (.refl start) (by simp at this ⊢; omega)
    · exact below.part progress
        (part_below (by rw [Expr.letIn.sizeOf_spec]; omega) progress.extension)
  | lambda location paramCount slotCount body => exact .of_ends (.close (refl.close _))
  | unary location op operand =>
    refine (below.part refl
      (part_below (by rw [Expr.unary.sizeOf_spec]; omega) refl.extension)).bind ?_
    intro value after progress
    exact .of_ends (ends_blaming progress)
  | binary location op left right =>
    have leftBelow : ∀ after, start.Extends after →
        after.task m id left < start.task m id (.binary location op left right) :=
      fun after extension => part_below (by rw [Expr.binary.sizeOf_spec]; omega) extension
    have rightBelow : ∀ after, start.Extends after →
        after.task m id right < start.task m id (.binary location op left right) :=
      fun after extension => part_below (by rw [Expr.binary.sizeOf_spec]; omega) extension
    by_cases strict : op ≠ .and ∧ op ≠ .or
    · simp only [step_binary strict]
      refine (below.part refl (leftBelow _ refl.extension)).bind fun a after progress => ?_
      refine (below.part progress (rightBelow _ progress.extension)).bind fun b after progress => ?_
      unfold combine
      cases compare? op with
      | some holds =>
        exact .of_ends <| (ends_blaming progress).bind fun x after progress =>
          (ends_blaming progress).bind fun y after progress => .pure progress
      | none => exact .of_ends (ends_blaming progress)
    -- The second operand of `&&` and `||` is evaluated in one of the two cases.
    have second (held : List Held) (context : Context) (after : Heap)
        (progress : Progress m start
          (start.task m id (.binary location op left right)) after) :
        Terminates (fun fuel => do
          let b ← ev fuel held id right
          Value.bool <$> blaming (.value b :: held) context (toBool b)) after fun _ later =>
          Progress m start (start.task m id (.binary location op left right)) later := by
      refine (below.part progress (rightBelow _ progress.extension)).bind fun b after progress => ?_
      exact .of_ends (Ends.map (ends_blaming progress))
    cases op with
    | and =>
      refine (below.part refl (leftBelow _ refl.extension)).bind fun a after progress => ?_
      refine (Terminates.of_ends (ends_blaming progress)).bind fun truth after progress => ?_
      cases truth with
      | false => exact .of_ends (.pure progress)
      | true => exact second _ _ after progress
    | or =>
      refine (below.part refl (leftBelow _ refl.extension)).bind fun a after progress => ?_
      refine (Terminates.of_ends (ends_blaming progress)).bind fun truth after progress => ?_
      cases truth with
      | false => exact second _ _ after progress
      | true => exact .of_ends (.pure progress)
    | _ => simp at strict
  | conditional location condition whenTrue whenFalse =>
    refine (below.part refl
      (part_below (by rw [Expr.conditional.sizeOf_spec]; omega) refl.extension)).bind ?_
    intro value after progress
    refine (Terminates.of_ends (ends_blaming progress)).bind fun truth after progress => ?_
    cases truth with
    | false =>
      exact below.part progress
        (part_below (by rw [Expr.conditional.sizeOf_spec]; omega) progress.extension)
    | true =>
      exact below.part progress
        (part_below (by rw [Expr.conditional.sizeOf_spec]; omega) progress.extension)
  | dot location base name =>
    refine (below.part refl
      (part_below (by rw [Expr.dot.sizeOf_spec]; omega) refl.extension)).bind ?_
    intro value after progress
    refine (below.field? progress value name _).bind fun found after progress => ?_
    cases found with
    | some found => exact .of_ends (.pure progress)
    | none =>
      dsimp only
      cases value.numbers?.bind fun xs => (componentIndex? name).bind (xs[·]?) with
      | some x => exact .of_ends (.pure progress)
      | none => cases value <;> exact .of_ends (.raise (by simp))
  | index location base index =>
    refine (below.part refl
      (part_below (by rw [Expr.index.sizeOf_spec]; omega) refl.extension)).bind ?_
    intro value after progress
    refine (Terminates.of_ends (ends_blaming progress)).bind fun items after progress => ?_
    refine (below.part progress
      (part_below (by rw [Expr.index.sizeOf_spec]; omega) progress.extension)).bind ?_
    intro place after progress
    refine (Terminates.of_ends (ends_blaming progress)).bind fun x after progress => ?_
    cases (position? x items.length).bind (items[·]?) with
    | some item => exact .of_ends (.pure progress)
    | none => exact .of_ends (.raise (by simp))
  | forEach location slotCount list body =>
    refine (below.part refl
      (part_below (by rw [Expr.forEach.sizeOf_spec]; omega) refl.extension)).bind ?_
    intro value after progress
    refine (Terminates.of_ends (ends_blaming progress)).bind fun items after progress => ?_
    refine .map (below.evaluateEach progress slotCount body items [] fun later extension => ?_)
    exact part_below (by rw [Expr.forEach.sizeOf_spec]; omega) extension

end Step

private theorem wellFounded_tasks :
    WellFounded fun less more : Multiset Task => IsDershowitzMannaLT less more :=
  wellFounded_isDershowitzMannaLT

/-- Evaluation ends, and what it leaves to be done is less than what it was asked for. -/
theorem upTo_terminates (heap : Heap) (held : List Held) (id : FrameId) (expr : Expr) :
    Terminates (fun fuel => upTo m fuel held id expr) heap fun _ after =>
      heap.Extends after ∧
        IsDershowitzMannaLT (after.work m) (heap.work m + {heap.task m id expr}) := by
  induction budget : heap.work m + {heap.task m id expr} using
    wellFounded_tasks.induction generalizing heap held id expr with
  | _ budget ih =>
    subst budget
    have below : EndsBelow m (upTo m) heap (heap.task m id expr) :=
      fun heap' held' id' expr' less => ih _ less heap' held' id' expr' rfl
    refine .of_succ ((step_terminates below).mono fun _ after progress => ?_)
    exact ⟨progress.extension, progress.left.lt⟩

private theorem everything_ends (start : Heap) (bound : Task) :
    EndsBelow m (upTo m) start bound :=
  fun heap held id expr _ => upTo_terminates m heap held id expr

/-- Reading a slot ends. -/
theorem force_terminates (heap : Heap) (held : List Held) (id : FrameId) (slot : Nat)
    (context : Context) :
    Terminates (fun fuel => force (upTo m fuel) held id slot context) heap fun _ _ => True :=
  (EndsBelow.force (everything_ends m heap (toLex (0, 0))) (.refl ..) slot context).mono
    fun _ _ _ => trivial

/-- Reading a field ends. -/
theorem field?_terminates (heap : Heap) (held : List Held) (value : Value) (name : String)
    (context : Context) :
    Terminates (fun fuel => field? (upTo m fuel) held value name context) heap fun _ _ => True :=
  (EndsBelow.field? (everything_ends m heap (toLex (0, 0))) (.refl ..) value name context).mono
    fun _ _ _ => trivial

/-- Calling a function ends, whatever it is given. -/
theorem call_terminates (heap : Heap) (held : List Held) (function : Value) (args : List Value)
    (caller : FrameId) (site : Location) :
    Terminates (fun fuel => call m (upTo m fuel) held function args caller site) heap
      fun _ _ => True := by
  refine (EndsBelow.call (everything_ends m heap (toLex (m.maxCallDepth + 1, 0))) (.refl ..)
    function args site fun after _ room size => ?_).mono fun _ _ _ => trivial
  rw [Prod.Lex.toLex_lt_toLex]
  exact .inl (by dsimp only; omega)

end Eval

end ShapeLang
