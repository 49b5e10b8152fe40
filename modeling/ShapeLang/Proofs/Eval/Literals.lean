import Mathlib.Data.Finset.Union
import ShapeLang.Proofs.Builtin.Results
import ShapeLang.Proofs.Eval.Safety
import ShapeLang.Proofs.Expr.Literals

/-! # Evaluation makes no function literals

Every function that evaluation makes comes from a literal in the code that it is given or finds in
the frames. So there are finitely many literals, fixed before an evaluation starts, that all functions
during and after it come from.
-/

namespace ShapeLang

/-- The literal of a function, with the literals inside it. -/
def Lambda.Within (known : Finset Location) (lambda : Lambda) : Prop :=
  lambda.location ∈ known ∧ lambda.body.Within known

/-- All functions inside a value come from known literals. -/
abbrev Value.Within (known : Finset Location) (value : Value) : Prop :=
  value.Holds (fun lambda _ => lambda.Within known) fun _ _ => True

def Slot.Within (known : Finset Location) : Slot → Prop
  | .pending expr => expr.Within known
  | .ready value => value.Within known
  | _ => True

/-- All functions and all waiting definitions in the frames come from known literals. -/
def Heap.Within (known : Finset Location) (heap : Heap) : Prop :=
  ∀ (id : FrameId) frame (slot : Nat) content, heap.frame? id = some frame →
    frame.slots[slot]? = some content → content.Within known

section Finite

variable {known more : Finset Location}

theorem Value.Within.mono {value : Value} (within : value.Within known) (wider : known ⊆ more) :
    value.Within more :=
  Value.Holds.mono within
    (fun _ _ inner => ⟨wider inner.1, inner.2.mono wider⟩) fun _ _ _ => trivial

theorem Slot.Within.mono {content : Slot} (within : content.Within known) (wider : known ⊆ more) :
    content.Within more := by
  cases content with
  | pending expr => exact Expr.Within.mono within wider
  | ready value => exact Value.Within.mono within wider
  | empty => trivial
  | busy => trivial

theorem Expr.exists_within (expr : Expr) : ∃ known, expr.Within known :=
  ⟨expr.literals.toFinset, fun _ mem => List.mem_toFinset.mpr mem⟩

theorem Lambda.exists_within (lambda : Lambda) : ∃ known, lambda.Within known := by
  obtain ⟨known, within⟩ := lambda.body.exists_within
  exact ⟨insert lambda.location known, Finset.mem_insert_self .., within.mono
    (Finset.subset_insert ..)⟩

/-- What holds of each with some literals holds of all with finitely many. -/
theorem exists_common {α : Type} {holds : Finset Location → α → Prop} (items : List α)
    (mono : ∀ known more item, known ⊆ more → holds known item → holds more item)
    (each : ∀ item ∈ items, ∃ known, holds known item) :
    ∃ known, ∀ item ∈ items, holds known item := by
  induction items with
  | nil => exact ⟨∅, by simp⟩
  | cons item items ih =>
    obtain ⟨⟨first, here⟩, others⟩ := List.forall_mem_cons.mp each
    obtain ⟨rest, all⟩ := ih others
    refine ⟨first ∪ rest, List.forall_mem_cons.mpr ⟨?_, fun other mem => ?_⟩⟩
    · exact mono _ _ _ Finset.subset_union_left here
    · exact mono _ _ _ Finset.subset_union_right (all other mem)

mutual

theorem Value.exists_within : (value : Value) → ∃ known, value.Within known
  | .bool value => ⟨∅, .bool value⟩
  | .num value => ⟨∅, .num value⟩
  | .text content => ⟨∅, .text content⟩
  | .list items _ => by
    obtain ⟨known, all⟩ := exists_common items (fun _ _ _ wider within => within.mono wider)
      (Value.exists_withinItems items)
    exact ⟨known, .list all⟩
  | .record fields _ => by
    obtain ⟨known, all⟩ := exists_common fields (fun _ _ _ wider within => within.mono wider)
      (Value.exists_withinFields fields)
    exact ⟨known, .record all⟩
  | .module _ _ => ⟨∅, .module trivial⟩
  | .closure _ lambda _ => by
    obtain ⟨known, within⟩ := lambda.exists_within
    exact ⟨known, .closure within⟩
  | .builtin function => ⟨∅, .builtin function⟩

theorem Value.exists_withinItems :
    (items : List Value) → ∀ item ∈ items, ∃ known, item.Within known
  | [] => by simp
  | item :: items =>
    List.forall_mem_cons.mpr ⟨Value.exists_within item, Value.exists_withinItems items⟩

theorem Value.exists_withinFields :
    (fields : List (String × Value)) → ∀ field ∈ fields, ∃ known, field.2.Within known
  | [] => by simp
  | (_, value) :: fields =>
    List.forall_mem_cons.mpr ⟨Value.exists_within value, Value.exists_withinFields fields⟩

end

theorem Slot.exists_within (content : Slot) : ∃ known, content.Within known := by
  cases content with
  | pending expr => exact expr.exists_within
  | ready value => exact value.exists_within
  | empty => exact ⟨∅, trivial⟩
  | busy => exact ⟨∅, trivial⟩

/-- The functions in the frames come from finitely many literals. -/
theorem Heap.exists_within (heap : Heap) : ∃ known, heap.Within known := by
  obtain ⟨known, all⟩ := exists_common (heap.frames.toList.flatMap (·.slots))
    (fun _ _ _ wider within => within.mono wider) fun content _ => content.exists_within
  refine ⟨known, fun id frame slot content found holds => all content ?_⟩
  exact List.mem_flatMap.mpr ⟨frame, Array.mem_toList_iff.mpr (Array.mem_of_getElem? found),
    List.mem_of_getElem? holds⟩

end Finite

namespace Heap

variable {known more : Finset Location} {heap : Heap}

theorem Within.mono (within : heap.Within known) (wider : known ⊆ more) : heap.Within more :=
  fun id frame slot content found holds => (within id frame slot content found holds).mono wider

theorem Within.put (within : heap.Within known) {id slot : Nat} {content : Slot}
    (inner : content.Within known) : (heap.put id slot content).Within known := by
  intro other frame place old found holds
  by_cases same : id = other
  · subst same
    cases found' : heap.frame? id with
    | none =>
      rw [Heap.put, frame?_mapSlots, if_pos rfl, found'] at found
      cases found
    | some earlier =>
      rw [frame?_put_self found'] at found
      cases found
      by_cases here : slot = place
      · subst here
        obtain ⟨inside, is⟩ := List.getElem?_eq_some_iff.mp holds
        rw [List.getElem_set_self] at is
        exact is ▸ inner
      · rw [List.getElem?_set_ne here] at holds
        exact within id earlier place old found' holds
  · rw [frame?_put_ne same] at found
    exact within other frame place old found holds

theorem Within.alloc (within : heap.Within known) {slotCount depth : Nat}
    {parent caller : Option FrameId} {callSite : Option Location} :
    (heap.alloc slotCount parent caller callSite depth).2.Within known := by
  intro id frame slot content found holds
  by_cases new : id = heap.frames.size
  · subst new
    rw [frame?_alloc_self] at found
    cases found
    rw [Heap.fresh, List.getElem?_replicate] at holds
    split at holds
    · cases holds
      trivial
    · cases holds
  · rw [frame?_alloc_ne _ _ _ _ _ _ new] at found
    exact within id frame slot content found holds

end Heap

namespace Eval

variable {α β : Type} {known : Finset Location} {action : Eval α} {holds : α → Prop}

/-- A computation that keeps functions to known literals, and gives what holds. -/
def Confined (known : Finset Location) (action : Eval α) (holds : α → Prop) : Prop :=
  ∀ heap : Heap, heap.Within known →
    Ends action heap (fun a later => later.Within known ∧ holds a) fun _ later => later.Within known

namespace Confined

theorem pure {a : α} (here : holds a) : Confined known (pure a) holds :=
  fun _ within => Ends.pure ⟨within, here⟩

theorem defect {d : Defect} : Confined known (Eval.defect d) holds := fun _ within => within

theorem raise {held : List Held} {context : Context} {kind : ErrorKind} :
    Confined known (Eval.raise held context kind) holds :=
  fun _ within => Ends.raise fun _ => within

theorem bind {next : α → Eval β} {more : β → Prop} (first : Confined known action holds)
    (second : ∀ a, holds a → Confined known (next a) more) :
    Confined known (action >>= next) more := by
  intro heap within
  apply (first heap within).bind
  rintro a later ⟨within, here⟩
  exact second a here later within

/-- Nothing follows a part that does not return. -/
theorem stop {next : α → Eval β} {more : β → Prop} (first : Confined known action fun _ => False) :
    Confined known (action >>= next) more :=
  first.bind fun _ impossible => impossible.elim

theorem map {f : α → β} {more : β → Prop} (confined : Confined known action fun a => more (f a)) :
    Confined known (f <$> action) more :=
  fun heap within => Ends.map (confined heap within)

theorem mono {more : α → Prop} (confined : Confined known action holds)
    (imp : ∀ a, holds a → more a) : Confined known action more :=
  fun heap within => (confined heap within).mono (fun a _ both => ⟨both.1, imp a both.2⟩)
    fun _ _ within => within

theorem blaming {held : List Held} {context : Context} {result : Except ErrorKind α}
    (ok : ∀ a, result = .ok a → holds a) :
    Confined known (Eval.blaming held context result) holds :=
  fun _ within => .blaming (fun a same => ⟨within, ok a same⟩) fun _ _ _ => within

theorem ancestor {id depth : Nat} : Confined known (Eval.ancestor id depth) fun _ => True :=
  fun _ within => .ancestor (fun _ _ => ⟨within, trivial⟩) fun _ => within

theorem allocChild {slotCount id : Nat} :
    Confined known (Eval.allocChild slotCount id) fun _ => True :=
  fun _ within => .allocChild (fun _ _ => ⟨within.alloc, trivial⟩) fun _ => within

theorem allocCall {m : Machine} {held : List Held} {slotCount env caller : Nat} {site : Location} :
    Confined known (Eval.allocCall m held slotCount env caller site) fun _ => True :=
  fun _ within => .allocCall (fun _ _ _ => ⟨within.alloc, trivial⟩) (fun _ _ _ _ => within)
    fun _ => within

theorem store {id slot : Nat} {content : Slot} (inner : content.Within known) :
    Confined known (Eval.store id slot content) fun _ => True :=
  fun _ within => .store (fun _ _ _ => ⟨within.put inner, trivial⟩) (fun _ _ _ => within)
    fun _ => within

theorem storeAll {id slot : Nat} (values : List Value)
    (inner : ∀ value ∈ values, value.Within known) :
    Confined known (Eval.storeAll id slot values) fun _ => True := by
  induction values generalizing slot with
  | nil => exact pure trivial
  | cons value values ih =>
    obtain ⟨first, others⟩ := List.forall_mem_cons.mp inner
    exact bind (store first) fun _ _ => ih others

theorem storePending {id : Nat} (definitions : List (Nat × Expr))
    (inner : ∀ definition ∈ definitions, definition.2.Within known) :
    Confined known (Eval.storePending id definitions) fun _ => True := by
  induction definitions with
  | nil => exact pure trivial
  | cons definition definitions ih =>
    obtain ⟨first, others⟩ := List.forall_mem_cons.mp inner
    exact bind (store first) fun _ _ => ih others

/-- What is made from plain parts has no functions inside. -/
theorem plain {held : List Held} {context : Context} {result : Except ErrorKind Value}
    (made : Value.PlainResult result) :
    Confined known (Eval.blaming held context result) (Value.Within known) :=
  blaming fun value same => (made value same).holds

theorem items {held : List Held} {context : Context} {value : Value}
    (inner : value.Within known) :
    Confined known (Eval.blaming held context (toList value)) fun items =>
      ∀ item ∈ items, item.Within known := by
  apply blaming
  intro items same
  cases inner with
  | list parts => exact Except.ok.inj same ▸ parts
  | _ => cases same

end Confined

section Step

variable {m : Machine} {ev : Evaluator} {held : List Held} {id : FrameId}

variable (known) in
/-- An evaluator that makes functions from known literals if it is given code with such. -/
def ConfinedEvaluator (ev : Evaluator) : Prop :=
  ∀ held id (expr : Expr), expr.Within known →
    Confined known (ev held id expr) (Value.Within known)

variable (confined : ConfinedEvaluator known ev)

include confined

theorem confined_force {slot : Nat} {context : Context} :
    Confined known (force ev held id slot context) (Value.Within known) := by
  intro heap within
  apply Ends.force
  · exact fun frame value found ready => ⟨within, within id frame slot _ found ready⟩
  · intro frame definition found pending
    have inner : definition.Within known := within id frame slot _ found pending
    have busy : (heap.put id slot .busy).Within known := within.put trivial
    apply (confined _ id definition inner _ busy).mono
    · exact fun value later both => ⟨both.1.put both.2, both.2⟩
    · exact fun fault later within => within.put inner
  · exact fun _ _ _ _ => within
  · exact fun _ _ _ => within
  · exact fun _ _ _ => within
  · exact fun _ => within

theorem confined_field? {value : Value} {name : String} {context : Context}
    (inner : value.Within known) :
    Confined known (field? ev held value name context) fun found =>
      ∀ part ∈ found, part.Within known := by
  cases value with
  | record fields frames =>
    apply Confined.pure
    intro part found
    cases inner with
    | record parts =>
      obtain ⟨name', mem⟩ := exists_mem_of_lookup found
      exact parts _ mem
  | «module» frame fields =>
    simp only [field?]
    cases fields.lookup name with
    | none => exact .pure (by simp)
    | some slot =>
      apply Confined.map
      apply (confined_force confined).mono
      intro part within other mem
      exact Option.some.inj mem ▸ within
  | _ => exact .pure (by simp)

theorem confined_evaluateAll (exprs : List Expr) (done : List Value)
    (inner : ∀ expr ∈ exprs, expr.Within known) (before : ∀ value ∈ done, value.Within known) :
    Confined known (evaluateAll ev held id done exprs) fun values =>
      ∀ value ∈ values, value.Within known := by
  induction exprs generalizing done with
  | nil => exact .pure fun value mem => before value (List.mem_reverse.mp mem)
  | cons expr exprs ih =>
    obtain ⟨first, others⟩ := List.forall_mem_cons.mp inner
    apply (confined _ id expr first).bind
    intro value within
    exact ih _ others (List.forall_mem_cons.mpr ⟨within, before⟩)

theorem confined_evaluateFields (fields : List (String × Expr)) (done : List (String × Value))
    (inner : ∀ field ∈ fields, field.2.Within known)
    (before : ∀ field ∈ done, field.2.Within known) :
    Confined known (evaluateFields ev held id done fields) fun values =>
      ∀ field ∈ values, field.2.Within known := by
  induction fields generalizing done with
  | nil => exact .pure fun field mem => before field (List.mem_reverse.mp mem)
  | cons field fields ih =>
    obtain ⟨first, others⟩ := List.forall_mem_cons.mp inner
    apply (confined _ id field.2 first).bind
    intro value within
    exact ih _ others (List.forall_mem_cons.mpr ⟨within, before⟩)

theorem confined_evaluateEach {slotCount : Nat} {body : Expr} (within : body.Within known)
    (items done : List Value) (given : ∀ item ∈ items, item.Within known)
    (before : ∀ value ∈ done, value.Within known) :
    Confined known (evaluateEach ev held id slotCount body done items) fun values =>
      ∀ value ∈ values, value.Within known := by
  induction items generalizing done with
  | nil => exact .pure fun value mem => before value (List.mem_reverse.mp mem)
  | cons item items ih =>
    obtain ⟨first, others⟩ := List.forall_mem_cons.mp given
    apply Confined.allocChild.bind
    intro round _
    have ready : Slot.Within known (.ready item) := first
    apply (Confined.store ready).bind
    intro _ _
    apply (confined _ round body within).bind
    intro value inner
    exact ih _ others (List.forall_mem_cons.mpr ⟨inner, before⟩)

theorem confined_call {function : Value} {args : List Value} {caller : FrameId} {site : Location}
    (inner : function.Within known) (given : ∀ arg ∈ args, arg.Within known) :
    Confined known (call m ev held function args caller site) (Value.Within known) := by
  cases function with
  | closure serial lambda env =>
    cases inner with
    | closure within =>
      simp only [call]
      by_cases count : args.length = lambda.paramCount
      · simp only [count, ne_eq, not_true_eq_false, ↓reduceIte]
        apply Confined.allocCall.bind
        intro entered _
        apply (Confined.storeAll args given).bind
        intro _ _
        exact confined _ entered lambda.body within.2
      · simp only [count, ne_eq, not_false_eq_true, ↓reduceIte]
        exact .stop .raise
  | builtin builtin =>
    simp only [call]
    by_cases count : args.length = builtin.arity
    · simp only [count, ne_eq, not_true_eq_false, ↓reduceIte]
      cases result : builtin.apply m.arithmetic args with
      | ok value => exact .pure (Builtin.apply_plain _ _ _ value result).holds
      | error failure =>
        cases failure with
        | mistake kind => exact .raise
        | reported kind => exact .raise
        | missing => exact .defect
    · simp only [count, ne_eq, not_false_eq_true, ↓reduceIte]
      exact .stop .raise
  | _ => exact .raise

theorem step_confined : ConfinedEvaluator known (step m ev) := by
  intro held id expr within
  -- The parts of an expression, in any surroundings.
  have part {expr : Expr} (inner : expr.Within known) {held : List Held} {id : FrameId} :
      Confined known (ev held id expr) (Value.Within known) := confined held id expr inner
  have check {α : Type} {held : List Held} {context : Context} {result : Except ErrorKind α} :
      Confined known (blaming held context result) fun _ => True := .blaming fun _ _ => trivial
  cases expr with
  | constant location value => exact .pure (Constant.toValue_plain value).holds
  | slot location depth slot => exact Confined.ancestor.bind fun owner _ => confined_force confined
  | call site function args =>
    obtain ⟨head, rest⟩ := Expr.within_call.mp within
    apply (part head).bind
    intro callee inner
    apply (confined_evaluateAll confined args [] rest (by simp)).bind
    intro values given
    cases callee with
    | closure serial lambda env => exact confined_call confined inner given
    | builtin builtin => exact confined_call confined inner given
    | _ => exact .raise
  | list location items =>
    apply Confined.map
    apply (confined_evaluateAll confined items [] (Expr.within_list.mp within) (by simp)).mono
    exact fun values parts => .list parts
  | record location fields =>
    apply Confined.map
    apply (confined_evaluateFields confined fields [] (Expr.within_record.mp within) (by simp)).mono
    exact fun values parts => .record parts
  | «module» location slotCount fields definitions =>
    apply Confined.allocChild.bind
    intro inner _
    apply (Confined.storePending definitions (Expr.within_module.mp within)).bind
    exact fun _ _ => .pure (.module trivial)
  | letIn location bindings body =>
    obtain ⟨parts, rest⟩ := Expr.within_letIn.mp within
    exact (Confined.storePending bindings parts).bind fun _ _ => part rest
  | lambda location paramCount slotCount body =>
    exact fun heap inside => Ends.close ⟨inside, .closure (Expr.within_lambda.mp within)⟩
  | unary location op operand =>
    apply (part (Expr.within_unary.mp within)).bind
    intro value _
    apply Confined.plain
    intro result made
    cases op with
    | negate => exact Value.mapNumbers_plain _ _ result made
    | not =>
      cases value with
      | bool b => exact Except.ok.inj made ▸ .bool _
      | _ => cases made
  | binary location op left right =>
    obtain ⟨first, second⟩ := Expr.within_binary.mp within
    by_cases strict : op ≠ .and ∧ op ≠ .or
    · simp only [step_binary strict]
      refine (part first).bind fun a _ => (part second).bind fun b _ => ?_
      unfold combine
      cases compare? op with
      | some holds => exact check.bind fun x _ => check.bind fun y _ => .pure (.bool _)
      | none => exact .plain (operate_plain _ _ _ _)
    -- The second operand of `&&` and `||` is evaluated in one of the two cases.
    have last (held : List Held) (context : Context) : Confined known (do
        let b ← ev held id right
        Value.bool <$> blaming (.value b :: held) context (toBool b)) (Value.Within known) :=
      (part second).bind fun b _ => .map (check.mono fun _ _ => .bool _)
    cases op with
    | and =>
      refine (part first).bind fun a _ => check.bind fun truth _ => ?_
      cases truth with
      | false => exact .pure (.bool _)
      | true => exact last _ _
    | or =>
      refine (part first).bind fun a _ => check.bind fun truth _ => ?_
      cases truth with
      | false => exact last _ _
      | true => exact .pure (.bool _)
    | _ => simp at strict
  | conditional location condition whenTrue whenFalse =>
    obtain ⟨first, second, third⟩ := Expr.within_conditional.mp within
    refine (part first).bind fun value _ => check.bind fun truth _ => ?_
    cases truth with
    | false => exact part third
    | true => exact part second
  | dot location base name =>
    refine (part (Expr.within_dot.mp within)).bind fun value inner => ?_
    refine (confined_field? confined inner).bind fun found parts => ?_
    cases found with
    | some found => exact .pure (parts found rfl)
    | none =>
      dsimp only
      cases value.numbers?.bind fun xs => (componentIndex? name).bind (xs[·]?) with
      | some x => exact .pure (.num x)
      | none => cases value <;> exact .raise
  | index location base index =>
    obtain ⟨first, second⟩ := Expr.within_index.mp within
    refine (part first).bind fun value inner => ?_
    refine (Confined.items inner).bind fun items parts => (part second).bind fun place _ => ?_
    refine check.bind fun x _ => ?_
    cases found : (position? x items.length).bind (items[·]?) with
    | some item =>
      obtain ⟨i, -, at_⟩ := Option.bind_eq_some_iff.mp found
      exact .pure (parts item (List.mem_of_getElem? at_))
    | none => exact .raise
  | forEach location slotCount list body =>
    obtain ⟨first, second⟩ := Expr.within_forEach.mp within
    refine (part first).bind fun value inner => ?_
    refine (Confined.items inner).bind fun items parts => .map ?_
    apply (confined_evaluateEach confined second items [] parts (by simp)).mono
    exact fun values parts => .list parts

omit confined in
/-- Evaluation makes functions from the literals that are in the code and in the frames already. -/
theorem upTo_confined (m : Machine) (fuel : Nat) : ConfinedEvaluator known (upTo m fuel) := by
  induction fuel with
  | zero => exact fun _ _ _ _ _ within => within
  | succ fuel ih => exact step_confined ih

end Step

end Eval

end ShapeLang
