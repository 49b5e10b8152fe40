import ShapeLang.Proofs.Reevaluation.Parts

/-! # Evaluation finds the same again

Whatever was evaluated before, and however often slots were reset meanwhile, an expression evaluates
to what it denotes, as long as no comparison hangs on the identity of functions or modules. The
induction is on the fuel.
-/

namespace ShapeLang.Reevaluation

open Denotation

variable {m : Machine} {lenient : Prop} {busy : List Errand} {roles wider : Roles} {heap : Heap}
  {w : Place} {id : FrameId} {env : Env} {value : Value} {value' : Den} {evaluate : Evaluator}
  {held : List Held} {compare : Comparison}

section Tests

/-- The result of an operator, if there is any. -/
theorem agrees_plain (reflects : Reflects m lenient busy roles heap) {context : Context}
    {result result' : Except ErrorKind Value} (same : result = result')
    (plain : Value.PlainResult result) :
    Agrees m lenient busy heap roles (Eval.blaming held context result)
      (fun _ => Den.ofPlain <$> expect result') Means := by
  apply Agrees.mapRight
  apply (Agrees.test reflects same).mono
  rintro wider value _ ⟨made, rfl⟩
  exact .of_plain (plain value made)

variable (reflects : Reflects m lenient busy roles heap) (means : Means roles value value')
  {context : Context}
include reflects means

/-- A list and the denotations of its items. -/
theorem agrees_toList {α β : Type} {next : List Value → Eval α} {next' : Nat → List Den → Outcome β}
    {post : Roles → α → β → Prop}
    (second : ∀ items items', MeansAll roles items items' →
      Agrees m lenient busy heap roles (next items) (next' · items') post) :
    Agrees m lenient busy heap roles (Eval.blaming held context (Eval.toList value) >>= next)
      (fun n => expect (toList value') >>= next' n) post := by
  have told := means.alike.wrongType "list"
  cases means with
  | list items parts =>
    change Agrees m lenient busy heap roles (pure (items.map (·.1)) >>= next)
      (fun n => pure (items.map (·.2)) >>= next' n) post
    simp only [pure_bind]
    exact second _ _ (meansAll_of_pairs parts)
  | _ =>
    simp only [toList, ← told]
    exact .stop reflects _

/-- An operator other than `&&`, `||`, `==` and `!=`. -/
theorem agrees_combine {location : Location} {op : BinaryOp} (other : op.asksEqual? = none)
    {left right : Expr} {value₂ : Value} {value₂' : Den} (means' : Means roles value₂ value₂') :
    Agrees m lenient busy heap roles (Eval.combine m held id location op left right value value₂)
      (fun _ => combine m op value' value₂') Means := by
  unfold Eval.combine combine
  cases Eval.compare? op with
  | some holds =>
    apply Agrees.told reflects means.alike.toNumber
    intro x
    apply Agrees.told reflects means'.alike.toNumber
    exact fun y => .pure reflects (.bool _)
  | none =>
    have plain : op ≠ .equal ∧ op ≠ .notEqual := by
      constructor <;> rintro rfl <;> cases other
    exact agrees_plain reflects (means.alike.operate_data m.arithmetic plain means'.alike)
      (Eval.operate_plain m.arithmetic op value value₂)

/-- A comparison of two values. It is spoiled where a lenient one answers what contents leave
open. -/
theorem agrees_compare (follows : Comparison.Follows lenient compare) {positive : Bool}
    {value₂ : Value} {value₂' : Den} (means' : Means roles value₂ value₂') :
    Agrees m lenient busy heap roles
      (Eval.blaming held context ((fun same => .bool (same == positive)) <$> compare value value₂))
      (fun _ => contrast positive value' value₂') Means := by
  have contents := means.alike.content means'.alike
  unfold contrast
  rw [← contents]
  rcases follows value value₂ with same | ⟨free, refused, answer, same⟩
  · rw [same]
    cases Comparison.content value value₂ with
    | ok answer => exact .pure reflects (.bool _)
    | error kind => exact .raise reflects kind
  · rw [same, refused]
    have spoiled : Spoiled lenient fun _ =>
        expect ((fun same => Den.bool (same == positive)) <$> Except.error Comparison.refusal) :=
      ⟨free, .of_run rfl⟩
    have answered : Agrees m lenient busy heap roles (pure (.bool (answer == positive)))
        (fun _ => pure (.bool (answer == positive))) Means := .pure reflects (.bool _)
    exact answered.spoil spoiled

end Tests

section Step

variable (simulates : Simulates m lenient evaluate) (reflects : Reflects m lenient busy roles heap)
  {location : Location}
include simulates reflects

omit simulates in
/-- The definitions of a module wait in a frame of its own. -/
theorem step_module {slotCount : Nat} {fields : List (String × Nat)} {bindings : List (Nat × Expr)}
    (sits : Sits roles id env w (.module location slotCount fields bindings)) :
    Agrees m lenient busy heap roles
      (Eval.step m evaluate held id (.module location slotCount fields bindings))
      (fun n => rule m (denote m n) env w (.module location slotCount fields bindings)) Means := by
  obtain ⟨known, -, roomy⟩ := sits
  cases roomy with | «module» layout named parts =>
  let new : Env := .frame w (group w bindings ++ definitionsGroup w bindings) env.depth []
    (some env)
  have slots : new.definitions.map (·.slot) =
      bindings.map (·.1) ++ bindings.flatMap (·.2.letSlots) := by
    simp [new, map_slot_group, map_slot_definitionsGroup]
  have laid : new.Laid :=
    ⟨slots ▸ layout.nodup, fun _ _ => Nat.zero_le _, nested_group w bindings⟩
  have roomyAll : ∀ d ∈ new.definitions, d.expr.Roomy := by
    intro d mem
    rcases List.mem_append.mp mem with mem | mem
    · exact (parts _ (mem_group mem).1).roomy
    · obtain ⟨binding, isBinding, w', mem⟩ := exists_of_mem_definitionsGroup mem
      exact roomy_definitions (parts binding isBinding) w' d mem
  have within : roles.Within (roles.assign heap.frames.size new) :=
    Roles.within_assign reflects.unknown_size
  obtain ⟨frame, found, depth, -⟩ := (reflects.stands id env known).frame
  refine Agrees.left (.allocChild (fun frame' found' => ?_) fun missing => ?_)
  rotate_left
  · simp [found] at missing
  obtain rfl := Option.some.inj (found.symm.trans found')
  have reflects' : Reflects m lenient busy (roles.assign heap.frames.size new)
      (heap.alloc slotCount (some id) (some id) none frame.depth).2 := by
    rw [depth]
    refine reflects.enter laid roomyAll ?_
    rintro _ ⟨⟩
    exact ⟨env, rfl, known⟩
  have first : ∀ d ∈ group w bindings, d ∈ new.definitions :=
    fun d mem => List.mem_append_left _ mem
  refine ⟨_, within, Agrees.left (Ends.mono
    (reflects'.storePending Roles.assign_self first) ?_ ?_)⟩
  · exact fun _ after reflects'' => ⟨_, .refl _, .pure reflects'' (.module Roles.assign_self)⟩
  · rintro _ after ⟨reflects'', d, rfl⟩
    exact ⟨⟨_, .refl _, reflects''⟩, trivial⟩

/-- The definitions of a `let` wait in the frame around it, whatever was in their slots. -/
theorem step_letIn {bindings : List (Nat × Expr)} {body : Expr}
    (sits : Sits roles id env w (.letIn location bindings body)) :
    Agrees m lenient busy heap roles (Eval.step m evaluate held id (.letIn location bindings body))
      (fun n => rule m (denote m n) env w (.letIn location bindings body)) Means := by
  cases sits.roomy with | letIn parts rest =>
  have first : ∀ d ∈ group w bindings, d ∈ env.definitions := fun d mem =>
    sits.laid.subset (List.mem_append_left _ (List.mem_append_left _ mem))
  refine Agrees.left (Ends.mono (reflects.storePending sits.known first) ?_ ?_)
  · intro _ after reflects'
    exact ⟨roles, .refl roles, simulates.at reflects'
      (sits.part (List.sublist_append_right _ _) rest.roomy)⟩
  · rintro _ after ⟨reflects', d, rfl⟩
    exact ⟨⟨roles, .refl roles, reflects'⟩, trivial⟩

/-- The right operand of `&&` and `||`. -/
theorem agrees_truth {right : Expr} {context : Value → Context}
    (sits : Sits roles id env (.part 1 :: w) right) :
    Agrees m lenient busy heap roles (do
        let b ← evaluate held id right
        Value.bool <$> Eval.blaming (.value b :: held) (context b) (Eval.toBool b))
      (fun n => do
        let b ← denote m n env (.part 1 :: w) right
        Den.bool <$> expect (Eval.toBool b.outline)) Means := by
  apply (simulates.at reflects sits).bind
  intro b b' after wider within reflects' means
  apply Agrees.map
  apply (Agrees.test reflects' means.alike.toBool).mono
  rintro _ result _ ⟨-, rfl⟩
  exact .bool result

theorem step_and {left right : Expr} (sits : Sits roles id env w (.binary location .and left right)) :
    Agrees m lenient busy heap roles
      (Eval.step m evaluate held id (.binary location .and left right))
      (fun n => rule m (denote m n) env w (.binary location .and left right)) Means := by
  cases sits.roomy with | binary first second =>
  have two := sits.part (List.sublist_append_right _ _) second
  apply (simulates.at reflects (sits.part (List.sublist_append_left _ _) first)).bind
  intro a a' after wider within reflects' means
  apply Agrees.told reflects' means.alike.toBool
  intro holds
  cases holds with
  | true => exact agrees_truth simulates reflects' (two.later within)
  | false => exact .pure reflects' (.bool false)

theorem step_or {left right : Expr} (sits : Sits roles id env w (.binary location .or left right)) :
    Agrees m lenient busy heap roles (Eval.step m evaluate held id (.binary location .or left right))
      (fun n => rule m (denote m n) env w (.binary location .or left right)) Means := by
  cases sits.roomy with | binary first second =>
  have two := sits.part (List.sublist_append_right _ _) second
  apply (simulates.at reflects (sits.part (List.sublist_append_left _ _) first)).bind
  intro a a' after wider within reflects' means
  apply Agrees.told reflects' means.alike.toBool
  intro holds
  cases holds with
  | true => exact .pure reflects' (.bool true)
  | false => exact agrees_truth simulates reflects' (two.later within)

/-- An operator that evaluates both operands and does not compare them. -/
theorem step_binary {left right : Expr} {op : BinaryOp} (strict : op ≠ .and ∧ op ≠ .or)
    (other : op.asksEqual? = none) (sits : Sits roles id env w (.binary location op left right)) :
    Agrees m lenient busy heap roles (Eval.step m evaluate held id (.binary location op left right))
      (fun n => rule m (denote m n) env w (.binary location op left right)) Means := by
  have denoted (n : Nat) : rule m (denote m n) env w (.binary location op left right) = (do
      let a ← denote m n env (.part 0 :: w) left
      let b ← denote m n env (.part 1 :: w) right
      combine m op a b) := by
    cases op with
    | and => exact (strict.1 rfl).elim
    | or => exact (strict.2 rfl).elim
    | _ => rfl
  simp only [Eval.step_binary strict, denoted]
  cases sits.roomy with | binary first second =>
  have two := sits.part (List.sublist_append_right _ _) second
  apply (simulates.at reflects (sits.part (List.sublist_append_left _ _) first)).bind
  intro a a' after wider within reflects' means
  apply (simulates.at reflects' (two.later within)).bind
  intro b b' last widest within' reflects'' means'
  exact agrees_combine reflects'' (means.mono within') other means'

/-- A comparison of two expressions. -/
theorem agrees_contrast (follows : Comparison.Follows lenient compare) {positive : Bool}
    {op : BinaryOp} {left right : Expr} (sits : Sits roles id env w (.binary location op left right)) :
    Agrees m lenient busy heap roles
      (Eval.contrast compare evaluate positive held id location left right)
      (fun n => do
        let a ← denote m n env (.part 0 :: w) left
        let b ← denote m n env (.part 1 :: w) right
        contrast positive a b) Means := by
  cases sits.roomy with | binary first second =>
  have two := sits.part (List.sublist_append_right _ _) second
  apply (simulates.at reflects (sits.part (List.sublist_append_left _ _) first)).bind
  intro a a' after wider within reflects' means
  apply (simulates.at reflects' (two.later within)).bind
  intro b b' last widest within' reflects'' means'
  exact agrees_compare reflects'' (means.mono within') follows means'

theorem step_conditional {condition whenTrue whenFalse : Expr}
    (sits : Sits roles id env w (.conditional location condition whenTrue whenFalse)) :
    Agrees m lenient busy heap roles
      (Eval.step m evaluate held id (.conditional location condition whenTrue whenFalse))
      (fun n => rule m (denote m n) env w (.conditional location condition whenTrue whenFalse))
      Means := by
  cases sits.roomy with | conditional first second third =>
  have one := sits.part ((List.sublist_append_left _ _).trans (List.sublist_append_left _ _)) first
  have two := sits.part
    ((List.sublist_append_right _ _).trans (List.sublist_append_left _ _)) second
  have three := sits.part (List.sublist_append_right _ _) third
  apply (simulates.at reflects one).bind
  intro a a' after wider within reflects' means
  apply Agrees.told reflects' means.alike.toBool
  intro holds
  cases holds with
  | true => exact simulates.at reflects' (two.later within)
  | false => exact simulates.at reflects' (three.later within)

theorem step_call {function : Expr} {args : List Expr}
    (sits : Sits roles id env w (.call location function args)) :
    Agrees m lenient busy heap roles (Eval.step m evaluate held id (.call location function args))
      (fun n => rule m (denote m n) env w (.call location function args)) Means := by
  cases sits.roomy with | call head rest =>
  apply (simulates.at reflects (sits.part (List.sublist_append_left _ _) head)).bind
  intro callee callee' after wider within reflects' means
  apply (agrees_all simulates reflects' args (within id env sits.known)
    ((List.sublist_append_right _ _).trans sits.laid) rest .nil).bind
  intro values dens last widest within' reflects'' all
  have told := means.alike.wrongType "function"
  have known := within' id env (within id env sits.known)
  obtain ⟨frame, found, depth, -⟩ := (reflects''.stands id env known).frame
  have called : Agrees m lenient busy last widest
      (Eval.call m evaluate held callee values id location)
      (fun n => call m (denote m n) callee' dens env.depth (.part 2 :: w)) Means := by
    rw [← depth]
    exact agrees_call simulates reflects'' (means.mono within') all found
  cases means with
  | closure _ _ _ => exact called
  | builtin _ => exact called
  | _ =>
    simp only [call, ← told]
    exact .raise reflects'' _

theorem step_dot {base : Expr} {name : String} (sits : Sits roles id env w (.dot location base name)) :
    Agrees m lenient busy heap roles (Eval.step m evaluate held id (.dot location base name))
      (fun n => rule m (denote m n) env w (.dot location base name)) Means := by
  cases sits.roomy with | dot part =>
  have one : Sits roles id env (.part 0 :: w) base := sits.part (List.Sublist.refl _) part
  apply (simulates.at reflects one).bind
  intro value value' after wider within reflects' means
  apply (agrees_field? simulates reflects' means).bind
  intro found found' last widest within' reflects'' same
  cases same with
  | some means' => exact .pure reflects'' means'
  | none =>
    have numbers := means.alike.numbers?
    have told := means.alike.wrongType "record or module"
    simp only [component, ← numbers]
    cases value.numbers?.bind fun xs => (componentIndex? name).bind (xs[·]?) with
    | some x => exact .pure reflects'' (.num x)
    | none =>
      cases means with
      | list _ _ => exact .raise reflects'' _
      | record _ _ => exact .raise reflects'' _
      | «module» _ => exact .raise reflects'' _
      | _ =>
        simp only [← told]
        exact .raise reflects'' _

theorem step_index {base index : Expr} (sits : Sits roles id env w (.index location base index)) :
    Agrees m lenient busy heap roles (Eval.step m evaluate held id (.index location base index))
      (fun n => rule m (denote m n) env w (.index location base index)) Means := by
  cases sits.roomy with | index first second =>
  have two := sits.part (List.sublist_append_right _ _) second
  apply (simulates.at reflects (sits.part (List.sublist_append_left _ _) first)).bind
  intro value value' after wider within reflects' means
  apply agrees_toList reflects' means
  intro items items' all
  apply (simulates.at reflects' (two.later within)).bind
  intro place place' last widest within' reflects'' means'
  apply Agrees.told reflects'' means'.alike.toNumber
  intro x
  rw [← all.length_eq]
  cases Eval.position? x items.length with
  | none => exact .raise reflects'' _
  | some i =>
    have same := MeansAll.getElem? (all.mono within') i
    simp only [Option.bind_some]
    generalize items[i]? = item at same
    generalize items'[i]? = item' at same
    cases same with
    | some means'' => exact .pure reflects'' means''
    | none => exact .raise reflects'' _

theorem step_forEach {slotCount : Nat} {list body : Expr}
    (sits : Sits roles id env w (.forEach location slotCount list body)) :
    Agrees m lenient busy heap roles
      (Eval.step m evaluate held id (.forEach location slotCount list body))
      (fun n => rule m (denote m n) env w (.forEach location slotCount list body)) Means := by
  cases sits.roomy with | forEach first layout inner =>
  have one : Sits roles id env (.part 0 :: w) list := sits.part (List.Sublist.refl _) first
  apply (simulates.at reflects one).bind
  intro value value' after wider within reflects' means
  apply agrees_toList reflects' means
  intro items items' all
  apply Agrees.map
  apply (agrees_each simulates reflects' (within id env sits.known) layout inner.roomy all
    .nil).mono
  exact fun _ values dens made => made.list

/-- One step that compares nothing finds what is denoted if the evaluation of the parts does. -/
theorem agrees_step (held : List Held) {expr : Expr} (sits : Sits roles id env w expr)
    (other : ∀ location op left right, expr = .binary location op left right →
      op.asksEqual? = none) :
    Agrees m lenient busy heap roles (Eval.step m evaluate held id expr)
      (fun n => rule m (denote m n) env w expr) Means := by
  cases expr with
  | constant location value => exact .pure reflects (.of_plain (Constant.toValue_plain value))
  | slot location depth slot =>
    refine Agrees.left (.ancestor (fun owner found => ?_) fun missing => ?_)
    · obtain ⟨outer, reached, known⟩ := reflects.ancestor sits.known found
      simp only [rule, reached]
      exact ⟨roles, .refl roles, agrees_force simulates reflects known⟩
    · exact ⟨⟨roles, .refl roles, reflects⟩, trivial⟩
  | call => exact step_call simulates reflects sits
  | list location items =>
    cases sits.roomy with | list parts =>
    apply Agrees.map
    exact (agrees_all simulates reflects items sits.known sits.laid parts .nil).mono
      fun _ _ _ all => all.list
  | record location fields =>
    cases sits.roomy with | record parts =>
    apply Agrees.map
    exact (agrees_fields simulates reflects fields sits.known sits.laid parts .nil).mono
      fun _ _ _ all => all.record
  | «module» => exact step_module reflects sits
  | letIn => exact step_letIn simulates reflects sits
  | lambda =>
    cases sits.roomy with | lambda layout inner =>
    exact Ends.close ⟨roles, _, .refl roles, reflects.close _, .pure _,
      .closure sits.known layout inner.roomy⟩
  | unary location op operand =>
    cases sits.roomy with | unary part =>
    have one : Sits roles id env (.part 0 :: w) operand := sits.part (List.Sublist.refl _) part
    apply (simulates.at reflects one).bind
    intro value value' after wider within reflects' means
    cases op with
    | negate =>
      exact agrees_plain reflects' (means.alike.mapNumbers _) (Value.mapNumbers_plain _ value)
    | not =>
      have same := means.alike.toBool
      refine agrees_plain reflects' (by simp only [same]) fun result made => ?_
      cases told : Eval.toBool value with
      | error kind => simp [told] at made
      | ok holds =>
        rw [told] at made
        exact Except.ok.inj made ▸ .bool _
  | binary location op left right =>
    have compares := other location op left right rfl
    by_cases conjunction : op = .and
    · subst conjunction
      exact step_and simulates reflects sits
    · by_cases disjunction : op = .or
      · subst disjunction
        exact step_or simulates reflects sits
      · exact step_binary simulates reflects ⟨conjunction, disjunction⟩ compares sits
  | conditional => exact step_conditional simulates reflects sits
  | dot => exact step_dot simulates reflects sits
  | index => exact step_index simulates reflects sits
  | forEach => exact step_forEach simulates reflects sits

end Step

/-- One step finds what is denoted if the evaluation of the parts does. -/
theorem stepComparing_simulates (follows : Comparison.Follows lenient compare)
    (simulates : Simulates m lenient evaluate) :
    Simulates m lenient (Eval.stepComparing compare m evaluate) := by
  intro busy roles heap held id env w expr reflects sits
  cases expr with
  | binary location op left right =>
    simp only [Eval.stepComparing, denote, contentRule]
    cases asks : op.asksEqual? with
    | some positive => exact agrees_contrast simulates reflects follows sits
    | none =>
      refine agrees_step simulates reflects held sits ?_
      rintro _ _ _ _ ⟨⟩
      exact asks
  | _ => exact agrees_step simulates reflects held sits fun _ _ _ _ same => by cases same

/-- Evaluation finds what is denoted, with any amount of fuel that suffices. -/
theorem upToComparing_simulates (follows : Comparison.Follows lenient compare) (m : Machine)
    (fuel : Nat) : Simulates m lenient (Eval.upToComparing compare m fuel) := by
  induction fuel with
  | zero =>
    intro busy roles heap held id env w expr reflects _
    exact Ends.throw ⟨⟨roles, .refl roles, reflects⟩, trivial⟩
  | succ fuel ih => exact stepComparing_simulates follows ih

end ShapeLang.Reevaluation
