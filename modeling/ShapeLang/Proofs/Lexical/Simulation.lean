import ShapeLang.Proofs.Lexical.Parts

/-! # Frames simulate scopes

An expression, evaluated in a frame, and the phrase that it was resolved from, evaluated in the
scopes that lie around the frame, end alike, and leave frames and scopes that still mirror each
other. The induction is on the fuel.
-/

namespace ShapeLang.Lexical

open Eval (Neat Safe Tidied Tidy)

variable {names : Namespace} {base : Nat} {m : Machine} {ev : Evaluator} {walk : Walker}
  {start heap : Heap} {first placement : Placement} {id : FrameId} {places : List Nat}
  {store : Store} {env : Env} {ribs : Ribs} {pairs : List (ShapeLang.Value × Value)}
  {held : List Held} {context : Context}

section Tests

variable {value other : ShapeLang.Value} {value' other' : Value}
  (course : Course names base start first id places heap store placement pairs)
include course

/-- The items of two lists that correspond to each other. -/
theorem agrees_toList (mem : (value, value') ∈ pairs) :
    Agrees (Eval.blaming held context (Eval.toList value)) heap (expect (toList value')) store
      fun items after items' store' => after = heap ∧ store' = store ∧
        ∃ more : List (ShapeLang.Value × Value), items = more.map (·.1) ∧
          items' = more.map (·.2) ∧
          Course names base start first id places heap store placement (more ++ pairs) := by
  have trusted := course.neat.trusted value (List.mem_map_of_mem mem)
  have same := course.same _ mem
  have told := same.alike.wrongType "list"
  cases same with
  | list items parts =>
    refine .pure ⟨rfl, rfl, items, rfl, rfl, course.derive fun pair inside => ?_⟩
    rcases List.mem_append.mp inside with new | old
    · cases trusted with
      | list known => exact ⟨known _ (List.mem_map_of_mem new), parts pair new⟩
    · exact ⟨course.neat.trusted _ (List.mem_map_of_mem old), course.same pair old⟩
  | _ =>
    simp only [toList, ← told]
    exact .raise _

/-- A result that both sides come to in the same way. -/
theorem agrees_plain {result result' : Except ErrorKind ShapeLang.Value} (same : result = result')
    (plain : ShapeLang.Value.PlainResult result) :
    Agrees (Eval.blaming held context result) heap (Value.ofPlain <$> expect result') store
      (Leaves names base first) :=
  .mapRight (.blaming same fun made ok => course.finish (.of_plain (plain made ok)))

/-- An operator other than `&&` and `||`. -/
theorem agrees_combine {location : Location} {op : BinaryOp} {left right : Expr}
    (same : Corresponds names base placement heap value value')
    (same' : Corresponds names base placement heap other other') :
    Agrees (Eval.combine m held id location op left right value other) heap
      (combine m op value' other') store (Leaves names base first) := by
  unfold Eval.combine combine
  cases Eval.compare? op with
  | some holds =>
    apply (Agrees.told same.alike.toNumber).bind
    rintro x _ _ _ ⟨-, rfl, rfl, rfl⟩
    apply (Agrees.told same'.alike.toNumber).bind
    rintro y _ _ _ ⟨-, rfl, rfl, rfl⟩
    exact .pure (course.finish (.bool _))
  | none =>
    have twins : ShapeLang.Value.OneToOne (@Eq Nat) := by
      rintro _ _ _ _ rfl rfl
      rfl
    exact agrees_plain course
      (same.alike.operate m.arithmetic op course.mirrors.oneToOne twins same'.alike)
      (Eval.operate_plain m.arithmetic op value other)

end Tests

section Step

variable (safe : Safe ev) (tidy : Tidy base ev) (simulates : Simulates names base ev walk)
  (begun : Course names base heap placement id [] heap store placement [])
  (situated : Situated base placement heap id env ribs) {location : Location}

theorem definitions_eq {items : List Phrase} {group : List Linked}
    (written : items.mapM Phrase.binding? = some (group.map Linked.source)) :
    definitions items = pure (waitings (group.map Linked.source)) := by
  rw [definitions, written]
  rfl

include begun situated

/-- The names of a module are put into a frame and a scope of their own. -/
theorem step_module {slotCount : Nat} {items : List Phrase} {group : List Linked}
    (written : items.mapM Phrase.binding? = some (group.map Linked.source))
    (layout : Room slotCount
      (group.map Linked.slot ++ group.flatMap fun definition => definition.expr.letSlots))
    (parts : ∀ definition ∈ group,
      Resolves names (⟨group.map Linked.field, true⟩ :: ribs) definition.body definition.expr) :
    Agrees (Eval.step m ev held id
        (.module location slotCount (group.map Linked.field) (group.map Linked.binding))) heap
      (step m names walk env (.module location items)) store (Leaves names base placement) := by
  obtain ⟨lies, frame, found, depth⟩ := situated
  have slotsOf : (group.map Linked.field).map (·.2) = group.map Linked.slot := by
    simp [Linked.field, Function.comp_def]
  have distinct : (group.map Linked.slot).Nodup := (List.nodup_append'.mp layout.nodup).1
  have inside (slot : Nat) (mem : slot ∈ group.map Linked.slot) : slot < slotCount :=
    layout.inside slot (List.mem_append_left _ mem)
  have filling : Filling names base placement heap (⟨group.map Linked.field, true⟩ :: ribs)
      (setEach (List.replicate slotCount .empty) (pendings (group.map Linked.binding)))
      (group.map Linked.field) (waitings (group.map Linked.source)) :=
    .of_group distinct (fun slot mem => by simpa using inside slot mem) parts
  have opened := begun.mirrors.openFrame lies slotCount id none pendings_nonempty rfl
    (slotsOf ▸ distinct) filling
  simp only [Eval.step, step, definitions_eq written, pure_bind]
  refine .left (.allocChild (fun other found' => ?_) fun missing => by simp [found] at missing)
  obtain rfl := Option.some.inj (found.symm.trans found')
  refine .left (.storePending (Heap.frame?_alloc_self heap slotCount (some id) (some id) none
    frame.depth) (fun definition mem => ?_) (.modifyGet ?_))
  · obtain ⟨linked, mem', rfl⟩ := List.mem_map.mp mem
    simpa [Heap.fresh, Linked.binding] using inside linked.slot (List.mem_map_of_mem mem')
  have same : (waitings (group.map Linked.source)).map (·.1) =
      (group.map Linked.field).map (·.1) := by
    simp [waitings, Linked.field, Linked.source, Function.comp_def]
  rw [depth, same]
  refine .pure ⟨_, List.prefix_append _ _, opened.1, .module ?_⟩
  rw [begun.mirrors.size]
  exact List.getElem?_concat_length

/-- A function literal becomes a closure. -/
theorem step_lambda {slotCount : Nat} {phrase : Phrase} {expr : Expr} {params : List Ident}
    (layout : Room slotCount (List.range params.length ++ expr.letSlots))
    (inner : Resolves names (Rib.ofParameters (params.map (·.name)) :: ribs) phrase expr) :
    Agrees (Eval.step m ev held id (.lambda location params.length slotCount expr)) heap
      (step m names walk env (.lambda location params phrase)) store
      (Leaves names base placement) := by
  have extension : heap.Extends { heap with closures := heap.closures + 1 } :=
    ⟨Nat.le_refl _, fun _ frame found => ⟨frame, found, rfl, rfl, rfl⟩⟩
  have mirrors : Mirrors names base placement { heap with closures := heap.closures + 1 }
      { store with closures := store.closures + 1 } := by
    rw [begun.mirrors.closures]
    exact begun.mirrors.later extension fun _ frame _ _ found holds _ => ⟨frame, found, holds⟩
  refine EndAlike.ok ⟨placement, List.prefix_refl _, mirrors, ?_⟩
  have count : params.length = (params.map (·.name)).length := by simp
  rw [begun.mirrors.closures]
  exact .closure count (situated.lies.mono (List.prefix_refl _) extension) (count ▸ layout) inner

include safe tidy simulates

/-- A name that has a slot. -/
theorem step_slot {depth slot : Nat} {name : Ident}
    (resolved : ribs.resolve? name.name = some (depth, slot)) :
    Agrees (Eval.step m ev held id (.slot location depth slot)) heap
      (step m names walk env (.ident location name)) store (Leaves names base placement) := by
  obtain ⟨owner, number, rib, reached, found, placed, bound⟩ :=
    situated.lies.resolve begun.mirrors resolved
  refine .left (.ancestor (fun other reached' => ?_) fun missing => by simp [reached] at missing)
  obtain rfl := Option.some.inj (reached.symm.trans reached')
  refine .get ?_
  simp only [found]
  apply (agrees_force safe tidy simulates begun placed bound).mono
  rintro value after value' store' ⟨later, course⟩
  exact course.finish (course.same _ List.mem_cons_self)

theorem step_list {items : List (Phrase × Expr)}
    (parts : ∀ item ∈ items, Resolves names ribs item.1 item.2)
    (spare : heap.SpareAt id (Expr.list location (items.map (·.2))).letSlots) :
    Agrees (Eval.step m ev held id (.list location (items.map (·.2)))) heap
      (step m names walk env (.list location (items.map (·.1)))) store
      (Leaves names base placement) := by
  rw [Expr.letSlots_list] at spare
  apply Agrees.map
  apply (agrees_evaluateAll safe tidy simulates items [] begun situated parts spare).mono
  rintro _ after _ store' ⟨later, more, rfl, rfl, course⟩
  exact course.finish (.list more fun pair mem => course.same pair (by simp [mem]))

theorem step_record {fields : List (Ident × Phrase × Expr)}
    (parts : ∀ field ∈ fields, Resolves names ribs field.2.1 field.2.2)
    (spare : heap.SpareAt id
      (Expr.record location (fields.map fun field => (field.1.name, field.2.2))).letSlots) :
    Agrees (Eval.step m ev held id
        (.record location (fields.map fun field => (field.1.name, field.2.2)))) heap
      (step m names walk env (.record location (fields.map fun field => (field.1, field.2.1))))
      store (Leaves names base placement) := by
  rw [Expr.letSlots_record, List.flatMap_map] at spare
  apply Agrees.map
  apply (agrees_evaluateFields safe tidy simulates fields [] begun situated parts spare).mono
  rintro _ after _ store' ⟨later, more, rfl, rfl, course⟩
  exact course.finish (.record more fun field mem =>
    course.same field.2 (List.mem_append_left _ (List.mem_map_of_mem mem)))

/-- Only functions can be called. -/
theorem step_call {function : Phrase} {callee : Expr} {args : List (Phrase × Expr)}
    (head : Resolves names ribs function callee)
    (rest : ∀ arg ∈ args, Resolves names ribs arg.1 arg.2)
    (spare : heap.SpareAt id (Expr.call location callee (args.map (·.2))).letSlots) :
    Agrees (Eval.step m ev held id (.call location callee (args.map (·.2)))) heap
      (step m names walk env (.call location function (args.map (·.1)))) store
      (Leaves names base placement) := by
  rw [Expr.letSlots_call] at spare
  apply (agrees_part safe tidy simulates begun situated head spare.left).bind
  rintro value after value' store₁ ⟨later, one⟩
  apply (agrees_evaluateAll safe tidy simulates args [] one situated rest spare).bind
  rintro _ last _ store₂ ⟨later, more, rfl, rfl, two⟩
  have mem : (value, value') ∈ more ++ [(value, value')] := by simp
  have same := two.same _ mem
  have told := same.alike.wrongType "function"
  have called (held : List Held) : Agrees (Eval.call m ev held value (more.map (·.1)) id location)
      last (call m walk value' (more.map (·.2)) env.depth) store₂
      (Leaves names base placement) := by
    obtain ⟨-, frame, found, depth⟩ := situated.mono two.placed two.tidied.extension
    rw [← depth]
    apply (agrees_call safe tidy simulates two found mem fun arg mem => by simp [mem]).mono
    rintro result final result' store₃ ⟨later, course⟩
    exact course.finish (course.same _ List.mem_cons_self)
  simp only [List.reverse_nil, List.nil_append]
  cases same with
  | closure _ _ _ _ => exact called _
  | builtin _ => exact called _
  | _ =>
    simp only [call, ← told]
    exact .raise _

theorem step_dot {phrase : Phrase} {expr : Expr} {field : Ident}
    (part : Resolves names ribs phrase expr)
    (spare : heap.SpareAt id (Expr.dot location expr field.name).letSlots) :
    Agrees (Eval.step m ev held id (.dot location expr field.name)) heap
      (step m names walk env (.dot location phrase field)) store (Leaves names base placement) := by
  rw [Expr.letSlots_dot] at spare
  apply (agrees_part safe tidy simulates begun situated part spare).bind
  rintro value after value' store₁ ⟨later, one⟩
  apply (agrees_field? safe tidy simulates one List.mem_cons_self).bind
  rintro _ last _ store₂ ⟨later, more, rfl, rfl, two⟩
  cases more with
  | some pair => exact .pure (two.finish (two.same pair (by simp)))
  | none =>
    have same := two.same (value, value') (by simp)
    have numbers := same.alike.numbers?
    have told := same.alike.wrongType "record or module"
    simp only [Option.map_none, ← numbers]
    cases value.numbers?.bind fun xs => (componentIndex? field.name).bind (xs[·]?) with
    | some x => exact .pure (two.finish (.num x))
    | none =>
      cases same with
      | list _ _ => exact .raise _
      | record _ _ => exact .raise _
      | «module» _ => exact .raise _
      | _ =>
        simp only [← told]
        exact .raise _

theorem step_index {phrase index : Phrase} {expr place : Expr}
    (one : Resolves names ribs phrase expr) (two : Resolves names ribs index place)
    (spare : heap.SpareAt id (Expr.index location expr place).letSlots) :
    Agrees (Eval.step m ev held id (.index location expr place)) heap
      (step m names walk env (.index location phrase index)) store
      (Leaves names base placement) := by
  rw [Expr.letSlots_index] at spare
  apply (agrees_part safe tidy simulates begun situated one spare.left).bind
  rintro value after value' store₁ ⟨later, first⟩
  apply (agrees_toList first (by simp)).bind
  rintro _ _ _ _ ⟨rfl, rfl, items, rfl, rfl, second⟩
  apply (agrees_part safe tidy simulates second situated two spare).bind
  rintro place last place' store₂ ⟨later, third⟩
  apply (Agrees.told (third.same _ List.mem_cons_self).alike.toNumber).bind
  rintro x _ _ _ ⟨-, rfl, rfl, rfl⟩
  simp only [List.length_map, List.getElem?_map]
  cases Eval.position? x items.length with
  | none => exact .raise _
  | some i =>
    simp only [Option.bind_some]
    cases found : items[i]? with
    | none => exact .raise _
    | some item =>
      have mem : item ∈ (place, place') :: (items ++ [(value, value')]) := by
        simp [List.mem_of_getElem? found]
      exact .pure (third.finish (third.same item mem))

theorem step_unary {op : UnaryOp} {phrase : Phrase} {expr : Expr}
    (part : Resolves names ribs phrase expr)
    (spare : heap.SpareAt id (Expr.unary location op expr).letSlots) :
    Agrees (Eval.step m ev held id (.unary location op expr)) heap
      (step m names walk env (.unary location op phrase)) store (Leaves names base placement) := by
  rw [Expr.letSlots_unary] at spare
  apply (agrees_part safe tidy simulates begun situated part spare).bind
  rintro value after value' store₁ ⟨later, one⟩
  have alike := (one.same _ List.mem_cons_self).alike
  cases op with
  | negate => exact agrees_plain one (alike.mapNumbers _) (ShapeLang.Value.mapNumbers_plain _ value)
  | not =>
    have same := alike.toBool
    refine agrees_plain one (by simp only [same]) fun result made => ?_
    cases told : Eval.toBool value with
    | error kind => simp [told] at made
    | ok holds =>
      rw [told] at made
      exact Except.ok.inj made ▸ .bool _

omit begun in
/-- The right operand of `&&` and `||`. -/
theorem agrees_truth {after : Heap} {store₁ : Store} {later : Placement} {used : List Nat}
    {phrase : Phrase} {expr : Expr} {context : ShapeLang.Value → Context}
    (course : Course names base heap placement id used after store₁ later pairs)
    (part : Resolves names ribs phrase expr) (spare : heap.SpareAt id (used ++ expr.letSlots)) :
    Agrees (do
        let b ← ev held id expr
        ShapeLang.Value.bool <$> Eval.blaming (.value b :: held) (context b) (Eval.toBool b)) after
      (do
        let b ← walk env phrase
        Value.bool <$> expect (Eval.toBool b.outline)) store₁ (Leaves names base placement) := by
  apply (agrees_part safe tidy simulates course situated part spare).bind
  rintro b last b' store₂ ⟨final, two⟩
  apply Agrees.map
  apply Agrees.blaming (two.same _ List.mem_cons_self).alike.toBool
  exact fun result _ => two.finish (.bool result)

theorem step_and {left right : Phrase} {a b : Expr} (one : Resolves names ribs left a)
    (two : Resolves names ribs right b)
    (spare : heap.SpareAt id (Expr.binary location .and a b).letSlots) :
    Agrees (Eval.step m ev held id (.binary location .and a b)) heap
      (step m names walk env (.binary location .and left right)) store
      (Leaves names base placement) := by
  rw [Expr.letSlots_binary] at spare
  apply (agrees_part safe tidy simulates begun situated one spare.left).bind
  rintro value after value' store₁ ⟨later, first⟩
  apply (Agrees.told (first.same _ List.mem_cons_self).alike.toBool).bind
  rintro holds _ _ _ ⟨-, rfl, rfl, rfl⟩
  cases holds with
  | true => exact agrees_truth safe tidy simulates situated first two spare
  | false => exact .pure (first.finish (.bool false))

theorem step_or {left right : Phrase} {a b : Expr} (one : Resolves names ribs left a)
    (two : Resolves names ribs right b)
    (spare : heap.SpareAt id (Expr.binary location .or a b).letSlots) :
    Agrees (Eval.step m ev held id (.binary location .or a b)) heap
      (step m names walk env (.binary location .or left right)) store
      (Leaves names base placement) := by
  rw [Expr.letSlots_binary] at spare
  apply (agrees_part safe tidy simulates begun situated one spare.left).bind
  rintro value after value' store₁ ⟨later, first⟩
  apply (Agrees.told (first.same _ List.mem_cons_self).alike.toBool).bind
  rintro holds _ _ _ ⟨-, rfl, rfl, rfl⟩
  cases holds with
  | true => exact .pure (first.finish (.bool true))
  | false => exact agrees_truth safe tidy simulates situated first two spare

/-- A strict operator. -/
theorem step_binary {op : BinaryOp} (strict : op ≠ .and ∧ op ≠ .or) {left right : Phrase}
    {a b : Expr} (one : Resolves names ribs left a) (two : Resolves names ribs right b)
    (spare : heap.SpareAt id (Expr.binary location op a b).letSlots) :
    Agrees (Eval.step m ev held id (.binary location op a b)) heap
      (step m names walk env (.binary location op left right)) store
      (Leaves names base placement) := by
  have walked : step m names walk env (.binary location op left right) = (do
      let a ← walk env left
      let b ← walk env right
      combine m op a b) := by
    cases op with
    | and => exact (strict.1 rfl).elim
    | or => exact (strict.2 rfl).elim
    | _ => rfl
  rw [Eval.step_binary strict, walked]
  rw [Expr.letSlots_binary] at spare
  apply (agrees_part safe tidy simulates begun situated one spare.left).bind
  rintro value after value' store₁ ⟨later, first⟩
  apply (agrees_part safe tidy simulates first situated two spare).bind
  rintro other last other' store₂ ⟨final, second⟩
  exact agrees_combine second (second.same (value, value') (by simp))
    (second.same _ List.mem_cons_self)

theorem step_conditional {condition whenTrue whenFalse : Phrase} {c a b : Expr}
    (one : Resolves names ribs condition c) (two : Resolves names ribs whenTrue a)
    (three : Resolves names ribs whenFalse b)
    (spare : heap.SpareAt id (Expr.conditional location c a b).letSlots) :
    Agrees (Eval.step m ev held id (.conditional location c a b)) heap
      (step m names walk env (.conditional location condition whenTrue whenFalse)) store
      (Leaves names base placement) := by
  rw [Expr.letSlots_conditional] at spare
  apply (agrees_part safe tidy simulates begun situated one spare.left.left).bind
  rintro value after value' store₁ ⟨later, first⟩
  apply (Agrees.told (first.same _ List.mem_cons_self).alike.toBool).bind
  rintro holds _ _ _ ⟨-, rfl, rfl, rfl⟩
  have chosen {phrase : Phrase} {expr : Expr} (resolves : Resolves names ribs phrase expr)
      (spare : heap.SpareAt id (c.letSlots ++ expr.letSlots)) :
      Agrees (ev held id expr) after (walk env phrase) store₁ (Leaves names base placement) := by
    apply (agrees_part safe tidy simulates first situated resolves spare).mono
    rintro result last result' store₂ ⟨final, second⟩
    exact second.finish (second.same _ List.mem_cons_self)
  cases holds with
  | true => exact chosen two spare.left
  | false => exact chosen three (spare.sublist (by simp))

/-- The names of a `let` are put into the frame around it, and into a scope of their own. -/
theorem step_letIn {items : List Phrase} {group : List Linked} {phrase : Phrase} {expr : Expr}
    (written : items.mapM Phrase.binding? = some (group.map Linked.source))
    (parts : ∀ definition ∈ group,
      Resolves names (⟨group.map Linked.field, false⟩ :: ribs) definition.body definition.expr)
    (rest : Resolves names (⟨group.map Linked.field, false⟩ :: ribs) phrase expr)
    (spare : heap.SpareAt id
      (Expr.letIn location (group.map Linked.binding) expr).letSlots) :
    Agrees (Eval.step m ev held id (.letIn location (group.map Linked.binding) expr)) heap
      (step m names walk env (.letIn location items phrase)) store
      (Leaves names base placement) := by
  have resolves : Resolves names ribs (.letIn location items phrase)
      (.letIn location (group.map Linked.binding) expr) := .letIn group written parts rest
  obtain ⟨neat, prepared⟩ :=
    Eval.Prepared.storeLet begun.neat (situated.prepared begun.mirrors resolves spare)
  obtain ⟨lies, frame, found, depth⟩ := situated
  obtain ⟨frame', found', spare'⟩ := spare
  obtain rfl := Option.some.inj (found.symm.trans found')
  have slotsOf : (group.map Linked.binding).map (·.1) = group.map Linked.slot := by
    simp [Linked.binding, Function.comp_def]
  rw [Expr.letSlots_letIn, slotsOf] at spare'
  obtain ⟨mirrors, lies'⟩ := begun.mirrors.openLet lies found depth spare'.left.left parts
  simp only [Eval.step, step, definitions_eq written, pure_bind]
  refine .left (.storePending found (fun definition mem => ?_) (.modifyGet ?_))
  · have inside : definition.1 ∈ group.map Linked.slot := slotsOf ▸ List.mem_map_of_mem mem
    exact (List.getElem?_eq_some_iff.mp (spare'.left.left.free _ inside).1).1
  · have situated' : Situated base _ _ id ⟨store.scopes.size :: env.scopes, env.depth⟩ _ :=
      ⟨lies', _, Heap.frame?_putEach_self found, depth⟩
    apply (agrees_run safe tidy simulates mirrors neat situated' rest prepared.spare).mono
    rintro value after value' store₁ ⟨later, course⟩
    exact ⟨later, (List.prefix_append _ _).trans course.placed, course.mirrors,
      course.same _ List.mem_cons_self⟩

theorem step_forEach {slotCount : Nat} {list body : Phrase} {items expr : Expr} {item : Ident}
    (one : Resolves names ribs list items) (layout : Room slotCount (0 :: expr.letSlots))
    (inner : Resolves names (Rib.ofParameters [item.name] :: ribs) body expr)
    (spare : heap.SpareAt id (Expr.forEach location slotCount items expr).letSlots) :
    Agrees (Eval.step m ev held id (.forEach location slotCount items expr)) heap
      (step m names walk env (.forEach location item list body)) store
      (Leaves names base placement) := by
  rw [Expr.letSlots_forEach] at spare
  apply (agrees_part safe tidy simulates begun situated one spare).bind
  rintro value after value' store₁ ⟨later, first⟩
  apply (agrees_toList first (by simp)).bind
  rintro _ _ _ _ ⟨rfl, rfl, pairs, rfl, rfl, second⟩
  apply Agrees.map
  apply (agrees_evaluateEach safe tidy simulates pairs [] second situated layout inner
    fun item mem => by simp [mem]).mono
  rintro _ last _ store₂ ⟨final, more, rfl, rfl, third⟩
  exact third.finish (.list more fun pair mem => third.same pair (by simp [mem]))

end Step

/-- One step agrees if the evaluation of the parts does. -/
theorem step_simulates (safe : Safe ev) (tidy : Tidy base ev)
    (simulates : Simulates names base ev walk) :
    Simulates names base (Eval.step m ev) (step m names walk) := by
  intro heap store placement held id env ribs phrase expr mirrors neat situated resolves spare
  have begun : Course names base heap placement id [] heap store placement [] := .refl mirrors neat
  cases resolves with
  | numeral => exact .pure (begun.finish (.num _))
  | boolean => exact .pure (begun.finish (.bool _))
  | text => exact .pure (begun.finish (.text _))
  | slot resolved => exact step_slot safe tidy simulates begun situated resolved
  | @constant _ location value name free found =>
    refine .get ?_
    simp only [situated.lies.unresolved mirrors free, found]
    exact .pure (begun.finish (.of_plain value.toValue_plain))
  | list items parts => exact step_list safe tidy simulates begun situated parts spare
  | record fields parts => exact step_record safe tidy simulates begun situated parts spare
  | «module» group written layout parts => exact step_module begun situated written layout parts
  | lambda params layout inner => exact step_lambda begun situated layout inner
  | call args head rest => exact step_call safe tidy simulates begun situated head rest spare
  | dot part => exact step_dot safe tidy simulates begun situated part spare
  | index one two => exact step_index safe tidy simulates begun situated one two spare
  | unary part => exact step_unary safe tidy simulates begun situated part spare
  | @binary _ location op left right a b one two =>
    by_cases conjunction : op = .and
    · subst conjunction
      exact step_and safe tidy simulates begun situated one two spare
    · by_cases disjunction : op = .or
      · subst disjunction
        exact step_or safe tidy simulates begun situated one two spare
      · exact step_binary safe tidy simulates begun situated ⟨conjunction, disjunction⟩ one two
          spare
  | conditional one two three =>
    exact step_conditional safe tidy simulates begun situated one two three spare
  | letIn group written parts rest =>
    exact step_letIn safe tidy simulates begun situated written parts rest spare
  | forEach one layout inner =>
    exact step_forEach safe tidy simulates begun situated one layout inner spare

end ShapeLang.Lexical
