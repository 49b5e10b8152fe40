import Mathlib.Data.List.Forall2
import Mathlib.Data.List.Nodup
import ShapeLang.Proofs.Scope.Resolution
import ShapeLang.Proofs.Value.Alike

/-! # Code that differs in the layout of frames

Two expressions are twins if they have the same form, up to the order of the definitions in a group
and to the slots that definitions have. Which slots belong together is said frame by frame.
-/

namespace ShapeLang

open Value (OneToOne)

section Lists

variable {α β : Type} {R : α → β → Prop}

theorem rel_mono {S : α → β → Prop} (imp : ∀ a b, R a b → S a b) {a : Option α}
    {b : Option β} (related : Option.Rel R a b) : Option.Rel S a b := by
  cases related with
  | none => exact .none
  | some holds => exact .some (imp _ _ holds)

/-- Two lists side by side are a list of pairs. -/
theorem exists_pairs {as : List α} {bs : List β} (each : List.Forall₂ R as bs) :
    ∃ pairs : List (α × β), as = pairs.map (·.1) ∧ bs = pairs.map (·.2) ∧
      ∀ pair ∈ pairs, R pair.1 pair.2 := by
  induction each with
  | nil => exact ⟨[], rfl, rfl, by simp⟩
  | @cons a b _ _ first _ ih =>
    obtain ⟨pairs, rfl, rfl, rest⟩ := ih
    exact ⟨(a, b) :: pairs, rfl, rfl, List.forall_mem_cons.mpr ⟨first, rest⟩⟩

theorem forall₂_of_pairs {pairs : List (α × β)} (each : ∀ pair ∈ pairs, R pair.1 pair.2) :
    List.Forall₂ R (pairs.map (·.1)) (pairs.map (·.2)) := by
  simpa [List.forall₂_map_left_iff, List.forall₂_map_right_iff, List.forall₂_same] using each

theorem getElem?_of_forall₂ {as : List α} {bs : List β} (each : List.Forall₂ R as bs) (i : Nat) :
    Option.Rel R as[i]? bs[i]? := by
  obtain ⟨pairs, rfl, rfl, related⟩ := exists_pairs each
  rw [List.getElem?_map, List.getElem?_map]
  cases found : pairs[i]? with
  | none => exact .none
  | some pair => exact .some (related pair (List.mem_of_getElem? found))

end Lists

/-- Which slots belong together, by the number of frames further out. -/
abbrev Pairing := Nat → Nat → Nat → Prop

namespace Pairing

/-- What belongs together for code in a new frame. -/
def enter (pairs : Pairing) (slots : Nat → Nat → Prop) : Pairing
  | 0 => slots
  | depth + 1 => pairs depth

variable {pairs wider : Pairing} {slots : Nat → Nat → Prop}

theorem enter_mono (more : ∀ depth slot slot', pairs depth slot slot' → wider depth slot slot')
    (depth slot slot' : Nat) (together : pairs.enter slots depth slot slot') :
    wider.enter slots depth slot slot' := by
  cases depth with
  | zero => exact together
  | succ depth => exact more depth slot slot' together

end Pairing

/-- The slots of two frames that belong together: each has one partner at most, and is inside. -/
structure Matching (slotCount slotCount' : Nat) (slots : Nat → Nat → Prop) : Prop where
  oneToOne : OneToOne slots
  inside : ∀ slot slot', slots slot slot' → slot < slotCount ∧ slot' < slotCount'

namespace Expr

/-- Two expressions of one form. `literals` says which places of function literals belong
together. -/
inductive Twin (literals : Location → Location → Prop) : Pairing → Expr → Expr → Prop
  | constant {pairs location location'} (value : Constant) :
      Twin literals pairs (.constant location value) (.constant location' value)
  | slot {pairs location location' depth slot slot'} (together : pairs depth slot slot') :
      Twin literals pairs (.slot location depth slot) (.slot location' depth slot')
  | call {pairs location location' function function'} (args : List (Expr × Expr))
      (head : Twin literals pairs function function')
      (rest : ∀ arg ∈ args, Twin literals pairs arg.1 arg.2) :
      Twin literals pairs (.call location function (args.map (·.1)))
        (.call location' function' (args.map (·.2)))
  | list {pairs location location'} (items : List (Expr × Expr))
      (parts : ∀ item ∈ items, Twin literals pairs item.1 item.2) :
      Twin literals pairs (.list location (items.map (·.1))) (.list location' (items.map (·.2)))
  | record {pairs location location'} (fields : List (String × Expr × Expr))
      (parts : ∀ field ∈ fields, Twin literals pairs field.2.1 field.2.2) :
      Twin literals pairs (.record location (fields.map fun field => (field.1, field.2.1)))
        (.record location' (fields.map fun field => (field.1, field.2.2)))
  | module {pairs location location' slotCount slotCount' fields fields' definitions'}
      (slots : Nat → Nat → Prop) (definitions : List ((Nat × Expr) × (Nat × Expr)))
      (layout : Matching slotCount slotCount' slots)
      (names : (fields.map (·.1)).Perm (fields'.map (·.1)))
      (named : ∀ name, Option.Rel slots (fields.lookup name) (fields'.lookup name))
      (distinct : (definitions.map (·.1.1)).Nodup)
      (order : (definitions.map (·.2)).Perm definitions')
      (together : ∀ definition ∈ definitions, slots definition.1.1 definition.2.1)
      (parts : ∀ definition ∈ definitions,
        Twin literals (pairs.enter slots) definition.1.2 definition.2.2) :
      Twin literals pairs (.module location slotCount fields (definitions.map (·.1)))
        (.module location' slotCount' fields' definitions')
  | letIn {pairs location location' bindings' body body'}
      (bindings : List ((Nat × Expr) × (Nat × Expr)))
      (distinct : (bindings.map (·.1.1)).Nodup) (order : (bindings.map (·.2)).Perm bindings')
      (together : ∀ binding ∈ bindings, pairs 0 binding.1.1 binding.2.1)
      (parts : ∀ binding ∈ bindings, Twin literals pairs binding.1.2 binding.2.2)
      (rest : Twin literals pairs body body') :
      Twin literals pairs (.letIn location (bindings.map (·.1)) body)
        (.letIn location' bindings' body')
  | lambda {pairs location location' paramCount slotCount slotCount' body body'}
      (slots : Nat → Nat → Prop) (literal : literals location location')
      (layout : Matching slotCount slotCount' slots)
      (params : ∀ slot < paramCount, slots slot slot)
      (inner : Twin literals (pairs.enter slots) body body') :
      Twin literals pairs (.lambda location paramCount slotCount body)
        (.lambda location' paramCount slotCount' body')
  | unary {pairs location location' op operand operand'}
      (part : Twin literals pairs operand operand') :
      Twin literals pairs (.unary location op operand) (.unary location' op operand')
  | binary {pairs location location' op left left' right right'}
      (first : Twin literals pairs left left') (second : Twin literals pairs right right') :
      Twin literals pairs (.binary location op left right) (.binary location' op left' right')
  | conditional {pairs location location' condition condition' whenTrue whenTrue' whenFalse
        whenFalse'}
      (first : Twin literals pairs condition condition')
      (second : Twin literals pairs whenTrue whenTrue')
      (third : Twin literals pairs whenFalse whenFalse') :
      Twin literals pairs (.conditional location condition whenTrue whenFalse)
        (.conditional location' condition' whenTrue' whenFalse')
  | dot {pairs location location' base base'} (name : String)
      (part : Twin literals pairs base base') :
      Twin literals pairs (.dot location base name) (.dot location' base' name)
  | index {pairs location location' base base' place place'}
      (first : Twin literals pairs base base') (second : Twin literals pairs place place') :
      Twin literals pairs (.index location base place) (.index location' base' place')
  | forEach {pairs location location' slotCount slotCount' items items' body body'}
      (slots : Nat → Nat → Prop) (first : Twin literals pairs items items')
      (layout : Matching slotCount slotCount' slots) (item : slots 0 0)
      (inner : Twin literals (pairs.enter slots) body body') :
      Twin literals pairs (.forEach location slotCount items body)
        (.forEach location' slotCount' items' body')

variable {literals : Location → Location → Prop}

theorem Twin.mono {pairs wider : Pairing} {expr expr' : Expr}
    (twin : Twin literals pairs expr expr')
    (more : ∀ depth slot slot', pairs depth slot slot' → wider depth slot slot') :
    Twin literals wider expr expr' := by
  induction twin generalizing wider with
  | constant value => exact .constant value
  | slot together => exact .slot (more _ _ _ together)
  | call args _ _ head rest => exact .call args (head more) fun arg mem => rest arg mem more
  | list items _ parts => exact .list items fun item mem => parts item mem more
  | record fields _ parts => exact .record fields fun field mem => parts field mem more
  | «module» slots definitions layout names named distinct order together _ parts =>
    exact .module slots definitions layout names named distinct order together
      fun definition mem => parts definition mem (Pairing.enter_mono more)
  | letIn bindings distinct order together _ _ parts rest =>
    exact .letIn bindings distinct order (fun binding mem => more _ _ _ (together binding mem))
      (fun binding mem => parts binding mem more) (rest more)
  | lambda slots literal layout params _ inner =>
    exact .lambda slots literal layout params (inner (Pairing.enter_mono more))
  | unary _ part => exact .unary (part more)
  | binary _ _ first second => exact .binary (first more) (second more)
  | conditional _ _ _ first second third =>
    exact .conditional (first more) (second more) (third more)
  | dot name _ part => exact .dot name (part more)
  | index _ _ first second => exact .index (first more) (second more)
  | forEach slots _ layout item _ first inner =>
    exact .forEach slots (first more) layout item (inner (Pairing.enter_mono more))

/-- The slots of a frame with room for all of them, each one with itself. -/
theorem matching_self {slotCount : Nat} {slots : List Nat} (room : Room slotCount slots) :
    Matching slotCount slotCount fun slot slot' => slot = slot' ∧ slot ∈ slots := by
  refine ⟨?_, ?_⟩
  · rintro a _ b _ ⟨rfl, -⟩ ⟨rfl, -⟩
    rfl
  · rintro slot _ ⟨rfl, mem⟩
    exact ⟨room.inside slot mem, room.inside slot mem⟩

/-- What is seen from two places at once. -/
theorem Scoped.and {vis vis' : Visibility} {expr : Expr} (known : Scoped vis expr)
    (known' : Scoped vis' expr) : Scoped (fun depth slot => vis depth slot ∧ vis' depth slot) expr := by
  have entered {vis vis' : Visibility} {slots : List Nat} (depth slot : Nat)
      (both : vis.enter slots depth slot ∧ vis'.enter slots depth slot) :
      Visibility.enter (fun depth slot => vis depth slot ∧ vis' depth slot) slots depth slot := by
    cases depth with
    | zero => exact both.1
    | succ depth => exact both
  have extended {vis vis' : Visibility} {slots : List Nat} (depth slot : Nat)
      (both : vis.extend slots depth slot ∧ vis'.extend slots depth slot) :
      Visibility.extend (fun depth slot => vis depth slot ∧ vis' depth slot) slots depth slot := by
    rcases both with ⟨inside | seen, inside' | seen'⟩
    · exact .inl inside
    · exact .inl inside
    · exact .inl inside'
    · exact .inr ⟨seen, seen'⟩
  induction known generalizing vis' with
  | constant => exact .constant
  | slot visible => cases known' with | slot visible' => exact .slot ⟨visible, visible'⟩
  | call _ _ head rest =>
    cases known' with | call head' rest' =>
    exact .call (head head') fun arg mem => rest arg mem (rest' arg mem)
  | list _ parts =>
    cases known' with | list parts' =>
    exact .list fun item mem => parts item mem (parts' item mem)
  | record _ parts =>
    cases known' with | record parts' =>
    exact .record fun field mem => parts field mem (parts' field mem)
  | «module» layout named _ parts =>
    cases known' with | «module» _ _ parts' =>
    exact .module layout named fun definition mem =>
      (parts definition mem (parts' definition mem)).mono entered
  | letIn _ _ parts rest =>
    cases known' with | letIn parts' rest' =>
    exact .letIn (fun binding mem => (parts binding mem (parts' binding mem)).mono extended)
      ((rest rest').mono extended)
  | lambda layout _ inner =>
    cases known' with | lambda _ inner' =>
    exact .lambda layout ((inner inner').mono entered)
  | unary _ part => cases known' with | unary part' => exact .unary (part part')
  | binary _ _ first second =>
    cases known' with | binary first' second' => exact .binary (first first') (second second')
  | conditional _ _ _ first second third =>
    cases known' with | conditional first' second' third' =>
    exact .conditional (first first') (second second') (third third')
  | dot _ part => cases known' with | dot part' => exact .dot (part part')
  | index _ _ first second =>
    cases known' with | index first' second' => exact .index (first first') (second second')
  | forEach _ layout _ first inner =>
    cases known' with | forEach first' _ inner' =>
    exact .forEach (first first') layout ((inner inner').mono entered)

private theorem map_doubled {α : Type} (items : List α) :
    (items.map fun item => (item, item)).map (·.1) = items ∧
      (items.map fun item => (item, item)).map (·.2) = items := by
  simp [Function.comp_def]

private theorem nodup_letSlots {exprs : List Expr} {expr : Expr} (mem : expr ∈ exprs)
    (distinct : (exprs.flatMap letSlots).Nodup) : expr.letSlots.Nodup :=
  (List.nodup_flatMap.mp distinct).1 expr mem

/-- Well-scoped code is its own twin. -/
theorem Scoped.twin {vis : Visibility} {expr : Expr} (known : Scoped vis expr) {pairs : Pairing}
    (reads : ∀ depth slot, vis depth slot → pairs depth slot slot)
    (lets : ∀ slot ∈ expr.letSlots, pairs 0 slot slot) (distinct : expr.letSlots.Nodup) :
    Twin Eq pairs expr expr := by
  induction known generalizing pairs with
  | constant => exact .constant _
  | slot visible => exact .slot (reads _ _ visible)
  | @call vis location function args _ _ head rest =>
    simp only [letSlots_call, List.mem_append, List.mem_flatMap] at lets
    rw [letSlots_call] at distinct
    have parts := List.nodup_append.mp distinct
    have whole : Twin Eq pairs (.call location function ((args.map fun arg => (arg, arg)).map (·.1)))
        (.call location function ((args.map fun arg => (arg, arg)).map (·.2))) := by
      refine .call _ (head reads (fun slot mem => lets slot (.inl mem)) parts.1) fun arg mem => ?_
      obtain ⟨arg, here, rfl⟩ := List.mem_map.mp mem
      exact rest arg here reads (fun slot inside => lets slot (.inr ⟨arg, here, inside⟩))
        (nodup_letSlots here parts.2.1)
    rwa [(map_doubled args).1, (map_doubled args).2] at whole
  | @list vis location items _ ih =>
    simp only [letSlots_list, List.mem_flatMap] at lets
    rw [letSlots_list] at distinct
    have whole : Twin Eq pairs (.list location ((items.map fun item => (item, item)).map (·.1)))
        (.list location ((items.map fun item => (item, item)).map (·.2))) := by
      refine .list _ fun item mem => ?_
      obtain ⟨item, here, rfl⟩ := List.mem_map.mp mem
      exact ih item here reads (fun slot inside => lets slot ⟨item, here, inside⟩)
        (nodup_letSlots here distinct)
    rwa [(map_doubled items).1, (map_doubled items).2] at whole
  | @record vis location fields _ ih =>
    simp only [letSlots_record, List.mem_flatMap] at lets
    rw [letSlots_record] at distinct
    let doubled := fields.map fun field => (field.1, field.2, field.2)
    have whole : Twin Eq pairs
        (.record location (doubled.map fun field => (field.1, field.2.1)))
        (.record location (doubled.map fun field => (field.1, field.2.2))) := by
      refine .record _ fun field mem => ?_
      obtain ⟨field, here, rfl⟩ := List.mem_map.mp mem
      exact ih field here reads (fun slot inside => lets slot ⟨field, here, inside⟩)
        ((List.nodup_flatMap.mp distinct).1 field here)
    simpa [doubled, Function.comp_def] using whole
  | @«module» vis location slotCount fields definitions layout named _ ih =>
    let slots : Nat → Nat → Prop := fun slot slot' => slot = slot' ∧
      slot ∈ definitions.map (·.1) ++ definitions.flatMap (·.2.letSlots)
    have apart := List.nodup_append.mp layout.nodup
    have whole : Twin Eq pairs (.module location slotCount fields
        ((definitions.map fun definition => (definition, definition)).map (·.1)))
        (.module location slotCount fields definitions) := by
      refine .module slots _ (matching_self layout) (.refl _) (fun name => ?_) ?_ ?_
        (fun definition mem => ?_) fun definition mem => ?_
      · cases found : fields.lookup name with
        | none => exact .none
        | some slot =>
          obtain ⟨field, mem, rfl⟩ : ∃ field ∈ fields, field.2 = slot :=
            List.mem_map.mp (Ribs.mem_of_lookup found)
          exact .some ⟨rfl, List.mem_append_left _ (named field mem)⟩
      · simpa [Function.comp_def] using apart.1
      · rw [(map_doubled definitions).2]
      · obtain ⟨definition, here, rfl⟩ := List.mem_map.mp mem
        exact ⟨rfl, List.mem_append_left _ (List.mem_map_of_mem here)⟩
      · obtain ⟨definition, here, rfl⟩ := List.mem_map.mp mem
        refine ih definition here (fun depth slot seen => ?_) (fun slot inside => ?_)
          ((List.nodup_flatMap.mp apart.2.1).1 definition here)
        · cases depth with
          | zero => exact ⟨rfl, List.mem_append_left _ seen⟩
          | succ depth => exact reads depth slot seen
        · exact ⟨rfl, List.mem_append_right _ (List.mem_flatMap.mpr ⟨definition, here, inside⟩)⟩
    rwa [(map_doubled definitions).1] at whole
  | @letIn vis location bindings body _ _ ih rest =>
    simp only [letSlots_letIn, List.mem_append, List.mem_flatMap] at lets
    rw [letSlots_letIn] at distinct
    obtain ⟨before, behind, -⟩ := List.nodup_append.mp distinct
    obtain ⟨own, inner, -⟩ := List.nodup_append.mp before
    have reads' (depth slot : Nat) (seen : vis.extend (bindings.map (·.1)) depth slot) :
        pairs depth slot slot := by
      rcases seen with ⟨rfl, mem⟩ | seen
      · exact lets slot (.inl (.inl mem))
      · exact reads depth slot seen
    have whole : Twin Eq pairs (.letIn location
        ((bindings.map fun binding => (binding, binding)).map (·.1)) body)
        (.letIn location bindings body) := by
      refine .letIn _ ?_ ?_ (fun binding mem => ?_) (fun binding mem => ?_)
        (rest reads' (fun slot mem => lets slot (.inr mem)) behind)
      · simpa [Function.comp_def] using own
      · rw [(map_doubled bindings).2]
      · obtain ⟨binding, here, rfl⟩ := List.mem_map.mp mem
        exact lets _ (.inl (.inl (List.mem_map_of_mem here)))
      · obtain ⟨binding, here, rfl⟩ := List.mem_map.mp mem
        exact ih binding here reads'
          (fun slot inside => lets slot (.inl (.inr ⟨binding, here, inside⟩)))
          ((List.nodup_flatMap.mp inner).1 binding here)
    rwa [(map_doubled bindings).1] at whole
  | lambda layout _ inner =>
    refine .lambda _ rfl (matching_self layout)
      (fun slot low => ⟨rfl, List.mem_append_left _ (List.mem_range.mpr low)⟩)
      (inner (fun depth slot seen => ?_) (fun slot mem => ⟨rfl, List.mem_append_right _ mem⟩)
        (List.nodup_append.mp layout.nodup).2.1)
    cases depth with
    | zero => exact ⟨rfl, List.mem_append_left _ seen⟩
    | succ depth => exact reads depth slot seen
  | unary _ part => exact .unary (part reads lets distinct)
  | binary _ _ first second =>
    simp only [letSlots_binary, List.mem_append] at lets
    rw [letSlots_binary] at distinct
    obtain ⟨one, two, -⟩ := List.nodup_append.mp distinct
    exact .binary (first reads (fun slot mem => lets slot (.inl mem)) one)
      (second reads (fun slot mem => lets slot (.inr mem)) two)
  | conditional _ _ _ first second third =>
    simp only [letSlots_conditional, List.mem_append] at lets
    rw [letSlots_conditional] at distinct
    obtain ⟨before, three, -⟩ := List.nodup_append.mp distinct
    obtain ⟨one, two, -⟩ := List.nodup_append.mp before
    exact .conditional (first reads (fun slot mem => lets slot (.inl (.inl mem))) one)
      (second reads (fun slot mem => lets slot (.inl (.inr mem))) two)
      (third reads (fun slot mem => lets slot (.inr mem)) three)
  | dot _ part => exact .dot _ (part reads lets distinct)
  | index _ _ first second =>
    simp only [letSlots_index, List.mem_append] at lets
    rw [letSlots_index] at distinct
    obtain ⟨one, two, -⟩ := List.nodup_append.mp distinct
    exact .index (first reads (fun slot mem => lets slot (.inl mem)) one)
      (second reads (fun slot mem => lets slot (.inr mem)) two)
  | forEach _ layout _ first inner =>
    refine .forEach _ (first reads lets distinct) (matching_self layout)
      ⟨rfl, List.mem_cons_self⟩
      (inner (fun depth slot seen => ?_) (fun slot mem => ⟨rfl, List.mem_cons_of_mem _ mem⟩)
        (List.nodup_cons.mp layout.nodup).2)
    cases depth with
    | zero =>
      obtain rfl := List.mem_singleton.mp seen
      exact ⟨rfl, List.mem_cons_self⟩
    | succ depth => exact reads depth slot seen

end Expr

end ShapeLang
