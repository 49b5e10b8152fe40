import Mathlib.Data.List.Perm.Basic
import ShapeLang.Proofs.Expr.Twin
import ShapeLang.Proofs.Scope.Acceptance

/-! # Phrases whose definitions are in another order

Two phrases differ in the order of definitions if they are built alike and if the items of each
`let` and of each module stand in some order. Where the phrases stand plays no part. One of them is
well-formed exactly if the other one is.
-/

namespace ShapeLang

section Lists

variable {α β γ : Type} {R : α → β → Prop}

/-- What comes from a list in one order comes from the list in another order. -/
theorem exists_perm_of_map {f : α → β} {as : List α} {bs : List β} (order : (as.map f).Perm bs) :
    ∃ others : List α, others.Perm as ∧ others.map f = bs := by
  obtain ⟨others, each, perm⟩ := List.perm_comp_forall₂ order.symm
    (List.forall₂_map_left_iff.mpr (List.forall₂_same.mpr fun a _ => rfl) :
      List.Forall₂ (fun b a => f a = b) (as.map f) as)
  refine ⟨others, perm, ?_⟩
  have same : List.Forall₂ Eq (others.map f) bs := by
    rw [List.forall₂_map_left_iff]
    exact each.flip
  exact List.forall₂_eq_eq_eq ▸ same

/-- The results of a function that is defined on all of a list, in the order of the list. -/
theorem mapM_eq_some_iff {f : α → Option β} {as : List α} {bs : List β} :
    as.mapM f = some bs ↔ List.Forall₂ (fun a b => f a = some b) as bs := by
  induction as generalizing bs with
  | nil =>
    cases bs with
    | nil => simp
    | cons b bs => simp
  | cons a as ih =>
    rw [List.mapM_cons]
    cases bs with
    | nil => simp [Option.bind_eq_some_iff]
    | cons b bs => simp [Option.bind_eq_some_iff, ih]

end Lists

namespace Phrase

/-- Phrases that differ in the order of definitions, and in where they stand. -/
inductive Reordered : Phrase → Phrase → Prop
  | numeral {location location'} (value : Float) :
      Reordered (.numeral location value) (.numeral location' value)
  | boolean {location location'} (value : Bool) :
      Reordered (.boolean location value) (.boolean location' value)
  | text {location location'} (content : String) :
      Reordered (.text location content) (.text location' content)
  | ident {location location'} {id id' : Ident} (same : id.name = id'.name) :
      Reordered (.ident location id) (.ident location' id')
  | list {location location'} (items : List (Phrase × Phrase))
      (parts : ∀ item ∈ items, Reordered item.1 item.2) :
      Reordered (.list location (items.map (·.1))) (.list location' (items.map (·.2)))
  | record {location location'} (fields : List ((Ident × Phrase) × (Ident × Phrase)))
      (same : ∀ field ∈ fields, field.1.1.name = field.2.1.name)
      (parts : ∀ field ∈ fields, Reordered field.1.2 field.2.2) :
      Reordered (.record location (fields.map (·.1))) (.record location' (fields.map (·.2)))
  | module {location location' items'} (items : List (Phrase × Phrase))
      (parts : ∀ item ∈ items, Reordered item.1 item.2)
      (order : (items.map (·.2)).Perm items') :
      Reordered (.module location (items.map (·.1))) (.module location' items')
  | definition {location location' target target' definiens definiens'}
      (left : Reordered target target') (right : Reordered definiens definiens') :
      Reordered (.definition location target definiens) (.definition location' target' definiens')
  | lambda {location location' body body'} {params params' : List Ident}
      (same : params.map (·.name) = params'.map (·.name)) (inner : Reordered body body') :
      Reordered (.lambda location params body) (.lambda location' params' body')
  | call {location location' function function'} (args : List (Phrase × Phrase))
      (head : Reordered function function') (rest : ∀ arg ∈ args, Reordered arg.1 arg.2) :
      Reordered (.call location function (args.map (·.1)))
        (.call location' function' (args.map (·.2)))
  | dot {location location' base base'} {field field' : Ident} (same : field.name = field'.name)
      (part : Reordered base base') : Reordered (.dot location base field) (.dot location' base' field')
  | index {location location' base base' place place'} (first : Reordered base base')
      (second : Reordered place place') :
      Reordered (.index location base place) (.index location' base' place')
  | unary {location location' operand operand'} (op : UnaryOp) (part : Reordered operand operand') :
      Reordered (.unary location op operand) (.unary location' op operand')
  | binary {location location' left left' right right'} (op : BinaryOp)
      (first : Reordered left left') (second : Reordered right right') :
      Reordered (.binary location op left right) (.binary location' op left' right')
  | conditional {location location' condition condition' whenTrue whenTrue' whenFalse whenFalse'}
      (first : Reordered condition condition') (second : Reordered whenTrue whenTrue')
      (third : Reordered whenFalse whenFalse') :
      Reordered (.conditional location condition whenTrue whenFalse)
        (.conditional location' condition' whenTrue' whenFalse')
  | letIn {location location' items' body body'} (items : List (Phrase × Phrase))
      (parts : ∀ item ∈ items, Reordered item.1 item.2)
      (order : (items.map (·.2)).Perm items') (rest : Reordered body body') :
      Reordered (.letIn location (items.map (·.1)) body) (.letIn location' items' body')
  | forEach {location location' list list' body body'} {item item' : Ident}
      (same : item.name = item'.name) (first : Reordered list list')
      (inner : Reordered body body') :
      Reordered (.forEach location item list body) (.forEach location' item' list' body')

namespace Reordered

/-- Partners change places. -/
private theorem map_swap (items : List (α × β)) :
    (items.map Prod.swap).map (·.1) = items.map (·.2) ∧
      (items.map Prod.swap).map (·.2) = items.map (·.1) := by
  simp [Function.comp_def]

/-- Items in another order, each with its partner in the order of the partners. -/
private theorem exists_swapped {items : List (Phrase × Phrase)} {items' : List Phrase}
    (parts : ∀ item ∈ items, Reordered item.2 item.1) (order : (items.map (·.2)).Perm items') :
    ∃ swapped : List (Phrase × Phrase), items' = swapped.map (·.1) ∧
      (swapped.map (·.2)).Perm (items.map (·.1)) ∧ ∀ item ∈ swapped, Reordered item.1 item.2 := by
  obtain ⟨others, perm, rfl⟩ := exists_perm_of_map order
  refine ⟨others.map Prod.swap, (map_swap others).1.symm, ?_, fun item mem => ?_⟩
  · rw [(map_swap others).2]
    exact perm.map (·.1)
  · obtain ⟨other, there, rfl⟩ := List.mem_map.mp mem
    exact parts other (perm.subset there)

private theorem forall_swap {R : α → β → Prop} {items : List (β × α)}
    (each : ∀ item ∈ items, R item.2 item.1) : ∀ item ∈ items.map Prod.swap, R item.1 item.2 := by
  intro item mem
  obtain ⟨other, there, rfl⟩ := List.mem_map.mp mem
  exact each other there

theorem symm {phrase phrase' : Phrase} (reordered : Reordered phrase phrase') :
    Reordered phrase' phrase := by
  induction reordered with
  | numeral value => exact .numeral value
  | boolean value => exact .boolean value
  | text content => exact .text content
  | ident same => exact .ident same.symm
  | list items _ parts =>
    rw [← (map_swap items).1, ← (map_swap items).2]
    exact .list _ (forall_swap parts)
  | record fields same _ parts =>
    rw [← (map_swap fields).1, ← (map_swap fields).2]
    exact .record _
      (forall_swap (R := fun field field' : Ident × Phrase => field.1.name = field'.1.name)
        fun field mem => (same field mem).symm)
      (forall_swap (R := fun field field' : Ident × Phrase => Reordered field.2 field'.2) parts)
  | «module» items _ order parts =>
    obtain ⟨swapped, rfl, order', each⟩ := exists_swapped parts order
    exact .module swapped each order'
  | definition _ _ left right => exact .definition left right
  | lambda same _ inner => exact .lambda same.symm inner
  | call args _ _ head rest =>
    rw [← (map_swap args).1, ← (map_swap args).2]
    exact .call _ head (forall_swap rest)
  | dot same _ part => exact .dot same.symm part
  | index _ _ first second => exact .index first second
  | unary op _ part => exact .unary op part
  | binary op _ _ first second => exact .binary op first second
  | conditional _ _ _ first second third => exact .conditional first second third
  | letIn items _ order _ parts rest =>
    obtain ⟨swapped, rfl, order', each⟩ := exists_swapped parts order
    exact .letIn swapped each order' rest
  | forEach same _ _ first inner => exact .forEach same.symm first inner

variable {phrase phrase' : Phrase}

theorem of_list {location : Location} {items : List Phrase}
    (reordered : Reordered (.list location items) phrase') : ∃ location' items',
      phrase' = .list location' items' ∧ List.Forall₂ Reordered items items' := by
  cases reordered with
  | list items parts => exact ⟨_, _, rfl, forall₂_of_pairs parts⟩

theorem of_record {location : Location} {fields : List (Ident × Phrase)}
    (reordered : Reordered (.record location fields) phrase') : ∃ location' fields',
      phrase' = .record location' fields' ∧ List.Forall₂
        (fun field field' => field.1.name = field'.1.name ∧ Reordered field.2 field'.2) fields
        fields' := by
  cases reordered with
  | record fields same parts =>
    exact ⟨_, _, rfl, forall₂_of_pairs fun field mem => ⟨same field mem, parts field mem⟩⟩

theorem of_call {location : Location} {function : Phrase} {args : List Phrase}
    (reordered : Reordered (.call location function args) phrase') :
    ∃ location' function' args', phrase' = .call location' function' args' ∧
      Reordered function function' ∧ List.Forall₂ Reordered args args' := by
  cases reordered with
  | call args head rest => exact ⟨_, _, _, rfl, head, forall₂_of_pairs rest⟩

/-- The parameters in a function header. -/
private theorem params {args : List (Phrase × Phrase)} {params : List Ident}
    (each : ∀ arg ∈ args, Reordered arg.1 arg.2)
    (written : (args.map (·.1)).mapM param? = some params) :
    ∃ params', (args.map (·.2)).mapM param? = some params' ∧
      params.map (·.name) = params'.map (·.name) := by
  induction args generalizing params with
  | nil => exact ⟨[], rfl, by simp_all⟩
  | cons arg args ih =>
    obtain ⟨first, rest⟩ := List.forall_mem_cons.mp each
    rw [List.map_cons, List.mapM_cons] at written
    obtain ⟨param, here, written⟩ := Option.bind_eq_some_iff.mp written
    obtain ⟨others, there, same⟩ := Option.bind_eq_some_iff.mp written
    obtain rfl := Option.some.inj same
    obtain ⟨others', there', alike⟩ := ih rest there
    obtain ⟨one, other⟩ := arg
    cases first with
    | @ident _ _ id id' named =>
      obtain rfl := Option.some.inj here
      exact ⟨id' :: others', by simp [param?, there'], by simp [named, alike]⟩
    | _ => cases here

/-- A definition with another order inside defines the same name, and a phrase with another order
inside. -/
theorem binding? {definition : String × Phrase} (reordered : Reordered phrase phrase')
    (written : phrase.binding? = some definition) : ∃ definition',
      phrase'.binding? = some definition' ∧ definition.1 = definition'.1 ∧
        Reordered definition.2 definition'.2 := by
  cases reordered with
  | @definition _ location' _ _ _ definiens' left right =>
    cases left with
    | ident named =>
      obtain rfl := Option.some.inj written
      exact ⟨_, rfl, named, right⟩
    | call args head rest =>
      cases head with
      | ident named =>
        obtain ⟨params, given, rfl⟩ := Option.map_eq_some_iff.mp written
        obtain ⟨params', given', same⟩ := Reordered.params rest given
        refine ⟨(_, .lambda location' params' definiens'), ?_, named, .lambda same right⟩
        rw [Phrase.binding?, given', Option.map_some]
      | _ => cases written
    | _ => cases written
  | _ => cases written

/-- Definitions with other orders inside, which stand in another order. -/
theorem bindings {items : List (Phrase × Phrase)} {items' : List Phrase}
    {definitions : List (String × Phrase)} (each : ∀ item ∈ items, Reordered item.1 item.2)
    (order : (items.map (·.2)).Perm items')
    (written : (items.map (·.1)).mapM Phrase.binding? = some definitions) :
    ∃ between definitions', items'.mapM Phrase.binding? = some definitions' ∧
      List.Forall₂ (fun definition definition' => definition.1 = definition'.1 ∧
        Reordered definition.2 definition'.2) definitions between ∧ between.Perm definitions' := by
  have beside : ∃ between, List.Forall₂ (fun item definition => item.binding? = some definition)
        (items.map (·.2)) between ∧
      List.Forall₂ (fun definition definition' => definition.1 = definition'.1 ∧
        Reordered definition.2 definition'.2) definitions between := by
    clear order
    have written := mapM_eq_some_iff.mp written
    induction items generalizing definitions with
    | nil =>
      cases written
      exact ⟨[], .nil, .nil⟩
    | cons item items ih =>
      obtain ⟨first, rest⟩ := List.forall_mem_cons.mp each
      cases written with
      | cons here there =>
        obtain ⟨between, written', alike⟩ := ih rest (mapM_eq_some_iff.mpr there) there
        obtain ⟨definition', here', same, reordered⟩ := first.binding? here
        exact ⟨definition' :: between, .cons here' written', .cons ⟨same, reordered⟩ alike⟩
  obtain ⟨between, written', alike⟩ := beside
  obtain ⟨definitions', ordered, perm⟩ := List.perm_comp_forall₂ order.symm written'
  exact ⟨between, definitions', mapM_eq_some_iff.mpr ordered, alike, perm.symm⟩

/-- Groups of definitions with the same names, up to the order. -/
theorem names_perm {definitions between definitions' : List (String × Phrase)}
    (alike : List.Forall₂ (fun definition definition' => definition.1 = definition'.1 ∧
      Reordered definition.2 definition'.2) definitions between)
    (order : between.Perm definitions') :
    (definitions.map (·.1)).Perm (definitions'.map (·.1)) := by
  have same : definitions.map (·.1) = between.map (·.1) := by
    refine List.forall₂_eq_eq_eq ▸ ?_
    exact List.forall₂_map_left_iff.mpr (List.forall₂_map_right_iff.mpr (alike.imp fun _ _ => And.left))
  exact same ▸ order.map (·.1)

private theorem within_perm {names names' : List String} (order : names.Perm names')
    (bound : String → Prop) : within names bound = within names' bound := by
  funext name
  simp only [within, order.mem_iff]

/-- What holds of the definitions of a group holds of those of the other one. -/
private theorem forall_group {bound : String → Prop}
    {definitions between definitions' : List (String × Phrase)}
    (alike : List.Forall₂ (fun definition definition' => definition.1 = definition'.1 ∧
      Reordered definition.2 definition'.2) definitions between)
    (order : between.Perm definitions')
    (each : ∀ definition ∈ definitions, ∀ phrase', Reordered definition.2 phrase' →
      WellFormed bound phrase') :
    ∀ definition ∈ definitions', WellFormed bound definition.2 := by
  intro definition mem
  obtain ⟨pairs, rfl, rfl, partners⟩ := exists_pairs alike
  obtain ⟨pair, there, rfl⟩ := List.mem_map.mp (order.symm.subset mem)
  exact each pair.1 (List.mem_map_of_mem there) _ (partners pair there).2

/-- The order of definitions makes no difference to whether a phrase is well-formed. -/
theorem wellFormed {bound : String → Prop} (known : WellFormed bound phrase)
    (reordered : Reordered phrase phrase') : WellFormed bound phrase' := by
  induction known generalizing phrase' with
  | numeral => cases reordered with | numeral => exact .numeral
  | boolean => cases reordered with | boolean => exact .boolean
  | text => cases reordered with | text => exact .text
  | ident known => cases reordered with | ident same => exact .ident (same ▸ known)
  | list _ ih =>
    cases reordered with | list items parts =>
    refine .list fun item mem => ?_
    obtain ⟨other, there, rfl⟩ := List.mem_map.mp mem
    exact ih other.1 (List.mem_map_of_mem there) (parts other there)
  | record distinct _ ih =>
    cases reordered with | record fields same parts =>
    refine .record ?_ fun field mem => ?_
    · rw [List.map_map] at distinct ⊢
      exact (List.map_congr_left same : fields.map _ = fields.map _) ▸ distinct
    · obtain ⟨other, there, rfl⟩ := List.mem_map.mp mem
      exact ih other.1 (List.mem_map_of_mem there) (parts other there)
  | «module» written distinct _ ih =>
    cases reordered with | «module» items each order =>
    obtain ⟨between, definitions', written', alike, order'⟩ := bindings each order written
    have names := names_perm alike order'
    refine .module written' (names.nodup_iff.mp distinct) ?_
    rw [← within_perm names]
    exact forall_group alike order' fun definition mem phrase' => ih definition mem
  | lambda distinct _ ih =>
    cases reordered with | lambda same inner =>
    exact .lambda (same ▸ distinct) (same ▸ ih inner)
  | call _ _ first ih =>
    cases reordered with | call args head rest =>
    refine .call (first head) fun arg mem => ?_
    obtain ⟨other, there, rfl⟩ := List.mem_map.mp mem
    exact ih other.1 (List.mem_map_of_mem there) (rest other there)
  | dot _ ih => cases reordered with | dot same part => exact .dot (ih part)
  | index _ _ ih ih' =>
    cases reordered with | index first second => exact .index (ih first) (ih' second)
  | unary _ ih => cases reordered with | unary op part => exact .unary (ih part)
  | binary _ _ ih ih' =>
    cases reordered with | binary op first second => exact .binary (ih first) (ih' second)
  | conditional _ _ _ ih ih' ih'' =>
    cases reordered with | conditional first second third =>
    exact .conditional (ih first) (ih' second) (ih'' third)
  | letIn written distinct _ _ ih ih' =>
    cases reordered with | letIn items each order rest =>
    obtain ⟨between, definitions', written', alike, order'⟩ := bindings each order written
    have names := names_perm alike order'
    refine .letIn written' (names.nodup_iff.mp distinct) ?_ ?_
    · rw [← within_perm names]
      exact forall_group alike order' fun definition mem phrase' => ih definition mem
    · rw [← within_perm names]
      exact ih' rest
  | forEach _ _ ih ih' =>
    cases reordered with | forEach same first inner => exact .forEach (ih first) (same ▸ ih' inner)

theorem asProgram (reordered : Reordered phrase phrase') :
    Reordered phrase.asProgram phrase'.asProgram := by
  have whole := reordered
  cases reordered with
  | @definition location location' target target' definiens definiens' left right =>
    exact .module [(.definition location target definiens, .definition location' target' definiens')]
      (by simpa using Reordered.definition left right) (.refl _)
  | _ => exact whole

/-- The order of definitions makes no difference to whether a program is accepted. -/
theorem accepted_iff (reordered : Reordered phrase phrase') (names : Namespace) :
    (∃ resolved, phrase.analyze names = .ok resolved) ↔
      ∃ resolved, phrase'.analyze names = .ok resolved := by
  rw [accepted_iff_wellFormed, accepted_iff_wellFormed]
  exact ⟨fun known => wellFormed known reordered.asProgram,
    fun known => wellFormed known reordered.symm.asProgram⟩

end Reordered

end Phrase

end ShapeLang
