import ShapeLang.Scope
import ShapeLang.Proofs.Expr.Scoped

/-! # What it means to resolve names

The scopes around a phrase are tables that give names their slots. A phrase and an expression
correspond if the expression has the form of the phrase and each of its slots is the one that the
innermost table with the name gives. The order in which definitions are met, and with it the
choice of slots, is left open.
-/

namespace ShapeLang

namespace Phrase

/-- The name of a parameter in a function header. -/
def param? : Phrase → Option Ident
  | ident _ param => some param
  | _ => none

/-- The name that a phrase defines and what it stands for: `f(x) = e` defines `f` as a
function. -/
def binding? : Phrase → Option (String × Phrase)
  | definition _ (ident _ name) definiens => some (name.name, definiens)
  | definition location (call _ (ident _ name) args) definiens =>
    (args.mapM param?).map fun params => (name.name, lambda location params definiens)
  | _ => none

end Phrase

/-- What a scope binds to slots. -/
structure Rib where
  slots : List (String × Nat)
  opensFrame : Bool

/-- The scopes around a phrase, the innermost first, without the names of the whole program. -/
abbrev Ribs := List Rib

namespace Ribs

/-- The slot of the innermost scope that has the name, and how many frames further out it is. -/
def resolve? : Ribs → String → Option (Nat × Nat)
  | [], _ => none
  | rib :: ribs, name =>
    match rib.slots.lookup name with
    | some slot => some (0, slot)
    | none => (resolve? ribs name).map fun place =>
      (if rib.opensFrame then place.1 + 1 else place.1, place.2)

/-- The slots that names can be resolved to. -/
def visibility (ribs : Ribs) : Visibility := fun depth slot =>
  ∃ name, resolve? ribs name = some (depth, slot)

theorem mem_of_lookup {slots : List (String × Nat)} {name : String} {slot : Nat}
    (found : slots.lookup name = some slot) : slot ∈ slots.map (·.2) := by
  induction slots with
  | nil => simp at found
  | cons first slots ih =>
    obtain ⟨other, place⟩ := first
    rw [List.lookup_cons] at found
    split at found
    · simp [Option.some.inj found]
    · simp [ih found]

theorem visibility_enter {slots : List (String × Nat)} {ribs : Ribs} (depth slot : Nat)
    (visible : visibility (⟨slots, true⟩ :: ribs) depth slot) :
    (visibility ribs).enter (slots.map (·.2)) depth slot := by
  obtain ⟨name, found⟩ := visible
  rw [resolve?] at found
  split at found
  · rename_i place inside
    obtain ⟨rfl, rfl⟩ := Prod.mk.inj (Option.some.inj found)
    exact mem_of_lookup inside
  · obtain ⟨⟨further, place⟩, outside, same⟩ := Option.map_eq_some_iff.mp found
    obtain ⟨rfl, rfl⟩ := Prod.mk.inj same
    exact ⟨name, outside⟩

theorem visibility_extend {slots : List (String × Nat)} {ribs : Ribs} (depth slot : Nat)
    (visible : visibility (⟨slots, false⟩ :: ribs) depth slot) :
    (visibility ribs).extend (slots.map (·.2)) depth slot := by
  obtain ⟨name, found⟩ := visible
  rw [resolve?] at found
  split at found
  · rename_i place inside
    obtain ⟨rfl, rfl⟩ := Prod.mk.inj (Option.some.inj found)
    exact .inl ⟨rfl, mem_of_lookup inside⟩
  · obtain ⟨⟨further, place⟩, outside, same⟩ := Option.map_eq_some_iff.mp found
    obtain ⟨rfl, rfl⟩ := Prod.mk.inj same
    exact .inr ⟨name, outside⟩

end Ribs

/-- A definition with its slot and the expression that it is resolved to. -/
structure Linked where
  name : String
  slot : Nat
  body : Phrase
  expr : Expr

namespace Linked

def source (definition : Linked) : String × Phrase := (definition.name, definition.body)

def field (definition : Linked) : String × Nat := (definition.name, definition.slot)

def binding (definition : Linked) : Nat × Expr := (definition.slot, definition.expr)

end Linked

/-- The scope of the parameters of a function. -/
def Rib.ofParameters (names : List String) : Rib :=
  ⟨names.mapIdx fun i name => (name, i), true⟩

/-- The phrase, within the scopes and among the names of the program, is resolved to the
expression. -/
inductive Resolves (names : Namespace) : Ribs → Phrase → Expr → Prop
  | numeral {ribs location value} :
      Resolves names ribs (.numeral location value) (.constant location (.num value))
  | boolean {ribs location value} :
      Resolves names ribs (.boolean location value) (.constant location (.bool value))
  | text {ribs location content} :
      Resolves names ribs (.text location content) (.constant location (.text content))
  | slot {ribs location depth slot} {id : Ident}
      (found : Ribs.resolve? ribs id.name = some (depth, slot)) :
      Resolves names ribs (.ident location id) (.slot location depth slot)
  | constant {ribs location value} {id : Ident} (free : Ribs.resolve? ribs id.name = none)
      (found : names.lookup id.name = some value) :
      Resolves names ribs (.ident location id) (.constant location value)
  | list {ribs location} (items : List (Phrase × Expr))
      (parts : ∀ item ∈ items, Resolves names ribs item.1 item.2) :
      Resolves names ribs (.list location (items.map (·.1))) (.list location (items.map (·.2)))
  | record {ribs location} (fields : List (Ident × Phrase × Expr))
      (parts : ∀ field ∈ fields, Resolves names ribs field.2.1 field.2.2) :
      Resolves names ribs (.record location (fields.map fun field => (field.1, field.2.1)))
        (.record location (fields.map fun field => (field.1.name, field.2.2)))
  | module {ribs location slotCount items} (group : List Linked)
      (written : items.mapM Phrase.binding? = some (group.map Linked.source))
      (layout : Room slotCount
        (group.map Linked.slot ++ group.flatMap fun definition => definition.expr.letSlots))
      (parts : ∀ definition ∈ group,
        Resolves names (⟨group.map Linked.field, true⟩ :: ribs) definition.body definition.expr) :
      Resolves names ribs (.module location items)
        (.module location slotCount (group.map Linked.field) (group.map Linked.binding))
  | lambda {ribs location slotCount phrase expr} (params : List Ident)
      (layout : Room slotCount (List.range params.length ++ expr.letSlots))
      (inner : Resolves names (Rib.ofParameters (params.map (·.name)) :: ribs) phrase expr) :
      Resolves names ribs (.lambda location params phrase)
        (.lambda location params.length slotCount expr)
  | call {ribs location function callee} (args : List (Phrase × Expr))
      (head : Resolves names ribs function callee)
      (rest : ∀ arg ∈ args, Resolves names ribs arg.1 arg.2) :
      Resolves names ribs (.call location function (args.map (·.1)))
        (.call location callee (args.map (·.2)))
  | dot {ribs location base expr} {field : Ident} (part : Resolves names ribs base expr) :
      Resolves names ribs (.dot location base field) (.dot location expr field.name)
  | index {ribs location base index expr place} (first : Resolves names ribs base expr)
      (second : Resolves names ribs index place) :
      Resolves names ribs (.index location base index) (.index location expr place)
  | unary {ribs location op operand expr} (part : Resolves names ribs operand expr) :
      Resolves names ribs (.unary location op operand) (.unary location op expr)
  | binary {ribs location op left right a b} (first : Resolves names ribs left a)
      (second : Resolves names ribs right b) :
      Resolves names ribs (.binary location op left right) (.binary location op a b)
  | conditional {ribs location condition whenTrue whenFalse c a b}
      (first : Resolves names ribs condition c) (second : Resolves names ribs whenTrue a)
      (third : Resolves names ribs whenFalse b) :
      Resolves names ribs (.conditional location condition whenTrue whenFalse)
        (.conditional location c a b)
  | letIn {ribs location items phrase expr} (group : List Linked)
      (written : items.mapM Phrase.binding? = some (group.map Linked.source))
      (parts : ∀ definition ∈ group,
        Resolves names (⟨group.map Linked.field, false⟩ :: ribs) definition.body definition.expr)
      (rest : Resolves names (⟨group.map Linked.field, false⟩ :: ribs) phrase expr) :
      Resolves names ribs (.letIn location items phrase)
        (.letIn location (group.map Linked.binding) expr)
  | forEach {ribs location slotCount list body items expr} {item : Ident}
      (first : Resolves names ribs list items)
      (layout : Room slotCount (0 :: expr.letSlots))
      (inner : Resolves names (Rib.ofParameters [item.name] :: ribs) body expr) :
      Resolves names ribs (.forEach location item list body)
        (.forEach location slotCount items expr)

private theorem map_slot_eq_field (group : List Linked) :
    (group.map Linked.field).map (·.2) = group.map Linked.slot := by
  simp [Linked.field, Function.comp_def]

private theorem map_slot_eq_binding (group : List Linked) :
    (group.map Linked.binding).map (·.1) = group.map Linked.slot := by
  simp [Linked.binding, Function.comp_def]

private theorem map_slot_parameters (names : List String) :
    (Rib.ofParameters names).slots.map (·.2) = List.range names.length := by
  apply List.ext_getElem <;> simp [Rib.ofParameters]

/-- What names are resolved to is well-scoped. -/
theorem Resolves.scoped {names : Namespace} {ribs : Ribs} {phrase : Phrase} {expr : Expr}
    (resolves : Resolves names ribs phrase expr) : Expr.Scoped ribs.visibility expr := by
  induction resolves with
  | numeral => exact .constant
  | boolean => exact .constant
  | text => exact .constant
  | slot found => exact .slot ⟨_, found⟩
  | constant => exact .constant
  | list items _ parts =>
    refine .list fun expr mem => ?_
    obtain ⟨item, inside, rfl⟩ := List.mem_map.mp mem
    exact parts item inside
  | record fields _ parts =>
    refine .record fun expr mem => ?_
    obtain ⟨field, inside, rfl⟩ := List.mem_map.mp mem
    exact parts field inside
  | «module» group _ layout _ parts =>
    refine .module ?_ (fun field mem => ?_) fun definition mem => ?_
    · rw [map_slot_eq_binding, List.flatMap_map]
      exact layout
    · rw [map_slot_eq_binding, ← map_slot_eq_field]
      exact List.mem_map_of_mem mem
    · obtain ⟨definition, inside, rfl⟩ := List.mem_map.mp mem
      refine (parts definition inside).mono ?_
      rw [map_slot_eq_binding, ← map_slot_eq_field]
      exact Ribs.visibility_enter
  | lambda params layout _ inner =>
    refine .lambda layout (inner.mono ?_)
    have slots := map_slot_parameters (params.map (·.name))
    rw [List.length_map] at slots
    exact slots ▸ Ribs.visibility_enter
  | call args _ _ head rest =>
    refine .call head fun expr mem => ?_
    obtain ⟨arg, inside, rfl⟩ := List.mem_map.mp mem
    exact rest arg inside
  | dot _ part => exact .dot part
  | index _ _ first second => exact .index first second
  | unary _ part => exact .unary part
  | binary _ _ first second => exact .binary first second
  | conditional _ _ _ first second third => exact .conditional first second third
  | letIn group _ _ _ parts rest =>
    refine .letIn (fun binding mem => ?_) (rest.mono ?_)
    · obtain ⟨definition, inside, rfl⟩ := List.mem_map.mp mem
      refine (parts definition inside).mono ?_
      rw [map_slot_eq_binding, ← map_slot_eq_field]
      exact Ribs.visibility_extend
    · rw [map_slot_eq_binding, ← map_slot_eq_field]
      exact Ribs.visibility_extend
  | forEach _ layout _ first inner =>
    exact .forEach first layout (inner.mono Ribs.visibility_enter)

end ShapeLang
