import Mathlib.Data.List.Forall2
import ShapeLang.Proofs.Eval.Neat
import ShapeLang.Proofs.Lexical.Walk
import ShapeLang.Proofs.Value.Alike

/-! # Where scopes lie among frames

Every scope occupies some slots of a frame: all scopes that were opened by one activation share
its frame, and only one of them opened it. A store of scopes mirrors a heap if each slot of a
scope holds what the name is bound to, and the parents of the frames follow the scopes around the
scopes.
-/

namespace ShapeLang.Lexical

/-- For each scope its frame, and the slots of its names. -/
abbrev Placement := List (FrameId × Rib)

section Relations

variable (names : Namespace) (base : Nat) (placement : Placement) (heap : Heap)

/-- Scopes around code that is evaluated in a frame. A scope that does not open a frame shares the
frame of the scopes around it. -/
inductive Lies : List ScopeId → FrameId → Ribs → Prop
  | root {id : FrameId} (inside : heap.Since base id) : Lies [] id []
  | shared {scope outer id rib ribs} (placed : placement[scope]? = some (id, rib))
      (shares : rib.opensFrame = false) (rest : Lies outer id ribs) :
      Lies (scope :: outer) id (rib :: ribs)
  | opened {scope outer id frame parent rib ribs} (placed : placement[scope]? = some (id, rib))
      (opens : rib.opensFrame = true) (inside : heap.Since base id)
      (found : heap.frame? id = some frame) (atParent : frame.parent = some parent)
      (rest : Lies outer parent ribs) : Lies (scope :: outer) id (rib :: ribs)

/-- The value of an expression and the value of a phrase have the same form; modules and functions
belong to frames and scopes that lie there. -/
inductive Corresponds : ShapeLang.Value → Value → Prop
  | bool (value : Bool) : Corresponds (.bool value) (.bool value)
  | num (value : Float) : Corresponds (.num value) (.num value)
  | text (content : String) : Corresponds (.text content) (.text content)
  | list (items : List (ShapeLang.Value × Value)) {frames : FrameSet}
      (parts : ∀ item ∈ items, Corresponds item.1 item.2) :
      Corresponds (.list (items.map (·.1)) frames) (.list (items.map (·.2)))
  | record (fields : List (String × ShapeLang.Value × Value)) {frames : FrameSet}
      (parts : ∀ field ∈ fields, Corresponds field.2.1 field.2.2) :
      Corresponds (.record (fields.map fun field => (field.1, field.2.1)) frames)
        (.record (fields.map fun field => (field.1, field.2.2)))
  | module {id : FrameId} {scope : ScopeId} {slots : List (String × Nat)}
      (placed : placement[scope]? = some (id, ⟨slots, true⟩)) :
      Corresponds (.module id slots) (.module scope (slots.map (·.1)))
  | closure {serial : Nat} {lambda : Lambda} {env : FrameId} {params : List String}
      {body : Phrase} {scopes : List ScopeId} {ribs : Ribs}
      (count : lambda.paramCount = params.length) (lies : Lies base placement heap scopes env ribs)
      (room : Room lambda.slotCount (List.range params.length ++ lambda.body.letSlots))
      (inner : Resolves names (Rib.ofParameters params :: ribs) body lambda.body) :
      Corresponds (.closure serial lambda env) (.closure serial params body scopes)
  | builtin (function : Builtin) : Corresponds (.builtin function) (.builtin function)

/-- What a slot holds and what a name is bound to, within some scopes. -/
inductive Content (ribs : Ribs) : Slot → Cell → Prop
  | waiting {expr : Expr} {body : Phrase} (resolves : Resolves names ribs body expr) :
      Content ribs (.pending expr) (.waiting body)
  | busy : Content ribs .busy .busy
  | done {value : ShapeLang.Value} {value' : Value}
      (same : Corresponds names base placement heap value value') :
      Content ribs (.ready value) (.done value')

/-- The slots of a scope in a frame, and its names with what they are bound to. -/
def Filling (ribs : Ribs) (slots : List Slot) : List (String × Nat) → List (String × Cell) → Prop :=
  List.Forall₂ fun field cell => field.1 = cell.1 ∧ ∃ content, slots[field.2]? = some content ∧
    Content names base placement heap ribs content cell.2

/-- A scope lies in a frame. -/
structure Occupies (id : FrameId) (rib : Rib) (number : ScopeId) (scope : Scope) (frame : Frame)
    (ribs : Ribs) : Prop where
  found : heap.frame? id = some frame
  depth : frame.depth = scope.depth
  lies : Lies base placement heap (number :: scope.outer) id (rib :: ribs)
  filling : Filling names base placement heap (rib :: ribs) frame.slots rib.slots scope.cells

/-- The scopes lie in the frames, and no two of them share a slot. -/
structure Mirrors (store : Store) : Prop where
  size : store.scopes.size = placement.length
  closures : store.closures = heap.closures
  occupies : ∀ (number : ScopeId) id rib, placement[number]? = some (id, rib) →
    ∃ scope frame ribs, store.scopes[number]? = some scope ∧
      Occupies names base placement heap id rib number scope frame ribs
  distinct : ∀ (number : ScopeId) id rib, placement[number]? = some (id, rib) →
    (rib.slots.map (·.2)).Nodup
  apart : ∀ (number other : ScopeId) id rib rib', placement[number]? = some (id, rib) →
    placement[other]? = some (id, rib') → number ≠ other →
    (rib.slots.map (·.2)).Disjoint (rib'.slots.map (·.2)) ∧
      (rib.opensFrame = true → rib'.opensFrame = false)

end Relations

section Mono

variable {names : Namespace} {base : Nat} {placement placement' : Placement} {heap heap' : Heap}

theorem placed_later {number : ScopeId} {entry : FrameId × Rib}
    (placed : placement <+: placement') (here : placement[number]? = some entry) :
    placement'[number]? = some entry := by
  obtain ⟨more, rfl⟩ := placed
  rw [List.getElem?_append_left (List.getElem?_eq_some_iff.mp here).1, here]

theorem Lies.since {scopes : List ScopeId} {id : FrameId} {ribs : Ribs}
    (lies : Lies base placement heap scopes id ribs) : heap.Since base id := by
  induction lies with
  | root inside => exact inside
  | shared _ _ _ ih => exact ih
  | opened _ _ inside => exact inside

theorem Lies.mono {scopes : List ScopeId} {id : FrameId} {ribs : Ribs}
    (lies : Lies base placement heap scopes id ribs) (placed : placement <+: placement')
    (extension : heap.Extends heap') : Lies base placement' heap' scopes id ribs := by
  induction lies with
  | root inside => exact .root (.mono extension.size_le _ inside)
  | shared here shares _ ih => exact .shared (placed_later placed here) shares ih
  | opened here opens inside found atParent _ ih =>
    obtain ⟨later, found', parent, -⟩ := extension.kept _ _ found
    exact .opened (placed_later placed here) opens (.mono extension.size_le _ inside) found'
      (parent.trans atParent) ih

theorem Corresponds.mono {value : ShapeLang.Value} {value' : Value}
    (same : Corresponds names base placement heap value value') (placed : placement <+: placement')
    (extension : heap.Extends heap') : Corresponds names base placement' heap' value value' := by
  induction same with
  | bool value => exact .bool value
  | num value => exact .num value
  | text content => exact .text content
  | list items _ parts => exact .list items parts
  | record fields _ parts => exact .record fields parts
  | «module» here => exact .module (placed_later placed here)
  | closure count lies room inner => exact .closure count (lies.mono placed extension) room inner
  | builtin function => exact .builtin function

theorem Content.mono {ribs : Ribs} {slot : Slot} {cell : Cell}
    (content : Content names base placement heap ribs slot cell) (placed : placement <+: placement')
    (extension : heap.Extends heap') : Content names base placement' heap' ribs slot cell := by
  cases content with
  | waiting resolves => exact .waiting resolves
  | busy => exact .busy
  | done same => exact .done (same.mono placed extension)

end Mono

section Resolve

variable {names : Namespace} {base : Nat} {placement : Placement} {heap : Heap} {store : Store}

/-- A name is bound in a scope if it has a slot there, and what it is bound to is in the slot. -/
theorem Filling.lookup {ribs : Ribs} {slots : List Slot} {fields : List (String × Nat)}
    {cells : List (String × Cell)}
    (filling : Filling names base placement heap ribs slots fields cells) (name : String) :
    (fields.lookup name = none ∧ cells.lookup name = none) ∨
      ∃ slot content cell, fields.lookup name = some slot ∧ cells.lookup name = some cell ∧
        slots[slot]? = some content ∧ Content names base placement heap ribs content cell := by
  induction filling with
  | nil => exact .inl ⟨rfl, rfl⟩
  | @cons field cell fields cells same _ ih =>
    obtain ⟨first, slot⟩ := field
    obtain ⟨second, bound⟩ := cell
    obtain ⟨rfl, content, holds, related⟩ := same
    simp only [List.lookup_cons]
    by_cases here : name = first
    · subst here
      exact .inr ⟨slot, content, bound, by simp, by simp, holds, related⟩
    · have other : (name == first) = false := by simpa using here
      simpa only [other] using ih

theorem Mirrors.cell? (mirrors : Mirrors names base placement heap store) {number : ScopeId}
    {id : FrameId} {rib : Rib} (placed : placement[number]? = some (id, rib)) (name : String) :
    (store.cell? number name).isSome = (rib.slots.lookup name).isSome := by
  obtain ⟨scope, frame, ribs, found, occupies⟩ := mirrors.occupies number id rib placed
  simp only [Store.cell?, found, Option.bind_some]
  rcases occupies.filling.lookup name with ⟨unbound, unbound'⟩ | ⟨_, _, _, bound, bound', -⟩
  · rw [unbound, unbound']
    rfl
  · rw [bound, bound', Option.isSome_some, Option.isSome_some]

/-- A name that is resolved to a slot is found in the scope that the slot belongs to, in the frame
that is so many frames further out. -/
theorem Lies.resolve (mirrors : Mirrors names base placement heap store)
    {scopes : List ScopeId} {id : FrameId} {ribs : Ribs}
    (lies : Lies base placement heap scopes id ribs) {name : String} {depth slot : Nat}
    (resolved : ribs.resolve? name = some (depth, slot)) :
    ∃ owner number rib, heap.ancestor? id depth = some owner ∧
      store.find? name scopes = some number ∧ placement[number]? = some (owner, rib) ∧
      rib.slots.lookup name = some slot := by
  induction lies generalizing depth with
  | root => cases resolved
  | @shared number outer id rib ribs placed shares rest ih =>
    rw [Ribs.resolve?] at resolved
    rw [Store.find?, mirrors.cell? placed name]
    cases bound : rib.slots.lookup name with
    | some place =>
      rw [bound] at resolved
      obtain ⟨rfl, rfl⟩ := Prod.mk.inj (Option.some.inj resolved)
      exact ⟨id, number, rib, rfl, rfl, placed, bound⟩
    | none =>
      simp only [bound, shares] at resolved
      obtain ⟨⟨further, place⟩, outside, same⟩ := Option.map_eq_some_iff.mp resolved
      obtain ⟨rfl, rfl⟩ := Prod.mk.inj same
      exact ih outside
  | @opened number outer id frame parent rib ribs placed opens inside found atParent rest ih =>
    rw [Ribs.resolve?] at resolved
    rw [Store.find?, mirrors.cell? placed name]
    cases bound : rib.slots.lookup name with
    | some place =>
      rw [bound] at resolved
      obtain ⟨rfl, rfl⟩ := Prod.mk.inj (Option.some.inj resolved)
      exact ⟨id, number, rib, rfl, rfl, placed, bound⟩
    | none =>
      simp only [bound, opens] at resolved
      obtain ⟨⟨further, place⟩, outside, same⟩ := Option.map_eq_some_iff.mp resolved
      obtain ⟨rfl, rfl⟩ := Prod.mk.inj same
      obtain ⟨owner, other, rib', reached, rest⟩ := ih outside
      exact ⟨owner, other, rib', Heap.ancestor?_succ_eq_some_iff.mpr
        ⟨frame, parent, found, atParent, reached⟩, rest⟩

/-- A name without a slot is in none of the scopes. -/
theorem Lies.unresolved (mirrors : Mirrors names base placement heap store)
    {scopes : List ScopeId} {id : FrameId} {ribs : Ribs}
    (lies : Lies base placement heap scopes id ribs) {name : String}
    (resolved : ribs.resolve? name = none) : store.find? name scopes = none := by
  have step {number : ScopeId} {outer : List ScopeId} {id : FrameId} {rib : Rib} {ribs : Ribs}
      (placed : placement[number]? = some (id, rib))
      (resolved : Ribs.resolve? (rib :: ribs) name = none)
      (rest : Ribs.resolve? ribs name = none → store.find? name outer = none) :
      store.find? name (number :: outer) = none := by
    rw [Ribs.resolve?] at resolved
    rw [Store.find?, mirrors.cell? placed name]
    cases bound : rib.slots.lookup name with
    | some place => simp [bound] at resolved
    | none =>
      simp only [bound, Option.map_eq_none_iff] at resolved
      exact rest resolved
  induction lies with
  | root => rfl
  | shared placed _ _ ih => exact step placed resolved ih
  | opened placed _ _ _ _ _ ih => exact step placed resolved ih

/-- What code can read is there. -/
theorem Lies.visible (mirrors : Mirrors names base placement heap store)
    {scopes : List ScopeId} {id : FrameId} {ribs : Ribs}
    (lies : Lies base placement heap scopes id ribs) (depth slot : Nat)
    (seen : ribs.visibility depth slot) : heap.visible id depth slot := by
  obtain ⟨name, resolved⟩ := seen
  obtain ⟨owner, number, rib, reached, -, placed, bound⟩ := lies.resolve mirrors resolved
  obtain ⟨scope, frame, _, -, occupies⟩ := mirrors.occupies number owner rib placed
  obtain ⟨unbound, -⟩ | ⟨_, content, _, bound', -, holds, related⟩ := occupies.filling.lookup name
  · simp [bound] at unbound
  · obtain rfl := Option.some.inj (bound.symm.trans bound')
    refine ⟨owner, reached, frame, content, occupies.found, holds, ?_⟩
    cases related <;> simp

end Resolve

end ShapeLang.Lexical
