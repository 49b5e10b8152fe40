import Mathlib.Data.List.Forall2
import Mathlib.Data.Option.NAry
import ShapeLang.Builtin.Apply

/-! # Arithmetic on nested lists

A scalar operation applies to two values if they conform: where one of them has a list, the other
one has a list of the same length or a single number. The result has the lists of both, and at each
of its leaves the operation was applied to the numbers that the operands have there, or further up.
Everything else is a mistake.
-/

namespace ShapeLang

/-- How lists are nested in a value. -/
inductive Nesting where
  | leaf
  | list (items : List Nesting)

namespace Nesting

mutual

/-- The lists of both. A leaf stands for everything that is below it in the other one. -/
def broadcast : Nesting → Nesting → Nesting
  | leaf, b => b
  | a, leaf => a
  | list as, list bs => list (broadcastAll as bs)

def broadcastAll : List Nesting → List Nesting → List Nesting
  | a :: as, b :: bs => broadcast a b :: broadcastAll as bs
  | _, _ => []

end

/-- Whether there is a leaf at the end of a path, which says which item to take of each list. -/
def leafAt : Nesting → List Nat → Bool
  | leaf, [] => true
  | list items, i :: path => items[i]?.any (leafAt · path)
  | _, _ => false

@[simp] theorem broadcast_leaf (a : Nesting) : a.broadcast leaf = a := by
  cases a <;> rfl

theorem broadcastAll_map {α : Type} (items : List α) (g h : α → Nesting) :
    broadcastAll (items.map g) (items.map h) = items.map fun item => (g item).broadcast (h item) := by
  induction items with
  | nil => rfl
  | cons item items ih => simp only [List.map_cons, broadcastAll, ih]

end Nesting

namespace Value

mutual

def nesting : Value → Nesting
  | list items _ => .list (nestings items)
  | _ => .leaf

def nestings : List Value → List Nesting
  | [] => []
  | item :: items => item.nesting :: nestings items

end

/-- The number at the end of a path. -/
def leaf? : Value → List Nat → Option Float
  | num x, [] => some x
  | list items _, i :: path => items[i]?.bind (leaf? · path)
  | _, _ => none

/-- The number at the end of a path or on the way there, which stands for everything below it. -/
def over? : Value → List Nat → Option Float
  | num x, _ => some x
  | list items _, i :: path => items[i]?.bind (over? · path)
  | _, _ => none

theorem over?_num (x : Float) (path : List Nat) : (num x).over? path = some x := by
  cases path <;> rfl

/-- Numbers, and lists of such values. -/
inductive Numeric : Value → Prop
  | num (x : Float) : Numeric (.num x)
  | list {items : List Value} {frames : FrameSet} (parts : ∀ item ∈ items, Numeric item) :
      Numeric (.list items frames)

/-- Values that a scalar operation can be applied to: two numbers, a number and a list with numbers
at all its leaves, or two lists of the same length whose items conform one by one. -/
inductive Conforms : Value → Value → Prop
  | numbers (x y : Float) : Conforms (.num x) (.num y)
  | numberList (x : Float) {items : List Value} {frames : FrameSet}
      (numeric : Numeric (.list items frames)) : Conforms (.num x) (.list items frames)
  | listNumber {items : List Value} {frames : FrameSet} (numeric : Numeric (.list items frames))
      (y : Float) : Conforms (.list items frames) (.num y)
  | lists (items : List (Value × Value)) {frames frames' : FrameSet}
      (parts : ∀ item ∈ items, Conforms item.1 item.2) :
      Conforms (.list (items.map (·.1)) frames) (.list (items.map (·.2)) frames')

/-- A value with the given lists, and the given numbers at the ends of the paths to its leaves. -/
structure Carries (value : Value) (shape : Nesting) (number? : List Nat → Option Float) : Prop where
  nesting : value.nesting = shape
  leaves : ∀ path, shape.leafAt path = true → ∃ x, number? path = some x ∧ value.leaf? path = some x

/-- The complaint that a value has the wrong type. -/
def Mistyped {α : Type} (result : Except ErrorKind α) : Prop :=
  ∃ expected found, result = .error (.wrongType expected found)

section Items

variable {α : Type} {items : List α} {rs : List Value}

theorem nestings_eq (items : List Value) : nestings items = items.map nesting := by
  induction items with
  | nil => rfl
  | cons item items ih => rw [nestings, ih, List.map_cons]

theorem mapNumbersItems_eq (f : Float → Float) (items : List Value) :
    mapNumbersItems f items = items.mapM (mapNumbers f) := by
  induction items with
  | nil => rfl
  | cons item items ih => rw [mapNumbersItems, ih, List.mapM_cons]

theorem broadcastItems_map (f : Float → Float → Float) (items : List (Value × Value)) :
    broadcastItems f (items.map (·.1)) (items.map (·.2)) =
      items.mapM fun item => broadcast f item.1 item.2 := by
  induction items with
  | nil => rfl
  | cons item items ih => rw [List.map_cons, List.map_cons, broadcastItems, ih, List.mapM_cons]

theorem mapM_congr {g h : α → Except ErrorKind Value} (same : ∀ item ∈ items, g item = h item) :
    items.mapM g = items.mapM h := by
  induction items with
  | nil => rfl
  | cons item items ih =>
    obtain ⟨first, rest⟩ := List.forall_mem_cons.mp same
    rw [List.mapM_cons, List.mapM_cons, first, ih rest]

/-- What is computed for each item is computed for a list. -/
theorem exists_mapM {g : α → Except ErrorKind Value} {p : α → Value → Prop}
    (each : ∀ item ∈ items, ∃ r, g item = .ok r ∧ p item r) :
    ∃ rs, items.mapM g = .ok rs ∧ List.Forall₂ p items rs := by
  induction items with
  | nil => exact ⟨[], rfl, .nil⟩
  | cons item items ih =>
    obtain ⟨⟨r, first, holds⟩, rest⟩ := List.forall_mem_cons.mp each
    obtain ⟨rs, others, hold⟩ := ih rest
    exact ⟨r :: rs, by rw [List.mapM_cons, first, others]; rfl, .cons holds hold⟩

/-- A list carries what its items carry. -/
theorem Carries.ofItems {shape : α → Nesting} {number? : α → List Nat → Option Float}
    (parts : List.Forall₂ (fun item r => r.Carries (shape item) (number? item)) items rs)
    {whole? : List Nat → Option Float}
    (inside : ∀ i item path, items[i]? = some item → whole? (i :: path) = number? item path) :
    (ofItems rs).Carries (.list (items.map shape)) whole? := by
  have same : rs.map Value.nesting = items.map shape := by
    clear inside
    induction parts with
    | nil => rfl
    | cons first _ ih => rw [List.map_cons, List.map_cons, first.nesting, ih]
  refine ⟨by rw [Value.ofItems, Value.nesting, nestings_eq, same], fun path there => ?_⟩
  cases path with
  | nil => cases there
  | cons i path =>
    simp only [Nesting.leafAt, List.getElem?_map, Option.any_map, Option.any_eq_true] at there
    obtain ⟨item, here, leaf⟩ := there
    obtain ⟨r, here', carries⟩ : ∃ r, rs[i]? = some r ∧ r.Carries (shape item) (number? item) := by
      obtain ⟨low, rfl⟩ := List.getElem?_eq_some_iff.mp here
      have low' : i < rs.length := parts.length_eq ▸ low
      exact ⟨rs[i], List.getElem?_eq_getElem low', parts.get low low'⟩
    obtain ⟨x, number, at_⟩ := carries.leaves path leaf
    refine ⟨x, (inside i item path here).trans number, ?_⟩
    rw [Value.ofItems, leaf?, here', Option.bind_some, at_]

end Items

section Numbers

variable {f : Float → Float} {value : Value}

theorem mapNumbers_numeric (numeric : value.Numeric) :
    ∃ r, mapNumbers f value = .ok r ∧
      r.Carries value.nesting fun path => (value.over? path).map f := by
  induction numeric with
  | num x =>
    refine ⟨_, rfl, rfl, fun path there => ?_⟩
    cases path with
    | nil => exact ⟨f x, rfl, rfl⟩
    | cons => cases there
  | @list items frames _ ih =>
    obtain ⟨rs, computed, parts⟩ := exists_mapM ih
    refine ⟨ofItems rs, by rw [mapNumbers, mapNumbersItems_eq, computed]; rfl, ?_⟩
    rw [nesting, nestings_eq]
    refine .ofItems parts fun i item path here => ?_
    rw [over?, here, Option.bind_some]

mutual

theorem numeric_or_mistyped (f : Float → Float) :
    (value : Value) → value.Numeric ∨ Mistyped (mapNumbers f value)
  | num x => .inl (.num x)
  | list items _ => by
    rcases numericAll_or_mistyped f items with all | ⟨expected, found, mistake⟩
    · exact .inl (.list all)
    · exact .inr ⟨expected, found, by rw [mapNumbers, mistake]; rfl⟩
  | bool _ | text _ | record _ _ | module _ _ | closure _ _ _ | builtin _ => .inr ⟨_, _, rfl⟩

theorem numericAll_or_mistyped (f : Float → Float) : (items : List Value) →
    (∀ item ∈ items, item.Numeric) ∨ Mistyped (mapNumbersItems f items)
  | [] => .inl (by simp)
  | item :: items => by
    rcases numeric_or_mistyped f item with first | ⟨expected, found, mistake⟩
    · obtain ⟨r, computed, -⟩ := mapNumbers_numeric (f := f) first
      rcases numericAll_or_mistyped f items with rest | ⟨expected, found, mistake⟩
      · exact .inl (List.forall_mem_cons.mpr ⟨first, rest⟩)
      · exact .inr ⟨expected, found, by rw [mapNumbersItems, computed, mistake]; rfl⟩
    · exact .inr ⟨expected, found, by rw [mapNumbersItems, mistake]; rfl⟩

end

end Numbers

section Broadcasting

variable {f : Float → Float → Float} {a b : Value}

/-- What the operation gives for the numbers of two values at the end of a path. -/
def combined (f : Float → Float → Float) (a b : Value) (path : List Nat) : Option Float :=
  Option.map₂ f (a.over? path) (b.over? path)

theorem combined_number_right (f : Float → Float → Float) (a : Value) (y : Float) :
    combined f a (.num y) = fun path => (a.over? path).map (f · y) := by
  funext path
  rw [combined, over?_num, Option.map₂_coe_right]

theorem combined_number_left (f : Float → Float → Float) (x : Float) (b : Value) :
    combined f (.num x) b = fun path => (b.over? path).map (f x) := by
  funext path
  rw [combined, over?_num, Option.map₂_coe_left]

theorem broadcast_number_list (f : Float → Float → Float) (x : Float) (items : List Value)
    (frames : FrameSet) :
    broadcast f (.num x) (.list items frames) = mapNumbers (f x) (.list items frames) := by
  simp only [broadcast]

theorem broadcast_conforming (f : Float → Float → Float) (conforms : a.Conforms b) :
    ∃ r, broadcast f a b = .ok r ∧ r.Carries (a.nesting.broadcast b.nesting) (combined f a b) := by
  have number {a : Value} (numeric : a.Numeric) (y : Float) : ∃ r, broadcast f a (.num y) = .ok r ∧
      r.Carries (a.nesting.broadcast .leaf) (combined f a (.num y)) := by
    rw [broadcast, combined_number_right, Nesting.broadcast_leaf]
    exact mapNumbers_numeric numeric
  induction conforms with
  | numbers x y => exact number (.num x) y
  | listNumber numeric y => exact number numeric y
  | numberList x numeric =>
    rw [broadcast_number_list, combined_number_left]
    exact mapNumbers_numeric numeric
  | lists items _ ih =>
    obtain ⟨rs, computed, parts⟩ := exists_mapM ih
    refine ⟨ofItems rs, ?_, ?_⟩
    · simp [broadcast, broadcastItems_map, computed]
    · simp only [nesting, nestings_eq, List.map_map, Nesting.broadcast]
      rw [Nesting.broadcastAll_map]
      refine .ofItems parts fun i item path here => ?_
      simp only [combined, over?, List.getElem?_map, here, Option.map_some, Option.bind_some]

/-- Two lists of one length go together item by item. -/
theorem conforms_zip {as bs : List Value} (length : as.length = bs.length)
    (parts : ∀ pair ∈ as.zip bs, pair.1.Conforms pair.2) (frames frames' : FrameSet) :
    (list as frames).Conforms (list bs frames') := by
  have conforms : (list ((as.zip bs).map (·.1)) frames).Conforms
      (list ((as.zip bs).map (·.2)) frames') := .lists (as.zip bs) parts
  rwa [List.map_fst_zip (Nat.le_of_eq length), List.map_snd_zip (Nat.le_of_eq length.symm)] at conforms

mutual

theorem conforms_or_mistyped (f : Float → Float → Float) :
    (a b : Value) → a.Conforms b ∨ Mistyped (broadcast f a b)
  | list as frames, list bs frames' => by
    rw [broadcast]
    by_cases length : as.length = bs.length
    · rw [if_pos length]
      rcases conformsAll_or_mistyped f as bs with all | ⟨expected, found, mistake⟩
      · exact .inl (conforms_zip length all frames frames')
      · exact .inr ⟨expected, found, by rw [mistake]; rfl⟩
    · rw [if_neg length]
      exact .inr ⟨_, _, rfl⟩
  | a, num y => by
    rw [broadcast]
    refine (numeric_or_mistyped (f · y) a).imp_left fun numeric => ?_
    cases numeric with
    | num x => exact .numbers x y
    | list parts => exact .listNumber (.list parts) y
  | num x, b => by
    cases b with
    | num y => exact .inl (.numbers x y)
    | list items frames =>
      rw [broadcast_number_list]
      exact (numeric_or_mistyped (f x) _).imp_left (.numberList x)
    | _ => exact .inr ⟨_, _, rfl⟩
  | list _ _, bool _ | list _ _, text _ | list _ _, record _ _ | list _ _, module _ _
  | list _ _, closure _ _ _ | list _ _, builtin _ => .inr ⟨_, _, rfl⟩
  | bool _, b | text _, b | record _ _, b | module _ _, b | closure _ _ _, b | builtin _, b => by
    right
    cases b <;> exact ⟨_, _, rfl⟩

theorem conformsAll_or_mistyped (f : Float → Float → Float) : (as bs : List Value) →
    (∀ pair ∈ as.zip bs, pair.1.Conforms pair.2) ∨ Mistyped (broadcastItems f as bs)
  | [], _ | _ :: _, [] => .inl (by simp)
  | a :: as, b :: bs => by
    rcases conforms_or_mistyped f a b with first | ⟨expected, found, mistake⟩
    · obtain ⟨r, computed, -⟩ := broadcast_conforming f first
      rcases conformsAll_or_mistyped f as bs with rest | ⟨expected, found, mistake⟩
      · exact .inl (List.forall_mem_cons.mpr ⟨first, rest⟩)
      · exact .inr ⟨expected, found, by rw [broadcastItems, computed, mistake]; rfl⟩
    · exact .inr ⟨expected, found, by rw [broadcastItems, mistake]; rfl⟩

end

theorem Conforms.symm (conforms : a.Conforms b) : b.Conforms a := by
  induction conforms with
  | numbers x y => exact .numbers y x
  | numberList x numeric => exact .listNumber numeric x
  | listNumber numeric y => exact .numberList y numeric
  | @lists items frames frames' _ ih =>
    have swapped : (list ((items.map Prod.swap).map (·.1)) frames').Conforms
        (list ((items.map Prod.swap).map (·.2)) frames) :=
      .lists _ (List.forall_mem_map.mpr ih)
    simpa [Function.comp_def] using swapped

/-- Operands of an operation for which their order does not matter. -/
theorem broadcast_swap (comm : ∀ x y, f x y = f y x) (conforms : a.Conforms b) :
    broadcast f a b = broadcast f b a := by
  have turned (x : Float) : f x = (f · x) := funext (comm x)
  induction conforms with
  | numbers x y => simp only [broadcast, mapNumbers, comm x y]
  | numberList x numeric => rw [broadcast_number_list, broadcast, turned]
  | listNumber numeric y => rw [broadcast_number_list, broadcast, turned]
  | lists items _ ih =>
    have swapped := broadcastItems_map f (items.map Prod.swap)
    simp only [List.map_map, List.mapM_map, Function.comp_def, Prod.fst_swap, Prod.snd_swap] at swapped
    rw [broadcast, broadcast, broadcastItems_map, swapped, List.length_map, List.length_map]
    rw [mapM_congr ih]

/-- A scalar operation applies to two values exactly if they conform. The result has the lists of
both operands, and at the end of each path to a leaf the operation is applied to the numbers that
stand there, in their order. All other values have the wrong type. If the order of numbers does not
matter to the operation, the order of values does not either. -/
theorem broadcast_exact (f : Float → Float → Float) (a b : Value) :
    ((∃ r, broadcast f a b = .ok r) ↔ a.Conforms b) ∧
    (∀ r, broadcast f a b = .ok r → r.nesting = a.nesting.broadcast b.nesting ∧
      ∀ path, (a.nesting.broadcast b.nesting).leafAt path = true → ∃ x y,
        a.over? path = some x ∧ b.over? path = some y ∧ r.leaf? path = some (f x y)) ∧
    (¬ a.Conforms b → ∃ expected found, broadcast f a b = .error (.wrongType expected found)) ∧
    ((∀ x y, f x y = f y x) → ∀ r, broadcast f a b = .ok r ↔ broadcast f b a = .ok r) := by
  have succeeds {a b : Value} {r : Value} (computed : broadcast f a b = .ok r) : a.Conforms b := by
    refine (conforms_or_mistyped f a b).resolve_right ?_
    rintro ⟨expected, found, mistake⟩
    cases computed.symm.trans mistake
  refine ⟨⟨fun ⟨r, computed⟩ => succeeds computed, fun conforms => ?_⟩, fun r computed => ?_,
    (conforms_or_mistyped f a b).resolve_left, fun comm r => ⟨fun computed => ?_, fun computed => ?_⟩⟩
  · obtain ⟨r, computed, -⟩ := broadcast_conforming f conforms
    exact ⟨r, computed⟩
  · obtain ⟨r', computed', carries⟩ := broadcast_conforming f (succeeds computed)
    obtain rfl := Except.ok.inj (computed.symm.trans computed')
    refine ⟨carries.nesting, fun path there => ?_⟩
    obtain ⟨z, both, leaf⟩ := carries.leaves path there
    obtain ⟨x, y, left, right, rfl⟩ := Option.map₂_eq_some_iff.mp both
    exact ⟨x, y, left, right, leaf⟩
  · rw [← broadcast_swap comm (succeeds computed), computed]
  · rw [broadcast_swap comm (succeeds computed).symm, computed]

/-- A number goes with a whole list at any depth. -/
example (f : Float → Float → Float) (x y z : Float) :
    broadcast f (ofItems [.num x, ofItems [.num y]]) (ofItems [ofItems [.num y, .num z], .num z]) =
      .ok (ofItems [ofItems [.num (f x y), .num (f x z)], ofItems [.num (f y z)]]) := rfl

end Broadcasting

end Value

end ShapeLang
