import Mathlib.Data.List.Basic
import ShapeLang.Proofs.Value.Contents

/-! # What builtin functions give

The result of a builtin function holds on to no frames. With the right number of arguments no
component is missing: vectors of different lengths are refused before their components are taken.
-/

namespace ShapeLang

namespace Operand

/-- Every operand has a component at the index. -/
private theorem component_isSome {i : Nat} {operand : Operand}
    (long : ∀ xs, operand = .vector xs → i < xs.length) : ∃ x, operand.component? i = some x := by
  cases operand with
  | scalar x => exact ⟨x, rfl⟩
  | vector xs => exact ⟨xs.get ⟨i, long xs rfl⟩, List.getElem?_eq_getElem _⟩

theorem components_isSome {i : Nat} (operands : List Operand)
    (long : ∀ operand ∈ operands, ∀ xs, operand = .vector xs → i < xs.length) :
    ∃ ys, operands.mapM (component? i) = some ys ∧ ys.length = operands.length := by
  induction operands with
  | nil => exact ⟨[], rfl, rfl⟩
  | cons operand operands ih =>
    obtain ⟨y, found⟩ := component_isSome (long operand (by simp))
    obtain ⟨ys, rest, length⟩ := ih fun other mem => long other (by simp [mem])
    exact ⟨y :: ys, by simp [found, rest], by simp [length]⟩

/-- The vectors among the operands have the common length, and there are none if there is no
common length. -/
private theorem length_of_commonLength {operands : List Operand} {seen common : Option Nat}
    (same : commonLength seen operands = .ok common) :
    (∀ n, seen = some n → common = some n) ∧
      ∀ operand ∈ operands, ∀ xs, operand = .vector xs → common = some xs.length := by
  induction operands generalizing seen with
  | nil =>
    obtain rfl := Except.ok.inj same
    exact ⟨fun _ eq => eq, by simp⟩
  | cons operand operands ih =>
    cases operand with
    | scalar x =>
      obtain ⟨kept, rest⟩ := ih same
      refine ⟨kept, fun other mem xs eq => ?_⟩
      rcases List.mem_cons.mp mem with rfl | mem
      · cases eq
      · exact rest other mem xs eq
    | vector xs =>
      have whole : (commonLength (some xs.length) operands = .ok common) ∧
          ∀ n, seen = some n → n = xs.length := by
        cases seen with
        | none => exact ⟨same, by simp⟩
        | some n =>
          simp only [commonLength] at same
          split at same
          · rename_i eq
            subst eq
            exact ⟨same, fun _ eq => (Option.some.inj eq).symm⟩
          · cases same
      obtain ⟨kept, rest⟩ := ih whole.1
      refine ⟨fun n eq => whole.2 n eq ▸ kept _ rfl, fun other mem ys eq => ?_⟩
      rcases List.mem_cons.mp mem with rfl | mem
      · cases eq
        exact kept _ rfl
      · exact rest other mem ys eq

end Operand

namespace Builtin

variable {f : List Float → Option Float} {args : List Value}

private theorem mapM_length {α β : Type} {ε : Type} {g : α → Except ε β} {xs : List α} {ys : List β}
    (all : xs.mapM g = .ok ys) : ys.length = xs.length := by
  induction xs generalizing ys with
  | nil =>
    obtain rfl := Except.ok.inj all
    rfl
  | cons x xs ih =>
    rw [List.mapM_cons] at all
    cases first : g x with
    | error => rw [first] at all; cases all
    | ok y =>
      cases rest : xs.mapM g with
      | error => rw [first, rest] at all; cases all
      | ok zs =>
        rw [first, rest] at all
        obtain rfl := Except.ok.inj all
        simp [ih rest]

/-- Parts that are all made are made together. -/
private theorem mapM_eq_ok {α β : Type} {ε : Type} {g : α → Except ε β} (xs : List α)
    (each : ∀ x ∈ xs, ∃ y, g x = .ok y) : ∃ ys, xs.mapM g = .ok ys := by
  induction xs with
  | nil => exact ⟨[], rfl⟩
  | cons x xs ih =>
    obtain ⟨y, first⟩ := each x (by simp)
    obtain ⟨ys, rest⟩ := ih fun other mem => each other (by simp [mem])
    exact ⟨y :: ys, by rw [List.mapM_cons, first, rest]; rfl⟩

private theorem mapM_mem {α β : Type} {ε : Type} {g : α → Except ε β} {xs : List α} {ys : List β}
    (all : xs.mapM g = .ok ys) {y : β} (mem : y ∈ ys) : ∃ x ∈ xs, g x = .ok y := by
  induction xs generalizing ys with
  | nil =>
    obtain rfl := Except.ok.inj all
    simp at mem
  | cons x xs ih =>
    rw [List.mapM_cons] at all
    cases first : g x with
    | error => rw [first] at all; cases all
    | ok z =>
      cases rest : xs.mapM g with
      | error => rw [first, rest] at all; cases all
      | ok zs =>
        rw [first, rest] at all
        obtain rfl := Except.ok.inj all
        rcases List.mem_cons.mp mem with rfl | mem
        · exact ⟨x, by simp, first⟩
        · obtain ⟨x', mem', made⟩ := ih rest mem
          exact ⟨x', by simp [mem'], made⟩

/-- One component of the result. -/
def componentAt (f : List Float → Option Float) (operands : List Operand) (i : Nat) :
    Except Failure Value := do
  let x ← found ((operands.mapM (Operand.component? i)).bind f)
  pure (.num x)

/-- The result in all components, if there are several. -/
def assemble (f : List Float → Option Float) (operands : List Operand) :
    Option Nat → Except Failure Value
  | none => componentAt f operands 0
  | some n => Value.ofItems <$> (List.range n).mapM (componentAt f operands)

theorem componentwise_eq (f : List Float → Option Float) (args : List Value) :
    componentwise f args = (do
      let operands ← ofCall (args.mapM Operand.ofValue)
      let common ← ofCall (Operand.commonLength none operands)
      assemble f operands common) := by
  rfl

theorem componentwise_cases {result : Except Failure Value}
    (made : componentwise f args = result) :
    (∃ kind, result = .error (.mistake kind)) ∨
      ∃ operands common, args.mapM Operand.ofValue = .ok operands ∧
        Operand.commonLength none operands = .ok common ∧ result = assemble f operands common := by
  rw [componentwise_eq] at made
  cases converted : args.mapM Operand.ofValue with
  | error kind => exact .inl ⟨kind, by rw [← made, converted]; rfl⟩
  | ok operands =>
    rw [converted] at made
    change (ofCall (Operand.commonLength none operands) >>= assemble f operands) = result at made
    cases lengths : Operand.commonLength none operands with
    | error kind => exact .inl ⟨kind, by rw [← made, lengths]; rfl⟩
    | ok common =>
      rw [lengths] at made
      exact .inr ⟨operands, common, rfl, lengths, made.symm⟩

theorem componentwise_ne_missing
    (total : ∀ xs : List Float, xs.length = args.length → (f xs).isSome) :
    componentwise f args ≠ .error .missing := by
  intro made
  obtain ⟨kind, impossible⟩ | ⟨operands, common, converted, lengths, result⟩ :=
    componentwise_cases made
  · simp at impossible
  obtain ⟨-, vectors⟩ := Operand.length_of_commonLength lengths
  have component {i : Nat}
      (long : ∀ operand ∈ operands, ∀ xs, operand = .vector xs → i < xs.length) :
      ∃ y, componentAt f operands i = .ok y := by
    obtain ⟨ys, taken, length⟩ := Operand.components_isSome operands long
    obtain ⟨x, same⟩ :=
      Option.isSome_iff_exists.mp (total ys (length.trans (mapM_length converted)))
    refine ⟨.num x, ?_⟩
    simp only [componentAt, taken, Option.bind_some, same]
    rfl
  cases common with
  | none =>
    obtain ⟨y, ok⟩ := component (i := 0) fun operand mem xs eq => by
      cases vectors operand mem xs eq
    rw [assemble, ok] at result
    cases result
  | some n =>
    obtain ⟨ys, ok⟩ := mapM_eq_ok (List.range n)
      fun i mem => component fun operand inside xs eq => by
        have same : n = xs.length := Option.some.inj (vectors operand inside xs eq)
        rw [← same]
        exact List.mem_range.mp mem
    rw [assemble, ok] at result
    cases result

theorem componentAt_detached (operands : List Operand) (i : Nat) :
    Value.DetachedResult (componentAt f operands i) := by
  intro value made
  unfold componentAt at made
  cases taken : (operands.mapM (Operand.component? i)).bind f with
  | none => rw [taken] at made; cases made
  | some x =>
    rw [taken] at made
    exact Except.ok.inj made ▸ .num x

theorem componentwise_detached : Value.DetachedResult (componentwise f args) := by
  intro value made
  obtain ⟨kind, impossible⟩ | ⟨operands, common, -, -, result⟩ := componentwise_cases made
  · cases impossible
  cases common with
  | none => exact componentAt_detached operands 0 value result.symm
  | some n =>
    refine Value.DetachedResult.ofItems (fun values all value mem => ?_) value result.symm
    obtain ⟨i, -, made⟩ := mapM_mem all mem
    exact componentAt_detached operands i value made

private theorem components_ne_missing (value : Value) : components value ≠ .error .missing := by
  unfold components
  cases Operand.ofValue value <;> exact fun missing => by cases missing

/-- Results of builtin functions hold on to no frames. -/
theorem apply_detached (a : Arithmetic) (builtin : Builtin) (args : List Value) :
    Value.DetachedResult (builtin.apply a args) := by
  intro value made
  unfold apply at made
  split at made <;> first
    | exact componentwise_detached value made
    | cases made
    | skip
  case h_16 v =>
    cases first : components v with
    | error => rw [first] at made; cases made
    | ok xs =>
      rw [first] at made
      exact Except.ok.inj made ▸ .num _
  case h_17 v w =>
    cases first : components v with
    | error => rw [first] at made; cases made
    | ok xs =>
      cases second : components w with
      | error => rw [first, second] at made; cases made
      | ok ys =>
        rw [first, second] at made
        by_cases lengths : xs.length = ys.length
        · simp only [bind, Except.bind, lengths, ne_eq, not_true_eq_false, ↓reduceIte] at made
          exact Except.ok.inj made ▸ .num _
        · simp [bind, Except.bind, lengths] at made
  case h_18 items _ =>
    cases added : total a 0.0 items with
    | error => rw [added] at made; cases made
    | ok x =>
      rw [added] at made
      exact Except.ok.inj made ▸ .num x

theorem apply_plain (a : Arithmetic) (builtin : Builtin) (args : List Value) :
    Value.PlainResult (builtin.apply a args) :=
  (apply_detached a builtin args).plain

/-- With the right number of arguments nothing is missing. -/
theorem apply_ne_missing (a : Arithmetic) (builtin : Builtin) {args : List Value}
    (count : args.length = builtin.arity) : builtin.apply a args ≠ .error .missing := by
  have unary (g : Float → Float) (one : args.length = 1) : map1 g args ≠ .error .missing :=
    componentwise_ne_missing fun xs length => by
      obtain ⟨x, rfl⟩ := List.length_eq_one_iff.mp (length.trans one)
      rfl
  have binary (g : Float → Float → Float) (two : args.length = 2) :
      map2 g args ≠ .error .missing :=
    componentwise_ne_missing fun xs length => by
      obtain ⟨x, y, rfl⟩ := List.length_eq_two.mp (length.trans two)
      rfl
  have ternary (g : Float → Float → Float → Float) (three : args.length = 3) :
      map3 g args ≠ .error .missing :=
    componentwise_ne_missing fun xs length => by
      obtain ⟨x, y, z, rfl⟩ := List.length_eq_three.mp (length.trans three)
      rfl
  cases builtin with
  | sqrt | abs | sin | cos | tan | exp | log | floor | ceil => exact unary _ count
  | atan2 | min | max | mod => exact binary _ count
  | mix | clamp => exact ternary _ count
  | length =>
    obtain ⟨v, rfl⟩ := List.length_eq_one_iff.mp count
    intro missing
    cases first : components v with
    | error =>
      rw [apply, first] at missing
      cases missing
      exact components_ne_missing v first
    | ok xs => rw [apply, first] at missing; cases missing
  | dot =>
    obtain ⟨v, w, rfl⟩ := List.length_eq_two.mp count
    intro missing
    cases first : components v with
    | error =>
      rw [apply, first] at missing
      cases missing
      exact components_ne_missing v first
    | ok xs =>
      cases second : components w with
      | error =>
        rw [apply, first, second] at missing
        cases missing
        exact components_ne_missing w second
      | ok ys =>
        rw [apply, first, second] at missing
        by_cases lengths : xs.length = ys.length
        · simp only [bind, Except.bind, lengths, ne_eq, not_true_eq_false, ↓reduceIte] at missing
          cases missing
        · simp [bind, Except.bind, lengths] at missing
          cases missing
  | sum =>
    obtain ⟨v, rfl⟩ := List.length_eq_one_iff.mp count
    intro missing
    cases v with
    | list items _ =>
      cases added : total a 0.0 items with
      | error => rw [apply, added] at missing; cases missing
      | ok x => rw [apply, added] at missing; cases missing
    | _ => cases missing
  | error =>
    obtain ⟨v, rfl⟩ := List.length_eq_one_iff.mp count
    intro missing
    cases v <;> cases missing

end Builtin

end ShapeLang
