import ShapeLang.Proofs.Builtin.Results
import ShapeLang.Proofs.Denotation.Outline
import ShapeLang.Proofs.Rendering.Running
import ShapeLang.Proofs.Shader.Emission
import ShapeLang.Proofs.Value.Broadcasting

/-! # Operators work component by component

What operators and builtin functions make of numbers and of short lists of numbers is what the
operators and functions of shader code make of their components.
-/

namespace ShapeLang

namespace Shader

open Denotation

namespace ShaderValue

/-- What a value of shader code stands for in evaluation. -/
def den : ShaderValue → Den
  | bool b => .bool b
  | float x => .num x
  | vector xs => .list (xs.map .num)

@[simp] theorem den_float (x : Float) : (float x).den = .num x := rfl

@[simp] theorem outline_vector (xs : List Float) :
    (vector xs).den.outline = .list (xs.map .num) [] := by
  simp [den, Den.outline, outlines_eq]

variable {type : ShaderType} {v w : ShaderValue}

/-- A vector type has vectors of one length. -/
theorem ofComponents_vector {n : Nat} (isVector : type.isVector) (count : type.count? = some n)
    (f : Nat → Float) : ofComponents type f = .vector ((List.range n).map f) := by
  cases type with
  | bool | float => cases isVector
  | vec2 | vec3 | vec4 =>
    obtain rfl := Option.some.inj count
    rfl

theorem ofComponents_is (numeric : type.isNumeric) (f : Nat → Float) :
    (ofComponents type f).Is type := by
  cases type with
  | bool => cases numeric
  | float => exact .float _
  | vec2 | vec3 | vec4 => exact .vector rfl rfl

theorem Is.exists_bool (is : v.Is .bool) : ∃ b, v = .bool b := by
  cases is with
  | bool b => exact ⟨b, rfl⟩
  | vector isVector => cases isVector

theorem Is.exists_float (is : v.Is .float) : ∃ x, v = .float x := by
  cases is with
  | float x => exact ⟨x, rfl⟩
  | vector isVector => cases isVector

theorem Is.exists_vector (is : v.Is type) (isVector : type.isVector) :
    ∃ xs, v = .vector xs ∧ type.count? = some xs.length := by
  cases is with
  | bool | float => cases isVector
  | vector _ count => exact ⟨_, rfl, count⟩

/-- A value of a numeric type is a number or a vector. -/
theorem Is.float_or_vector (is : v.Is type) (numeric : type.isNumeric) :
    (∃ x, v = .float x ∧ type = .float) ∨
      ∃ xs, v = .vector xs ∧ type.isVector ∧ type.count? = some xs.length := by
  cases is with
  | bool b => cases numeric
  | float x => exact .inl ⟨x, rfl, rfl⟩
  | vector isVector count => exact .inr ⟨_, rfl, isVector, count⟩

theorem map_range_getD (f : Float → Float) (xs : List Float) :
    ((List.range xs.length).map fun i => f (xs.getD i 0)) = xs.map f := by
  refine List.ext_getElem (by simp) fun i low low' => ?_
  have inside : i < xs.length := by simpa using low'
  simp [List.getD_eq_getElem?_getD, List.getElem?_eq_getElem inside]

/-- A number or a vector is made of its components. -/
theorem Is.eq_ofComponents (is : v.Is type) (numeric : type.isNumeric) :
    v = ofComponents type fun i => v.component i := by
  rcases is.float_or_vector numeric with ⟨x, rfl, rfl⟩ | ⟨xs, rfl, isVector, count⟩
  · rfl
  · rw [ofComponents_vector isVector count]
    exact congrArg _ ((map_range_getD id xs).trans (List.map_id xs)).symm

/-- The components of two vectors of one length, together. -/
theorem zipWith_eq_map_range (f : Float → Float → Float) {xs ys : List Float}
    (same : xs.length = ys.length) :
    List.zipWith f xs ys = (List.range xs.length).map fun i => f (xs.getD i 0) (ys.getD i 0) := by
  refine List.ext_getElem (by simp [same]) fun i low low' => ?_
  have inside : i < xs.length := by simpa using low'
  have inside' : i < ys.length := same ▸ inside
  simp [List.getD_eq_getElem?_getD, List.getElem?_eq_getElem inside,
    List.getElem?_eq_getElem inside']

end ShaderValue

open ShaderValue (outline_vector)

/-- An operator of evaluation gives what shader code gives. -/
def Yields {ε : Type} (result : Except ε Value) (v : ShaderValue) : Prop :=
  ∃ value, result = .ok value ∧ Den.ofPlain value = v.den

section Operators

variable {ε : Type} {type s t : ShaderType} {v w : ShaderValue}

theorem Yields.number (x : Float) : Yields (.ok (.num x) : Except ε Value) (.float x) :=
  ⟨_, rfl, rfl⟩

theorem Yields.truth (b : Bool) : Yields (.ok (.bool b) : Except ε Value) (.bool b) :=
  ⟨_, rfl, rfl⟩

theorem Yields.numbers (xs : List Float) :
    Yields (.ok (.ofItems (xs.map .num)) : Except ε Value) (.vector xs) := by
  refine ⟨_, rfl, ?_⟩
  simp [Value.ofItems, Den.ofPlain, ofPlains_eq, ShaderValue.den, Function.comp_def]

theorem mapNumbersItems_numbers (f : Float → Float) (xs : List Float) :
    Value.mapNumbersItems f (xs.map .num) = .ok ((xs.map f).map .num) := by
  induction xs with
  | nil => rfl
  | cons x xs ih =>
    rw [List.map_cons, Value.mapNumbersItems, ih]
    rfl

/-- A change of every number changes every component. -/
theorem yields_mapNumbers (is : v.Is type) (numeric : type.isNumeric) (f : Float → Float) :
    Yields (v.den.outline.mapNumbers f) (.ofComponents type fun i => f (v.component i)) := by
  rcases is.float_or_vector numeric with ⟨x, rfl, rfl⟩ | ⟨xs, rfl, isVector, count⟩
  · exact .number _
  · rw [outline_vector, Value.mapNumbers, mapNumbersItems_numbers,
      ShaderValue.ofComponents_vector isVector count]
    exact ShaderValue.map_range_getD f xs ▸ .numbers _

theorem broadcastItems_numbers (f : Float → Float → Float) {xs ys : List Float}
    (same : xs.length = ys.length) :
    Value.broadcastItems f (xs.map .num) (ys.map .num) = .ok ((List.zipWith f xs ys).map .num) := by
  induction xs generalizing ys with
  | nil =>
    obtain rfl := List.eq_nil_of_length_eq_zero same.symm
    rfl
  | cons x xs ih =>
    cases ys with
    | nil => cases same
    | cons y ys =>
      rw [List.map_cons, List.map_cons, Value.broadcastItems, ih (Nat.succ.inj same)]
      rfl

/-- An arithmetic operator on two values of one type. -/
theorem yields_broadcast_same (first : v.Is type) (second : w.Is type) (numeric : type.isNumeric)
    (f : Float → Float → Float) :
    Yields (v.den.outline.broadcast f w.den.outline)
      (.ofComponents type fun i => f (v.component i) (w.component i)) := by
  rcases first.float_or_vector numeric with ⟨x, rfl, rfl⟩ | ⟨xs, rfl, isVector, count⟩
  · obtain ⟨y, rfl⟩ := second.exists_float
    exact .number _
  · obtain ⟨ys, rfl, count'⟩ := second.exists_vector isVector
    have same : xs.length = ys.length := Option.some.inj (count.symm.trans count')
    rw [outline_vector, outline_vector, Value.broadcast, if_pos (by simpa using same),
      broadcastItems_numbers f same, ShaderValue.ofComponents_vector isVector count,
      ShaderValue.zipWith_eq_map_range f same]
    exact .numbers _

/-- An arithmetic operator with a number on the left. -/
theorem yields_broadcast_number (x : Float) (is : w.Is type) (numeric : type.isNumeric)
    (f : Float → Float → Float) :
    Yields (Value.broadcast f (.num x) w.den.outline)
      (.ofComponents type fun i => f x (w.component i)) := by
  have spread := yields_mapNumbers is numeric (f x)
  rcases is.float_or_vector numeric with ⟨y, rfl, rfl⟩ | ⟨ys, rfl, -, -⟩
  · exact spread
  · rw [outline_vector] at spread ⊢
    rwa [Value.broadcast_number_list]

/-- An arithmetic operator on two numbers, on a number and a vector, or on two vectors of one
type. -/
theorem yields_broadcast (first : v.Is s) (second : w.Is t) (numeric : type.isNumeric)
    (left : s = type ∨ s = .float) (right : t = type ∨ t = .float) (widest : s = type ∨ t = type)
    (f : Float → Float → Float) :
    Yields (v.den.outline.broadcast f w.den.outline)
      (.ofComponents type fun i => f (v.component i) (w.component i)) := by
  rcases left with rfl | rfl
  · rcases right with rfl | rfl
    · exact yields_broadcast_same first second numeric f
    · obtain ⟨y, rfl⟩ := second.exists_float
      rw [ShaderValue.den_float, Den.outline, Value.broadcast]
      exact yields_mapNumbers first numeric (f · y)
  · rcases right with rfl | rfl
    · obtain ⟨x, rfl⟩ := first.exists_float
      exact yields_broadcast_number x second numeric f
    · obtain rfl : .float = type := widest.elim id id
      exact yields_broadcast_same first second numeric f

theorem equalItems_numbers (xs ys : List Float) :
    Value.equalItems (xs.map .num) (ys.map .num) =
      (xs.length == ys.length && (List.zipWith (· == ·) xs ys).all id) := by
  induction xs generalizing ys with
  | nil => cases ys <;> rfl
  | cons x xs ih =>
    cases ys with
    | nil => rfl
    | cons y ys =>
      simp only [List.map_cons, Value.equalItems, Value.equal, ih, List.length_cons,
        List.zipWith_cons_cons, List.all_cons, id]
      cases x == y <;> simp

theorem equal_outline (v w : ShaderValue) : v.den.outline.equal w.den.outline = v.equal w := by
  cases v with
  | bool a => cases w <;> rfl
  | float x => cases w <;> rfl
  | vector xs =>
    cases w with
    | bool | float => rfl
    | vector ys =>
      rw [outline_vector, outline_vector, Value.equal, equalItems_numbers, ShaderValue.equal]

end Operators

section Functions

variable {type : ShaderType} {args : List ShaderValue}

namespace ShaderValue

/-- A value as an argument of a builtin function. -/
def operand : ShaderValue → Operand
  | bool _ => .scalar 0
  | float x => .scalar x
  | vector xs => .vector xs

/-- A value where a type is needed: of that type, or a number that is spread. -/
def Fits (type : ShaderType) (v : ShaderValue) : Prop := v.Is type ∨ v.Is .float

variable {v : ShaderValue}

theorem numbers?_vector (xs : List Float) (frames : FrameSet) :
    (Value.list (xs.map .num) frames).numbers? = some xs := by
  rw [Value.numbers?]
  induction xs with
  | nil => rfl
  | cons x xs ih =>
    rw [List.map_cons, List.mapM_cons, ih]
    rfl

theorem Is.ofValue (is : v.Is type) (numeric : type.isNumeric) :
    Operand.ofValue v.den.outline = .ok v.operand := by
  rcases is.float_or_vector numeric with ⟨x, rfl, rfl⟩ | ⟨xs, rfl, -, -⟩
  · rfl
  · have items : (ShaderValue.vector xs).den.outline.numbers? = some xs := by
      rw [outline_vector, numbers?_vector]
    rw [Operand.ofValue, items, outline_vector]
    rfl

theorem Fits.float_or_vector (fits : v.Fits type) (numeric : type.isNumeric) :
    (∃ x, v = .float x) ∨
      ∃ xs, v = .vector xs ∧ type.isVector ∧ type.count? = some xs.length := by
  rcases fits with is | is
  · exact (is.float_or_vector numeric).imp_left fun ⟨x, same, _⟩ => ⟨x, same⟩
  · exact .inl is.exists_float

theorem Fits.ofValue (fits : v.Fits type) (numeric : type.isNumeric) :
    Operand.ofValue v.den.outline = .ok v.operand :=
  fits.elim (·.ofValue numeric) (·.ofValue rfl)

theorem Is.component? (is : v.Is type) (numeric : type.isNumeric) {n i : Nat}
    (count : type.isVector → type.count? = some n) (inside : i < n) :
    v.operand.component? i = some (v.component i) := by
  rcases is.float_or_vector numeric with ⟨x, rfl, rfl⟩ | ⟨xs, rfl, isVector, length⟩
  · rfl
  · have low : i < xs.length := Option.some.inj ((count isVector).symm.trans length) ▸ inside
    simp [operand, Operand.component?, component, List.getD_eq_getElem?_getD,
      List.getElem?_eq_getElem low]

end ShaderValue

/-- Numbers have no length in common. -/
theorem commonLength_floats (floats : ∀ v ∈ args, v.Is .float) (seen : Option Nat) :
    Operand.commonLength seen (args.map (·.operand)) = .ok seen := by
  induction args with
  | nil => rfl
  | cons v args ih =>
    obtain ⟨x, rfl⟩ := (floats v List.mem_cons_self).exists_float
    exact ih fun w mem => floats w (List.mem_cons_of_mem _ mem)

/-- The vectors among the arguments have one length, which may be known already. -/
theorem commonLength_vectors {n : Nat} (count : type.count? = some n) (numeric : type.isNumeric)
    (fits : ∀ v ∈ args, v.Fits type) {seen : Option Nat}
    (known : seen = some n ∨ seen = none ∧ ∃ v ∈ args, ¬ v.Is .float) :
    Operand.commonLength seen (args.map (·.operand)) = .ok (some n) := by
  induction args generalizing seen with
  | nil =>
    rcases known with rfl | ⟨-, v, mem, -⟩
    · rfl
    · cases mem
  | cons v args ih =>
    have rest := fun w mem => fits w (List.mem_cons_of_mem v mem)
    rcases (fits v List.mem_cons_self).float_or_vector numeric with ⟨x, rfl⟩ | ⟨xs, rfl, -, size⟩
    · refine ih rest (known.imp_right fun ⟨unseen, w, mem, vector⟩ => ⟨unseen, w, ?_, vector⟩)
      exact (List.mem_cons.mp mem).resolve_left fun same => vector (same ▸ .float x)
    · have length : xs.length = n := Option.some.inj (size.symm.trans count)
      have next : Operand.commonLength seen ((ShaderValue.vector xs :: args).map (·.operand)) =
          Operand.commonLength (some n) (args.map (·.operand)) := by
        rcases known with rfl | ⟨rfl, -⟩
        · simp [ShaderValue.operand, Operand.commonLength, length]
        · simp [ShaderValue.operand, Operand.commonLength, length]
      rw [next]
      exact ih rest (.inl rfl)

/-- What succeeds for each item succeeds for the list. -/
theorem mapM_eq_pure {m : Type → Type} [Monad m] [LawfulMonad m] {α β : Type} {f : α → m β}
    {g : α → β} {xs : List α} (each : ∀ x ∈ xs, f x = pure (g x)) :
    xs.mapM f = pure (xs.map g) := by
  induction xs with
  | nil => rfl
  | cons x xs ih =>
    rw [List.mapM_cons, each x List.mem_cons_self, pure_bind,
      ih fun y mem => each y (List.mem_cons_of_mem x mem), pure_bind, List.map_cons]

theorem componentwise_assembled {f : List Float → Option Float} {values : List Value}
    {operands : List Operand} {common : Option Nat}
    (converted : values.mapM Operand.ofValue = .ok operands)
    (length : Operand.commonLength none operands = .ok common) :
    Builtin.componentwise f values = Builtin.assemble f operands common := by
  rw [Builtin.componentwise_eq, converted]
  change Builtin.ofCall (Operand.commonLength none operands) >>= Builtin.assemble f operands = _
  rw [length]
  rfl

section Componentwise

variable {f : List Float → Option Float} {g : List Float → Float} (numeric : type.isNumeric)
  (fits : ∀ v ∈ args, v.Fits type) (total : ∀ xs, xs.length = args.length → f xs = some (g xs))

include numeric fits total

/-- A function of the components at one place. -/
theorem componentAt_fits {i n : Nat} (count : type.isVector → type.count? = some n)
    (inside : i < n) : Builtin.componentAt f (args.map (·.operand)) i =
      .ok (.num (g (args.map (·.component i)))) := by
  have found : (args.map (·.operand)).mapM (Operand.component? i) =
      some (args.map (·.component i)) := by
    rw [List.mapM_map]
    refine mapM_eq_pure fun v mem => ?_
    rcases fits v mem with is | is
    · exact is.component? numeric count inside
    · exact is.component? rfl (fun isVector => by cases isVector) inside
  rw [Builtin.componentAt, found, Option.bind_some, total _ (List.length_map ..)]
  rfl

/-- A function of the components, applied to numbers and vectors of one type. -/
theorem yields_componentwise (widest : type = .float ∨ ∃ v ∈ args, v.Is type) :
    Yields (Builtin.componentwise f (args.map (·.den.outline)))
      (.ofComponents type fun i => g (args.map (·.component i))) := by
  have converted : (args.map (·.den.outline)).mapM Operand.ofValue =
      .ok (args.map (·.operand)) := by
    rw [List.mapM_map]
    exact mapM_eq_pure fun v mem => (fits v mem).ofValue numeric
  by_cases isVector : type.isVector
  · obtain ⟨v, mem, is⟩ := widest.resolve_left fun float => by cases float; cases isVector
    obtain ⟨xs, rfl, count⟩ := is.exists_vector isVector
    have length := commonLength_vectors count numeric fits (.inr ⟨rfl, _, mem, fun float => by
      cases float with | vector impossible => cases impossible⟩)
    rw [componentwise_assembled converted length, ShaderValue.ofComponents_vector isVector count]
    change Yields (Value.ofItems <$> (List.range xs.length).mapM _) _
    rw [mapM_eq_pure fun i mem =>
      componentAt_fits numeric fits total (fun _ => count) (List.mem_range.mp mem)]
    have whole := Yields.numbers (ε := Builtin.Failure)
      ((List.range xs.length).map fun i => g (args.map (·.component i)))
    rwa [List.map_map] at whole
  · obtain rfl : type = .float := eq_float_of_not_vector numeric isVector
    have length := commonLength_floats (fun v mem => (fits v mem).elim id id) none
    rw [componentwise_assembled converted length]
    change Yields (Builtin.componentAt f _ 0) _
    rw [componentAt_fits numeric fits total (n := 1) (fun impossible => by cases impossible)
      Nat.one_pos]
    exact .number _

end Componentwise

variable (a : Arithmetic)

theorem functionValue_componentwise {name : String} (flat : name ≠ "length" ∧ name ≠ "dot") :
    functionValue a type name args =
      .ofComponents type fun i => a.scalarFunction name (args.map (·.component i)) := by
  unfold functionValue
  split
  · exact (flat.1 rfl).elim
  · exact (flat.2 rfl).elim
  · rfl

theorem ShaderValue.Is.components {v : ShaderValue} (is : v.Is type) (numeric : type.isNumeric) :
    Builtin.components v.den.outline = .ok v.components := by
  rw [Builtin.components, is.ofValue numeric]
  rcases is.float_or_vector numeric with ⟨x, rfl, -⟩ | ⟨xs, rfl, -⟩
  · rfl
  · rfl

theorem ShaderValue.Is.length_components {v w : ShaderValue} (first : v.Is type)
    (second : w.Is type) (numeric : type.isNumeric) :
    v.components.length = w.components.length := by
  rcases first.float_or_vector numeric with ⟨x, rfl, rfl⟩ | ⟨xs, rfl, isVector, size⟩
  · obtain ⟨y, rfl⟩ := second.exists_float
    rfl
  · obtain ⟨ys, rfl, size'⟩ := second.exists_vector isVector
    exact Option.some.inj (size.symm.trans size')

section Signatures

variable {name : String} (flat : name ≠ "length" ∧ name ≠ "dot") (numeric : type.isNumeric)
  (fits : ∀ v ∈ args, v.Fits type) (widest : type = .float ∨ ∃ v ∈ args, v.Is type)

include flat numeric fits widest

/-- A function that is applied component by component. -/
theorem yields_flat {f : List Float → Option Float}
    (total : ∀ xs, xs.length = args.length → f xs = some (a.scalarFunction name xs)) :
    Yields (Builtin.componentwise f (args.map (·.den.outline)))
      (functionValue a type name args) := by
  rw [functionValue_componentwise a flat]
  exact yields_componentwise numeric fits total widest

theorem yields_map1 {f : Float → Float} (count : args.length = 1)
    (same : ∀ x, a.scalarFunction name [x] = f x) :
    Yields (Builtin.map1 f (args.map (·.den.outline))) (functionValue a type name args) := by
  refine yields_flat a flat numeric fits widest fun xs length => ?_
  obtain ⟨x, rfl⟩ := List.length_eq_one_iff.mp (length.trans count)
  rw [same]

theorem yields_map2 {f : Float → Float → Float} (count : args.length = 2)
    (same : ∀ x y, a.scalarFunction name [x, y] = f x y) :
    Yields (Builtin.map2 f (args.map (·.den.outline))) (functionValue a type name args) := by
  refine yields_flat a flat numeric fits widest fun xs length => ?_
  obtain ⟨x, y, rfl⟩ := List.length_eq_two.mp (length.trans count)
  rw [same]

theorem yields_map3 {f : Float → Float → Float → Float} (count : args.length = 3)
    (same : ∀ x y z, a.scalarFunction name [x, y, z] = f x y z) :
    Yields (Builtin.map3 f (args.map (·.den.outline))) (functionValue a type name args) := by
  refine yields_flat a flat numeric fits widest fun xs length => ?_
  obtain ⟨x, y, z, rfl⟩ := List.length_eq_three.mp (length.trans count)
  rw [same]

end Signatures

theorem yields_length {v : ShaderValue} (fits : v.Fits type) (numeric : type.isNumeric) :
    Yields (Builtin.length.apply a [v.den.outline]) (.float (a.length v.components)) := by
  have found : Builtin.components v.den.outline = .ok v.components :=
    fits.elim (·.components numeric) (·.components rfl)
  change Yields (do
    let xs ← Builtin.components v.den.outline
    pure (.num (a.length xs))) _
  rw [found]
  exact .number _

theorem yields_dot {v w : ShaderValue} (first : v.Is type) (second : w.Is type)
    (numeric : type.isNumeric) :
    Yields (Builtin.dot.apply a [v.den.outline, w.den.outline])
      (.float (a.dot v.components w.components)) := by
  change Yields (do
    let xs ← Builtin.components v.den.outline
    let ys ← Builtin.components w.den.outline
    if xs.length ≠ ys.length then
      throw (.mistake (wrongType "vectors of equal length" w.den.outline))
    pure (.num (a.dot xs ys))) _
  rw [first.components numeric, second.components numeric]
  change Yields (if v.components.length ≠ w.components.length then _ else _) _
  rw [if_neg (not_not.mpr (first.length_components second numeric))]
  exact .number _

/-- A builtin function is what its shader function is, component by component or on all components
at once. -/
theorem yields_builtin (function : Builtin) {name : String} {signature : Signature}
    (known : function.shader? = some (name, signature)) (count : args.length = function.arity)
    (numeric : type.isNumeric) (fits : ∀ v ∈ args, v.Fits type)
    (widest : type = .float ∨ ∃ v ∈ args, v.Is type)
    (pair : signature = .reducePair → ∀ v ∈ args, v.Is type) :
    Yields (function.apply a (args.map (·.den.outline))) (functionValue a type name args) := by
  cases function with
  | sqrt | abs | sin | cos | tan | exp | log | floor | ceil =>
    cases known
    exact yields_map1 a (by decide) numeric fits widest count fun _ => rfl
  | atan2 | min | max | mod =>
    cases known
    exact yields_map2 a (by decide) numeric fits widest count fun _ _ => rfl
  | mix | clamp =>
    cases known
    exact yields_map3 a (by decide) numeric fits widest count fun _ _ _ => rfl
  | length =>
    cases known
    obtain ⟨v, rfl⟩ := List.length_eq_one_iff.mp count
    exact yields_length a (fits v List.mem_cons_self) numeric
  | dot =>
    cases known
    obtain ⟨v, w, rfl⟩ := List.length_eq_two.mp count
    exact yields_dot a (pair rfl v (by simp)) (pair rfl w (by simp)) numeric
  | sum | error => cases known

theorem functionValue_is (function : Builtin) {name : String} {signature : Signature}
    (known : function.shader? = some (name, signature)) (count : args.length = function.arity)
    (numeric : type.isNumeric) :
    (functionValue a type name args).Is
      (match signature with
        | .reduce | .reducePair => .float
        | .map | .zip => type) := by
  cases function with
  | sqrt | abs | sin | cos | tan | exp | log | floor | ceil | atan2 | min | max | mod | mix
    | clamp =>
    cases known
    rw [functionValue_componentwise a (by decide)]
    exact ShaderValue.ofComponents_is numeric _
  | length =>
    cases known
    obtain ⟨v, rfl⟩ := List.length_eq_one_iff.mp count
    exact .float _
  | dot =>
    cases known
    obtain ⟨v, w, rfl⟩ := List.length_eq_two.mp count
    exact .float _
  | sum | error => cases known

end Functions

end Shader

end ShapeLang
