import ShapeLang.Proofs.Rendering.Delivery
import ShapeLang.Proofs.Shader.SingleAssignment

/-! # Operators render what they denote

Each operator of shader code gives what the operator of evaluation gives, if its operands do.
-/

namespace ShapeLang

open Denotation

namespace Shader

namespace Rendering

variable {setup : Setup} {world wider : World} {state : CompilerState} {β : Type}
  {location : Location}

section Tests

/-- A literal is a number. -/
theorem type_of_literal {term : Term} {x : Float} (literal : term.literal? = some x) :
    term.type = .float := by
  unfold Term.literal? at literal
  split at literal
  · assumption
  · cases literal

variable {v : ShaderValue}

theorem toNumber_float (is : v.Is .float) : Eval.toNumber v.den.outline = .ok (v.component 0) := by
  obtain ⟨x, rfl⟩ := is.exists_float
  rfl

theorem toBool_bool (is : v.Is .bool) : Eval.toBool v.den.outline = .ok v.holds := by
  obtain ⟨b, rfl⟩ := is.exists_bool
  rfl

end Tests

section Outcomes

/-- The outcome of an operator with one operand, by the outcome of the operand. -/
def unaryOutcome (op : UnaryOp) (operand : Outcome Den) : Outcome Den := do
  let value ← operand
  .ofPlain <$> expect (
    match op with
    | .negate => value.outline.mapNumbers Float.neg
    | .not => (fun b => .bool !b) <$> Eval.toBool value.outline)

/-- The outcome of an operator with two operands, by the outcomes of the operands. -/
def binaryOutcome (m : Machine) (op : BinaryOp) (left right : Outcome Den) : Outcome Den :=
  match op with
  | .and => do
    let a ← left
    if ← expect (Eval.toBool a.outline) then
      let b ← right
      .bool <$> expect (Eval.toBool b.outline)
    else pure (.bool false)
  | .or => do
    let a ← left
    if ← expect (Eval.toBool a.outline) then pure (.bool true)
    else
      let b ← right
      .bool <$> expect (Eval.toBool b.outline)
  | op => do
    let a ← left
    let b ← right
    combine m op a b

/-- The outcome of a conditional, by the outcomes of the condition and of the branches. -/
def choiceOutcome (condition whenTrue whenFalse : Outcome Den) : Outcome Den := do
  let value ← condition
  if ← expect (Eval.toBool value.outline) then whenTrue else whenFalse

/-- What is selected from a value by name. -/
def fieldOutcome (den : Denoter) (name : String) (value : Den) : Outcome Den := do
  match ← field? den value name with
  | some found => pure found
  | none => component value name

/-- The item of a list at an index. -/
def itemOutcome (items : List Den) (x : Float) : Outcome Den :=
  match (Eval.position? x items.length).bind (items[·]?) with
  | some item => pure item
  | none => throw (.indexOutOfRange (Value.numberText x) items.length)

/-- The outcome of indexing, by the outcomes of the list and of the index. -/
def indexOutcome (base index : Outcome Den) : Outcome Den := do
  let value ← base
  let items ← expect (toList value)
  let place ← index
  let x ← expect (Eval.toNumber place.outline)
  itemOutcome items x

end Outcomes

section Operators

variable {family family' : Nat → Outcome Den} {x a b : Term} {type : ShaderType} {op : BinaryOp}

/-- A test decides between two outcomes. -/
theorem Setup.Gives.decide {v : ShaderValue} {whenTrue whenFalse : Nat → Outcome β} {result : β}
    (first : setup.Gives world family v.den) (is : v.Is .bool)
    (chosen : setup.Gives world (fun n => if v.holds then whenTrue n else whenFalse n) result) :
    setup.Gives world (fun n => do
      let a ← family n
      if ← Denotation.expect (Eval.toBool a.outline) then whenTrue n else whenFalse n) result :=
  first.bind ((Setup.Gives.expect (toBool_bool is)).bind chosen)

/-- The outcome of an operator that evaluates both operands. -/
theorem Setup.Gives.combined {v w u : ShaderValue} (strict : op ≠ .and ∧ op ≠ .or)
    (first : setup.Gives world family v.den) (second : setup.Gives world family' w.den)
    (combined : setup.Gives world (fun _ => combine setup.machine op v.den w.den) u.den) :
    setup.Gives world (fun n => binaryOutcome setup.machine op (family n) (family' n)) u.den := by
  have same (n : Nat) : binaryOutcome setup.machine op (family n) (family' n) = (do
      let a ← family n
      let b ← family' n
      combine setup.machine op a b) := by
    cases op with
    | and => exact (strict.1 rfl).elim
    | or => exact (strict.2 rfl).elim
    | _ => rfl
  simp only [same]
  exact first.bind (second.bind combined)

variable (tracks : setup.Tracks world state)

include tracks in
/-- An operator with one operand. -/
theorem delivers_unary (renders : setup.Renders world x family) (op : UnaryOp) :
    setup.Delivers world (Compile.unary location op x) state fun wider term =>
      setup.Renders wider term fun n => unaryOutcome op (family n) := by
  unfold Compile.unary
  split
  · rename_i n literal
    refine (delivers_number tracks (-n)).mono fun wider term later known => known.known ?_
    have gives := renders.gives
    rw [renders.within.value_literal literal] at gives
    exact later.gives (gives.bind (.plain (.number (-n))))
  · refine .guarded fun numeric => ?_
    have yields := yields_mapNumbers renders.is numeric Float.neg
    exact delivers_components tracks numeric _ rfl (renders.gives.bind (.plain yields))
  · refine .guarded fun bool => ?_
    refine delivers_defined tracks rfl (.bool _) (renders.gives.bind (.plain ?_))
    dsimp only
    rw [toBool_bool (bool ▸ renders.is)]
    exact .truth _

variable (first : setup.Renders world a family) (second : setup.Renders world b family')
include first second

omit first second in
/-- Two operands are numbers, or vectors of the common type. -/
theorem commonType_pair (found : Compile.commonType .float [a, b] = .ok type) :
    ((a.type = type ∨ a.type = .float) ∧ (b.type = type ∨ b.type = .float)) ∧
      (a.type = type ∨ b.type = type) := by
  obtain ⟨-, -, fits, origin⟩ := commonType_ok found rfl
  rw [List.forall_mem_cons, List.forall_mem_singleton] at fits
  refine ⟨fits, ?_⟩
  rcases origin with same | ⟨arg, mem, same⟩
  · exact fits.1.imp_right fun float => fits.2.elim id fun float' => float'.trans same
  · rcases List.mem_pair.mp mem with rfl | rfl
    · exact .inl same
    · exact .inr same

/-- The result of an operator on numbers, or on vectors of one type. -/
theorem gives_arithmetic (op : BinaryOp) (f : Float → Float → Float)
    (operated : ∀ v w, Eval.operate setup.machine.arithmetic op v w = v.broadcast f w)
    (uncompared : Eval.compare? op = none) (strict : op ≠ .and ∧ op ≠ .or)
    (found : Compile.commonType .float [a, b] = .ok type) :
    type.isNumeric ∧
      setup.Gives world (fun n => binaryOutcome setup.machine op (family n) (family' n))
        (ShaderValue.ofComponents type fun i => f ((a.value (setup.naming world)).component i)
          ((b.value (setup.naming world)).component i)).den := by
  obtain ⟨numeric, -⟩ := commonType_ok found rfl
  obtain ⟨fits, widest⟩ := commonType_pair found
  refine ⟨numeric, .combined strict first.gives second.gives ?_⟩
  simp only [combine, uncompared, operated]
  exact .plain (yields_broadcast first.is second.is numeric fits.1 fits.2 widest f)

include tracks

/-- An arithmetic operator. -/
theorem delivers_arithmetic (f : Float → Float → Float)
    (operated : ∀ v w, Eval.operate setup.machine.arithmetic op v w = v.broadcast f w)
    (uncompared : Eval.compare? op = none) (strict : op ≠ .and ∧ op ≠ .or)
    (found : Compile.commonType .float [a, b] = .ok type)
    (value : ∀ v w, binaryValue setup.machine.arithmetic type op v w =
      .ofComponents type fun i => f (v.component i) (w.component i)) :
    setup.Delivers world (Compile.define type (.binary op a b)) state fun wider term =>
      setup.Renders wider term fun n => binaryOutcome setup.machine op (family n) (family' n) := by
  obtain ⟨numeric, gives⟩ := gives_arithmetic first second op f operated uncompared strict found
  exact delivers_components tracks numeric _ (value ..) gives

/-- A power with a small whole exponent is a product, and any other is a power. -/
theorem delivers_power (found : Compile.commonType .float [a, b] = .ok type) :
    setup.Delivers world (Compile.power location type a b) state fun wider term =>
      setup.Renders wider term fun n =>
        binaryOutcome setup.machine .power (family n) (family' n) := by
  obtain ⟨numeric, gives⟩ := gives_arithmetic first second .power setup.machine.arithmetic.pow
    (fun _ _ => rfl) rfl (by simp) found
  unfold Compile.power
  split
  · exact .unsupported
  · rename_i y literal
    rw [second.within.value_literal literal] at gives
    have call : setup.Delivers world (Compile.define type (.apply "pow" type [a, b])) state
        fun wider term => setup.Renders wider term fun n =>
          binaryOutcome setup.machine .power (family n) (family' n) := by
      refine delivers_components tracks numeric _ ?_ gives
      rw [Operation.value, functionValue_componentwise _ (by decide)]
      simp only [List.map_cons, List.map_nil, second.within.value_literal literal]
      rfl
    split
    · rename_i n whole
      split
      · rename_i small
        have expand (x : Float) : setup.machine.arithmetic.pow x y =
            setup.machine.arithmetic.wholePower x n := setup.multipliesOut x y n whole small
        simp only [ShaderValue.component, expand] at gives
        unfold Compile.integerPower
        split
        · refine .pure tracks ?_
          by_cases float : type = .float
          · subst float
            exact ⟨trivial, .float 1.0, gives⟩
          · rw [if_neg float]
            exact ⟨trivial, ShaderValue.ofComponents_is numeric fun _ => 1.0, gives⟩
        · obtain ⟨⟨fits, -⟩, widest⟩ := commonType_pair found
          have same : a.type = type := by
            refine widest.elim id fun same => ?_
            have scalar := same.symm.trans (type_of_literal literal)
            exact fits.elim id fun float => float.trans scalar.symm
          refine .pure tracks ⟨first.within, first.is, ?_⟩
          rw [first.is.eq_ofComponents (same ▸ numeric), same]
          exact gives
        · exact delivers_components tracks numeric _ rfl gives
        · exact delivers_components tracks numeric _ rfl gives
      · exact call
    · exact call

/-- An operator with two operands. -/
theorem delivers_binary (op : BinaryOp) :
    setup.Delivers world (Compile.binary location op a b) state fun wider term =>
      setup.Renders wider term fun n => binaryOutcome setup.machine op (family n) (family' n) := by
  unfold Compile.binary
  cases op with
  | add | subtract | multiply | divide =>
    dsimp only
    split
    · exact delivers_arithmetic tracks first second _ (fun _ _ => rfl) rfl (by simp) ‹_›
        fun _ _ => rfl
    · exact .unsupported
  | power =>
    dsimp only
    split
    · exact delivers_power tracks first second ‹_›
    · exact .unsupported
  | less | lessEqual | greater | greaterEqual =>
    refine .guarded fun floats => ?_
    refine delivers_defined tracks rfl (.bool _) (.combined (by simp) first.gives second.gives ?_)
    have left := toNumber_float (floats.1 ▸ first.is)
    have right := toNumber_float (floats.2 ▸ second.is)
    exact (Setup.Gives.expect left).bind ((Setup.Gives.expect right).bind (.pure _))
  | equal | notEqual =>
    refine .guarded fun _ => ?_
    refine delivers_defined tracks rfl (.bool _) (.combined (by simp) first.gives second.gives ?_)
    refine Setup.Gives.plain ?_
    rw [Eval.operate, equal_outline]
    exact .truth _
  | and =>
    refine .guarded fun bools => ?_
    have left := bools.1 ▸ first.is
    have right := bools.2 ▸ second.is
    refine delivers_defined tracks rfl (.bool _) (v := .bool ((a.value _).holds && _))
      (first.gives.decide left ?_)
    cases (a.value (setup.naming world)).holds with
    | true => exact second.gives.bind (Setup.Gives.expect (toBool_bool right)).map
    | false => exact Setup.Gives.pure (Den.bool false)
  | or =>
    refine .guarded fun bools => ?_
    have left := bools.1 ▸ first.is
    have right := bools.2 ▸ second.is
    refine delivers_defined tracks rfl (.bool _) (v := .bool ((a.value _).holds || _))
      (first.gives.decide left ?_)
    cases (a.value (setup.naming world)).holds with
    | true => exact Setup.Gives.pure (Den.bool true)
    | false => exact second.gives.bind (Setup.Gives.expect (toBool_bool right)).map

end Operators

section Choices

variable {family family' family'' : Nat → Outcome Den} {c a b : Term}

/-- A choice between two terms of one type. The one that is not chosen may stand for a mistake. -/
theorem delivers_select (tracks : setup.Tracks world state)
    (condition : setup.Renders world c family) (first : setup.Renders world a family')
    (second : setup.Renders world b family'') (bool : c.type = .bool) (same : a.type = b.type) :
    setup.Delivers world (Compile.define a.type (.select c a b)) state fun wider term =>
      setup.Renders wider term fun n => choiceOutcome (family n) (family' n) (family'' n) := by
  refine delivers_defined tracks rfl (v := if (c.value _).holds then a.value _ else b.value _) ?_
    (condition.gives.decide (bool ▸ condition.is) ?_)
  · split
    · exact first.is
    · exact same ▸ second.is
  · cases (c.value (setup.naming world)).holds with
    | true => exact first.gives
    | false => exact second.gives

end Choices

section Vectors

variable {family family' : Nat → Outcome Den} {v : Term} {xs : List Float}

/-- A component that is selected by name. -/
theorem delivers_field (tracks : setup.Tracks world state) (renders : setup.Renders world v family)
    (name : String) (den : Nat → Denoter) :
    setup.Delivers world (Compile.field location name v) state fun wider term =>
      setup.Renders wider term fun n => family n >>= fieldOutcome (den n) name := by
  unfold Compile.field
  dsimp only
  split
  · rename_i i found
    obtain ⟨i, index, found⟩ := Option.bind_eq_some_iff.mp found
    obtain ⟨n, count, found⟩ := Option.bind_eq_some_iff.mp found
    simp only [Bool.and_eq_true, decide_eq_true_eq, Option.ite_none_right_eq_some] at found
    obtain ⟨⟨isVector, low⟩, chosen⟩ := found
    obtain rfl := Option.some.inj chosen
    obtain ⟨xs, value, count'⟩ := renders.is.exists_vector isVector
    obtain rfl : n = xs.length := Option.some.inj (count.symm.trans count')
    refine delivers_defined tracks rfl (.float _) (v := .float ((v.value _).component _)) ?_
    have gives := renders.gives
    rw [value] at gives ⊢
    refine gives.bind ?_
    have selected (n : Nat) : fieldOutcome (den n) name (ShaderValue.vector xs).den =
        pure (ShaderValue.float ((ShaderValue.vector xs).component i)).den := by
      change Denotation.component (ShaderValue.vector xs).den name = _
      unfold Denotation.component
      rw [ShaderValue.outline_vector, ShaderValue.numbers?_vector, Option.bind_some, index,
        Option.bind_some, List.getElem?_eq_getElem low]
      simp [ShaderValue.component, List.getD_eq_getElem?_getD, List.getElem?_eq_getElem low]
    simp only [selected]
    exact .pure _
  · exact .unsupported

theorem itemOutcome_inside {x : Float} {i : Nat}
    (inside : Eval.position? x xs.length = some i) :
    itemOutcome (xs.map .num) x = pure (.num (xs.getD i 0)) := by
  have low := position?_lt inside
  rw [itemOutcome, List.length_map, inside, Option.bind_some, List.getElem?_map,
    List.getElem?_eq_getElem low, List.getD_eq_getElem?_getD, List.getElem?_eq_getElem low]
  rfl

theorem itemOutcome_outside {x : Float} (outside : Eval.position? x xs.length = none) :
    itemOutcome (xs.map .num) x = throw (.indexOutOfRange (Value.numberText x) xs.length) := by
  rw [itemOutcome, List.length_map, outside, Option.bind_none]

/-- The items of a vector, at an index that may be none of it. -/
theorem Setup.Gives.index {x : Float} {u : ShaderValue}
    (first : setup.Gives world family (ShaderValue.vector xs).den)
    (second : setup.Gives world family' (.num x))
    (item : setup.Gives world (fun _ => itemOutcome (xs.map .num) x) u.den) :
    setup.Gives world (fun n => indexOutcome (family n) (family' n)) u.den :=
  first.bind ((Setup.Gives.expect rfl).bind (second.bind ((Setup.Gives.expect rfl).bind item)))

variable {index : Term} {count : Nat} (tracks : setup.Tracks world state)
  (first : setup.Renders world v family) (second : setup.Renders world index family')
  (isVector : v.type.isVector) (size : v.type.count? = some count)

include tracks first second isVector size

/-- A component at a literal index. -/
theorem delivers_component {x : Float} {i : Nat} (literal : index.literal? = some x)
    (inside : Eval.position? x count = some i) :
    setup.Delivers world (Compile.define .float (.component v i)) state fun wider term =>
      setup.Renders wider term fun n => indexOutcome (family n) (family' n) := by
  obtain ⟨xs, value, count'⟩ := first.is.exists_vector isVector
  obtain rfl : count = xs.length := Option.some.inj (size.symm.trans count')
  have gives := first.gives
  have gives' := second.gives
  rw [second.within.value_literal literal] at gives'
  rw [value] at gives
  refine delivers_defined tracks rfl (.float _) (v := .float ((v.value _).component _)) ?_
  rw [value]
  refine gives.index gives' ?_
  rw [itemOutcome_inside inside]
  exact .pure _

/-- An element at an index that is not known. -/
theorem delivers_element (float : index.type = .float) (unknown : index.literal? = none) :
    setup.Delivers world (Compile.define .float (.element v index)) state fun wider term =>
      setup.Renders wider term fun n => indexOutcome (family n) (family' n) := by
  obtain ⟨xs, value, count'⟩ := first.is.exists_vector isVector
  obtain rfl : count = xs.length := Option.some.inj (size.symm.trans count')
  obtain ⟨x, value'⟩ := (float ▸ second.is).exists_float
  have gives := first.gives
  have gives' := second.gives
  rw [value] at gives
  rw [value'] at gives'
  let later : setup.Later world (world.define .float (.element v index)) := later_define
  have element : Operation.value setup.machine.arithmetic (setup.stray world.bound)
      (setup.naming world) .float (.element v index) =
        elementValue (setup.stray world.bound) (.vector xs) x := by
    rw [Operation.value, value, value']
    rfl
  rw [elementValue, ShaderValue.components] at element
  cases place : Eval.position? x xs.length with
  | some i =>
    rw [place] at element
    refine delivers_defined tracks element (.float _) (gives.index gives' ?_)
    rw [itemOutcome_inside place]
    exact .pure _
  | none =>
    rw [place] at element
    refine delivers_define tracks element (.float _)
      ((later.gives gives).index (later.gives gives') ?_)
    rw [itemOutcome_outside place]
    refine .throw (.stray (List.mem_append_right _ List.mem_cons_self) rfl unknown
      (second.within.mono later.bound) ?_ size place)
    rw [later.value second.within, value']

end Vectors

section Lists

variable (setup) in
/-- The values of terms. -/
def Setup.values (world : World) (terms : List Term) : List ShaderValue :=
  terms.map (·.value (setup.naming world))

variable (setup) in
/-- Terms have values, which are what outcomes give after the denotations before them. -/
structure Setup.RendersAll (world : World) (before : List Den) (terms : List Term)
    (family : Nat → Outcome (List Den)) : Prop where
  within : ∀ term ∈ terms, term.Within world.bound
  is : ∀ term ∈ terms, (term.value (setup.naming world)).Is term.type
  gives : setup.Gives world family (before ++ (setup.values world terms).map ShaderValue.den)

variable {before : List Den} {terms : List Term} {family : Nat → Outcome (List Den)}

/-- A vector of terms. -/
theorem delivers_vector (tracks : setup.Tracks world state)
    (all : setup.RendersAll world [] terms family) :
    setup.Delivers world (Compile.vector location terms) state fun wider term =>
      setup.Renders wider term fun n => .list <$> family n := by
  unfold Compile.vector
  split
  · exact .unsupported
  · rename_i none
    split
    · rename_i type count
      obtain ⟨isVector, size⟩ := vectorWithCount?_eq_some count
      refine delivers_defined tracks rfl (.vector isVector (by rw [size, List.length_map])) ?_
      have numbers : (setup.values world terms).map ShaderValue.den =
          terms.map fun term => .num ((term.value (setup.naming world)).component 0) := by
        rw [Setup.values, List.map_map]
        refine List.map_congr_left fun term mem => ?_
        have float : term.type = .float := by simpa using List.find?_eq_none.mp none term mem
        obtain ⟨x, value⟩ := (float ▸ all.is term mem).exists_float
        rw [Function.comp_apply, value]
        rfl
      have gives := all.gives.map (f := Den.list)
      rw [List.nil_append, numbers] at gives
      simpa [Operation.value, ShaderValue.den, Function.comp_def] using gives
    · exact .unsupported

/-- The result of a builtin function, whose arguments are numbers and vectors of one type. -/
theorem Setup.RendersAll.builtin (all : setup.RendersAll world [] terms family)
    {function : Builtin} {name : String} {signature : Signature} {type : ShaderType}
    (known : function.shader? = some (name, signature)) (count : terms.length = function.arity)
    (found : Compile.commonType .float terms = .ok type)
    (pair : signature = .reducePair → ∀ term ∈ terms, term.type = type) (den : Nat → Denoter)
    (depth : Nat) (w : Place) :
    setup.Gives world (fun n => family n >>= fun args =>
      call setup.machine (den n) (.builtin function) args depth w)
      (functionValue setup.machine.arithmetic type name (setup.values world terms)).den := by
  obtain ⟨numeric, -, fits, origin⟩ := commonType_ok found rfl
  have count' : (setup.values world terms).length = function.arity :=
    (List.length_map _).trans count
  have fits' : ∀ v ∈ setup.values world terms, v.Fits type := by
    intro v mem
    obtain ⟨term, known, rfl⟩ := List.mem_map.mp mem
    have is := all.is term known
    rcases fits term known with same | same
    · exact .inl (same ▸ is)
    · exact .inr (same ▸ is)
  have widest : type = .float ∨ ∃ v ∈ setup.values world terms, v.Is type :=
    origin.imp Eq.symm fun ⟨term, known, same⟩ =>
      ⟨_, List.mem_map_of_mem known, same ▸ all.is term known⟩
  have pair' : signature = .reducePair → ∀ v ∈ setup.values world terms, v.Is type := by
    intro two v mem
    obtain ⟨term, known, rfl⟩ := List.mem_map.mp mem
    exact pair two term known ▸ all.is term known
  obtain ⟨value, made, same⟩ := yields_builtin setup.machine.arithmetic function known count'
    numeric fits' widest pair'
  refine all.gives.bind ?_
  have called (n : Nat) : call setup.machine (den n) (.builtin function)
      ([] ++ (setup.values world terms).map ShaderValue.den) depth w = pure (.ofPlain value) := by
    have outlined : ([] ++ (setup.values world terms).map ShaderValue.den).map Den.outline =
        (setup.values world terms).map (·.den.outline) := List.map_map
    unfold call
    dsimp only
    rw [outlined, made]
    simp [count']
  simp only [called, same]
  exact .pure _

/-- A builtin function. -/
theorem delivers_builtin (tracks : setup.Tracks world state)
    (all : setup.RendersAll world [] terms family) (function : Builtin) (den : Nat → Denoter)
    (depth : Nat) (w : Place) :
    setup.Delivers world (Compile.builtin location function terms) state fun wider term =>
      setup.Renders wider term fun n => family n >>= fun args =>
        call setup.machine (den n) (.builtin function) args depth w := by
  unfold Compile.builtin
  split
  · exact .unsupported
  · rename_i name signature known
    refine .checked trivial fun count => ?_
    rw [not_not] at count
    split
    · exact .unsupported
    · rename_i type found
      obtain ⟨numeric, -, fits, origin⟩ := commonType_ok found rfl
      have gives pair := all.builtin known count found pair den depth w
      have count' : (setup.values world terms).length = function.arity :=
        (List.length_map _).trans count
      have is := functionValue_is setup.machine.arithmetic function known count' numeric
      split
      · exact delivers_defined tracks rfl is (gives (by simp))
      · rename_i a b
        split
        · exact .unsupported
        · rename_i same
          rw [not_not] at same
          refine delivers_defined tracks rfl is (gives fun _ => ?_)
          obtain ⟨⟨left, right⟩, widest⟩ := commonType_pair found
          have both : a.type = type := widest.elim id fun is => same.trans is
          simp [both, ← same]
      · exact .throw _
      · exact delivers_defined tracks rfl is (gives (by simp))
      · exact delivers_defined tracks rfl is (gives (by simp))

end Lists

end Rendering

end Shader

end ShapeLang
