import ShapeLang.Proofs.Shader.Statements

/-! # Emitted statements are well-typed

Each basic operation emits a right side of the type that it announces, and gives a literal or the name
that it has defined.
-/

namespace ShapeLang

namespace Shader

section Operations

variable {arguments : List Variable} {state : CompilerState} {location : Location}

theorem quiet_number (x : Float) :
    Quiet (fun term => Literal term.atom term.type) (Compile.number location x) state := by
  unfold Compile.number Term.ofNumber?
  by_cases finite : x.isFinite
  · simp only [finite, ↓reduceIte]
    exact ⟨rfl, .number finite⟩
  · simp only [finite]
    exact rfl

theorem quiet_numbers (xs : List Float) :
    Quiet (fun _ => ∀ x ∈ xs, x.isFinite) (xs.forM fun x => discard (Compile.number location x))
      state := by
  induction xs generalizing state with
  | nil => exact ⟨rfl, by simp⟩
  | cons x xs ih =>
    have first : Quiet (fun _ => x.isFinite) (discard (Compile.number location x)) state := by
      by_cases finite : x.isFinite
      · simp only [Compile.number, Term.ofNumber?, finite, ↓reduceIte]
        exact ⟨rfl, trivial⟩
      · simp only [Compile.number, Term.ofNumber?, finite]
        exact rfl
    refine Ends.bind first ?_
    rintro _ later ⟨same, finite⟩
    apply Ends.mono ih
    · rintro _ last ⟨same', others⟩
      exact ⟨same'.trans same, List.forall_mem_cons.mpr ⟨finite, others⟩⟩
    · exact fun _ _ same' => same'.trans same

theorem stands_literal {scope : List Variable} {term : Term}
    (literal : Literal term.atom term.type) : Stands scope term :=
  .inr ⟨term.atom, literal, rfl⟩

/-- A known value is written as a literal. -/
theorem writes_constant (value : Value) :
    Writes arguments Stands (Compile.constant location value) state := by
  unfold Compile.constant
  split
  · exact (quiet_number _).writes fun _ => stands_literal
  · exact .pure (stands_literal (.boolean _))
  · split
    · exact .unsupported
    · rename_i xs _
      split
      · exact .unsupported
      · rename_i type count
        have checked : Writes arguments (fun _ _ => ∀ x ∈ xs, x.isFinite)
            (xs.forM fun x => discard (Compile.number location x)) state :=
          (quiet_numbers xs).writes fun _ finite => finite
        apply checked.bind
        intro _ later _ finite
        exact .pure (stands_literal (.vector count finite))
  · exact .unsupported

section Types

variable {scope : List Variable} {type start : ShaderType} {args : List Term} {a b : Term}

theorem eq_float_of_not_vector (numeric : type.isNumeric) (scalar : ¬ type.isVector) :
    type = .float := by
  cases type <;> simp_all [ShaderType.isVector, ShaderType.isNumeric]

/-- What a common type is: a type of numbers, to which the first type and each argument can be
widened, and which is one of them. -/
theorem commonType_ok (found : Compile.commonType start args = .ok type)
    (numeric : start.isNumeric) :
    type.isNumeric ∧ (start = type ∨ start = .float) ∧
      (∀ arg ∈ args, arg.type = type ∨ arg.type = .float) ∧
      (start = type ∨ ∃ arg ∈ args, arg.type = type) := by
  induction args generalizing start with
  | nil =>
    cases found
    exact ⟨numeric, .inl rfl, by simp, .inl rfl⟩
  | cons arg args ih =>
    unfold Compile.commonType at found
    split at found
    · cases found
    · rename_i argNumeric
      replace argNumeric : arg.type.isNumeric := by simpa using argNumeric
      split at found
      · rename_i vector
        split at found
        · cases found
        · rename_i fits
          obtain ⟨known, same, all, -⟩ := ih found argNumeric
          replace same : arg.type = type := by
            rcases same with same | float
            · exact same
            · rw [float] at vector
              cases vector
          refine ⟨known, ?_, List.forall_mem_cons.mpr ⟨.inl same, all⟩,
            .inr ⟨arg, List.mem_cons_self, same⟩⟩
          by_cases isVector : start.isVector
          · left
            rw [← same]
            simpa [isVector] using fits
          · exact .inr (eq_float_of_not_vector numeric isVector)
      · rename_i scalar
        obtain ⟨known, same, all, origin⟩ := ih found numeric
        refine ⟨known, same, List.forall_mem_cons.mpr ⟨.inr ?_, all⟩, ?_⟩
        · exact eq_float_of_not_vector argNumeric scalar
        · exact origin.imp_right fun ⟨other, mem, is⟩ => ⟨other, List.mem_cons_of_mem _ mem, is⟩

/-- A term where a type is needed to which it can be widened. -/
theorem typed_widened {term : Term} (stands : Stands scope term) (numeric : type.isNumeric)
    (fits : term.type = type ∨ term.type = .float) :
    Typed scope .conditional (term.widened type) (.value type) := by
  unfold Term.widened
  by_cases same : term.type = type
  · rw [if_pos same, ← same]
    exact stands.operand (by decide)
  · rw [if_neg same]
    have float : term.type = .float := fits.resolve_left same
    have vector : type.isVector := by
      by_contra scalar
      exact same (float.trans (eq_float_of_not_vector numeric scalar).symm)
    have part := stands.operand (show Binding.conditional ≠ .primary by decide)
    rw [float] at part
    exact (Typed.spread vector part).of_access (by decide)

theorem intercalate_concat {separator last : String} {parts : List String} (nonempty : parts ≠ []) :
    separator.intercalate (parts ++ [last]) = separator.intercalate parts ++ separator ++ last := by
  induction parts with
  | nil => exact absurd rfl nonempty
  | cons part parts ih =>
    cases parts with
    | nil => simp [String.intercalate_cons_cons]
    | cons second parts =>
      rw [List.cons_append, List.cons_append, String.intercalate_cons_cons, ← List.cons_append,
        ih (by simp), String.intercalate_cons_cons]
      simp only [String.append_assoc]

theorem typed_product {factor : Term} (stands : Stands scope factor)
    (numeric : factor.type.isNumeric) (copies : Nat) :
    Typed scope .product (Operation.productText factor (copies + 1)) (.value factor.type) := by
  induction copies with
  | zero =>
    rw [Operation.productText]
    simpa using stands.operand (show Binding.product ≠ .primary by decide)
  | succ copies ih =>
    have text : Operation.productText factor (copies + 1 + 1) =
        Operation.productText factor (copies + 1) ++ " " ++ BinaryOp.multiply.symbol ++ " " ++
          factor.text := by
      have nonempty : List.replicate (copies + 1) factor.text ≠ [] := by simp
      rw [Operation.productText, List.replicate_succ', intercalate_concat nonempty]
      simp [Operation.productText, String.append_assoc, BinaryOp.symbol]
    rw [text]
    apply Typed.binary rfl (.arithmetic (by simp) numeric (.inl rfl) (.inl rfl) (.inl rfl)) ih
    exact stands.operand (by decide)

/-- The operands of an arithmetic operator. -/
theorem arithmetic_typed {op : BinaryOp}
    (known : op ∈ [BinaryOp.add, .subtract, .multiply, .divide])
    (found : Compile.commonType .float [a, b] = .ok type) :
    OperatorTyped op a.type b.type type := by
  obtain ⟨numeric, -, all, origin⟩ := commonType_ok found rfl
  rw [List.forall_mem_cons, List.forall_mem_singleton] at all
  apply OperatorTyped.arithmetic known numeric all.1 all.2
  rcases origin with float | ⟨arg, mem, is⟩
  · subst float
    exact all.1.imp_right fun is => all.2.elim (fun same => same) (fun same => same)
  · rcases List.mem_pair.mp mem with rfl | rfl
    · exact .inl is
    · exact .inr is

theorem typed_binary {op : BinaryOp} {left right : Binding} (first : Stands scope a)
    (second : Stands scope b) (binds : operatorBinding? op = some (left, right))
    (types : OperatorTyped op a.type b.type type) :
    Typed scope .conditional (Operation.binary op a b).text (.value type) := by
  have loose : left ≠ .primary ∧ right ≠ .primary ∧ left.rank ≤ Binding.conditional.rank := by
    cases op <;> cases binds <;> decide
  exact .loosen loose.2.2
    (.binary binds types (first.operand loose.1) (second.operand loose.2.1))

end Types

theorem writes_unary {op : UnaryOp} {x : Term}
    (stands : Stands (arguments ++ state.compiler.declared) x) :
    Writes arguments Stands (Compile.unary location op x) state := by
  unfold Compile.unary
  split
  · exact (quiet_number _).writes fun _ => stands_literal
  · split
    · rename_i numeric
      apply Writes.define
      exact .loosen (by decide) (.negate numeric stands.typed)
    · exact .unsupported
  · split
    · rename_i bool
      apply Writes.define
      have typed := stands.typed
      rw [bool] at typed
      exact .loosen (by decide) (.not typed)
    · exact .unsupported

theorem isFinite_one : (1.0 : Float).isFinite := rfl

/-- The number one, where a type of numbers is needed. -/
theorem typed_one {scope : List Variable} {type : ShaderType} (numeric : type.isNumeric) :
    Typed scope .product (Term.widened type ⟨.number 1.0, .float⟩) (.value type) := by
  have one : Typed scope .primary (Term.text ⟨.number 1.0, .float⟩) (.value .float) :=
    typed_number isFinite_one
  unfold Term.widened
  by_cases float : ShaderType.float = type
  · rw [if_pos float, ← float]
    exact one.of_primary
  · rw [if_neg float]
    have vector : type.isVector := by
      by_contra scalar
      exact float (eq_float_of_not_vector numeric scalar).symm
    exact (Typed.spread vector one.of_primary).of_access (by decide)

theorem writes_integerPower {base : Term} {n : Int}
    (stands : Stands (arguments ++ state.compiler.declared) base) (numeric : base.type.isNumeric) :
    Writes arguments Stands (Compile.integerPower base base.type n) state := by
  unfold Compile.integerPower
  split
  · apply Writes.pure
    apply stands_literal
    dsimp only
    by_cases float : base.type = .float
    · rw [if_pos float, float]
      exact .number isFinite_one
    · rw [if_neg float]
      apply Literal.splat _ isFinite_one
      by_contra scalar
      exact float (eq_float_of_not_vector numeric scalar)
  · exact .pure stands
  · rename_i n zero _
    obtain ⟨copies, rfl⟩ := Nat.exists_eq_succ_of_ne_zero zero
    apply Writes.define
    exact .loosen (by decide) (typed_product stands numeric copies)
  · rename_i n
    apply Writes.define
    have divisor : Typed (arguments ++ state.compiler.declared) .unary
        ("(" ++ Operation.productText base (n + 1) ++ ")") (.value base.type) :=
      (Typed.parens (.loosen (by decide) (typed_product stands numeric n))).of_primary
    have divides : OperatorTyped .divide base.type base.type base.type :=
      .arithmetic (by simp) numeric (.inl rfl) (.inl rfl) (.inl rfl)
    have quotient := Typed.binary rfl divides (typed_one numeric) divisor
    have text : (Operation.reciprocal base.type base (n + 1)).text =
        Term.widened base.type ⟨.number 1.0, .float⟩ ++ " " ++ BinaryOp.divide.symbol ++ " " ++
          ("(" ++ Operation.productText base (n + 1) ++ ")") := by
      have opened : " / (" = " " ++ BinaryOp.divide.symbol ++ " " ++ "(" := by decide
      simp only [Operation.text, opened, String.append_assoc]
    rw [text]
    exact .loosen (show Binding.product.rank ≤ Binding.conditional.rank by decide) quotient

/-- A number that is a literal. -/
theorem type_of_literal {term : Term} {x : Float} (literal : term.literal? = some x) :
    term.type = .float := by
  by_contra other
  simp [Term.literal?, other] at literal

/-- The call of a function with arguments that are widened to their common type. -/
theorem typed_apply {scope : List Variable} {function : String} {type : ShaderType}
    {args : List Term} (known : (function, args.length) ∈ componentwiseFunctions)
    (numeric : type.isNumeric) (stands : ∀ arg ∈ args, Stands scope arg)
    (fits : ∀ arg ∈ args, arg.type = type ∨ arg.type = .float) :
    Typed scope .conditional (Operation.apply function type args).text (.value type) := by
  apply Typed.of_access _ (by decide)
  apply Typed.call (by simpa using known) numeric
  intro text mem
  obtain ⟨arg, origin, rfl⟩ := List.mem_map.mp mem
  exact typed_widened (stands arg origin) numeric (fits arg origin)

theorem typed_reduce {scope : List Variable} {function : String} {type : ShaderType}
    {args : List Term} (known : (function, args.length) ∈ reducingFunctions)
    (numeric : type.isNumeric) (stands : ∀ arg ∈ args, Stands scope arg)
    (fits : ∀ arg ∈ args, arg.type = type ∨ arg.type = .float) :
    Typed scope .conditional (Operation.apply function type args).text (.value .float) := by
  apply Typed.of_access _ (by decide)
  apply Typed.reduce (by simpa using known) numeric
  intro text mem
  obtain ⟨arg, origin, rfl⟩ := List.mem_map.mp mem
  exact typed_widened (stands arg origin) numeric (fits arg origin)

theorem writes_power {type : ShaderType} {base exponent : Term}
    (first : Stands (arguments ++ state.compiler.declared) base)
    (second : Stands (arguments ++ state.compiler.declared) exponent)
    (found : Compile.commonType .float [base, exponent] = .ok type) :
    Writes arguments Stands (Compile.power location type base exponent) state := by
  obtain ⟨numeric, -, fits, origin⟩ := commonType_ok found rfl
  have call : Typed (arguments ++ state.compiler.declared) .conditional
      (Operation.apply "pow" type [base, exponent]).text (.value type) :=
    typed_apply (by simp [componentwiseFunctions]) numeric (by simp [first, second]) fits
  unfold Compile.power
  split
  · exact .unsupported
  · rename_i x literal
    split
    · split
      · -- The exponent is a number, so that the common type is the type of the base.
        have same : type = base.type := by
          rcases origin with float | ⟨arg, mem, is⟩
          · subst float
            exact ((fits base List.mem_cons_self).elim id id).symm
          · rcases List.mem_pair.mp mem with rfl | rfl
            · exact is.symm
            · rw [type_of_literal literal] at is
              subst is
              exact ((fits base List.mem_cons_self).elim id id).symm
        subst same
        exact writes_integerPower first numeric
      · exact .define call
    · exact .define call

theorem writes_binary {op : BinaryOp} {a b : Term}
    (first : Stands (arguments ++ state.compiler.declared) a)
    (second : Stands (arguments ++ state.compiler.declared) b) :
    Writes arguments Stands (Compile.binary location op a b) state := by
  unfold Compile.binary
  cases op with
  | add | subtract | multiply | divide =>
    dsimp only
    split
    · exact .define (typed_binary first second rfl (arithmetic_typed (by simp) ‹_›))
    · exact .unsupported
  | power =>
    dsimp only
    split
    · exact writes_power first second ‹_›
    · exact .unsupported
  | less | lessEqual | greater | greaterEqual =>
    apply Writes.guarded
    rintro ⟨left, right⟩
    apply Writes.define (typed_binary first second rfl _)
    rw [left, right]
    exact .order (by simp)
  | equal | notEqual =>
    apply Writes.guarded
    intro same
    apply Writes.define (typed_binary first second rfl _)
    rw [same]
    exact .equality (by simp)
  | and | or =>
    apply Writes.guarded
    rintro ⟨left, right⟩
    apply Writes.define (typed_binary first second rfl _)
    rw [left, right]
    exact .logic (by simp)

/-- A vector of numbers. -/
theorem writes_vector {items : List Term}
    (stands : ∀ item ∈ items, Stands (arguments ++ state.compiler.declared) item) :
    Writes arguments Stands (Compile.vector location items) state := by
  unfold Compile.vector
  split
  · exact .unsupported
  · rename_i numbers
    split
    · rename_i type count
      obtain ⟨vector, count⟩ := vectorWithCount?_eq_some count
      apply Writes.define
      apply Typed.of_access _ (by decide)
      apply Typed.construct vector (by simpa using count)
      intro part mem
      obtain ⟨item, origin, rfl⟩ := List.mem_map.mp mem
      have float : item.type = .float := by simpa using List.find?_eq_none.mp numbers item origin
      rw [← float]
      exact (stands item origin).operand (by decide)
    · exact .unsupported

/-- One component of a vector, by its place. -/
theorem typed_component {scope : List Variable} {v : Term} {size i : Nat} (stands : Stands scope v)
    (vector : v.type.isVector) (count : v.type.count? = some size) (inside : i < size) :
    Typed scope .conditional (Operation.component v i).text (.value .float) := by
  have typed := Typed.swizzle vector count (List.forall_mem_singleton.mpr inside) rfl stands.typed
  apply Typed.of_access _ (by decide)
  simpa [Operation.text, String.join] using typed

theorem writes_field {name : String} {v : Term}
    (stands : Stands (arguments ++ state.compiler.declared) v) :
    Writes arguments Stands (Compile.field location name v) state := by
  unfold Compile.field
  dsimp only
  split
  · rename_i i found
    simp only [Option.bind_eq_bind, Option.bind_eq_some_iff] at found
    obtain ⟨place, is, size, count, found⟩ := found
    split at found
    · rename_i inside
      cases found
      simp only [Bool.and_eq_true, decide_eq_true_eq] at inside
      exact .define (typed_component stands inside.1 count inside.2)
    · cases found
  · exact .unsupported

/-- What the shader function of a builtin is in GLSL. -/
theorem shader?_known {function : Builtin} {name : String} {signature : Signature}
    (shader : function.shader? = some (name, signature)) :
    if signature = .reduce ∨ signature = .reducePair
      then (name, function.arity) ∈ reducingFunctions
      else (name, function.arity) ∈ componentwiseFunctions := by
  cases function <;> cases shader <;> decide

theorem writes_builtin {function : Builtin} {args : List Term}
    (stands : ∀ arg ∈ args, Stands (arguments ++ state.compiler.declared) arg) :
    Writes arguments Stands (Compile.builtin location function args) state := by
  unfold Compile.builtin
  split
  · exact .unsupported
  · rename_i name signature shader
    have known := shader?_known shader
    apply Writes.unless (fun _ => .raise)
    intro count
    replace count : args.length = function.arity := by simpa using count
    rw [← count] at known
    split
    · exact .unsupported
    · rename_i type found
      obtain ⟨numeric, -, fits, -⟩ := commonType_ok found rfl
      split
      · exact .define (typed_reduce known numeric stands fits)
      · split
        · exact .unsupported
        · exact .define (typed_reduce known numeric stands fits)
      · exact .throw
      · exact .define (typed_apply known numeric stands fits)
      · exact .define (typed_apply known numeric stands fits)

/-- A choice between two terms of one type. -/
theorem typed_select {scope : List Variable} {c a b : Term} (condition : Stands scope c)
    (first : Stands scope a) (second : Stands scope b) (bool : c.type = .bool)
    (same : a.type = b.type) :
    Typed scope .conditional (Operation.select c a b).text (.value a.type) := by
  have chosen : Typed scope .disjunction c.text (.value c.type) := condition.operand (by decide)
  rw [bool] at chosen
  apply Typed.select chosen (first.operand (by decide))
  rw [same]
  exact second.operand (by decide)

/-- The component at a computed index. -/
theorem typed_element {scope : List Variable} {v i : Term} (vector : v.type.isVector)
    (first : Stands scope v) (second : Stands scope i) (float : i.type = .float) :
    Typed scope .conditional (Operation.element v i).text (.value .float) := by
  have index : Typed scope .conditional i.text (.value i.type) := second.operand (by decide)
  rw [float] at index
  have place := (Typed.truncate index).of_access (show Binding.conditional ≠ .primary by decide)
  have text : (Operation.element v i).text = v.text ++ "[" ++ callText "int" [i.text] ++ "]" := by
    have opened : "[int(" = "[" ++ "int(" := by decide
    have closed : ")]" = ")" ++ "]" := by decide
    have call : callText "int" [i.text] = "int(" ++ (i.text ++ ")") := by
      simp [callText, String.append_assoc]
    simp only [Operation.text, opened, closed, call, String.append_assoc]
  rw [text]
  exact (Typed.element vector first.typed place).of_access (by decide)

/-- The point that a vector of four components holds. -/
theorem typed_firstThree {scope : List Variable} {v : Term} (stands : Stands scope v)
    (type : v.type = .vec4) :
    Typed scope .conditional (Operation.firstThree v).text (.value .vec3) := by
  have typed := stands.typed
  rw [type] at typed
  have inside : ∀ i ∈ [0, 1, 2], i < 4 := by decide
  have chosen := Typed.swizzle rfl rfl inside rfl typed
  have components : ".xyz" = "." ++ String.join ([0, 1, 2].map componentName) := by decide
  rw [Operation.text, components, ← String.append_assoc]
  exact chosen.of_access (show Binding.conditional ≠ .primary by decide)

end Operations

end Shader

end ShapeLang
