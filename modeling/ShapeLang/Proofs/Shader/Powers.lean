import ShapeLang.Proofs.Shader.Direct
import ShapeLang.Proofs.Shader.SingleAssignment

/-! # Powers with whole exponents

The shader function `pow` is undefined for a negative base. A power whose exponent is known to be a
whole number, and not a large one, is multiplied out instead. `pow` is left for the other exponents.
-/

namespace ShapeLang

/-- A computation goes on after a part whose end is known. -/
theorem Ends.resume {ε σ α β : Type} {action : ExceptT ε (StateM σ) α}
    {next : α → ExceptT ε (StateM σ) β} {s after : σ} {a : α} {returns : β → σ → Prop}
    {fails : ε → σ → Prop} (ran : action s = (.ok a, after))
    (ends : Ends (next a) after returns fails) : Ends (action >>= next) s returns fails := by
  unfold Ends
  rw [bind_run, ran]
  exact ends

namespace Shader

section Exponents

/-- A number that is determined while an expression is compiled: it is written as a literal, behind
a sign, in a captured frame, or in a slot that is compiled already or can be compiled now. -/
inductive Determined (evaluate : Evaluator) (held : List Held) :
    CompilerState → Nat → Expr → Float → Prop
  | number {state : CompilerState} {id : Nat} {location : Location} {x : Float} :
    Determined evaluate held state id (.constant location (.num x)) x
  | negative {state : CompilerState} {id : Nat} {location : Location} {operand : Expr} {x : Float}
      (known : Determined evaluate held state id operand x) :
    Determined evaluate held state id (.unary location .negate operand) (-x)
  | captured {state later last : CompilerState} {id depth slot : Nat} {owner : FrameId}
      {location : Location} {x : Float}
      (around : Compile.ancestor id depth state = (.ok (.captured owner), later))
      (holds : Compile.captured evaluate held location owner slot later = (.ok (.num x), last)) :
    Determined evaluate held state id (.slot location depth slot) x
  | ready {state later : CompilerState} {id depth slot owner : Nat} {location : Location}
      {frame : SymbolicFrame} {term : Term} {x : Float}
      (around : Compile.ancestor id depth state = (.ok (.symbolic owner), later))
      (found : later.compiler.frames[owner]? = some frame)
      (holds : frame.slots[slot]? = some (.ready term)) (literal : term.literal? = some x) :
    Determined evaluate held state id (.slot location depth slot) x
  | pending {state later : CompilerState} {id depth slot owner : Nat} {location : Location}
      {frame : SymbolicFrame} {definition : Expr} {x : Float}
      (around : Compile.ancestor id depth state = (.ok (.symbolic owner), later))
      (found : later.compiler.frames[owner]? = some frame)
      (holds : frame.slots[slot]? = some (.pending definition))
      (known : Determined evaluate held
        { later with compiler := later.compiler.put owner slot .busy } owner definition x) :
    Determined evaluate held state id (.slot location depth slot) x

variable {state : CompilerState} {location : Location}

theorem ends_number (x : Float) :
    Ends (Compile.number location x) state (fun term _ => term.literal? = some x)
      fun _ _ => True := by
  unfold Compile.number
  by_cases finite : x.isFinite
  · rw [Term.ofNumber?, if_pos finite]
    exact .pure rfl
  · rw [Term.ofNumber?, if_neg finite]
    exact .unsupported trivial

variable {evaluate : Evaluator} {held : List Held}

/-- A number that is determined is compiled to its literal. -/
theorem Determined.literal? {id : Nat} {expr : Expr} {x : Float}
    (known : Determined evaluate held state id expr x) (fuel : Nat) :
    Ends (Compile.upTo evaluate held fuel id expr) state (fun term _ => term.literal? = some x)
      fun _ _ => True := by
  induction known generalizing fuel with
  | number =>
    cases fuel with
    | zero => exact .throw trivial
    | succ fuel => exact ends_number _
  | negative known ih =>
    cases fuel with
    | zero => exact .throw trivial
    | succ fuel =>
      apply (ih fuel).bind
      intro term later literal
      simp only [Compile.unary, literal]
      exact ends_number _
  | captured around holds =>
    cases fuel with
    | zero => exact .throw trivial
    | succ fuel => exact .resume around (.resume holds (ends_number _))
  | ready around found holds literal =>
    cases fuel with
    | zero => exact .throw trivial
    | succ fuel =>
      apply Ends.resume around
      apply Ends.symbolicForce
      · intro other term found' holds'
        obtain rfl := Option.some.inj (found'.symm.trans found)
        obtain rfl := SymbolicSlot.ready.inj (Option.some.inj (holds'.symm.trans holds))
        exact literal
      · intro other definition found' holds'
        obtain rfl := Option.some.inj (found'.symm.trans found)
        cases holds'.symm.trans holds
      all_goals simp
  | pending around found holds known ih =>
    cases fuel with
    | zero => exact .throw trivial
    | succ fuel =>
      apply Ends.resume around
      apply Ends.symbolicForce
      · intro other term found' holds'
        obtain rfl := Option.some.inj (found'.symm.trans found)
        cases holds'.symm.trans holds
      · intro other definition found' holds'
        obtain rfl := Option.some.inj (found'.symm.trans found)
        obtain rfl := SymbolicSlot.pending.inj (Option.some.inj (holds'.symm.trans holds))
        exact ih fuel
      all_goals simp

end Exponents

section Products

/-- Text that is made of a base and of literals by multiplication and division. -/
inductive MultipliedOut (base : Term) : String → Prop
  | base : MultipliedOut base base.text
  | literal {atom : Atom} {type : ShaderType} (numeric : type.isNumeric)
      (literal : Literal atom type) : MultipliedOut base atom.text
  | product {a b : String} (first : MultipliedOut base a) (second : MultipliedOut base b) :
    MultipliedOut base (a ++ " * " ++ b)
  | quotient {a b : String} (first : MultipliedOut base a) (second : MultipliedOut base b) :
    MultipliedOut base (a ++ " / (" ++ b ++ ")")

variable {base : Term} {type : ShaderType}

theorem multipliedOut_one (numeric : type.isNumeric) :
    MultipliedOut base (Term.widened type ⟨.number 1.0, .float⟩) := by
  unfold Term.widened
  by_cases float : ShaderType.float = type
  · rw [if_pos float]
    exact .literal rfl (.number isFinite_one)
  · rw [if_neg float]
    have vector : type.isVector := by
      by_contra scalar
      exact float (eq_float_of_not_vector numeric scalar).symm
    exact .literal numeric (.splat vector isFinite_one)

theorem multipliedOut_product (copies : Nat) :
    MultipliedOut base (Operation.productText base (copies + 1)) := by
  induction copies with
  | zero =>
    rw [Operation.productText]
    simpa using MultipliedOut.base
  | succ copies ih =>
    have nonempty : List.replicate (copies + 1) base.text ≠ [] := by simp
    rw [Operation.productText, List.replicate_succ', intercalate_concat nonempty]
    exact .product ih .base

/-- The term and the statements since `before` are the base multiplied out: the term is text of the
base and literals, or the name of one of the statements, whose right sides are such text. -/
def Unrolled (base : Term) (before : Compiler) (term : Term) (after : Compiler) : Prop :=
  ∃ emitted, after.statements.toList = before.statements.toList ++ emitted ∧
    (∀ statement ∈ emitted, MultipliedOut base statement.operation.text) ∧
    (MultipliedOut base term.text ∨ ∃ statement ∈ emitted, term.atom = .name statement.id)

variable {state : CompilerState}

/-- A power that needs no statement. -/
theorem unrolled_pure {term : Term} (out : MultipliedOut base term.text) :
    Ends (pure term : Compile Term) state
      (fun term later => Unrolled base state.compiler term later.compiler) fun _ _ => False :=
  .pure ⟨[], (List.append_nil _).symm, by simp, .inl out⟩

theorem unrolled_define {operation : Operation} (out : MultipliedOut base operation.text) :
    Ends (Compile.define type operation) state
      (fun term later => Unrolled base state.compiler term later.compiler) fun _ _ => False :=
  .define ⟨[⟨type, state.compiler.nextId, operation⟩], Compiler.statements_define ..,
    by simpa using out, .inr ⟨_, List.mem_singleton_self _, rfl⟩⟩

theorem integerPower_unrolled (numeric : type.isNumeric) (n : Int) :
    Ends (Compile.integerPower base type n) state
      (fun term later => Unrolled base state.compiler term later.compiler) fun _ _ => False := by
  unfold Compile.integerPower
  split
  · apply unrolled_pure
    by_cases float : type = .float
    · subst float
      exact .literal rfl (.number isFinite_one)
    · have vector : type.isVector := by
        by_contra scalar
        exact float (eq_float_of_not_vector numeric scalar)
      rw [if_neg float]
      exact .literal numeric (.splat vector isFinite_one)
  · exact unrolled_pure .base
  · rename_i n zero _
    obtain ⟨copies, rfl⟩ := Nat.exists_eq_succ_of_ne_zero zero
    exact unrolled_define (multipliedOut_product copies)
  · exact unrolled_define (.quotient (multipliedOut_one numeric) (multipliedOut_product _))

end Products

section Occurrence

/-- Each power that is compiled has a known exponent, and where this is a whole number of a kind,
the power is its base multiplied out. -/
def UnrollsPowers (kind : Int → Prop) : Prop :=
  ∀ (evaluate : Evaluator) (held : List Held) (fuel id : Nat) (location : Location)
    (left right : Expr) (state : CompilerState) (term : Term) (later : CompilerState),
    Compile.upTo evaluate held (fuel + 1) id (.binary location .power left right) state =
        (.ok term, later) →
      ∃ base middle exponent last x,
        Compile.upTo evaluate held fuel id left state = (.ok base, middle) ∧
        Compile.upTo evaluate held fuel id right middle = (.ok exponent, last) ∧
        exponent.literal? = some x ∧ (∀ y, Determined evaluate held middle id right y → y = x) ∧
        ∀ n, integerValue? x = some n → kind n → Unrolled base last.compiler term later.compiler

theorem unrollsPowers_small : UnrollsPowers fun n => n.natAbs ≤ Compile.maxUnrolledPower := by
  intro evaluate held fuel id location left right state term later returned
  rw [Compile.upTo] at returned
  unfold Compile.step at returned
  dsimp only at returned
  rw [bind_run] at returned
  rcases ran : Compile.upTo evaluate held fuel id left state with ⟨_ | base, middle⟩
  · rw [ran] at returned
    cases returned
  rw [ran] at returned
  dsimp only at returned
  rw [bind_run] at returned
  rcases ran' : Compile.upTo evaluate held fuel id right middle with ⟨_ | exponent, last⟩
  · rw [ran'] at returned
    cases returned
  rw [ran'] at returned
  dsimp only [Compile.binary] at returned
  rcases common : Compile.commonType .float [base, exponent] with _ | type
  · rw [common] at returned
    cases returned
  rw [common] at returned
  obtain ⟨numeric, -⟩ := commonType_ok common rfl
  dsimp only [Compile.power] at returned
  cases literal : exponent.literal? with
  | none =>
    rw [literal] at returned
    cases returned
  | some x =>
    refine ⟨base, middle, exponent, last, x, rfl, ran', literal, fun y known => ?_,
      fun n whole small => ?_⟩
    · exact Option.some.inj (((known.literal? fuel).returned ran').symm.trans literal)
    · rw [literal] at returned
      dsimp only at returned
      rw [whole] at returned
      simp only [small, ↓reduceIte] at returned
      exact (integerPower_unrolled numeric n).returned returned

end Occurrence

section Sparing

/-- No statement so far calls `pow` with a small whole exponent. -/
def Compiler.Sparing (compiler : Compiler) : Prop :=
  ∀ statement ∈ compiler.statements.toList, statement.operation.Sparing

/-- A computation that emits such statements only, whether it fails or not. -/
def Spares {α : Type} (action : Compile α) : Prop :=
  ∀ state, state.compiler.Sparing →
    Ends action state (fun _ later => later.compiler.Sparing) fun _ later => later.compiler.Sparing

namespace Spares

variable {α β : Type} {action : Compile α} {location : Location}

theorem pure (a : α) : Spares (pure a : Compile α) := fun _ sparing => sparing

theorem throw (fault : Fault) : Spares (throw fault : Compile α) := fun _ sparing => sparing

theorem unsupported (what : String) : Spares (Compile.unsupported location what : Compile α) :=
  throw _

theorem bind {next : α → Compile β} (first : Spares action) (second : ∀ a, Spares (next a)) :
    Spares (action >>= next) :=
  fun state sparing => (first state sparing).bind fun a later sparing => second a later sparing

theorem of_quiet {holds : α → Prop} (quiet : ∀ state, Quiet holds action state) : Spares action := by
  intro state sparing
  apply Ends.mono (quiet state)
  · rintro a later ⟨same, -⟩
    rwa [same]
  · rintro fault later same
    rwa [same]

/-- What is compiled after a check that refuses some code. -/
theorem checked {check : Prop} [Decidable check] {kind : ErrorKind} {next : Compile α}
    (goes : ¬ check → Spares next) :
    Spares (do
      if check then Compile.raise location kind
      next) := by
  by_cases refused : check
  · simp only [refused, ↓reduceIte]
    exact fun _ sparing => Ends.stop sparing
  · simp only [refused, ↓reduceIte]
    exact goes refused

theorem of_direct (direct : Direct Operation.Sparing action) : Spares action := by
  induction direct with
  | pure a => exact pure a
  | raise => exact throw _
  | define type operation sparing =>
    intro state kept
    apply Ends.define
    intro statement mem
    rw [Compiler.statements_define] at mem
    rcases List.mem_append.mp mem with mem | mem
    · exact kept statement mem
    · rw [List.mem_singleton.mp mem]
      exact sparing
  | bind _ _ first second => exact bind first second

section Frames

variable {id slot : Nat}

theorem changing {f : Compiler → α × Compiler}
    (same : ∀ compiler, (f compiler).2.statements = compiler.statements) :
    Spares (Compile.changing f) := by
  intro state sparing
  apply Ends.changing
  rw [Compiler.Sparing, same]
  exact sparing

theorem store (content : SymbolicSlot) : Spares (Compile.store id slot content) := by
  apply bind (of_quiet fun _ => quiet_frame)
  intro frame
  dsimp only
  split
  · exact changing fun _ => rfl
  · exact throw _

theorem storePending (definitions : List (Nat × Expr)) :
    Spares (Compile.storePending id definitions) := by
  induction definitions with
  | nil => exact pure ()
  | cons definition definitions ih => exact bind (store _) fun _ => ih

theorem storeAll (terms : List Term) : Spares (Compile.storeAll id slot terms) := by
  induction terms generalizing slot with
  | nil => exact pure ()
  | cons term terms ih => exact bind (store _) fun _ => ih

end Frames

section Inlining

variable {compile : Inliner} {id slot : Nat}

theorem force (spares : ∀ id expr, Spares (compile id expr)) :
    Spares (Compile.force compile location id slot) := by
  intro state sparing
  apply Ends.symbolicForce
  · exact fun _ _ _ _ => sparing
  · exact fun _ definition _ _ => spares id definition _ sparing
  · exact fun _ _ _ => sparing
  · exact fun _ _ _ => sparing
  · exact fun _ _ _ => sparing
  · exact fun _ => sparing

theorem inlineCall (spares : ∀ id expr, Spares (compile id expr)) (lambda : Lambda) (outer : Outer)
    (args : List Term) : Spares (Compile.inlineCall compile lambda outer args location) := by
  have current : Spares Compile.compiler := fun _ sparing => sparing
  apply checked
  intro _
  apply current.bind
  intro compiler
  apply checked
  intro _
  apply bind (changing fun _ => rfl)
  intro id
  apply bind (storeAll args)
  exact fun _ state sparing => Ends.inlining (spares id lambda.body _ sparing)

theorem each (spares : ∀ id expr, Spares (compile id expr)) (exprs : List Expr) :
    Spares (exprs.mapM (compile id)) := by
  induction exprs with
  | nil => exact pure []
  | cons expr exprs ih =>
    rw [List.mapM_cons]
    exact bind (spares id expr) fun _ => bind ih fun _ => pure _

theorem step {evaluate : Evaluator} {held : List Held} (spares : ∀ id expr, Spares (compile id expr))
    (id : Nat) (expr : Expr) : Spares (Compile.step evaluate held compile id expr) := by
  unfold Compile.step
  cases expr with
  | constant => exact of_direct (.constant _)
  | slot location depth slot =>
    apply bind (of_quiet fun _ => quiet_ancestor)
    intro outer
    cases outer with
    | symbolic owner => exact force spares
    | captured owner => exact bind (of_quiet fun _ => quiet_captured) fun _ => of_direct (.constant _)
  | call location function args =>
    apply bind (of_quiet fun _ => quiet_callee)
    intro callee
    apply bind (each spares args)
    intro args
    cases callee with
    | lambda lambda outer => exact inlineCall spares lambda outer args
    | builtin function => exact of_direct (.builtin function args)
  | list location items => exact bind (each spares items) fun items => of_direct (.vector items)
  | record => exact unsupported _
  | «module» => exact unsupported _
  | lambda => exact unsupported _
  | forEach => exact unsupported _
  | letIn location bindings body => exact bind (storePending bindings) fun _ => spares id body
  | unary location op operand => exact bind (spares id operand) fun x => of_direct (.unary op x)
  | binary location op left right =>
    exact bind (spares id left) fun a => bind (spares id right) fun b => of_direct (.binary op a b)
  | conditional location condition whenTrue whenFalse =>
    apply bind (spares id condition)
    intro c
    apply checked
    intro _
    apply bind (spares id whenTrue)
    intro a
    apply bind (spares id whenFalse)
    intro b
    apply checked
    intro _
    exact of_direct (.select c a b)
  | dot location base name => exact bind (spares id base) fun v => of_direct (.field name v)
  | index location base index =>
    apply bind (spares id base)
    intro v
    split
    · exact unsupported _
    · apply bind (spares id index)
      intro i
      apply checked
      intro _
      split
      · split
        · exact of_direct (.emit (by simp))
        · exact throw _
      · exact of_direct (.emit (by simp))

theorem upTo (evaluate : Evaluator) (held : List Held) (fuel : Nat) :
    ∀ id expr, Spares (Compile.upTo evaluate held fuel id expr) := by
  induction fuel with
  | zero => exact fun _ _ => throw _
  | succ fuel ih => exact step ih

theorem run (evaluate : Evaluator) (held : List Held) (fuel : Nat) (request : Request) :
    Spares (request.run evaluate held fuel) := by
  cases request with
  | call lambda outer args location =>
    exact inlineCall (upTo evaluate held fuel) lambda outer args
  | shape recognizer role param =>
    apply bind (of_quiet fun _ => quiet_evaluating _)
    intro function
    apply bind (of_quiet fun _ => quiet_evaluating _)
    intro frame
    split
    · exact throw _
    · dsimp only
      split
      · rw [pure_bind]
        exact inlineCall (upTo evaluate _ fuel) _ _ _
      · simp only [pure_bind]
        apply bind (of_direct (.emit (by simp)))
        intro point
        apply bind (of_direct (.emit (by simp)))
        intro time
        exact inlineCall (upTo evaluate _ fuel) _ _ _

end Inlining

end Spares

theorem Reachable.sparing {arguments : List Variable} {compiler : Compiler}
    (reached : Reachable arguments compiler) : compiler.Sparing := by
  induction reached with
  | new =>
    intro statement mem
    simp [Compiler.new] at mem
  | @request compiler reached request admissible evaluate held fuel heap kept =>
    have ends := Spares.run evaluate held fuel request ⟨heap, compiler⟩ kept
    rcases ran : request.run evaluate held fuel ⟨heap, compiler⟩ with ⟨_ | term, later⟩
    · exact ends.failed ran
    · exact ends.returned ran

end Sparing

section Calls

/-- Floats are written without letters, apart from the one before an exponent. -/
theorem mem_floatLiteral {cs : List Char} (is : IsFloatLiteral cs) {c : Char} (mem : c ∈ cs) :
    isDecimalDigit c ∨ c ∈ ['.', 'e', '-', '+'] := by
  have fraction {cs : List Char} (is : IsFraction cs) (mem : c ∈ cs) :
      isDecimalDigit c ∨ c ∈ ['.', 'e', '-', '+'] := by
    obtain ⟨whole, part, rfl, -, digits⟩ := is
    rcases List.mem_append.mp mem with mem | mem
    · exact .inl (digits c (List.mem_append_left _ mem))
    · rcases List.mem_cons.mp mem with rfl | mem
      · simp
      · exact .inl (digits c (List.mem_append_right _ mem))
  rcases is with is | ⟨mantissa, _, rfl, whole, sign, digits, rfl, signs, -, all⟩
  · exact fraction is mem
  · rcases List.mem_append.mp mem with mem | mem
    · rcases whole with is | is
      · exact fraction is mem
      · exact .inl (is.2 c mem)
    · rcases List.mem_cons.mp mem with rfl | mem
      · simp
      · rcases List.mem_append.mp mem with mem | mem
        · right
          simp only [List.mem_cons, List.not_mem_nil, or_false] at signs
          rcases signs with rfl | rfl | rfl
          · cases mem
          · simp_all
          · simp_all
        · exact .inl (all c mem)

theorem not_mem_numberText {x : Float} (finite : x.isFinite) : 'p' ∉ (numberText x).toList := by
  obtain ⟨literal, is, text⟩ := numberText_cases finite
  have absent : 'p' ∉ literal.toList := by
    intro mem
    rcases mem_floatLiteral is mem with digit | mem
    · cases digit
    · simp at mem
  rcases text with text | text
  · rwa [text]
  · rw [text]
    simpa using absent

theorem not_mem_intercalate {separator : String} {parts : List String} {c : Char}
    (outside : c ∉ separator.toList) (absent : ∀ part ∈ parts, c ∉ part.toList) :
    c ∉ (separator.intercalate parts).toList := by
  induction parts with
  | nil => simp
  | cons part parts ih =>
    obtain ⟨first, others⟩ := List.forall_mem_cons.mp absent
    cases parts with
    | nil => simpa using first
    | cons second parts =>
      rw [String.intercalate_cons_cons]
      simp only [String.toList_append, List.mem_append, not_or]
      exact ⟨⟨first, outside⟩, ih others⟩

theorem Literal.not_mem {atom : Atom} {type : ShaderType} (literal : Literal atom type) :
    'p' ∉ atom.text.toList := by
  have named (type : ShaderType) : 'p' ∉ type.name.toList := by cases type <;> decide
  cases literal with
  | number finite => exact not_mem_numberText finite
  | boolean b => cases b <;> decide
  | vector count finite =>
    have parts : 'p' ∉ (", ".intercalate (List.map numberText _)).toList :=
      not_mem_intercalate (by decide) (List.forall_mem_map.mpr fun x mem =>
        not_mem_numberText (finite x mem))
    simp only [Atom.text, String.toList_append, List.mem_append, not_or]
    exact ⟨⟨⟨named _, by decide⟩, parts⟩, by decide⟩
  | splat vector finite =>
    simp [Atom.text, named, not_mem_numberText finite]

/-- A call of `pow` is not made of a base and literals by multiplication and division. -/
theorem MultipliedOut.not_mem {base : Term} {text : String} (out : MultipliedOut base text)
    (absent : 'p' ∉ base.text.toList) : 'p' ∉ text.toList := by
  induction out with
  | base => exact absent
  | literal _ literal => exact literal.not_mem
  | product _ _ first second => simp [first, second]
  | quotient _ _ first second => simp [first, second]

end Calls

/-- Powers with whole exponents up to the bound are multiplied out, which takes no call; and after
any requests `pow` is called with other exponents only. -/
theorem wholePowers_multiplied :
    UnrollsPowers (fun n => n.natAbs ≤ Compile.maxUnrolledPower) ∧
      (∀ base text, MultipliedOut base text → 'p' ∉ base.text.toList → 'p' ∉ text.toList) ∧
      ∀ arguments compiler, Reachable arguments compiler → compiler.Sparing :=
  ⟨unrollsPowers_small, fun _ _ out => out.not_mem, fun _ _ reached => reached.sparing⟩

section Raising

/-- A place in some text. -/
def somewhere : Location := ⟨⟨"", ""⟩, 0, 0⟩

/-- A power of the parameter of a function. -/
def raising (exponent : Float) : Expr :=
  .binary somewhere .power (.slot somewhere 0 0) (.constant somewhere (.num exponent))

/-- The function, called with the argument `x`. -/
def raisingCall (exponent : Float) : Request :=
  .call ⟨somewhere, 1, 1, raising exponent⟩ (.captured 0) [⟨.given "x", .float⟩] somewhere

/-- The compiler after the call. -/
def raised (exponent : Float) : Compiler :=
  ((raisingCall exponent).run (fun _ _ _ => throw .outOfFuel) [] 2 ⟨.empty, .new⟩).2.compiler

/-- The state in which the body of the function is compiled. -/
def insideRaising : CompilerState :=
  ⟨.empty, ⟨#[], 1, [somewhere], #[⟨[.ready ⟨.given "x", .float⟩], .captured 0⟩]⟩⟩

/-- The argument of the function. -/
def raisedArgument : Variable := ⟨"x", .float, ⟨'x', [], rfl, rfl, by simp⟩, by decide⟩

theorem wholePowers_multiplied_reciprocal :
    (raised (-2.0)).body = "  float r1 = 1.0 / (x * x);\n" ∧ (raised (-2.0)).Sparing ∧
      ∃ term later, Compile.upTo (fun _ _ _ => throw .outOfFuel) [] 2 0 (raising (-2.0))
          insideRaising = (.ok term, later) ∧
        Unrolled ⟨.given "x", .float⟩ insideRaising.compiler term later.compiler := by
  have admissible : (raisingCall (-2.0)).Admissible ([raisedArgument] ++ Compiler.new.declared) := by
    intro arg mem
    rw [List.mem_singleton.mp mem]
    exact .inl ⟨raisedArgument, List.mem_cons_self, rfl, rfl⟩
  have run : Compile.upTo (fun _ _ _ => throw .outOfFuel) [] 2 0 (raising (-2.0)) insideRaising =
    (.ok ⟨.name 1, .float⟩, { insideRaising with compiler := (insideRaising.compiler.define .float
      (.reciprocal .float ⟨.given "x", .float⟩ 2)).2 }) := rfl
  refine ⟨by decide +kernel, wholePowers_multiplied.2.2 [raisedArgument] _
    (.request .new (raisingCall (-2.0)) admissible _ _ _ _), _, _, run, ?_⟩
  obtain ⟨base, middle, exponent, last, x, first, second, -, known, unrolled⟩ :=
    wholePowers_multiplied.1 _ _ _ _ _ _ _ _ _ _ run
  cases first
  cases second
  cases known (-2.0) .number
  exact unrolled (-2) rfl (by decide)

theorem seventeenthPower_called :
    (raised 17.0).body = "  float r1 = pow(x, 17.0);\n" ∧ ¬ UnrollsPowers fun _ => True := by
  refine ⟨by decide +kernel, fun unrolls => ?_⟩
  have run : Compile.upTo (fun _ _ _ => throw .outOfFuel) [] 2 0 (raising 17.0) insideRaising =
    (.ok ⟨.name 1, .float⟩, { insideRaising with compiler := (insideRaising.compiler.define .float
      (.apply "pow" .float [⟨.given "x", .float⟩, ⟨.number 17.0, .float⟩])).2 }) := rfl
  obtain ⟨base, middle, exponent, last, x, first, second, -, known, unrolled⟩ :=
    unrolls _ _ _ _ _ _ _ _ _ _ run
  cases first
  cases second
  cases known 17.0 .number
  obtain ⟨emitted, split, out, -⟩ := unrolled 17 rfl trivial
  cases split
  have absent := (out _ (List.mem_singleton_self _)).not_mem (by decide)
  exact absent (by decide)

end Raising

end Shader

end ShapeLang
