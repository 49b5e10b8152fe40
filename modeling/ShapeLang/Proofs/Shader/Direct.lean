import Mathlib.Data.List.Basic
import ShapeLang.Proofs.Shader.Operations

/-! # Operations that only emit code

Everything but the compilation of expressions in frames is made of three things: giving a term,
refusing, and emitting a statement. What holds of these holds of the operators, the builtin functions
and all other ways to make code of terms.
-/

namespace ShapeLang

namespace Shader

/-- If the operation calls `pow`, then with an exponent that is known, and not a small whole
number. -/
def Operation.Sparing (operation : Operation) : Prop :=
  ∀ type args, operation = .apply "pow" type args →
    ∃ base exponent x, args = [base, exponent] ∧ exponent.literal? = some x ∧
      ∀ n, integerValue? x = some n → Compile.maxUnrolledPower < n.natAbs

/-- A computation that emits statements of a kind, or refuses to, and does nothing else. -/
inductive Direct (kind : Operation → Prop) : {α : Type} → Compile α → Prop
  | pure {α : Type} (a : α) : Direct kind (pure a : Compile α)
  | raise {α : Type} (location : Location) (error : ErrorKind) :
    Direct kind (Compile.raise location error : Compile α)
  | define (type : ShaderType) (operation : Operation) (is : kind operation) :
    Direct kind (Compile.define type operation)
  | bind {α β : Type} {action : Compile α} {next : α → Compile β} (first : Direct kind action)
      (second : ∀ a, Direct kind (next a)) : Direct kind (action >>= next)

namespace Direct

variable {α : Type} {location : Location}

theorem unsupported {kind : Operation → Prop} (what : String) :
    Direct kind (Compile.unsupported location what : Compile α) :=
  .raise location _

/-- What follows a check that refuses some code. -/
theorem checked {kind : Operation → Prop} {check : Prop} [Decidable check] {error : ErrorKind}
    {next : Compile α} (goes : ¬ check → Direct kind next) :
    Direct kind (do
      if check then Compile.raise location error
      next) := by
  by_cases refused : check
  · have stops : (do
        if check then Compile.raise location error
        next) = (Compile.raise location error : Compile α) := by
      simp only [refused, ↓reduceIte]
      rfl
    rw [stops]
    exact .raise location error
  · simp only [refused, ↓reduceIte]
    exact goes refused

/-- An operation that is no call of `pow`. -/
theorem emit {type : ShaderType} {operation : Operation}
    (other : ∀ type args, operation ≠ .apply "pow" type args) :
    Direct Operation.Sparing (Compile.define type operation) :=
  .define type operation fun _ _ is => (other _ _ is).elim

theorem number (x : Float) : Direct Operation.Sparing (Compile.number location x) := by
  unfold Compile.number
  split
  · exact .pure _
  · exact unsupported _

theorem numbers (xs : List Float) :
    Direct Operation.Sparing (xs.forM fun x => discard (Compile.number location x)) := by
  induction xs with
  | nil => exact .pure ()
  | cons x xs ih => exact .bind (.bind (number x) fun _ => .pure ()) fun _ => ih

theorem constant (value : Value) : Direct Operation.Sparing (Compile.constant location value) := by
  unfold Compile.constant
  split
  · exact number _
  · exact .pure _
  · split
    · exact unsupported _
    · split
      · exact unsupported _
      · exact .bind (numbers _) fun _ => .pure _
  · exact unsupported _

/-- A builtin function that reduces two arguments gets two, since their number is checked. -/
theorem builtin (function : Builtin) (args : List Term) :
    Direct Operation.Sparing (Compile.builtin location function args) := by
  have other {name : String} {signature : Signature}
      (shader : function.shader? = some (name, signature)) : name ≠ "pow" := by
    cases function <;> cases shader <;> decide
  have pair {name : String} (shader : function.shader? = some (name, .reducePair)) :
      function.arity = 2 := by
    cases function <;> first | rfl | simp [Builtin.shader?] at shader
  unfold Compile.builtin
  split
  · exact unsupported _
  · rename_i name signature shader
    have call {type common : ShaderType} :
        Direct Operation.Sparing (Compile.define type (.apply name common args)) :=
      emit fun _ _ is => other shader (Operation.apply.inj is).1
    apply checked
    intro count
    split
    · exact unsupported _
    · split
      · exact call
      · split
        · exact unsupported _
        · exact call
      · rename_i notTwo
        rw [Decidable.not_not, pair shader, List.length_eq_two] at count
        obtain ⟨a, b, rfl⟩ := count
        exact (notTwo a b rfl).elim
      · exact call
      · exact call

theorem power (type : ShaderType) (base exponent : Term) :
    Direct Operation.Sparing (Compile.power location type base exponent) := by
  unfold Compile.power
  split
  · exact unsupported _
  · rename_i x literal
    -- The call is made only if the exponent is known not to be a small whole number.
    have call (large : ∀ n, integerValue? x = some n → Compile.maxUnrolledPower < n.natAbs) :
        Direct Operation.Sparing (Compile.define type (.apply "pow" type [base, exponent])) := by
      apply Direct.define
      rintro _ _ ⟨⟩
      exact ⟨base, exponent, x, rfl, literal, large⟩
    split
    · rename_i n whole
      split
      · unfold Compile.integerPower
        split
        · exact .pure _
        · exact .pure _
        · exact emit (by simp)
        · exact emit (by simp)
      · rename_i large
        apply call
        intro m is
        obtain rfl := Option.some.inj (whole.symm.trans is)
        exact Nat.lt_of_not_le large
    · rename_i fraction
      apply call
      intro m is
      cases fraction.symm.trans is

theorem binary (op : BinaryOp) (a b : Term) :
    Direct Operation.Sparing (Compile.binary location op a b) := by
  have operator {type : ShaderType} :
      Direct Operation.Sparing (Compile.define type (.binary op a b)) := emit (by simp)
  unfold Compile.binary
  cases op with
  | add | subtract | multiply | divide =>
    dsimp only
    split
    · exact operator
    · exact unsupported _
  | power =>
    dsimp only
    split
    · exact power _ _ _
    · exact unsupported _
  | less | lessEqual | greater | greaterEqual | equal | notEqual | and | or =>
    dsimp only
    split
    · exact operator
    · exact unsupported _

theorem unary (op : UnaryOp) (x : Term) :
    Direct Operation.Sparing (Compile.unary location op x) := by
  unfold Compile.unary
  split
  · exact number _
  · split
    · exact emit (by simp)
    · exact unsupported _
  · split
    · exact emit (by simp)
    · exact unsupported _

theorem vector (items : List Term) : Direct Operation.Sparing (Compile.vector location items) := by
  unfold Compile.vector
  split
  · exact unsupported _
  · split
    · exact emit (by simp)
    · exact unsupported _

theorem field (name : String) (v : Term) :
    Direct Operation.Sparing (Compile.field location name v) := by
  unfold Compile.field
  dsimp only
  split
  · exact emit (by simp)
  · exact unsupported _

/-- The choice between two branches of one type. -/
theorem select (c a b : Term) :
    Direct Operation.Sparing (Compile.define a.type (.select c a b)) :=
  emit (by simp)

/-- The frames stay as they are, and so do the functions that are being inlined. -/
theorem ends {kind : Operation → Prop} {action : Compile α} (direct : Direct kind action)
    (state : CompilerState) :
    Ends action state
      (fun _ later => later.heap = state.heap ∧
        later.compiler.frames = state.compiler.frames ∧
        later.compiler.inlining = state.compiler.inlining)
      fun fault later => later.heap = state.heap ∧ ∃ e, fault = .exception e := by
  induction direct generalizing state with
  | pure a => exact .pure ⟨rfl, rfl, rfl⟩
  | raise => exact ⟨rfl, _, rfl⟩
  | define => exact .define ⟨rfl, rfl, rfl⟩
  | bind _ _ first second =>
    apply (first state).bind
    rintro a later ⟨heap, frames, inlining⟩
    apply (second a later).mono
    · rintro b last ⟨heap', frames', inlining'⟩
      exact ⟨heap'.trans heap, frames'.trans frames, inlining'.trans inlining⟩
    · rintro fault last ⟨heap', exception⟩
      exact ⟨heap'.trans heap, exception⟩

/-- The frames also stay as they are when it fails. -/
theorem frames {kind : Operation → Prop} {action : Compile α} (direct : Direct kind action)
    (state : CompilerState) :
    Ends action state (fun _ later => later.compiler.frames = state.compiler.frames)
      fun _ later => later.compiler.frames = state.compiler.frames := by
  induction direct generalizing state with
  | pure => exact .pure rfl
  | raise => exact rfl
  | define => exact .define rfl
  | bind _ _ first second =>
    apply (first state).bind
    intro a later same
    exact (second a later).mono (fun _ _ same' => same'.trans same) fun _ _ same' => same'.trans same

end Direct

end Shader

end ShapeLang
