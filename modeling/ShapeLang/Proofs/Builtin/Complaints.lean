import ShapeLang.Builtin.Apply

/-! # What operators and builtin functions complain about

They complain about the values that they are given, or report what the program says itself. The
depth of calls is nothing that they know of.
-/

namespace ShapeLang

/-- A failure with nothing but what is described. -/
def FailsWith {ε α : Type} (possible : ε → Prop) (result : Except ε α) : Prop :=
  ∀ failure, result = .error failure → possible failure

namespace FailsWith

variable {ε α β : Type} {possible : ε → Prop}

theorem ok (a : α) : FailsWith possible (.ok a : Except ε α) :=
  fun _ same => by cases same

theorem error {failure : ε} (holds : possible failure) :
    FailsWith possible (.error failure : Except ε α) :=
  fun _ same => by cases same; exact holds

theorem bind {result : Except ε α} {next : α → Except ε β} (first : FailsWith possible result)
    (second : ∀ a, FailsWith possible (next a)) : FailsWith possible (result >>= next) := by
  cases result with
  | error failure => exact .error (first failure rfl)
  | ok a => exact second a

theorem map {result : Except ε α} (f : α → β) (fails : FailsWith possible result) :
    FailsWith possible (f <$> result) := by
  cases result with
  | error failure => exact .error (fails failure rfl)
  | ok a => exact .ok (f a)

theorem mapM {f : α → Except ε β} (each : ∀ a, FailsWith possible (f a)) (items : List α) :
    FailsWith possible (items.mapM f) := by
  induction items with
  | nil => exact .ok []
  | cons item items ih =>
    rw [List.mapM_cons]
    exact (each item).bind fun first => ih.bind fun rest => .ok (first :: rest)

end FailsWith

/-- The mistake has nothing to do with the depth of calls. -/
def ErrorKind.Shallow (kind : ErrorKind) : Prop := ∀ limit, kind ≠ .stackOverflow limit

theorem ErrorKind.Shallow.wrongType (expected found : String) :
    (ErrorKind.wrongType expected found).Shallow := by
  intro limit
  simp

theorem ErrorKind.Shallow.userError (message : String) : (ErrorKind.userError message).Shallow := by
  intro limit
  simp

namespace Builtin

/-- What the call or the function around it is told. -/
def Failure.Shallow : Failure → Prop
  | .mistake kind => kind.Shallow
  | .reported kind => kind.Shallow
  | .missing => True

open ErrorKind (Shallow)

private theorem ofCall_shallow {α : Type} {result : Except ErrorKind α}
    (fails : FailsWith Shallow result) : FailsWith Failure.Shallow (ofCall result) := by
  cases result with
  | ok a => exact .ok a
  | error kind => exact .error (fails kind rfl)

private theorem ofValue_shallow (value : Value) : FailsWith Shallow (Operand.ofValue value) := by
  unfold Operand.ofValue
  split
  · exact .ok _
  · exact .ok _
  · exact .error (.wrongType _ _)

private theorem commonLength_shallow (seen : Option Nat) (operands : List Operand) :
    FailsWith Shallow (Operand.commonLength seen operands) := by
  fun_induction Operand.commonLength seen operands with
  | case1 => exact .ok _
  | case2 _ _ _ ih => exact ih
  | case3 _ _ ih => exact ih
  | case4 _ _ ih => exact ih
  | case5 => exact .error (.wrongType _ _)

private theorem total_shallow (a : Arithmetic) (start : Float) (items : List Value) :
    FailsWith Shallow (total a start items) := by
  fun_induction total a start items with
  | case1 => exact .ok _
  | case2 _ _ _ ih => exact ih
  | case3 => exact .error (.wrongType _ _)

private theorem components_shallow (value : Value) :
    FailsWith Failure.Shallow (components value) :=
  (ofCall_shallow (ofValue_shallow value)).map _

private theorem componentwise_shallow (f : List Float → Option Float) (args : List Value) :
    FailsWith Failure.Shallow (componentwise f args) := by
  have component (operands : List Operand) (i : Nat) : FailsWith Failure.Shallow (do
      let x ← found ((operands.mapM (Operand.component? i)).bind f)
      pure (Value.num x)) := by
    apply FailsWith.bind
    · cases (operands.mapM (Operand.component? i)).bind f with
      | none => exact .error trivial
      | some x => exact .ok x
    · exact fun x => .ok _
  apply FailsWith.bind
  · exact ofCall_shallow (.mapM ofValue_shallow args)
  intro operands
  apply FailsWith.bind
  · exact ofCall_shallow (commonLength_shallow none operands)
  intro common
  cases common with
  | none => exact component operands 0
  | some n => exact (FailsWith.mapM (component operands) _).map _

/-- No builtin function complains about the depth of calls. -/
theorem apply_shallow (a : Arithmetic) (builtin : Builtin) (args : List Value) :
    FailsWith Failure.Shallow (builtin.apply a args) := by
  unfold apply
  split
  case h_16 v => exact (components_shallow v).bind fun xs => .ok _
  case h_17 v w =>
    refine (components_shallow v).bind fun xs => (components_shallow w).bind fun ys => ?_
    by_cases lengths : xs.length = ys.length
    · simp only [lengths, ne_eq, not_true_eq_false, ↓reduceIte]
      exact .ok _
    · simp only [lengths, ne_eq, not_false_eq_true, ↓reduceIte]
      exact .error (.wrongType _ _)
  case h_18 items _ => exact (ofCall_shallow (total_shallow a 0.0 items)).bind fun x => .ok _
  case h_19 => exact .error (.wrongType _ _)
  case h_20 => exact .error (.userError _)
  case h_21 => exact .error (.userError _)
  case h_22 | h_23 | h_24 | h_25 => exact .error trivial
  all_goals exact componentwise_shallow _ _

end Builtin

end ShapeLang
