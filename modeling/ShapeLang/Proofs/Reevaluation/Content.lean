import ShapeLang.Proofs.Denotation.Rules
import ShapeLang.Proofs.Reevaluation.Comparison

/-! # What expressions denote if only contents are compared

The denotation of an expression names functions and modules by the places where they are made. If
comparisons that hang on such names are refused, a denotation does not depend on them, and whatever
is evaluated again denotes the same.

An evaluation over frames that compares by identity goes on where the comparison of contents is
refused. What it finds from there on is spoiled, and nothing is said about it.
-/

namespace ShapeLang.Reevaluation

open Denotation

/-- Compares two denotations by content. -/
def contrast (positive : Bool) (a b : Den) : Outcome Den :=
  expect ((fun same => .bool (same == positive)) <$> Comparison.content a.outline b.outline)

/-- What an expression denotes, as in `rule`, but with comparisons of contents. -/
def contentRule (m : Machine) (den : Denoter) : Denoter := fun env w expr =>
  match expr with
  | .binary location op left right =>
    match op.asksEqual? with
    | some positive => do
      let a ← den env (.part 0 :: w) left
      let b ← den env (.part 1 :: w) right
      contrast positive a b
    | none => rule m den env w (.binary location op left right)
  | other => rule m den env w other

/-- What an expression denotes with comparisons of contents, if it is found with definitions and
calls nested less than `fuel` times. -/
def denote (m : Machine) : Nat → Denoter
  | 0 => fun _ _ _ => nothing
  | fuel + 1 => contentRule m (denote m fuel)

/-- A definition that is being evaluated in a frame. -/
structure Errand where
  frame : FrameId
  env : Env
  definition : Denotation.Definition

section Outcomes

variable {α β : Type} {m : Machine} {lenient : Prop} {busy : List Errand}
  {family : Nat → Outcome α} {next : Nat → α → Outcome β} {a : α} {fault : Fault}

/-- The comparison of contents was refused on the way, and evaluation may go on nevertheless. -/
def Spoiled (lenient : Prop) (family : Nat → Outcome α) : Prop :=
  lenient ∧ Settles family (.error Comparison.refusal)

/-- Outcomes settle at something, or are spoiled. -/
def Yields (lenient : Prop) (family : Nat → Outcome α) (a : α) : Prop :=
  Settles family (.ok a) ∨ Spoiled lenient family

/-- There is no outcome unless one of the definitions that are being evaluated has one, with no more
fuel. -/
def Stuck (m : Machine) (busy : List Errand) (family : Nat → Outcome α) : Prop :=
  ∀ n, (∀ errand ∈ busy, ∀ less, less ≤ n →
    (denote m less errand.env errand.definition.inner errand.definition.expr).run = none) →
    (family n).run = none

/-- How an evaluation may fail. Nothing is said about defects. -/
def Excused (m : Machine) (lenient : Prop) (busy : List Errand) (family : Nat → Outcome α) :
    Fault → Prop
  | .exception e => Settles family (.error e.kind) ∨
      e.kind = .recursiveDefinition ∧ Stuck m busy family ∨ Spoiled lenient family
  | .defect _ => True
  | .outOfFuel => True

theorem Spoiled.bind (spoiled : Spoiled lenient family) :
    Spoiled lenient fun n => family n >>= next n :=
  ⟨spoiled.1, spoiled.2.stop⟩

namespace Yields

theorem pure (a : α) : Yields lenient (fun _ => (Pure.pure a : Outcome α)) a := .inl (.pure a)

theorem bind {b : β} (first : Yields lenient family a) (second : Yields lenient (next · a) b) :
    Yields lenient (fun n => family n >>= next n) b := by
  rcases first with first | spoiled
  · exact second.imp first.bind fun spoiled => ⟨spoiled.1, first.bind spoiled.2⟩
  · exact .inr spoiled.bind

theorem of_succ (yields : Yields lenient (fun n => family (n + 1)) a)
    (zero : (family 0).run = none) : Yields lenient family a :=
  yields.imp (·.of_succ zero) fun spoiled => ⟨spoiled.1, spoiled.2.of_succ zero⟩

end Yields

namespace Stuck

theorem bind (stuck : Stuck m busy family) : Stuck m busy fun n => family n >>= next n :=
  fun n waiting => run_bind_none _ (stuck n waiting)

theorem after (settles : Settles family (.ok a)) (stuck : Stuck m busy (next · a)) :
    Stuck m busy fun n => family n >>= next n := by
  intro n waiting
  cases here : (family n).run with
  | none => exact run_bind_none _ here
  | some result =>
    obtain rfl := settles.only n result here
    rw [run_bind_ok _ here]
    exact stuck n waiting

theorem of_succ (stuck : Stuck m busy fun n => family (n + 1)) (zero : (family 0).run = none) :
    Stuck m busy family := by
  intro n waiting
  cases n with
  | zero => exact zero
  | succ n => exact stuck n fun errand mem less le => waiting errand mem less (by omega)

/-- A definition that waits for nothing but itself has no outcome. -/
theorem finish {errand : Errand}
    (stuck : Stuck m (errand :: busy) fun n =>
      denote m (n + 1) errand.env errand.definition.inner errand.definition.expr) :
    Stuck m busy fun n => denote m n errand.env errand.definition.inner errand.definition.expr := by
  intro n waiting
  induction n using Nat.strong_induction_on with
  | _ n ih =>
    cases n with
    | zero => rfl
    | succ n =>
      refine stuck n fun other mem less le => ?_
      rcases List.mem_cons.mp mem with rfl | mem
      · exact ih less (by omega) fun errand mem less' le' => waiting errand mem less' (by omega)
      · exact waiting other mem less (by omega)

/-- Nothing is under way between the steps of a host. -/
theorem diverges (stuck : Stuck m [] family) : Diverges family :=
  fun n => stuck n (by simp)

end Stuck

namespace Excused

theorem bind (excused : Excused m lenient busy family fault) :
    Excused m lenient busy (fun n => family n >>= next n) fault := by
  cases fault with
  | exception e =>
    rcases excused with fails | ⟨recursive, stuck⟩ | spoiled
    · exact .inl fails.stop
    · exact .inr (.inl ⟨recursive, stuck.bind⟩)
    · exact .inr (.inr spoiled.bind)
  | _ => trivial

theorem after (yields : Yields lenient family a)
    (excused : Excused m lenient busy (next · a) fault) :
    Excused m lenient busy (fun n => family n >>= next n) fault := by
  cases fault with
  | exception e =>
    rcases yields with settles | spoiled
    · rcases excused with fails | ⟨recursive, stuck⟩ | spoiled
      · exact .inl (settles.bind fails)
      · exact .inr (.inl ⟨recursive, stuck.after settles⟩)
      · exact .inr (.inr ⟨spoiled.1, settles.bind spoiled.2⟩)
    · exact .inr (.inr spoiled.bind)
  | _ => trivial

theorem of_succ (excused : Excused m lenient busy (fun n => family (n + 1)) fault)
    (zero : (family 0).run = none) : Excused m lenient busy family fault := by
  cases fault with
  | exception e =>
    rcases excused with fails | ⟨recursive, stuck⟩ | spoiled
    · exact .inl (fails.of_succ zero)
    · exact .inr (.inl ⟨recursive, stuck.of_succ zero⟩)
    · exact .inr (.inr ⟨spoiled.1, spoiled.2.of_succ zero⟩)
  | _ => trivial

theorem finish {errand : Errand}
    (excused : Excused m lenient (errand :: busy)
      (fun n => denote m (n + 1) errand.env errand.definition.inner errand.definition.expr) fault) :
    Excused m lenient busy
      (fun n => denote m n errand.env errand.definition.inner errand.definition.expr) fault := by
  cases fault with
  | exception e =>
    rcases excused with fails | ⟨recursive, stuck⟩ | spoiled
    · exact .inl (fails.of_succ rfl)
    · exact .inr (.inl ⟨recursive, stuck.finish⟩)
    · exact .inr (.inr ⟨spoiled.1, spoiled.2.of_succ rfl⟩)
  | _ => trivial

end Excused

end Outcomes

end ShapeLang.Reevaluation
