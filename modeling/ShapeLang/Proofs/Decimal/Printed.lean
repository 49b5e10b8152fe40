import ShapeLang.Proofs.Decimal.Integers

/-! # The text of a finite number

The text of a finite number is a numeral without an exponent, behind a sign if the number is
negative. It denotes the number, provided that the digits of the plain layout do.
-/

namespace ShapeLang

open Numeral (IsPart)
open Shader (IsDigits)

namespace Numeral

/-- A numeral without an exponent. -/
def IsPlain (cs : List Char) : Prop :=
  ∃ digits part, cs = digits ++ part ∧ IsDigits digits ∧ IsPart part

variable {cs : List Char}

theorem IsPlain.of_digits (are : IsDigits cs) : IsPlain cs :=
  ⟨cs, [], (List.append_nil cs).symm, are, .inl rfl⟩

theorem floatOfChars?_plain {digits part : List Char} (are : IsDigits digits) (isPart : IsPart part) :
    floatOfChars? (digits ++ part) = some (toFloat ⟨digits, part.drop 1, 0⟩) := by
  have denotes : floatOfChars? (digits ++ (part ++ [])) = some (toFloat ⟨digits, part.drop 1, 0⟩) :=
    floatOfChars?_numeral are isPart (.inl rfl) rfl
  rwa [List.append_nil] at denotes

theorem IsPlain.denotes (is : IsPlain cs) : ∃ y, floatOfChars? cs = some y := by
  obtain ⟨digits, part, rfl, are, isPart⟩ := is
  exact ⟨_, floatOfChars?_plain are isPart⟩

theorem IsPlain.negative (is : IsPlain cs) :
    floatOfChars? ('-' :: cs) = (floatOfChars? cs).map Float.neg := by
  obtain ⟨digits, part, rfl, are, -⟩ := is
  rw [floatOfChars?_unsigned are]
  rfl

end Numeral

open Numeral (IsPlain)

namespace Layout

theorem isPlain_pointedDigits {digits : List Char} (are : IsDigits digits) (exponent : Int) :
    IsPlain (plain.pointedDigits digits exponent) := by
  cases exponent with
  | ofNat zeros =>
    refine .of_digits ⟨by simp [pointedDigits, are.1], fun c mem => ?_⟩
    simp only [pointedDigits, plain, Bool.false_eq_true, ↓reduceIte, List.append_nil,
      List.mem_append, List.mem_replicate] at mem
    rcases mem with mem | ⟨-, rfl⟩
    · exact are.2 c mem
    · rfl
  | negSucc before =>
    simp only [pointedDigits]
    split
    · rename_i short
      refine ⟨_, _, rfl, ⟨?_, fun c mem => are.2 c (List.mem_of_mem_take mem)⟩,
        .inr ⟨_, rfl, ?_, fun c mem => are.2 c (List.mem_of_mem_drop mem)⟩⟩
      · rw [← List.length_pos_iff, List.length_take]
        omega
      · rw [← List.length_pos_iff, List.length_drop]
        omega
    · refine ⟨['0'], _, rfl, ⟨by simp, List.forall_mem_singleton.mpr rfl⟩,
        .inr ⟨_, rfl, by simp [are.1], fun c mem => ?_⟩⟩
      simp only [List.mem_append, List.mem_replicate] at mem
      rcases mem with ⟨-, rfl⟩ | mem
      · rfl
      · exact are.2 c mem

theorem isPlain_magnitudeChars (x : Dyadic) : IsPlain (plain.magnitudeChars x) := by
  unfold magnitudeChars
  split
  · exact isPlain_pointedDigits ⟨by simp, List.forall_mem_singleton.mpr rfl⟩ 0
  · exact isPlain_pointedDigits (isDigits_digitChars _) _

/-- The plain text of a finite number: its magnitude, and perhaps a sign. -/
theorem plain_chars_finite {x : Float} (finite : x.isFinite) : ∃ cs, IsPlain cs ∧
    (plain.chars x = cs ∨ plain.chars x = '-' :: cs) := by
  obtain ⟨magnitude, is⟩ := FloatClass.ofFloat_finite finite
  refine ⟨_, isPlain_magnitudeChars magnitude, ?_⟩
  unfold chars
  rw [is]
  cases signBit x with
  | false => exact .inl rfl
  | true => exact .inr rfl

end Layout

theorem beq_self_of_isFinite {x : Float} (finite : x.isFinite) : (x == x) = true := by
  have reflexive (u : Float.Model.UnpackedFloat) (finite : u.isFinite = true) : u.beq u = true := by
    cases u with
    | infinity => cases finite
    | notANumber => cases finite
    | zero sign => rfl
    | finite sign mantissa exponent positive =>
      have same : (compare exponent exponent).then (compare mantissa mantissa) = .eq := by simp
      cases sign with
      | positive =>
        change (some ((compare exponent exponent).then (compare mantissa mantissa)) ==
          some Ordering.eq) = true
        rw [same]
        rfl
      | negative =>
        change (some ((compare exponent exponent).then (compare mantissa mantissa)).swap ==
          some Ordering.eq) = true
        rw [same]
        rfl
  exact reflexive _ finite

/-- Equal numbers, whichever of them stands first. -/
def SameNumber (x y : Float) : Prop := (x == y) = true ∧ (y == x) = true

namespace Value

/-- A numeral without an exponent, or its negative. It denotes the number, also where an integer is
written without the digits of the plain layout. -/
theorem numberText_denotes {x : Float} (finite : x.isFinite)
    (exact : floatOfChars? (Layout.plain.chars x) = some x) : ∃ cs y, IsPlain cs ∧
      floatOfChars? cs = some y ∧
      ((numberText x).toList = cs ∧ SameNumber y x ∨
        (numberText x).toList = '-' :: cs ∧ SameNumber y.neg x) := by
  have self : SameNumber x x := ⟨beq_self_of_isFinite finite, beq_self_of_isFinite finite⟩
  -- In the plain layout the text denotes the number itself.
  have plainly (text : (numberText x).toList = Layout.plain.chars x) : ∃ cs y, IsPlain cs ∧
      floatOfChars? cs = some y ∧
      ((numberText x).toList = cs ∧ SameNumber y x ∨
        (numberText x).toList = '-' :: cs ∧ SameNumber y.neg x) := by
    obtain ⟨cs, is, same | same⟩ := Layout.plain_chars_finite finite
    · exact ⟨cs, x, is, same ▸ exact, .inl ⟨text.trans same, self⟩⟩
    · obtain ⟨y, denotes⟩ := is.denotes
      rw [same, is.negative, denotes] at exact
      obtain rfl := Option.some.inj exact
      exact ⟨cs, y, is, denotes, .inr ⟨text.trans same, self⟩⟩
  cases value : integerValue? x with
  | none => exact plainly (by simp [numberText, value, Layout.text])
  | some n =>
    by_cases small : n.natAbs < 10 ^ 15
    · have text : (numberText x).toList =
          (if n < 0 then ['-'] else []) ++ Layout.digitChars n.natAbs := by
        simp only [numberText, value, Nat.pow_eq, if_pos small, String.toList_ofList]
      obtain ⟨negative, chars, below, above⟩ := Layout.plain_chars_integer value small
      rcases Int.lt_trichotomy n 0 with less | rfl | more
      · exact plainly (by rw [text, chars, below less, if_pos less]; rfl)
      · refine ⟨['0'], 0.0, .of_digits ⟨by simp, List.forall_mem_singleton.mpr rfl⟩, rfl,
          .inl ⟨text, ?_⟩⟩
        cases negative with
        | false =>
          have zero : x = 0.0 := Option.some.inj (exact.symm.trans (by rw [chars]; rfl))
          rw [zero]
          exact ⟨by decide +kernel, by decide +kernel⟩
        | true =>
          have zero : x = Float.neg 0.0 := Option.some.inj (exact.symm.trans (by rw [chars]; rfl))
          rw [zero]
          exact ⟨by decide +kernel, by decide +kernel⟩
      · exact plainly (by rw [text, chars, above more, if_neg (by omega)]; rfl)
    · refine plainly ?_
      simp only [numberText, value, Nat.pow_eq, if_neg small, Layout.text, String.toList_ofList]

end Value

end ShapeLang
