import Mathlib.Data.Nat.Digits.Defs
import ShapeLang.Shader.Statement

/-! # Float literals of shader code

A float literal has a point or an exponent, and digits. The pointed layout writes every finite
magnitude as one, and a sign in front of it.
-/

namespace ShapeLang

namespace Shader

/-- One or more decimal digits. -/
def IsDigits (cs : List Char) : Prop := cs ≠ [] ∧ ∀ c ∈ cs, isDecimalDigit c

/-- Digits with a point among them or next to them. -/
def IsFraction (cs : List Char) : Prop :=
  ∃ whole part, cs = whole ++ '.' :: part ∧ IsDigits (whole ++ part)

/-- A power of ten that scales a literal. -/
def IsExponent (cs : List Char) : Prop :=
  ∃ sign digits, cs = 'e' :: (sign ++ digits) ∧ sign ∈ [[], ['-'], ['+']] ∧ IsDigits digits

/-- A floating constant of shader code. -/
def IsFloatLiteral (cs : List Char) : Prop :=
  IsFraction cs ∨
    ∃ mantissa exponent, cs = mantissa ++ exponent ∧ (IsFraction mantissa ∨ IsDigits mantissa) ∧
      IsExponent exponent

end Shader

open Shader

namespace Layout

theorem isDigits_digitChars (n : Nat) : IsDigits (digitChars n) := by
  constructor
  · exact Nat.toDigits_ne_nil
  · intro c mem
    have digit := Nat.isDigit_of_mem_toDigits (by decide) (by decide) mem
    simp only [Char.isDigit, Bool.and_eq_true, decide_eq_true_eq] at digit
    simp only [isDecimalDigit, Bool.and_eq_true, decide_eq_true_eq]
    exact digit

/-- Digits without an exponent are written with a point. -/
theorem isFraction_pointedDigits {digits : List Char} (is : IsDigits digits) (exponent : Int) :
    IsFraction (pointed.pointedDigits digits exponent) := by
  obtain ⟨nonempty, all⟩ := is
  cases exponent with
  | ofNat zeros =>
    refine ⟨digits ++ List.replicate zeros '0', ['0'], by simp [pointedDigits, pointed], ?_, ?_⟩
    · simp
    · intro c mem
      simp only [List.append_assoc, List.mem_append, List.mem_replicate, List.mem_singleton] at mem
      rcases mem with mem | ⟨-, rfl⟩ | rfl
      · exact all c mem
      · rfl
      · rfl
  | negSucc before =>
    simp only [pointedDigits]
    split
    · refine ⟨_, _, rfl, ?_⟩
      rw [List.take_append_drop]
      exact ⟨nonempty, all⟩
    · refine ⟨['0'], _, rfl, by simp, ?_⟩
      intro c mem
      simp only [List.singleton_append, List.mem_cons, List.mem_append, List.mem_replicate] at mem
      rcases mem with rfl | ⟨-, rfl⟩ | mem
      · rfl
      · rfl
      · exact all c mem

theorem isFloatLiteral_exponentDigits {digits : List Char} (is : IsDigits digits) (leading : Int) :
    IsFloatLiteral (exponentDigits digits leading) := by
  obtain ⟨nonempty, all⟩ := is
  obtain ⟨first, tail, rfl⟩ := List.exists_cons_of_ne_nil nonempty
  have exponent : IsExponent ('e' :: ((if leading < 0 then ['-'] else []) ++
      digitChars leading.natAbs)) := by
    refine ⟨_, _, rfl, ?_, isDigits_digitChars _⟩
    split <;> simp
  right
  cases tail with
  | nil => exact ⟨[first], _, by simp [exponentDigits], .inr ⟨by simp, all⟩, exponent⟩
  | cons second tail =>
    exact ⟨first :: '.' :: second :: tail, _, by simp [exponentDigits],
      .inl ⟨[first], second :: tail, rfl, by simp, all⟩, exponent⟩

theorem isFloatLiteral_magnitudeChars (x : Dyadic) :
    IsFloatLiteral (pointed.magnitudeChars x) := by
  unfold magnitudeChars
  split
  · exact .inl (isFraction_pointedDigits ⟨by simp, List.forall_mem_singleton.mpr rfl⟩ 0)
  · unfold decimalChars
    dsimp only
    split
    · exact .inl (isFraction_pointedDigits (isDigits_digitChars _) _)
    · exact isFloatLiteral_exponentDigits (isDigits_digitChars _) _

end Layout

namespace FloatClass

/-- The exponent field of a finite float is not full. -/
theorem exponentField_ne {x : Float} (finite : x.isFinite) :
    x.toBits.toNat / Nat.pow 2 52 % Nat.pow 2 11 ≠ Nat.pow 2 11 - 1 := by
  intro full
  have exponent : @Float.Model.UnpackedFloat.unpackExponent Float.Model.Format.binary64
      x.toBits.toBitVec = -1#11 := by
    apply BitVec.eq_of_toNat_eq
    simpa [Float.Model.UnpackedFloat.unpackExponent, Nat.shiftRight_eq_div_pow] using full
  have infinite : x.isFinite = false := by
    unfold Float.isFinite Float.Model.isFinite Float.Model.unpack Float.Model.UnpackedFloat.unpack
    delta Float.toBits at exponent
    simp only [exponent, ↓reduceIte]
    split
    · rfl
    · rfl
  simp [infinite] at finite

/-- A finite float is a sign and a magnitude. -/
theorem ofFloat_finite {x : Float} (finite : x.isFinite) :
    ∃ magnitude, ofFloat x = .finite (signBit x) magnitude := by
  simp only [ofFloat, ofBits, exponentField_ne finite, ↓reduceIte]
  split
  · exact ⟨_, rfl⟩
  · exact ⟨_, rfl⟩

end FloatClass

namespace Shader

/-- The text of a finite number is a literal, or the negative of a literal in parentheses. -/
theorem numberText_cases {x : Float} (finite : x.isFinite) :
    ∃ literal : String, IsFloatLiteral literal.toList ∧
      (numberText x = literal ∨ numberText x = "(" ++ ("-" ++ literal) ++ ")") := by
  obtain ⟨magnitude, is⟩ := FloatClass.ofFloat_finite finite
  refine ⟨String.ofList (Layout.pointed.magnitudeChars magnitude), ?_, ?_⟩
  · rw [String.toList_ofList]
    exact Layout.isFloatLiteral_magnitudeChars magnitude
  · unfold numberText Layout.text Layout.chars
    rw [is]
    cases signBit x with
    | false => exact .inl rfl
    | true =>
      right
      have sign : String.ofList ('-' :: Layout.pointed.magnitudeChars magnitude) =
          "-" ++ String.ofList (Layout.pointed.magnitudeChars magnitude) := by
        rw [← String.toList_inj]
        simp
      simp only [↓reduceIte, sign]

end Shader

end ShapeLang
