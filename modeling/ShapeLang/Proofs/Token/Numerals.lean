import Mathlib.Data.List.TakeWhile
import Mathlib.Tactic.IntervalCases
import ShapeLang.Proofs.Shader.Literals
import ShapeLang.Proofs.Token.Patterns

/-! # The longest numeral

Scanning a numeral takes the longest match of its pattern. An exponent mark without digits, or a
point without digits, is no part of it.
-/

namespace ShapeLang

section Runs

variable {p : Char → Bool} {run more text : List Char}

/-- Characters that pass a test stand in the longest run of them. -/
theorem length_le_takeWhile (all : ∀ c ∈ run, p c) (starts : run <+: text) :
    run.length ≤ (text.takeWhile p).length := by
  obtain ⟨rest, rfl⟩ := starts
  rw [List.takeWhile_append_of_pos all]
  simp

/-- A run that goes on with something else is the longest one. -/
theorem eq_takeWhile (all : ∀ c ∈ run, p c) {c : Char} (other : p c = false)
    (starts : run ++ c :: more <+: text) :
    run = text.takeWhile p ∧ c :: more <+: text.dropWhile p := by
  obtain ⟨rest, rfl⟩ := starts
  have stops : ¬ p c = true := by simp [other]
  rw [List.append_assoc, List.takeWhile_append_of_pos all, List.dropWhile_append_of_pos all,
    List.cons_append, List.takeWhile_cons_of_neg stops, List.dropWhile_cons_of_neg stops]
  exact ⟨(List.append_nil run).symm, List.prefix_append (c :: more) rest⟩

end Runs

namespace Numeral

open Shader (IsDigits)

/-- A point and digits, or nothing. -/
def IsPart (cs : List Char) : Prop := cs = [] ∨ ∃ digits, cs = '.' :: digits ∧ IsDigits digits

/-- A mark, perhaps a sign, and digits, or nothing. -/
def IsScale (cs : List Char) : Prop :=
  cs = [] ∨ ∃ mark sign digits, cs = mark :: (sign ++ digits) ∧ (mark = 'e' ∨ mark = 'E') ∧
    sign ∈ [[], ['-'], ['+']] ∧ IsDigits digits

variable {cs digits part scale : List Char}

theorem mem_oneOrMore_digit : cs ∈ Pattern.oneOrMore Pattern.digit ↔ IsDigits cs := by
  rw [Pattern.digit, Pattern.mem_oneOrMore_oneOf]
  simp [IsDigits, isDecimalDigit]

theorem mem_part : cs ∈ Pattern.optional (Pattern.word "." * Pattern.oneOrMore Pattern.digit) ↔
    IsPart cs := by
  rw [Pattern.mem_optional]
  apply or_congr_right
  constructor
  · rintro ⟨_, rfl, digits, matched, rfl⟩
    exact ⟨digits, rfl, mem_oneOrMore_digit.mp matched⟩
  · rintro ⟨digits, rfl, are⟩
    exact ⟨_, rfl, digits, mem_oneOrMore_digit.mpr are, rfl⟩

theorem mem_scale :
    cs ∈ Pattern.optional (Pattern.oneOf (· ∈ ['e', 'E']) *
      Pattern.optional (Pattern.oneOf (· ∈ ['+', '-'])) * Pattern.oneOrMore Pattern.digit) ↔
    IsScale cs := by
  rw [Pattern.mem_optional]
  apply or_congr_right
  constructor
  · rintro ⟨_, ⟨_, ⟨mark, marks, rfl⟩, sign, signs, rfl⟩, digits, matched, rfl⟩
    refine ⟨mark, sign, digits, rfl, by simpa using marks, ?_, mem_oneOrMore_digit.mp matched⟩
    rcases Pattern.mem_optional.mp signs with rfl | ⟨c, is, rfl⟩
    · simp
    · simpa [or_comm] using is
  · rintro ⟨mark, sign, digits, rfl, marks, signs, are⟩
    have signed : sign ∈ Pattern.optional (Pattern.oneOf (· ∈ ['+', '-'])) := by
      rw [Pattern.mem_optional]
      simp only [List.mem_cons, List.not_mem_nil, or_false] at signs
      rcases signs with rfl | rfl | rfl
      · exact .inl rfl
      · exact .inr ⟨'-', by simp, rfl⟩
      · exact .inr ⟨'+', by simp, rfl⟩
    exact ⟨mark :: sign, ⟨[mark], ⟨mark, by simpa using marks, rfl⟩, sign, signed, rfl⟩, digits,
      mem_oneOrMore_digit.mpr are, rfl⟩

/-- A numeral is a run of digits, a part and a scale. -/
theorem mem_number : cs ∈ Rule.number.pattern ↔ ∃ digits part scale,
    cs = digits ++ (part ++ scale) ∧ IsDigits digits ∧ IsPart part ∧ IsScale scale := by
  constructor
  · rintro ⟨_, ⟨digits, first, part, second, rfl⟩, scale, third, rfl⟩
    exact ⟨digits, part, scale, List.append_assoc .., mem_oneOrMore_digit.mp first,
      mem_part.mp second, mem_scale.mp third⟩
  · rintro ⟨digits, part, scale, rfl, first, second, third⟩
    exact ⟨_, ⟨digits, mem_oneOrMore_digit.mpr first, part, mem_part.mpr second, rfl⟩, scale,
      mem_scale.mpr third, List.append_assoc ..⟩

theorem IsPart.starts (is : IsPart part) : part = [] ∨ ∃ rest, part = '.' :: rest :=
  is.imp_right fun ⟨digits, same, _⟩ => ⟨digits, same⟩

theorem IsScale.starts (is : IsScale scale) :
    scale = [] ∨ ∃ mark rest, scale = mark :: rest ∧ (mark = 'e' ∨ mark = 'E') :=
  is.imp_right fun ⟨mark, _, _, same, marks, _⟩ => ⟨mark, _, same, marks⟩

/-- Digits that go on with something else than a digit, if they go on. -/
theorem digits_split {run more text : List Char} (are : IsDigits run)
    (stops : more = [] ∨ ∃ c rest, more = c :: rest ∧ isDecimalDigit c = false)
    (starts : run ++ more <+: text) :
    (more = [] ∧ run.length ≤ (text.takeWhile isDecimalDigit).length) ∨
      (run = text.takeWhile isDecimalDigit ∧ more <+: text.dropWhile isDecimalDigit) := by
  rcases stops with rfl | ⟨c, rest, rfl, other⟩
  · exact .inl ⟨rfl, length_le_takeWhile are.2 (by simpa using starts)⟩
  · exact .inr (eq_takeWhile are.2 other starts)

theorem IsScale.stops (is : IsScale scale) :
    scale = [] ∨ ∃ c rest, scale = c :: rest ∧ isDecimalDigit c = false := by
  rcases is.starts with rfl | ⟨mark, rest, rfl, rfl | rfl⟩
  · exact .inl rfl
  · exact .inr ⟨_, rest, rfl, by decide⟩
  · exact .inr ⟨_, rest, rfl, by decide⟩

theorem isDigits_takeWhile {text : List Char}
    (some : ¬ (text.takeWhile isDecimalDigit).isEmpty = true) :
    IsDigits (text.takeWhile isDecimalDigit) :=
  ⟨fun empty => some (by simp [empty]), fun _ mem => List.mem_takeWhile_imp mem⟩

/-- Neither a part nor a scale starts with a digit. -/
theorem IsPart.stops (isPart : IsPart part) (isScale : IsScale scale) : part ++ scale = [] ∨
    ∃ c rest, part ++ scale = c :: rest ∧ isDecimalDigit c = false := by
  rcases isPart.starts with rfl | ⟨rest, rfl⟩
  · exact isScale.stops
  · exact .inr ⟨'.', rest ++ scale, rfl, by decide⟩

/-- Digits that go on with something else are cut off in front of it. -/
theorem cut_digits {run more : List Char} (are : ∀ c ∈ run, isDecimalDigit c = true)
    (stops : more = [] ∨ ∃ c rest, more = c :: rest ∧ isDecimalDigit c = false) :
    (run ++ more).takeWhile isDecimalDigit = run ∧
      (run ++ more).dropWhile isDecimalDigit = more := by
  rw [List.takeWhile_append_of_pos are, List.dropWhile_append_of_pos are]
  rcases stops with rfl | ⟨c, rest, rfl, other⟩
  · simp
  · simp [other]

/-- What stands before the scale takes as much of the text as it can. -/
theorem scanFraction_spec (cs : List Char) : ∃ taken, IsPart taken ∧
    cs = taken ++ (scanFraction cs).2 ∧ (scanFraction cs).1 = taken.drop 1 ∧
    ∀ part scale, IsPart part → IsScale scale → part ++ scale <+: cs →
      (scale = [] ∧ part.length ≤ taken.length) ∨
        (part = taken ∧ scale <+: (scanFraction cs).2) := by
  -- Where no point with digits follows, no part of a numeral can be longer.
  have without (none : ∀ digits, IsDigits digits → ¬ '.' :: digits <+: cs) :
      ∀ part scale, IsPart part → IsScale scale → part ++ scale <+: cs →
        (scale = [] ∧ part.length ≤ 0) ∨ (part = [] ∧ scale <+: cs) := by
    rintro part scale (rfl | ⟨digits, rfl, are⟩) - starts
    · exact .inr ⟨rfl, starts⟩
    · exact (none digits are ((List.prefix_append ..).trans starts)).elim
  unfold scanFraction
  split
  · rename_i rest
    dsimp only
    split
    · rename_i empty
      refine ⟨[], .inl rfl, rfl, rfl, without fun digits are starts => ?_⟩
      have inside := length_le_takeWhile are.2 (List.cons_prefix_cons.mp starts).2
      rw [List.isEmpty_iff.mp empty, List.length_nil, Nat.le_zero] at inside
      exact are.1 (List.length_eq_zero_iff.mp inside)
    · rename_i some
      have are := isDigits_takeWhile some
      refine ⟨'.' :: rest.takeWhile isDecimalDigit, .inr ⟨_, rfl, are⟩, ?_, rfl, ?_⟩
      · simp
      · rintro part scale (rfl | ⟨digits, rfl, are'⟩) isScale starts
        · rcases isScale.starts with rfl | ⟨mark, more, rfl, marks⟩
          · exact .inl ⟨rfl, by simp⟩
          · have same := (List.cons_prefix_cons.mp starts).1
            subst same
            simp at marks
        · have after := (List.cons_prefix_cons.mp starts).2
          rcases digits_split are' isScale.stops after with ⟨rfl, le⟩ | ⟨rfl, more⟩
          · exact .inl ⟨rfl, Nat.succ_le_succ le⟩
          · exact .inr ⟨rfl, more⟩
  · rename_i noPoint
    refine ⟨[], .inl rfl, rfl, rfl, without fun digits are starts => ?_⟩
    obtain ⟨rest, same⟩ := starts
    exact noPoint _ same.symm

/-- A text with the sign at its start cut off. -/
theorem exists_signed (text : List Char) : ∃ sign unsigned : List Char,
    text = sign ++ unsigned ∧ sign ∈ [[], ['-'], ['+']] ∧
      (sign = [] → ∀ c rest, unsigned = c :: rest → c ≠ '-' ∧ c ≠ '+') := by
  cases text with
  | nil => exact ⟨[], [], rfl, by simp, by simp⟩
  | cons c rest =>
    by_cases signs : c = '-' ∨ c = '+'
    · refine ⟨[c], rest, rfl, ?_, by simp⟩
      rcases signs with rfl | rfl <;> simp
    · refine ⟨[], c :: rest, rfl, by simp, fun _ d more same => ?_⟩
      cases same
      exact not_or.mp signs

/-- Digits start after the sign. -/
theorem digits_after_sign {sign sign' unsigned digits : List Char}
    (signs : sign ∈ [[], ['-'], ['+']])
    (free : sign = [] → ∀ c rest, unsigned = c :: rest → c ≠ '-' ∧ c ≠ '+')
    (signs' : sign' ∈ [[], ['-'], ['+']]) (are : IsDigits digits)
    (starts : sign' ++ digits <+: sign ++ unsigned) : sign' = sign ∧ digits <+: unsigned := by
  obtain ⟨first, rest, rfl⟩ := List.exists_cons_of_ne_nil are.1
  have digit := are.2 first (by simp)
  have notMinus : first ≠ '-' := by rintro rfl; simp [isDecimalDigit] at digit
  have notPlus : first ≠ '+' := by rintro rfl; simp [isDecimalDigit] at digit
  obtain ⟨more, same⟩ := starts
  simp only [List.mem_cons, List.not_mem_nil, or_false] at signs signs'
  rcases signs with rfl | rfl | rfl
  · rcases signs' with rfl | rfl | rfl
    · exact ⟨rfl, more, same⟩
    · exact ((free rfl '-' _ same.symm).1 rfl).elim
    · exact ((free rfl '+' _ same.symm).2 rfl).elim
  · rcases signs' with rfl | rfl | rfl <;> simp_all
    exact ⟨more, same⟩
  · rcases signs' with rfl | rfl | rfl <;> simp_all
    exact ⟨more, same⟩

theorem scanExponent_cons {mark : Char} (marks : mark = 'e' ∨ mark = 'E')
    {sign unsigned : List Char} (signs : sign ∈ [[], ['-'], ['+']])
    (free : sign = [] → ∀ c rest, unsigned = c :: rest → c ≠ '-' ∧ c ≠ '+') :
    scanExponent (mark :: (sign ++ unsigned)) =
      if (unsigned.takeWhile isDecimalDigit).isEmpty then (0, mark :: (sign ++ unsigned))
      else
        (if sign = ['-'] then -(digitsValue (unsigned.takeWhile isDecimalDigit) : Int)
          else digitsValue (unsigned.takeWhile isDecimalDigit),
        unsigned.dropWhile isDecimalDigit) := by
  unfold scanExponent
  dsimp only
  rw [if_pos marks]
  simp only [List.mem_cons, List.not_mem_nil, or_false] at signs
  rcases signs with rfl | rfl | rfl
  · cases unsigned with
    | nil => simp
    | cons c rest =>
      obtain ⟨minus, plus⟩ := free rfl c rest rfl
      simp [minus, plus]
  · simp
  · simp

/-- A scale takes as much of the text as it can. -/
theorem scanExponent_spec (cs : List Char) : ∃ taken, IsScale taken ∧
    cs = taken ++ (scanExponent cs).2 ∧ scanExponent taken = ((scanExponent cs).1, []) ∧
    ∀ scale, IsScale scale → scale <+: cs → scale.length ≤ taken.length := by
  by_cases starts : ∃ mark rest, cs = mark :: rest ∧ (mark = 'e' ∨ mark = 'E')
  · obtain ⟨mark, rest, rfl, marks⟩ := starts
    obtain ⟨sign, unsigned, rfl, signs, free⟩ := exists_signed rest
    -- Whatever scale the text starts with, its digits stand here.
    have inside (digits : List Char) (mark' : Char) (sign' : List Char)
        (signs' : sign' ∈ [[], ['-'], ['+']]) (are : IsDigits digits)
        (starts : mark' :: (sign' ++ digits) <+: mark :: (sign ++ unsigned)) :
        sign' = sign ∧ digits.length ≤ (unsigned.takeWhile isDecimalDigit).length := by
      obtain ⟨same, within⟩ :=
        digits_after_sign signs free signs' are (List.cons_prefix_cons.mp starts).2
      exact ⟨same, length_le_takeWhile are.2 within⟩
    rw [scanExponent_cons marks signs free]
    split
    · rename_i empty
      refine ⟨[], .inl rfl, rfl, rfl, ?_⟩
      rintro scale (rfl | ⟨mark', sign', digits, rfl, -, signs', are⟩) starts
      · exact Nat.le_refl _
      · have none := (inside digits mark' sign' signs' are starts).2
        rw [List.isEmpty_iff.mp empty, List.length_nil, Nat.le_zero] at none
        exact (are.1 (List.length_eq_zero_iff.mp none)).elim
    · rename_i some
      have are := isDigits_takeWhile some
      have taken : (unsigned.takeWhile isDecimalDigit).takeWhile isDecimalDigit =
          unsigned.takeWhile isDecimalDigit := List.takeWhile_eq_self_iff.mpr are.2
      refine ⟨mark :: (sign ++ unsigned.takeWhile isDecimalDigit),
        .inr ⟨mark, sign, _, rfl, marks, signs, are⟩, ?_, ?_, ?_⟩
      · simp
      · rw [scanExponent_cons marks signs, taken, if_neg some,
          List.dropWhile_eq_nil_iff.mpr are.2]
        intro unsigned c rest same
        have digit := are.2 c (by simp [same])
        constructor <;> rintro rfl <;> simp [isDecimalDigit] at digit
      · rintro scale (rfl | ⟨mark', sign', digits, rfl, -, signs', are'⟩) starts
        · exact Nat.zero_le _
        · obtain ⟨rfl, le⟩ := inside digits mark' sign' signs' are' starts
          simpa using le
  · have same : scanExponent cs = (0, cs) := by
      unfold scanExponent
      split
      · rename_i mark rest
        rw [if_neg fun marks => starts ⟨mark, rest, rfl, marks⟩]
      · rfl
    refine ⟨[], .inl rfl, by simp [same], by rw [same]; rfl, ?_⟩
    intro scale is within
    rcases is.starts with rfl | ⟨mark, rest, rfl, marks⟩
    · exact Nat.le_refl _
    · obtain ⟨more, rfl⟩ := within
      exact (starts ⟨mark, _, rfl, marks⟩).elim

theorem mem_of_isDecimalDigit {c : Char} (digit : isDecimalDigit c = true) :
    c ∈ ['0', '1', '2', '3', '4', '5', '6', '7', '8', '9'] := by
  simp only [isDecimalDigit, Bool.and_eq_true, decide_eq_true_eq, Char.le_def,
    UInt32.le_iff_toNat_le] at digit
  have range : 48 ≤ c.toNat ∧ c.toNat ≤ 57 := digit
  obtain ⟨n, code⟩ : ∃ n, c.toNat = n := ⟨_, rfl⟩
  have is : c = Char.ofNat n := by rw [← code, Char.ofNat_toNat]
  rw [code] at range
  obtain ⟨low, high⟩ := range
  subst is
  clear code
  interval_cases n <;> decide

/-- What starts with a digit has no sign, and is no name of a number. -/
theorem plain_of_digit {c : Char} (digit : isDecimalDigit c = true) :
    c ≠ '-' ∧ c ≠ '+' ∧ c.toLower ≠ 'i' ∧ c.toLower ≠ 'n' := by
  have plain : ['0', '1', '2', '3', '4', '5', '6', '7', '8', '9'].all fun c =>
      c ≠ '-' ∧ c ≠ '+' ∧ c.toLower ≠ 'i' ∧ c.toLower ≠ 'n' := by decide
  exact of_decide_eq_true (List.all_eq_true.mp plain c (mem_of_isDecimalDigit digit))

theorem floatOfChars?_unsigned (are : IsDigits digits) (more : List Char) :
    floatOfChars? (digits ++ more) = magnitudeOfChars? (digits ++ more) := by
  obtain ⟨c, rest, rfl⟩ := List.exists_cons_of_ne_nil are.1
  obtain ⟨minus, plus, -, -⟩ := plain_of_digit (are.2 c (by simp))
  simp [floatOfChars?, minus, plus]

/-- The text of a numeral denotes it. -/
theorem floatOfChars?_numeral (are : IsDigits digits) (isPart : IsPart part)
    (isScale : IsScale scale) {exponent : Int} (scanned : scanExponent scale = (exponent, [])) :
    floatOfChars? (digits ++ (part ++ scale)) =
      some (toFloat ⟨digits, part.drop 1, exponent⟩) := by
  obtain ⟨whole, after⟩ := cut_digits are.2 (isPart.stops isScale)
  rw [floatOfChars?_unsigned are]
  obtain ⟨c, rest, rfl⟩ := List.exists_cons_of_ne_nil are.1
  obtain ⟨-, -, noI, noN⟩ := plain_of_digit (are.2 c (by simp))
  unfold magnitudeOfChars?
  dsimp only
  rw [if_neg, if_neg, whole, after]
  · rcases isPart with rfl | ⟨places, rfl, arePlaces⟩
    · rcases isScale.starts with rfl | ⟨mark, more, rfl, rfl | rfl⟩
      · simp [scanned]
      · simp [scanned]
      · simp [scanned]
    · obtain ⟨between, behind⟩ := cut_digits arePlaces.2 isScale.stops
      simp [between, behind, scanned]
  · simp [noN]
  · simp [noI]

/-- The numeral that is scanned is the longest one, and its text denotes it. -/
theorem scan_spec {cs : List Char} (first : ∃ c rest, cs = c :: rest ∧ isDecimalDigit c = true) :
    ∃ taken, cs = taken ++ (scan cs).2 ∧ taken ∈ Rule.number.pattern ∧
      (∀ longer, longer <+: cs → longer ∈ Rule.number.pattern → longer.length ≤ taken.length) ∧
      floatOfChars? taken = some (scan cs).1.toFloat := by
  obtain ⟨part, isPart, cutPart, fraction, longestPart⟩ :=
    scanFraction_spec (cs.dropWhile isDecimalDigit)
  obtain ⟨scale, isScale, cutScale, exponent, longestScale⟩ :=
    scanExponent_spec (scanFraction (cs.dropWhile isDecimalDigit)).2
  have are : IsDigits (cs.takeWhile isDecimalDigit) := by
    obtain ⟨c, rest, rfl, digit⟩ := first
    exact isDigits_takeWhile (by simp [digit])
  have whole : cs = cs.takeWhile isDecimalDigit ++ (part ++ scale) ++ (scan cs).2 := by
    have after : (scan cs).2 = (scanExponent (scanFraction (cs.dropWhile isDecimalDigit)).2).2 := rfl
    rw [after, List.append_assoc, List.append_assoc, ← cutScale, ← cutPart,
      List.takeWhile_append_dropWhile]
  refine ⟨_, whole, mem_number.mpr ⟨_, _, _, rfl, are, isPart, isScale⟩, ?_, ?_⟩
  · intro longer starts matched
    obtain ⟨digits, part', scale', rfl, are', isPart', isScale'⟩ := mem_number.mp matched
    rcases digits_split are' (isPart'.stops isScale') starts with ⟨empty, le⟩ | ⟨same, more⟩
    · rw [empty, List.append_nil]
      simp only [List.length_append]
      omega
    · have sizes : (part' ++ scale').length ≤ (part ++ scale).length := by
        rcases longestPart part' scale' isPart' isScale' more with ⟨rfl, le⟩ | ⟨rfl, more'⟩
        · simp only [List.append_nil, List.length_append]
          omega
        · have le := longestScale scale' isScale' more'
          simp only [List.length_append]
          omega
      rw [same]
      simp only [List.length_append] at sizes ⊢
      omega
  · rw [floatOfChars?_numeral are isPart isScale exponent, ← fraction]
    rfl

end Numeral

end ShapeLang
