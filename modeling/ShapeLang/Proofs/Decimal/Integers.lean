import ShapeLang.Proofs.Token.Numerals

/-! # The text of an integer

The significand of a float has at least 53 bits unless the float is tiny. An integer below `10 ^ 15`
has fewer, so no other decimal with as few digits is close to it: the fewest digits that identify it
are its own, and the layout puts back the zeros that are cut off.
-/

namespace ShapeLang

namespace Dyadic

/-- An integer, in units that are smaller than an eighth. -/
def IsInteger (x : Dyadic) (n : Nat) : Prop :=
  ∃ k : Nat, 3 ≤ k ∧ x.exponent = -(k : Int) ∧ x.significand = n * 2 ^ k

variable {x : Dyadic} {n : Nat} {d : Decimal} {exponent : Int}

/-- Of the integers only the number itself is close enough to be taken for it. -/
theorem IsInteger.identifiedBy_iff (is : x.IsInteger n) (pos : 0 < n) (a e : Nat) :
    x.identifiedBy ⟨a, e⟩ = true ↔ a * 10 ^ e = n := by
  obtain ⟨k, enough, exponent, significand⟩ := is
  obtain ⟨unit, unit_eq⟩ : ∃ unit, 2 ^ (k + 2) = unit := ⟨_, rfl⟩
  have large : 32 ≤ unit := by
    rw [← unit_eq]
    exact Nat.pow_le_pow_right (show 0 < 2 by decide) (show 5 ≤ k + 2 by omega)
  have quarters : 4 * x.significand = n * unit := by
    rw [significand, ← unit_eq, Nat.pow_add]
    ring
  have far : 32 ≤ n * unit := Nat.le_trans large (Nat.le_mul_of_pos_left unit pos)
  obtain ⟨v, v_eq⟩ : ∃ v, a * 10 ^ e = v := ⟨_, rfl⟩
  have scaled (bound : Nat) :
      compareScaled a (e : Int) bound (x.exponent - 2) = compare (v * unit) bound := by
    have up : (-(x.exponent - 2)).toNat = k + 2 := by omega
    have down : (x.exponent - 2).toNat = 0 := by omega
    have whole : (-(e : Int)).toNat = 0 := by omega
    unfold compareScaled
    rw [up, down, whole, Int.toNat_natCast]
    simp only [Nat.pow_eq, Nat.pow_zero, Nat.mul_one, v_eq, unit_eq]
  have near : v * unit ≥ n * unit - 2 ∧ v * unit ≤ n * unit + 2 ↔ v = n := by
    constructor
    · rintro ⟨low, high⟩
      rcases Nat.lt_trichotomy v n with less | same | more
      · have := Nat.mul_le_mul_right unit less
        rw [Nat.succ_mul] at this
        omega
      · exact same
      · have := Nat.mul_le_mul_right unit more
        rw [Nat.succ_mul] at this
        omega
    · rintro rfl
      omega
  unfold identifiedBy
  simp only [scaled, quarters, v_eq, Bool.and_eq_true, Bool.or_eq_true, beq_iff_eq,
    Nat.compare_eq_gt, Nat.compare_eq_lt, Nat.compare_eq_eq]
  rw [← near]
  constructor
  · rintro ⟨low, high⟩
    split at low <;> omega
  · intro within
    obtain rfl := near.mp within
    split <;> omega

/-- What is found on a grid of integers is the number itself. -/
theorem IsInteger.of_onGrid? (is : x.IsInteger n) (pos : 0 < n) {e : Nat}
    (found : x.onGrid? e = some d) : d.exponent = e ∧ d.digits * 10 ^ e = n := by
  unfold onGrid? at found
  dsimp only at found
  split at found
  · rename_i below above
    have := (is.identifiedBy_iff pos _ _).mp below
    have := (is.identifiedBy_iff pos _ _).mp above
    split at found <;> cases found <;> exact ⟨rfl, ‹_›⟩
  · rename_i below _
    cases found
    exact ⟨rfl, (is.identifiedBy_iff pos _ _).mp below⟩
  · rename_i _ above
    cases found
    exact ⟨rfl, (is.identifiedBy_iff pos _ _).mp above⟩
  · cases found

/-- On the grid of all integers the number is found. -/
theorem IsInteger.onGrid?_zero (is : x.IsInteger n) (pos : 0 < n) : (x.onGrid? 0).isSome := by
  have floor : x.floorOnGrid 0 = n := by
    obtain ⟨k, -, exponent, significand⟩ := is
    have up : (-x.exponent).toNat = k := by omega
    have down : x.exponent.toNat = 0 := by omega
    simp [floorOnGrid, up, down, significand]
  have below : x.identifiedBy ⟨x.floorOnGrid 0, 0⟩ = true := by
    simpa [floor] using is.identifiedBy_iff pos n 0
  unfold onGrid?
  dsimp only
  rw [below]
  split
  · split <;> rfl
  · rfl
  · rfl
  · simp_all

theorem scaleFrom_le (steps : Nat) (start : Int) : x.scaleFrom steps start ≤ start + steps := by
  induction steps generalizing start with
  | zero => simp [scaleFrom]
  | succ steps ih =>
    unfold scaleFrom
    split
    · omega
    · have := ih (start + 1)
      omega

theorem le_scaleFrom (steps : Nat) (start : Int) : start ≤ x.scaleFrom steps start := by
  induction steps generalizing start with
  | zero => simp [scaleFrom]
  | succ steps ih =>
    unfold scaleFrom
    split
    · exact Int.le_refl _
    · have := ih (start + 1)
      omega

theorem log2_mul_two_pow (pos : 0 < n) (k : Nat) : (n * 2 ^ k).log2 = n.log2 + k := by
  induction k with
  | zero => simp
  | succ k ih =>
    have nonzero : n * 2 ^ k ≠ 0 := (Nat.mul_pos pos (Nat.two_pow_pos k)).ne'
    rw [Nat.pow_succ, ← Nat.mul_assoc, Nat.mul_comm _ 2, Nat.log2_two_mul nonzero, ih]
    rfl

/-- The search starts on a grid from which it comes to the grid of all integers. -/
theorem IsInteger.scale_bounds (is : x.IsInteger n) (pos : 0 < n) (small : n < 10 ^ 15) :
    0 ≤ x.scale ∧ x.scale < 18 := by
  obtain ⟨k, -, exponent, significand⟩ := is
  have bits : n.log2 < 50 := (Nat.log2_lt pos.ne').mpr (Nat.lt_trans small (by decide))
  have log : (x.significand.log2 : Int) + x.exponent = n.log2 := by
    rw [significand, log2_mul_two_pow pos, exponent]
    omega
  unfold scale
  rw [log]
  constructor
  · by_cases start : (n.log2 : Int) * 30103 / 100000 - 1 = -1
    · -- A tenth is less than any positive integer.
      have less : ¬ compareScaled 1 (-1) x.significand x.exponent = .gt := by
        have up : (-x.exponent).toNat = k := by omega
        have down : x.exponent.toNat = 0 := by omega
        have large := Nat.mul_le_mul_right (2 ^ k) pos
        have unit := Nat.two_pow_pos k
        unfold compareScaled
        rw [up, down, significand, Nat.compare_eq_gt]
        simp only [Nat.pow_eq, Nat.pow_zero, Int.reduceNeg, Int.reduceToNat, Int.neg_neg, Nat.pow_one]
        omega
      rw [start]
      unfold scaleFrom
      rw [if_neg less]
      exact le_scaleFrom 3 0
    · have := x.le_scaleFrom 4 ((n.log2 : Int) * 30103 / 100000 - 1)
      omega
  · have := x.scaleFrom_le 4 ((n.log2 : Int) * 30103 / 100000 - 1)
    omega

/-- Factors of ten move, but the value stays. -/
theorem stripZeros_value (steps : Nat) (a e : Nat) : ∃ b z : Nat,
    stripZeros steps ⟨a, e⟩ = ⟨b, z⟩ ∧ b * 10 ^ z = a * 10 ^ e := by
  induction steps generalizing a e with
  | zero => exact ⟨a, e, rfl, rfl⟩
  | succ steps ih =>
    unfold stripZeros
    split
    · rename_i divides
      obtain ⟨b, z, same, value⟩ := ih (a / 10) (e + 1)
      refine ⟨b, z, same, value.trans ?_⟩
      rw [Nat.pow_succ, ← Nat.mul_assoc, Nat.mul_right_comm,
        Nat.div_mul_cancel (Nat.dvd_of_mod_eq_zero divides.2)]
    · exact ⟨a, e, rfl, rfl⟩

/-- The first hit among the first few places is the first hit of a longer search. -/
theorem findSome?_range {α : Type} {f : Nat → Option α} {i n : Nat} (hit : (f i).isSome)
    (within : i < n) : ∃ j a, j ≤ i ∧ f j = some a ∧ (List.range n).findSome? f = some a := by
  obtain ⟨more, rfl⟩ : ∃ more, n = i + 1 + more := ⟨n - (i + 1), by omega⟩
  have some : ((List.range (i + 1)).findSome? f).isSome :=
    List.findSome?_isSome_iff.mpr ⟨i, List.mem_range.mpr (Nat.lt_succ_self i), hit⟩
  obtain ⟨a, found⟩ := Option.isSome_iff_exists.mp some
  obtain ⟨j, inside, is⟩ := List.exists_of_findSome?_eq_some found
  refine ⟨j, a, Nat.lt_succ_iff.mp (List.mem_range.mp inside), is, ?_⟩
  rw [List.range_add, List.findSome?_append, found, Option.some_or]

/-- The shortest decimal for an integer is the integer. -/
theorem IsInteger.shortest_eq (is : x.IsInteger n) (pos : 0 < n) (small : n < 10 ^ 15) :
    ∃ a e : Nat, x.shortest = ⟨a, e⟩ ∧ a * 10 ^ e = n := by
  obtain ⟨low, high⟩ := is.scale_bounds pos small
  have hit : (x.onGrid? (x.scale - (x.scale.toNat : Int))).isSome := by
    rw [Int.toNat_of_nonneg low, Int.sub_self]
    exact is.onGrid?_zero pos
  obtain ⟨j, d, before, found, first⟩ :=
    findSome?_range (f := fun i : Nat => x.onGrid? (x.scale - i)) hit
      (show x.scale.toNat < 18 by omega)
  obtain ⟨e, grid⟩ : ∃ e : Nat, x.scale - (j : Int) = e := ⟨(x.scale - j).toNat, by omega⟩
  rw [grid] at found
  obtain ⟨exponent, value⟩ := is.of_onGrid? pos found
  obtain ⟨b, z, stripped, same⟩ := stripZeros_value 20 d.digits e
  refine ⟨b, z, ?_, same.trans value⟩
  have whole : d = ⟨d.digits, e⟩ := by rw [← exponent]
  rw [shortest, first, Option.getD_some, whole]
  exact stripped

end Dyadic

namespace FloatClass

/-- The magnitude of a float that has an integral value: it is zero, or a large number, or an
integer in small units. -/
theorem integer_cases {x : Float} {negative : Bool} {magnitude : Dyadic} {n : Nat}
    (is : ofFloat x = .finite negative magnitude) (value : magnitude.toNat? = some n)
    (small : n < 10 ^ 15) :
    n = 0 ∧ magnitude.significand = 0 ∨ 0 < n ∧ magnitude.IsInteger n := by
  have stored : magnitude.exponent = -1074 ∧ magnitude.significand < 2 ^ 52 ∨
      2 ^ 52 ≤ magnitude.significand := by
    unfold ofFloat ofBits at is
    dsimp only at is
    split at is
    · split at is <;> cases is
    split at is
    · cases is
      exact .inl ⟨rfl, Nat.mod_lt _ (by decide)⟩
    · cases is
      exact .inr (Nat.le_add_right ..)
  unfold Dyadic.toNat? at value
  split at value
  · rename_i e exponent
    obtain rfl := Option.some.inj value
    have low := Nat.le_mul_of_pos_right magnitude.significand (Nat.two_pow_pos e)
    rcases stored with ⟨tiny, -⟩ | large
    · rw [exponent] at tiny
      cases tiny
    · exact absurd (Nat.lt_of_le_of_lt (Nat.le_trans large low) small) (by decide)
  · rename_i e exponent
    dsimp only at value
    split at value
    · rename_i divides
      obtain rfl := Option.some.inj value
      have whole := Nat.div_mul_cancel (Nat.dvd_of_mod_eq_zero divides)
      rcases Nat.eq_zero_or_pos (magnitude.significand / Nat.pow 2 (e + 1)) with zero | pos
      · exact .inl ⟨zero, by rw [← whole, zero, Nat.zero_mul]⟩
      · refine .inr ⟨pos, e + 1, ?_, exponent, whole.symm⟩
        by_contra short
        rcases stored with ⟨tiny, -⟩ | large
        · rw [exponent] at tiny
          omega
        · have unit : Nat.pow 2 (e + 1) ≤ 4 :=
            Nat.pow_le_pow_right (by decide) (show e + 1 ≤ 2 by omega)
          have high := Nat.mul_le_mul (Nat.le_of_lt small) unit
          rw [whole] at high
          exact absurd (Nat.le_trans large high) (by decide)
    · cases value

end FloatClass

namespace Layout

theorem digitChars_mul_pow (a z : Nat) (pos : 0 < a) :
    digitChars (a * 10 ^ z) = digitChars a ++ List.replicate z '0' := by
  induction z with
  | zero => simp
  | succ z ih =>
    have more : a * 10 ^ (z + 1) = 10 * (a * 10 ^ z) + 0 := by
      rw [Nat.pow_succ]
      ring
    have large := Nat.mul_pos pos (Nat.pow_pos (n := z) (show 0 < 10 by decide))
    rw [List.replicate_succ', ← List.append_assoc, ← ih, more]
    exact (Nat.toDigits_append_toDigits (by decide) large (by decide)).symm

/-- Below `10 ^ 15` the plain text of an integral float is the text of the integer. -/
theorem plain_chars_integer {x : Float} {n : Int} (value : integerValue? x = some n)
    (small : n.natAbs < 10 ^ 15) :
    ∃ negative : Bool, plain.chars x = (if negative then ['-'] else []) ++ digitChars n.natAbs ∧
      (n < 0 → negative = true) ∧ (0 < n → negative = false) := by
  unfold integerValue? at value
  split at value
  · rename_i negative magnitude is
    obtain ⟨m, whole, rfl⟩ : ∃ m : Nat, magnitude.toNat? = some m ∧
        (if negative then -(m : Int) else m) = n := by
      cases whole : magnitude.toNat? with
      | none => simp [whole] at value
      | some m => exact ⟨m, rfl, by simpa [whole] using value⟩
    have abs : (if negative = true then -(m : Int) else m).natAbs = m := by
      split <;> simp
    rw [abs] at small ⊢
    have text : plain.magnitudeChars magnitude = digitChars m := by
      unfold magnitudeChars
      rcases FloatClass.integer_cases is whole small with ⟨rfl, zero⟩ | ⟨pos, integer⟩
      · rw [if_pos zero]
        rfl
      · obtain ⟨a, e, shortest, value⟩ := integer.shortest_eq pos small
        have nonzero : 0 < a := by
          apply Nat.pos_of_ne_zero
          rintro rfl
          simp at value
          omega
        have present : magnitude.significand ≠ 0 := by
          obtain ⟨k, -, -, significand⟩ := integer
          rw [significand]
          exact (Nat.mul_pos pos (Nat.two_pow_pos k)).ne'
        rw [if_neg present, shortest, ← value, digitChars_mul_pow a e nonzero]
        simp [decimalChars, plain, pointedDigits]
    refine ⟨negative, ?_, ?_, ?_⟩
    · unfold chars
      rw [is]
      dsimp only
      rw [text]
      cases negative <;> rfl
    · cases negative with
      | false => simp
      | true => simp
    · cases negative with
      | false => simp
      | true => simp
  · cases value

end Layout

end ShapeLang
