import ShapeLang.Token.Lexer

/-! # The tokens of a source follow each other

Each piece of a text takes a character at least, so no token is empty, and each starts behind the
one before it.
-/

namespace ShapeLang

/-- Tokens none of which is empty, each behind the one before it. -/
structure Ordered (lexemes : List Lexeme) : Prop where
  size : ∀ lexeme ∈ lexemes, lexeme.location.start < lexeme.location.stop
  order : lexemes.Pairwise (·.location.stop ≤ ·.location.start)

namespace Ordered

variable {whole part : List Lexeme} {lexeme : Lexeme}

theorem sublist (ordered : Ordered whole) (within : part.Sublist whole) : Ordered part :=
  ⟨fun lexeme mem => ordered.size lexeme (within.subset mem), ordered.order.sublist within⟩

theorem inside (ordered : Ordered whole) (within : part <:+: whole) : Ordered part :=
  ordered.sublist within.sublist

theorem cons (rest : Ordered whole) (size : lexeme.location.start < lexeme.location.stop)
    (behind : ∀ other ∈ whole, lexeme.location.stop ≤ other.location.start) :
    Ordered (lexeme :: whole) :=
  ⟨List.forall_mem_cons.mpr ⟨size, rest.size⟩, .cons behind rest.order⟩

end Ordered

/-- A numeral takes all digits at its start. -/
theorem Numeral.length_scan_le (cs : List Char) :
    (scan cs).2.length ≤ (cs.dropWhile isDecimalDigit).length := by
  have dropped (cs : List Char) : (cs.dropWhile isDecimalDigit).length ≤ cs.length :=
    (List.dropWhile_sublist _).length_le
  have exponent (cs : List Char) : (scanExponent cs).2.length ≤ cs.length := by
    unfold scanExponent
    split
    · split
      · split
        rename_i mark rest _ _ _ unsigned sign
        dsimp only
        split
        · exact Nat.le_refl _
        · have shorter : unsigned.length ≤ rest.length := by
            split at sign <;> cases sign <;> simp
          exact Nat.le_trans (dropped unsigned) (Nat.le_succ_of_le shorter)
      · exact Nat.le_refl _
    · exact Nat.le_refl _
  have fraction (cs : List Char) : (scanFraction cs).2.length ≤ cs.length := by
    unfold scanFraction
    split
    · rename_i rest
      dsimp only
      split
      · exact Nat.le_refl _
      · exact Nat.le_succ_of_le (dropped rest)
    · exact Nat.le_refl _
  exact Nat.le_trans (exponent _) (fraction _)

/-- Each piece of a text has a character. -/
theorem Piece.first_taken_ne_nil (c : Char) (rest : List Char) : (first c rest).taken ≠ [] := by
  have taken {p : Char → Bool} (holds : p c = true) : (c :: rest).takeWhile p ≠ [] := by
    simp [holds]
  unfold first
  dsimp only
  split
  · exact taken ‹_›
  split
  · rename_i slashes
    refine taken (p := (· ≠ '\n')) ?_
    rw [slashes.1]
    decide
  split
  · rename_i digit
    have shorter := Numeral.length_scan_le (c :: rest)
    have dropped := (List.dropWhile_sublist (l := rest) isDecimalDigit).length_le
    rw [List.dropWhile_cons, if_pos digit] at shorter
    simp only [ne_eq, List.take_eq_nil_iff, reduceCtorEq, or_false, List.length_cons]
    omega
  split
  · exact taken (by simp [isWordChar, *])
  split
  · unfold ofQuote
    split <;> simp
  · unfold ofMark
    dsimp only
    split
    · rename_i found
      split at found
      · obtain ⟨_, -, rfl⟩ := Option.map_eq_some_iff.mp found
        simp
      · cases found
    · simp
    · simp

theorem byteLength_pos {cs : List Char} (some : cs ≠ []) : 0 < byteLength cs := by
  cases cs with
  | nil => exact (some rfl).elim
  | cons c cs =>
    have := c.utf8Size_pos
    rw [byteLength]
    omega

/-- Pieces of a text become tokens that follow each other, from where the pieces start. -/
theorem Lexing.collect_ordered (source : Source) (start : Nat) (pieces : List Piece)
    (taken : ∀ piece ∈ pieces, piece.taken ≠ []) :
    Ordered (collect source start pieces).tokens ∧
      ∀ lexeme ∈ (collect source start pieces).tokens, start ≤ lexeme.location.start := by
  induction pieces generalizing start with
  | nil => exact ⟨⟨by simp [collect], .nil⟩, by simp [collect]⟩
  | cons piece pieces ih =>
    obtain ⟨first, rest⟩ := List.forall_mem_cons.mp taken
    have size := byteLength_pos first
    obtain ⟨ordered, behind⟩ := ih (start + byteLength piece.taken) rest
    have later : ∀ lexeme ∈ (collect source (start + byteLength piece.taken) pieces).tokens,
        start ≤ lexeme.location.start := fun lexeme mem =>
      Nat.le_trans (Nat.le_add_right ..) (behind lexeme mem)
    unfold collect
    dsimp only
    split
    · exact ⟨ordered.cons (by dsimp only; omega) behind,
        List.forall_mem_cons.mpr ⟨Nat.le_refl _, later⟩⟩
    · exact ⟨ordered, later⟩
    · exact ⟨ordered, later⟩

theorem pieces_taken_ne_nil (cs : List Char) : ∀ piece ∈ pieces cs, piece.taken ≠ [] := by
  suffices ∀ fuel cs, ∀ piece ∈ piecesUpTo fuel cs, piece.taken ≠ [] from this _ _
  intro fuel
  induction fuel with
  | zero => simp [piecesUpTo]
  | succ fuel ih =>
    intro cs
    cases cs with
    | nil => simp [piecesUpTo]
    | cons c rest => exact List.forall_mem_cons.mpr ⟨Piece.first_taken_ne_nil c rest, ih _⟩

theorem Source.lex_ordered (source : Source) : Ordered source.lex.tokens :=
  (Lexing.collect_ordered source 0 _ (pieces_taken_ne_nil _)).1

end ShapeLang
