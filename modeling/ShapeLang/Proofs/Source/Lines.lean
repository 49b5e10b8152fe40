import ShapeLang.Proofs.Token.Tiling

/-! # Lines and columns identify places

Each character moves the place forward, by a column or to the next line, so that different offsets
between characters have different places, in the order of the text.
-/

namespace ShapeLang

namespace Position

variable {p q r : Position}

/-- The order of places in a text: by lines, and in a line by columns. -/
def Before (p q : Position) : Prop :=
  p.line < q.line ∨ p.line = q.line ∧ p.column < q.column

theorem Before.trans (first : p.Before q) (second : q.Before r) : p.Before r := by
  unfold Before at first second ⊢
  omega

theorem before_advance (p : Position) (c : Char) : p.Before (p.advance c) := by
  unfold advance
  split
  · exact .inl (Nat.lt_succ_self _)
  · exact .inr ⟨rfl, Nat.lt_succ_self _⟩

/-- Some characters further on. -/
theorem before_foldl (p : Position) {cs : List Char} (nonempty : cs ≠ []) :
    p.Before (cs.foldl advance p) := by
  induction cs generalizing p with
  | nil => exact (nonempty rfl).elim
  | cons c cs ih =>
    cases cs with
    | nil => exact before_advance p c
    | cons d ds => exact (before_advance p c).trans (ih (p.advance c) (by simp))

theorem after_concat (cs : List Char) (c : Char) : after (cs ++ [c]) = (after cs).advance c := by
  simp [after]

/-- Line feeds are counted for the line, and the characters since the last one for the column. -/
theorem after_eq (cs : List Char) : after cs =
    ⟨cs.count '\n' + 1, (cs.reverse.takeWhile (· ≠ '\n')).length + 1⟩ := by
  induction cs using List.reverseRecOn with
  | nil => rfl
  | append_singleton cs c ih =>
    rw [after_concat, ih, advance]
    by_cases feed : c = '\n'
    · simp [feed]
    · simp [feed]

end Position

section Taking

variable {cs before after : List Char} {offset : Nat}

/-- The characters up to an offset between two characters. -/
theorem takeBytes_append (before after : List Char) :
    takeBytes (before ++ after) (byteLength before) = before := by
  induction before with
  | nil =>
    cases after with
    | nil => rfl
    | cons c after =>
      have wide := c.utf8Size_pos
      simp only [List.nil_append, byteLength, takeBytes]
      exact if_neg (by omega)
  | cons c before ih =>
    simp only [List.cons_append, byteLength, takeBytes, Nat.le_add_right, ↓reduceIte,
      Nat.add_sub_cancel_left, ih]

/-- All characters, up to an offset past the end. -/
theorem takeBytes_of_le (enough : byteLength cs ≤ offset) : takeBytes cs offset = cs := by
  induction cs generalizing offset with
  | nil => rfl
  | cons c cs ih =>
    simp only [byteLength] at enough
    have fits : c.utf8Size ≤ offset := by omega
    rw [takeBytes, if_pos fits, ih (by omega)]

/-- Of two beginnings of a text, the one with fewer bytes is a part of the other. -/
theorem exists_between {before' after' : List Char} (same : before ++ after = before' ++ after')
    (less : byteLength before < byteLength before') :
    ∃ between, before' = before ++ between ∧ between ≠ [] := by
  rcases List.append_eq_append_iff.mp same with ⟨between, rfl, -⟩ | ⟨between, rfl, -⟩
  · refine ⟨between, rfl, ?_⟩
    rintro rfl
    simp at less
  · rw [byteLength_append] at less
    omega

end Taking

namespace Source

variable {source : Source} {before after : List Char}

/-- An offset between two characters, or at an end of the text. -/
def Boundary (source : Source) (offset : Nat) : Prop :=
  ∃ before after, source.chars = before ++ after ∧ offset = byteLength before

theorem position_byteLength (whole : source.chars = before ++ after) :
    source.position (byteLength before) = Position.after before := by
  rw [position, whole, takeBytes_append]

/-- The place of an offset is one line further for each line feed before it, and one column further
for each character since the last line feed. So the first place is line one, column one, a character
takes one column and a line feed leads to the start of the next line, offsets in order have places
in order, and what is past the end has the place of the end. -/
theorem position_ordered (source : Source) :
    source.position 0 = ⟨1, 1⟩ ∧
    (∀ before after, source.chars = before ++ after → source.position (byteLength before) =
      ⟨before.count '\n' + 1, (before.reverse.takeWhile (· ≠ '\n')).length + 1⟩) ∧
    (∀ before c after, source.chars = before ++ c :: after →
      source.position (byteLength before + c.utf8Size) =
        if c = '\n' then ⟨(source.position (byteLength before)).line + 1, 1⟩
        else ⟨(source.position (byteLength before)).line,
          (source.position (byteLength before)).column + 1⟩) ∧
    (∀ a b, source.Boundary a → source.Boundary b → a < b →
      (source.position a).Before (source.position b)) ∧
    ∀ offset, source.size ≤ offset → source.position offset = source.position source.size := by
  refine ⟨@position_byteLength source [] source.chars rfl, ?_, ?_, ?_, ?_⟩
  · intro before after whole
    rw [position_byteLength whole, Position.after_eq]
  · intro before c after whole
    have next : source.chars = (before ++ [c]) ++ after := by simp [whole]
    have size : byteLength (before ++ [c]) = byteLength before + c.utf8Size := by
      rw [byteLength_append, byteLength, byteLength, Nat.add_zero]
    rw [← size, position_byteLength next, Position.after_concat, position_byteLength whole]
    rfl
  · rintro a b ⟨before, after, whole, rfl⟩ ⟨before', after', whole', rfl⟩ less
    obtain ⟨between, rfl, nonempty⟩ := exists_between (whole.symm.trans whole') less
    rw [position_byteLength whole, position_byteLength whole', Position.after, Position.after,
      List.foldl_append]
    exact Position.before_foldl _ nonempty
  · intro offset past
    have whole : takeBytes source.chars source.size = source.chars :=
      takeBytes_of_le (Nat.le_refl source.size)
    rw [position, position, takeBytes_of_le past, whole]

/-- A character of several bytes is one column wide. -/
example : (⟨"s", "é\nb"⟩ : Source).position 2 = ⟨1, 2⟩ ∧
    (⟨"s", "é\nb"⟩ : Source).position 4 = ⟨2, 2⟩ := by decide

end Source

end ShapeLang
