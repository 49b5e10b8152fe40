import ShapeLang.Proofs.Grammar.Positions

/-! # Whatever is read has a derivation

What is known of the lexemes that a parser reads tells what is known of their tokens. So each level
reads only sentences of the level, and the phrase it makes has the form that the grammar gives them.
-/

namespace ShapeLang

open ShapeLang.Parser

namespace Grammar

/-- The phrase has the form of a derivation of the tokens. -/
def Form (level : Level) (ts : List Token) (phrase : Phrase) : Prop :=
  Derives level ts phrase.tree

theorem Form.tighter {level below : Level} {ts : List Token} {phrase : Phrase}
    (next : level.tighter? = some below) (form : Form below ts phrase) : Form level ts phrase :=
  Derives.tighter next form

end Grammar

open ShapeLang.Grammar

/-- What the lexemes can be read as holds of their tokens. -/
theorem Parser.Locates.sound {α : Type} {p : Parser α} {reads : List Lexeme → α → Prop}
    {more : List Token → α → Prop} (locates : Locates p reads)
    (imp : ∀ used a, reads used a → more (used.map (·.token)) a) : Sound p more := by
  intro cursor a next run
  obtain ⟨used, split, -, holds⟩ := locates cursor run
  exact ⟨used.map (·.token), by simp [Cursor.tokens, split], imp used a holds⟩

theorem Parser.Locates.form {level : Level} {p : Parser Phrase} (locates : Locates p (Reads level)) :
    Sound p (Form level) :=
  locates.sound fun _ _ reads => reads.derives

namespace Grammar

section Words

theorem ident_sound : Sound ident fun used id => used = [.ident id.name] :=
  ident_locates.sound (by rintro _ name rfl; rfl)

theorem ident_accepts {rest : List Token} (name : String) :
    Accepts ident [.ident name] rest fun id => id.name = name := by
  apply token_accepts
  rintro ⟨token, location⟩ rfl
  exact ⟨_, rfl, rfl⟩

theorem oneOf_sound {α : Type} (table : List (Symbol × α)) :
    Sound (oneOf table) fun used entry => ∃ s, (s, entry.1) ∈ table ∧ used = [.symbol s] :=
  (oneOf_locates table).sound (by rintro _ entry ⟨s, known, rfl⟩; exact ⟨s, known, rfl⟩)

theorem params_sound : Sound params fun ts names => Params ts (names.map (·.name)) :=
  params_locates.sound fun _ _ params => params.derives

end Words

/-- Items of which each has a derivation, as the rules of the grammar want them. -/
theorem exists_parts {uses : List (List Token)} {phrases : List Phrase}
    (each : List.Forall₂ (Form .expression) uses phrases) :
    ∃ parts : List (List Token × Tree), parts.map (·.1) = uses ∧
      parts.map (·.2) = Phrase.trees phrases ∧
      ∀ part ∈ parts, Derives .expression part.1 part.2 := by
  induction each with
  | nil => exact ⟨[], rfl, rfl, by simp⟩
  | @cons ts phrase _ _ one _ ih =>
    obtain ⟨parts, rfl, trees, all⟩ := ih
    exact ⟨(ts, phrase.tree) :: parts, rfl, by simp [Phrase.trees, trees],
      List.forall_mem_cons.mpr ⟨one, all⟩⟩

/-- One more operator, and the operand on its right. -/
def operation (table : List (Symbol × BinaryOp)) (operand : Parser Phrase) (left : Phrase) :
    Parser Phrase := do
  let (op, _) ← oneOf table
  let right ← operand
  pure (.ofBinary op left right)

theorem operation_sound {table : List (Symbol × BinaryOp)} {level : Level} {operand : Parser Phrase}
    (locates : Locates operand (Reads level)) (left : Phrase) :
    Sound (operation table operand left) fun us phrase =>
      ∃ s op vs right, us = .symbol s :: vs ∧ (s, op) ∈ table ∧ Form level vs right ∧
        phrase = .ofBinary op left right := by
  apply (oneOf_sound table).bind
  rintro _ ⟨op, location⟩ ⟨s, known, rfl⟩
  apply locates.form.bind
  intro vs right derives
  exact pure_sound ⟨s, op, vs, right, by simp, known, derives, rfl⟩

section Levels

variable {expr : Parser Phrase} (inner : Locates expr (Reads .expression))

include inner

theorem field_sound : Sound (field expr) fun used field => ∃ ts,
    used = .ident field.1.name :: .symbol .colon :: ts ∧ Form .expression ts field.2 := by
  apply (field_locates inner).sound
  rintro _ _ ⟨entry, rfl, rfl, reads⟩
  exact ⟨_, rfl, reads.derives⟩

theorem suffix_sound (base : Phrase) :
    Sound (suffix expr base) fun us phrase =>
      us ≠ [] ∧ ∀ ts, Form .suffixed ts base → Form .suffixed (ts ++ us) phrase := by
  apply choice_sound
  simp only [List.forall_mem_cons, List.not_mem_nil, IsEmpty.forall_iff, implies_true, and_true]
  refine ⟨?call, ?dot, ?index⟩
  case call =>
    apply Sound.spanning
    apply Sound.map
    apply Sound.between
    apply inner.form.separated.mono
    rintro _ args ⟨uses, trailing, rfl, each⟩ location
    refine ⟨by simp [enclosed], fun ts function => ?_⟩
    obtain ⟨parts, rfl, trees, all⟩ := exists_parts each
    rw [Form, Phrase.tree, ← trees]
    exact .call function parts trailing all
  case dot =>
    apply Sound.spanning
    apply Sound.map
    apply (symbol_sound .dot).bind
    rintro _ _ rfl
    apply ident_sound.mono
    rintro _ id rfl location
    exact ⟨by simp, fun ts base => .dot base id.name⟩
  case index =>
    apply Sound.spanning
    apply Sound.map
    apply Sound.between
    apply inner.form.mono
    intro us place derives location
    exact ⟨by simp [enclosed], fun ts base => .index base derives⟩

end Levels

end Grammar

end ShapeLang
