import Mathlib.Data.List.Nodup
import ShapeLang.Proofs.Token.Spelling
import ShapeLang.Proofs.Value.Alike

/-! # Data

Values without functions and modules, whose text can be read as a program: the texts in them need
no escapes, and the field names are names of the language.
-/

namespace ShapeLang

/-- A name that is no keyword and no truth value. -/
def IsIdentifier (cs : List Char) : Prop :=
  cs ∈ Rule.name.pattern ∧ ∀ rule : Rule, rule.isLiteral = true → cs ∉ rule.pattern

/-- A word that is taken for a name is one. -/
theorem IsIdentifier.of_word {c : Char} {ds : List Char} (starts : isWordStart c = true)
    (each : ds.all isWordChar = true)
    (name : Piece.wordToken (c :: ds) = .ident (String.ofList (c :: ds))) :
    IsIdentifier (c :: ds) := by
  have letter := Rule.isWordStart_iff.mp starts
  refine ⟨⟨[c], ⟨c, letter, rfl⟩, ds, Pattern.mem_kstar_oneOf.mpr fun d mem =>
    Rule.isWordChar_iff.mp (List.all_eq_true.mp each d mem), rfl⟩, fun rule literal matched => ?_⟩
  obtain ⟨d, more, same, first⟩ := Rule.starts_of_mem matched
  cases same
  have reads := Piece.token?_literal literal (first.symm.trans (Rule.Start.of_letter letter)) matched
  rw [name] at reads
  cases rule with
  | symbol | boolean => cases reads
  | _ => cases literal

namespace Value

/-- Truth values, the given numbers, texts without quotes and backslashes, lists, and records with
different names for their fields. -/
inductive IsData (numbers : Float → Prop) : Value → Prop
  | bool (value : Bool) : IsData numbers (.bool value)
  | num {x : Float} (known : numbers x) : IsData numbers (.num x)
  | text {content : String} (plain : ∀ c ∈ content.toList, c ≠ '"' ∧ c ≠ '\\') :
    IsData numbers (.text content)
  | list {items : List Value} {frames : FrameSet} (parts : ∀ item ∈ items, IsData numbers item) :
    IsData numbers (.list items frames)
  | record {fields : List (String × Value)} {frames : FrameSet}
    (names : ∀ field ∈ fields, IsIdentifier field.1.toList) (distinct : (fields.map (·.1)).Nodup)
    (parts : ∀ field ∈ fields, IsData numbers field.2) : IsData numbers (.record fields frames)

/-- Equal values, whichever of them stands first. -/
def Same (a b : Value) : Prop := a.equal b = true ∧ b.equal a = true

variable {frames frames' : FrameSet}

theorem same_bool (value : Bool) : Same (.bool value) (.bool value) := by
  cases value <;> exact ⟨rfl, rfl⟩

theorem same_text (content : String) : Same (.text content) (.text content) := by
  simp [Same, equal]

theorem same_num {x y : Float} (same : SameNumber x y) : Same (.num x) (.num y) :=
  same

/-- Pairs of equal items make equal lists. -/
theorem same_list {pairs : List (Value × Value)} (parts : ∀ pair ∈ pairs, Same pair.1 pair.2) :
    Same (.list (pairs.map (·.1)) frames) (.list (pairs.map (·.2)) frames') := by
  have items : equalItems (pairs.map (·.1)) (pairs.map (·.2)) = true ∧
      equalItems (pairs.map (·.2)) (pairs.map (·.1)) = true := by
    induction pairs with
    | nil => exact ⟨rfl, rfl⟩
    | cons pair pairs ih =>
      obtain ⟨⟨there, back⟩, others⟩ := List.forall_mem_cons.mp parts
      obtain ⟨there', back'⟩ := ih others
      simp [equalItems, there, back, there', back']
  exact items

theorem lookup_of_mem {α : Type} {fields : List (String × α)} (distinct : (fields.map (·.1)).Nodup)
    {name : String} {a : α} (mem : (name, a) ∈ fields) : fields.lookup name = some a := by
  obtain ⟨before, after, rfl⟩ := List.append_of_mem mem
  refine List.lookup_eq_some_iff.mpr ⟨before, after, rfl, fun field earlier => ?_⟩
  simp only [List.map_append, List.map_cons, List.nodup_append, List.mem_map, List.mem_cons] at distinct
  simpa using (distinct.2.2 field.1 ⟨field, earlier, rfl⟩ name (.inl rfl)).symm

/-- Every field of the one record is found in the other. -/
theorem equalFields_of_mem {fields others : List (String × Value)}
    (distinct : (others.map (·.1)).Nodup)
    (parts : ∀ field ∈ fields, ∃ b, (field.1, b) ∈ others ∧ field.2.equal b = true) :
    equalFields fields others = true := by
  induction fields with
  | nil => rfl
  | cons field fields ih =>
    obtain ⟨⟨b, mem, same⟩, rest⟩ := List.forall_mem_cons.mp parts
    simp [equalFields, lookup_of_mem distinct mem, same, ih rest]

/-- Pairs of equal fields make equal records. -/
theorem same_record {fields : List (String × Value × Value)} (distinct : (fields.map (·.1)).Nodup)
    (parts : ∀ field ∈ fields, Same field.2.1 field.2.2) :
    Same (.record (fields.map fun field => (field.1, field.2.1)) frames)
      (.record (fields.map fun field => (field.1, field.2.2)) frames') := by
  have there : equalFields (fields.map fun field => (field.1, field.2.1))
      (fields.map fun field => (field.1, field.2.2)) = true := by
    refine equalFields_of_mem (by simpa [Function.comp_def] using distinct) ?_
    exact List.forall_mem_map.mpr fun field mem =>
      ⟨_, List.mem_map_of_mem mem, (parts field mem).1⟩
  have back : equalFields (fields.map fun field => (field.1, field.2.2))
      (fields.map fun field => (field.1, field.2.1)) = true := by
    refine equalFields_of_mem (by simpa [Function.comp_def] using distinct) ?_
    exact List.forall_mem_map.mpr fun field mem =>
      ⟨_, List.mem_map_of_mem mem, (parts field mem).2⟩
  exact ⟨by simp [equal, there], by simp [equal, back]⟩

end Value

end ShapeLang
