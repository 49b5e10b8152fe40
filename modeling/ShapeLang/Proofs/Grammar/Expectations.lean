import ShapeLang.Proofs.Grammar.Completeness
import ShapeLang.Proofs.Grammar.Reports

/-! # What can come next

One theorem per level, as for soundness and completeness: if the reports about the expressions inside
are right, then those about the level are. What is left to show in each is that a sentence that was
begun can be brought to an end.
-/

namespace ShapeLang

namespace Grammar

open ShapeLang.Parser

/-- The tokens have a derivation. -/
def Sentence (level : Level) (ts : List Token) : Prop := ∃ tree, Derives level ts tree

section Sentences

variable {level below : Level} {ts us : List Token}

theorem Sentence.tighter (next : level.tighter? = some below) (sentence : Sentence below ts) :
    Sentence level ts := by
  obtain ⟨tree, derives⟩ := sentence
  exact ⟨tree, .tighter next derives⟩

/-- An atom is a sentence of every level. -/
theorem Sentence.of_atom (atom : Sentence .atom ts) (level : Level) : Sentence level ts := by
  have suffixed : Sentence .suffixed ts := atom.tighter rfl
  have power : Sentence .power ts := suffixed.tighter rfl
  have signed : Sentence .signed ts := power.tighter rfl
  have product : Sentence .product ts := signed.tighter rfl
  have sum : Sentence .sum ts := product.tighter rfl
  have comparison : Sentence .comparison ts := sum.tighter rfl
  have conjunction : Sentence .conjunction ts := comparison.tighter rfl
  have disjunction : Sentence .disjunction ts := conjunction.tighter rfl
  have definition : Sentence .definition ts := disjunction.tighter rfl
  cases level
  case expression => exact definition.tighter rfl
  all_goals assumption

/-- An operand with prefix operators is an expression. -/
theorem Sentence.of_signed (signed : Sentence .signed ts) : Sentence .expression ts := by
  have product : Sentence .product ts := signed.tighter rfl
  have sum : Sentence .sum ts := product.tighter rfl
  have comparison : Sentence .comparison ts := sum.tighter rfl
  have conjunction : Sentence .conjunction ts := comparison.tighter rfl
  have disjunction : Sentence .disjunction ts := conjunction.tighter rfl
  have definition : Sentence .definition ts := disjunction.tighter rfl
  exact definition.tighter rfl

theorem sentence_name (level : Level) (name : String) : Sentence level [.ident name] :=
  Sentence.of_atom ⟨_, .ident name⟩ level

theorem exists_sentence (level : Level) : ∃ ts, Sentence level ts := ⟨_, sentence_name level ""⟩

/-- Items with separators between them. -/
def Items (separator : Symbol) (ts : List Token) : Prop :=
  ∃ (parts : List (List Token × Tree)) (trailing : Bool), parts ≠ [] ∧
    ts = spread separator trailing (parts.map (·.1)) ∧
      ∀ part ∈ parts, Derives .expression part.1 part.2

theorem items_of_row {separator : Symbol} (row : Row separator (Sentence .expression) ts) :
    Items separator ts := by
  obtain ⟨uses, trailing, rfl, nonempty, all⟩ := row
  obtain ⟨parts, rfl, derive⟩ : ∃ parts : List (List Token × Tree), parts.map (·.1) = uses ∧
      ∀ part ∈ parts, Derives .expression part.1 part.2 := by
    clear nonempty
    induction uses with
    | nil => exact ⟨[], rfl, by simp⟩
    | cons use uses ih =>
      rw [List.forall_mem_cons] at all
      obtain ⟨tree, derives⟩ := all.1
      obtain ⟨parts, rfl, derive⟩ := ih all.2
      exact ⟨(use, tree) :: parts, rfl, List.forall_mem_cons.mpr ⟨derives, derive⟩⟩
  exact ⟨parts, trailing, fun none => nonempty (by rw [none]; rfl), rfl, derive⟩

theorem exists_items (separator : Symbol) : ∃ ts, Items separator ts := by
  obtain ⟨ts, tree, derives⟩ := exists_sentence .expression
  exact ⟨_, [(ts, tree)], false, by simp, rfl, by simpa using derives⟩

/-- Powers are written in a row. -/
theorem Sentence.powers (base : Sentence .suffixed ts) {pieces : List (List Token)}
    (all : ∀ piece ∈ pieces, ∃ us, piece = .symbol .caret :: us ∧ Sentence .suffixed us) :
    Sentence .power (ts ++ pieces.flatten) := by
  induction pieces generalizing ts with
  | nil =>
    have power : Sentence .power ts := base.tighter rfl
    simpa using power
  | cons piece pieces ih =>
    rw [List.forall_mem_cons] at all
    obtain ⟨us, rfl, next⟩ := all.1
    obtain ⟨a, first⟩ := base
    obtain ⟨b, rest⟩ := ih next all.2
    exact ⟨_, .power first rest⟩

/-- Prefix operators are written in a row. -/
theorem Sentence.signed (operand : Sentence .power us) {pieces : List (List Token)}
    (all : ∀ piece ∈ pieces, ∃ s op, (s, op) ∈ signs ∧ piece = [.symbol s]) :
    Sentence .signed (pieces.flatten ++ us) := by
  induction pieces with
  | nil => exact operand.tighter rfl
  | cons piece pieces ih =>
    rw [List.forall_mem_cons] at all
    obtain ⟨s, op, known, rfl⟩ := all.1
    obtain ⟨tree, rest⟩ := ih all.2
    exact ⟨_, .signed known rest⟩

theorem Sentence.binary (next : level.tighter? = some below) {s : Symbol} {op : BinaryOp}
    (known : (s, op) ∈ level.operators) (left : Sentence level ts) (right : Sentence below us) :
    Sentence level (ts ++ .symbol s :: us) := by
  obtain ⟨a, left⟩ := left
  obtain ⟨b, right⟩ := right
  exact ⟨_, .binary next known left right⟩

end Sentences

section Words

variable {n n' : Nat}

theorem ident_faithful : Faithful n n' ident ident fun ts => ∃ name, ts = [.ident name] := by
  apply Faithful.token
  · rintro ⟨token, location⟩
    cases token with
    | ident name => exact ⟨fun _ => ⟨name, rfl⟩, fun _ => ⟨_, rfl⟩⟩
    | symbol => exact ⟨fun ⟨_, read⟩ => (nomatch read), fun ⟨_, is⟩ => (nomatch is)⟩
    | boolean => exact ⟨fun ⟨_, read⟩ => (nomatch read), fun ⟨_, is⟩ => (nomatch is)⟩
    | number => exact ⟨fun ⟨_, read⟩ => (nomatch read), fun ⟨_, is⟩ => (nomatch is)⟩
    | text => exact ⟨fun ⟨_, read⟩ => (nomatch read), fun ⟨_, is⟩ => (nomatch is)⟩
  · exact ⟨.ident "", "", rfl⟩
  · rintro t ⟨name, is⟩
    cases is
    exact ⟨name, rfl⟩

theorem literal_faithful : Faithful n n' literal literal (Sentence .atom) := by
  apply Faithful.token
  · rintro ⟨token, location⟩
    cases token with
    | number value => exact ⟨fun _ => ⟨_, _, rfl, .number value⟩, fun _ => ⟨_, rfl⟩⟩
    | boolean value => exact ⟨fun _ => ⟨_, _, rfl, .boolean value⟩, fun _ => ⟨_, rfl⟩⟩
    | text content => exact ⟨fun _ => ⟨_, _, rfl, .text content⟩, fun _ => ⟨_, rfl⟩⟩
    | symbol =>
      refine ⟨fun ⟨_, read⟩ => (nomatch read), ?_⟩
      rintro ⟨_, _, is, literal⟩
      cases is
      cases literal
    | ident =>
      refine ⟨fun ⟨_, read⟩ => (nomatch read), ?_⟩
      rintro ⟨_, _, is, literal⟩
      cases is
      cases literal
  · exact ⟨_, _, _, rfl, .text ""⟩
  · rintro _ ⟨token, tree, is, literal⟩
    cases is
    exact ⟨tree, .literal literal⟩

theorem variableName_faithful : Faithful n n' variableName variableName (Sentence .atom) := by
  refine (ident_faithful.map (ident_sound.mono fun _ _ _ => trivial)).mono ?_
  rintro _ ⟨name, rfl⟩
  exact ⟨[], sentence_name .atom name⟩

theorem oneOf_faithful {α : Type} {table : List (Symbol × α)} (some : table ≠ []) :
    Faithful n n' (oneOf table) (oneOf table) fun ts => ∃ s a, (s, a) ∈ table ∧ ts = [.symbol s] := by
  have one (entry : Symbol × α) (mem : entry ∈ table) :
      Faithful n n' ((fun location => (entry.2, location)) <$> symbol entry.1)
        ((fun location => (entry.2, location)) <$> symbol entry.1)
        fun ts => ∃ s a, (s, a) ∈ table ∧ ts = [.symbol s] :=
    Faithful.map (.symbol entry.1 ⟨entry.1, entry.2, mem, rfl⟩)
      ((symbol_sound entry.1).mono fun _ _ _ => trivial)
  suffices ∀ part : List (Symbol × α), part ≠ [] → (∀ entry ∈ part, entry ∈ table) →
      Faithful n n' (oneOf part) (oneOf part) fun ts => ∃ s a, (s, a) ∈ table ∧ ts = [.symbol s] from
    this table some fun _ mem => mem
  intro part some within
  induction part with
  | nil => exact absurd rfl some
  | cons entry part ih =>
    rw [List.forall_mem_cons] at within
    cases part with
    | nil => exact one entry within.1
    | cons second others => exact (one entry within.1).orElse (ih (by simp) within.2)

end Words

section Parts

variable {α β : Type} {n n' : Nat} {q q' : Parser α} {lang whole : List Token → Prop}

/-- Something in brackets, with the range of both. -/
theorem brackets_faithful {opening closing : Symbol} {g : α → Location → β}
    (inner : Faithful n n' q q' lang) (sound : Sound q fun ts _ => lang ts) (some : ∃ ts, lang ts)
    (completes : ∀ ts, lang ts → whole (enclosed opening closing ts)) :
    Faithful (n + 1) (n' + 1) (spanning (g <$> between opening closing q))
      (spanning (g <$> between opening closing q')) whole := by
  have consumes : Sound (between opening closing q) fun ts _ => ts ≠ [] :=
    Sound.between (sound.mono fun _ _ _ => by simp [enclosed])
  refine .spanning (.map (.between inner sound some completes)
    (consumes.mono fun _ _ _ => trivial)) ?_
  apply Sound.map
  exact consumes

/-- A symbol comes before what the rest of the parser reads, within the same bounds. -/
theorem keyword_faithful {s : Symbol} (rest : Faithful n n' q q' lang) (some : ∃ ts, lang ts)
    (completes : ∀ ts, lang ts → whole (.symbol s :: ts)) :
    Faithful n n' (do let _ ← symbol s; q) (do let _ ← symbol s; q') whole :=
  (rest.afterSymbol some completes).lessen (Nat.le_succ n) (Nat.le_succ n')

theorem keyword_consumes {s : Symbol} (sound : Sound q fun _ _ => True) :
    Sound (do let _ ← symbol s; q) fun ts _ => ts ≠ [] := by
  apply (symbol_sound s).bind
  rintro _ _ rfl
  exact sound.mono fun _ _ _ => by simp

end Parts

section Levels

variable {n n' : Nat} {expr expr' : Parser Phrase}
  (inner : Faithful n n' expr expr' (Sentence .expression)) (sound : Locates expr (Reads .expression))
  (sound' : Locates expr' (Reads .expression))

include inner sound sound'

omit inner sound' in
theorem expr_sentence : Sound expr fun ts _ => Sentence .expression ts :=
  sound.form.mono fun _ phrase derives => ⟨phrase.tree, derives⟩

theorem items1_faithful (separator : Symbol) :
    Faithful n n' (separated1 expr (symbol separator)) (separated1 expr' (symbol separator))
      (Items separator) :=
  (inner.separated1 (expr_sentence sound) (sound'.form.mono fun _ _ _ => trivial)
    (exists_sentence _)).mono fun ts row => ⟨[], by simpa using items_of_row row⟩

omit inner sound' in
theorem items1_sentence (separator : Symbol) :
    Sound (separated1 expr (symbol separator)) fun ts _ => Items separator ts :=
  (expr_sentence sound).separated1.mono fun _ _ row =>
    items_of_row (.of_sound (fun _ _ sentence => sentence) row)

theorem items_faithful (separator : Symbol) :
    Faithful n n' (separated expr (symbol separator)) (separated expr' (symbol separator))
      fun ts => ts = [] ∨ Items separator ts :=
  inner.separated (expr_sentence sound) (sound'.form.mono fun _ _ _ => trivial) (exists_sentence _)
    fun _ row => .inr (items_of_row row)

omit inner sound' in
theorem items_sentence (separator : Symbol) :
    Sound (separated expr (symbol separator)) fun ts _ => ts = [] ∨ Items separator ts :=
  ((items1_sentence sound separator).mono fun _ _ items => .inr items).orElse
    (pure_sound (.inl rfl))

theorem listOf_faithful :
    Faithful (n + 1) (n' + 1) (listOf expr) (listOf expr') (Sentence .atom) := by
  refine brackets_faithful (items_faithful inner sound sound' .comma) (items_sentence sound .comma)
    ⟨[], .inl rfl⟩ ?_
  rintro _ (rfl | ⟨parts, trailing, -, rfl, all⟩)
  · exact ⟨_, .list [] false (by simp)⟩
  · exact ⟨_, .list parts trailing all⟩

omit inner sound' in
theorem field_sentence : Sound (field expr) fun ts _ =>
    ∃ name us, ts = .ident name :: .symbol .colon :: us ∧ Sentence .expression us :=
  (field_sound sound).mono fun _ _ ⟨us, is, derives⟩ => ⟨_, us, is, _, derives⟩

omit sound' in
theorem field_faithful : Faithful n n' (field expr) (field expr') fun ts =>
    ∃ name us, ts = .ident name :: .symbol .colon :: us ∧ Sentence .expression us := by
  obtain ⟨vs, sentence⟩ := exists_sentence .expression
  refine ident_faithful.bind ident_sound ?_ ?_
  · rintro _ ⟨name, rfl⟩
    exact ⟨.symbol .colon :: vs, name, vs, rfl, sentence⟩
  · rintro _ name rfl
    have value := (inner.map (g := fun value => (name, value))
      (sound.form.mono fun _ _ _ => trivial)).lessen (Nat.sub_le n 1) (Nat.sub_le n' 1)
    exact keyword_faithful value ⟨vs, sentence⟩ fun ts sentence => ⟨name.name, ts, rfl, sentence⟩

theorem recordOf_faithful :
    Faithful (n + 1) (n' + 1) (recordOf expr) (recordOf expr') (Sentence .atom) := by
  -- What stands between the braces, with what the fields are derived as.
  let fields (ts : List Token) : Prop := ∃ (parts : List (String × List Token × Tree))
    (trailing : Bool), ts = spread .comma trailing
      (parts.map fun part => .ident part.1 :: .symbol .colon :: part.2.1) ∧
      ∀ part ∈ parts, Derives .expression part.2.1 part.2.2
  have of_row (ts : List Token) (row : Row .comma (fun ts => ∃ name us,
      ts = .ident name :: .symbol .colon :: us ∧ Sentence .expression us) ts) : fields ts := by
    obtain ⟨uses, trailing, rfl, -, all⟩ := row
    obtain ⟨parts, rfl, derive⟩ : ∃ parts : List (String × List Token × Tree),
        (parts.map fun part => .ident part.1 :: .symbol .colon :: part.2.1) = uses ∧
        ∀ part ∈ parts, Derives .expression part.2.1 part.2.2 := by
      induction uses with
      | nil => exact ⟨[], rfl, by simp⟩
      | cons use uses ih =>
        rw [List.forall_mem_cons] at all
        obtain ⟨name, us, rfl, tree, derives⟩ := all.1
        obtain ⟨parts, rfl, derive⟩ := ih all.2
        exact ⟨(name, us, tree) :: parts, rfl, List.forall_mem_cons.mpr ⟨derives, derive⟩⟩
    exact ⟨parts, trailing, rfl, derive⟩
  obtain ⟨vs, sentence⟩ := exists_sentence .expression
  have none : fields [] := ⟨[], false, rfl, by simp⟩
  have read : Sound (separated (field expr) (symbol .comma)) fun ts _ => fields ts :=
    ((field_sentence sound).separated1.mono fun _ _ row =>
      of_row _ (.of_sound (fun _ _ field => field) row)).orElse (pure_sound none)
  refine brackets_faithful ((field_faithful inner sound).separated (field_sentence sound)
    ((field_sentence sound').mono fun _ _ _ => trivial) ⟨_, "", vs, rfl, sentence⟩ of_row) read
    ⟨[], none⟩ ?_
  rintro _ ⟨parts, trailing, rfl, all⟩
  exact ⟨_, .record parts trailing all⟩

theorem moduleOf_faithful :
    Faithful (n + 1) (n' + 1) (moduleOf expr) (moduleOf expr') (Sentence .atom) := by
  refine brackets_faithful (items1_faithful inner sound sound' .semicolon)
    (items1_sentence sound .semicolon) (exists_items _) ?_
  rintro _ ⟨parts, trailing, nonempty, rfl, all⟩
  exact ⟨_, .module parts trailing nonempty all⟩

omit sound' in
theorem parenthesized_faithful :
    Faithful (n + 1) (n' + 1) (parenthesized expr) (parenthesized expr') (Sentence .atom) :=
  .between inner (expr_sentence sound) (exists_sentence _)
    fun _ ⟨tree, derives⟩ => ⟨tree, .parens derives⟩

theorem atom_faithful : Faithful (n + 1) (n' + 1) (atom expr) (atom expr') (Sentence .atom) :=
  literal_faithful.orElse <| variableName_faithful.orElse <|
    (listOf_faithful inner sound sound').orElse <| (recordOf_faithful inner sound sound').orElse <|
      (moduleOf_faithful inner sound sound').orElse (parenthesized_faithful inner sound)

/-- What is appended continues whatever it is appended to. -/
theorem suffix_faithful (base : Phrase) :
    Faithful (n + 1) (n' + 1) (suffix expr base) (suffix expr' base)
      fun us => ∀ ts, Sentence .suffixed ts → Sentence .suffixed (ts ++ us) := by
  refine .orElse ?call (.orElse ?dot ?index)
  case call =>
    refine brackets_faithful (items_faithful inner sound sound' .comma)
      (items_sentence sound .comma) ⟨[], .inl rfl⟩ ?_
    rintro _ (rfl | ⟨parts, trailing, -, rfl, all⟩) ts ⟨tree, function⟩
    · exact ⟨_, .call function [] false (by simp)⟩
    · exact ⟨_, .call function parts trailing all⟩
  case dot =>
    have named : Faithful n n' ident ident fun ts => ∃ name, ts = [.ident name] := ident_faithful
    have read : Sound ident fun _ _ => True := ident_sound.mono fun _ _ _ => trivial
    refine .spanning (.map (named.afterSymbol ⟨_, "", rfl⟩ ?_) ?_) ?_
    · rintro _ ⟨name, rfl⟩ ts ⟨tree, base⟩
      exact ⟨_, .dot base name⟩
    · exact (keyword_consumes read).mono fun _ _ _ => trivial
    · apply Sound.map
      exact keyword_consumes read
  case index =>
    refine brackets_faithful inner (expr_sentence sound) (exists_sentence _) ?_
    rintro us ⟨place, derives⟩ ts ⟨tree, base⟩
    exact ⟨_, .index base derives⟩

theorem postfixed_faithful :
    Faithful (n + 1) (n' + 1) (postfixed expr) (postfixed expr') (Sentence .suffixed) := by
  refine (atom_faithful inner sound sound').bind (atom_locates sound).form
    (fun ts sentence => ⟨[], by simpa using sentence.tighter rfl⟩) ?_
  intro ts base derives
  refine .extend (fun us phrase => Form .suffixed (ts ++ us) phrase) ?_ ?_ ?_ ?_ ?_
  · simpa using Form.tighter rfl derives
  · intro us phrase before
    refine (suffix_sound sound phrase).mono ?_
    rintro vs longer ⟨nonempty, after⟩
    exact ⟨nonempty, by simpa using after _ before⟩
  · exact fun phrase => (suffix_sound sound phrase).mono fun _ _ both => both.1
  · exact fun phrase => (suffix_sound sound' phrase).mono fun _ _ both => both.1
  · intro us phrase before
    refine ((suffix_faithful inner sound sound' phrase).lessen ?_ ?_).mono fun vs after => ⟨[], ?_⟩
    · exact Nat.le_trans (Nat.sub_le ..) (Nat.sub_le ..)
    · exact Nat.le_trans (Nat.sub_le ..) (Nat.sub_le ..)
    · simpa using after _ ⟨_, before⟩

theorem powers_faithful :
    Faithful (n + 1) (n' + 1) (powers expr) (powers expr') (Sentence .power) := by
  have operand := postfixed_faithful inner sound sound'
  have exponent : Sound (do
      let _ ← symbol .caret
      postfixed expr) fun ts _ => (∃ us, ts = .symbol .caret :: us ∧ Sentence .suffixed us) ∧
        ts ≠ [] := by
    apply (symbol_sound .caret).bind
    rintro _ _ rfl
    exact (postfixed_locates sound).form.mono fun ts phrase derives => ⟨⟨ts, rfl, _, derives⟩, by simp⟩
  have exponent' : Sound (do
      let _ ← symbol .caret
      postfixed expr') fun ts _ => ts ≠ [] :=
    keyword_consumes ((postfixed_locates sound').form.mono fun _ _ _ => trivial)
  refine operand.bind (postfixed_locates sound).form
    (fun ts sentence => ⟨[], by simpa using sentence.tighter rfl⟩) ?_
  intro ts base derives
  have others : Faithful (n + 1 - ts.length) (n' + 1 - ts.length) (many do
      let _ ← symbol .caret
      postfixed expr) (many do
      let _ ← symbol .caret
      postfixed expr') fun us => Sentence .power (ts ++ us) := by
    refine Faithful.many (keyword_faithful (operand.lessen (Nat.sub_le ..) (Nat.sub_le ..))
      (exists_sentence _) fun us sentence => ⟨us, rfl, sentence⟩) exponent exponent'
      fun pieces all => ⟨[], ?_⟩
    simpa using Sentence.powers ⟨_, derives⟩ all
  exact others.map (exponent.many.mono fun _ _ _ => trivial)

theorem signed_faithful :
    Faithful (n + 1) (n' + 1) (signed expr) (signed expr') (Sentence .signed) := by
  have sign : Sound (oneOf signs) fun ts _ => (∃ s op, (s, op) ∈ signs ∧ ts = [.symbol s]) ∧
      ts ≠ [] :=
    (oneOf_sound signs).mono fun _ entry ⟨s, known, is⟩ => ⟨⟨s, entry.1, known, is⟩, by simp [is]⟩
  have row : Sound (many (oneOf signs)) fun ts _ => ∃ pieces : List (List Token),
      ts = pieces.flatten ∧ ∀ piece ∈ pieces, ∃ s op, (s, op) ∈ signs ∧ piece = [.symbol s] := by
    refine sign.many.mono ?_
    rintro _ _ ⟨pieces, rfl, each⟩
    refine ⟨pieces, rfl, fun piece mem => ?_⟩
    clear sign
    induction each with
    | nil => cases mem
    | cons one _ ih =>
      rcases List.mem_cons.mp mem with rfl | mem
      · exact one.1
      · exact ih mem
  obtain ⟨us, operand⟩ := exists_sentence .power
  refine Faithful.bind ((oneOf_faithful (List.cons_ne_nil _ _)).many sign
    (sign.mono fun _ _ both => both.2) fun pieces all => ⟨us, operand.signed all⟩) row
    (fun ts sentence => ⟨[], by simpa using sentence⟩) ?_
  rintro _ read ⟨pieces, rfl, all⟩
  refine ((powers_faithful inner sound sound').lessen (Nat.sub_le ..) (Nat.sub_le ..)).mono
    (fun ts sentence => ⟨[], by simpa using sentence.signed all⟩) |>.map ?_
  exact (powers_locates sound).form.mono fun _ _ _ => trivial

omit inner sound sound' in
/-- Operators of one level between operands of the next tighter one. -/
theorem leftAssociative_faithful (level : Level) {below : Level} {operand operand' : Parser Phrase}
    (next : level.tighter? = some below) (some : level.operators ≠ [])
    (faithful : Faithful n n' operand operand' (Sentence below))
    (sound : Locates operand (Reads below)) (sound' : Locates operand' (Reads below)) :
    Faithful n n' (leftAssociative level.operators operand)
      (leftAssociative level.operators operand') (Sentence level) := by
  have consumes {operand : Parser Phrase} (sound : Locates operand (Reads below)) (left : Phrase) :
      Sound (operation level.operators operand left) fun ts _ => ts ≠ [] := by
    refine (operation_sound sound left).mono ?_
    rintro _ _ ⟨s, op, vs, right, rfl, -⟩
    simp
  refine faithful.bind sound.form (fun ts sentence => ⟨[], by simpa using sentence.tighter next⟩) ?_
  intro ts first derives
  refine .extend (fun us phrase => Form level (ts ++ us) phrase) ?_ ?_ (consumes sound)
    (consumes sound') ?_
  · simpa using Form.tighter next derives
  · intro us left before
    refine (operation_sound sound left).mono ?_
    rintro _ _ ⟨s, op, vs, right, rfl, known, after, rfl⟩
    refine ⟨by simp, ?_⟩
    simpa [Form, Phrase.ofBinary, Phrase.tree] using Derives.binary next known before after
  · intro us left before
    obtain ⟨ws, operand⟩ := exists_sentence below
    refine (oneOf_faithful some).bind (oneOf_sound level.operators) ?_ ?_
    · rintro _ ⟨s, op, known, rfl⟩
      exact ⟨ws, by simpa using Sentence.binary next known ⟨_, before⟩ operand⟩
    · rintro _ ⟨op, location⟩ ⟨s, known, rfl⟩
      refine (faithful.lessen ?_ ?_).mono (fun vs right => ⟨[], ?_⟩) |>.map
        (sound.form.mono fun _ _ _ => trivial)
      · exact Nat.le_trans (Nat.sub_le ..) (Nat.le_trans (Nat.sub_le ..) (Nat.sub_le ..))
      · exact Nat.le_trans (Nat.sub_le ..) (Nat.le_trans (Nat.sub_le ..) (Nat.sub_le ..))
      · simpa using Sentence.binary next known ⟨_, before⟩ right

theorem disjunction_faithful :
    Faithful (n + 1) (n' + 1) (disjunction expr) (disjunction expr') (Sentence .disjunction) := by
  have product := leftAssociative_faithful .product rfl (by simp [Level.operators])
    (signed_faithful inner sound sound') (signed_locates sound) (signed_locates sound')
  have sum := leftAssociative_faithful .sum rfl (by simp [Level.operators]) product
    (product_locates sound) (product_locates sound')
  have comparison := leftAssociative_faithful .comparison rfl (by simp [Level.operators]) sum
    (sum_locates sound) (sum_locates sound')
  have conjunction := leftAssociative_faithful .conjunction rfl (by simp [Level.operators])
    comparison (comparison_locates sound) (comparison_locates sound')
  exact leftAssociative_faithful .disjunction rfl (by simp [Level.operators]) conjunction
    (conjunction_locates sound) (conjunction_locates sound')

theorem definition_faithful :
    Faithful (n + 1) (n' + 1) (definition expr) (definition expr') (Sentence .definition) := by
  refine (disjunction_faithful inner sound sound').bind (disjunction_locates sound).form
    (fun ts sentence => ⟨[], by simpa using sentence.tighter rfl⟩) ?_
  intro ts target derives
  have definiens : Faithful (n + 1) (n' + 1) (do
      let _ ← symbol .assign
      expr) (do
      let _ ← symbol .assign
      expr') fun us => Sentence .definition (ts ++ us) :=
    inner.afterSymbol (exists_sentence _) fun us ⟨_, whole⟩ => ⟨_, .definition derives whole⟩
  have read : Sound (do
      let _ ← symbol .assign
      expr) fun _ _ => True :=
    (keyword_consumes (sound.form.mono fun _ _ _ => trivial)).mono fun _ _ _ => trivial
  exact ((definiens.lessen (Nat.sub_le ..) (Nat.sub_le ..)).optional read).map
    (Sound.optional read trivial)

omit inner sound sound' in
theorem params_faithful :
    Faithful (n + 1) (n' + 1) params params fun ts => ∃ names, Params ts names := by
  have named : Sound ident fun ts _ => ∃ name, ts = [.ident name] :=
    ident_sound.mono fun _ id is => ⟨id.name, is⟩
  have of_row (ts : List Token) (row : Row .comma (fun ts => ∃ name, ts = [.ident name]) ts) :
      ∃ (names : List String) (trailing : Bool),
        ts = spread .comma trailing (names.map fun name => [.ident name]) := by
    obtain ⟨uses, trailing, rfl, -, all⟩ := row
    obtain ⟨names, rfl⟩ : ∃ names : List String, (names.map fun name => [.ident name]) = uses := by
      induction uses with
      | nil => exact ⟨[], rfl⟩
      | cons use uses ih =>
        rw [List.forall_mem_cons] at all
        obtain ⟨name, rfl⟩ := all.1
        obtain ⟨names, rfl⟩ := ih all.2
        exact ⟨name :: names, rfl⟩
    exact ⟨names, trailing, rfl⟩
  refine .orElse ((ident_faithful.map (named.mono fun _ _ _ => trivial)).mono ?_)
    (.between (ident_faithful.separated named (named.mono fun _ _ _ => trivial) ⟨_, "", rfl⟩ of_row)
      ((named.separated1.mono fun _ _ row => of_row _ (.of_sound (fun _ _ is => is) row)).orElse
        (pure_sound ⟨[], false, rfl⟩)) ⟨[], [], false, rfl⟩ ?_)
  · rintro _ ⟨name, rfl⟩
    exact ⟨[], _, .one name⟩
  · rintro _ ⟨names, trailing, rfl⟩
    exact ⟨_, .listed names trailing⟩

omit sound' in
theorem lambda_faithful :
    Faithful (n + 1) (n' + 1) (lambda expr) (lambda expr') (Sentence .expression) := by
  obtain ⟨us, tree, body⟩ := exists_sentence .expression
  have read : Sound expr fun _ _ => True := sound.form.mono fun _ _ _ => trivial
  have nonempty {ts : List Token} {names : List String} (params : Params ts names) :
      0 < ts.length := by
    obtain ⟨token, more, rfl, -⟩ := params.begins
    simp
  refine .spanning (params_faithful.bind params_sound ?_ ?_) ?_
  · rintro ts ⟨names, params⟩
    exact ⟨.symbol .arrow :: us, _, .lambda params body⟩
  · intro ts names params
    have := nonempty params
    exact (keyword_faithful (inner.map read) (exists_sentence _)
      fun us ⟨_, body⟩ => ⟨_, .lambda params body⟩).lessen (by omega) (by omega)
  · apply params_sound.bind
    intro ts names params
    refine (keyword_consumes (s := .arrow) (Sound.map (g := fun body location =>
      Phrase.lambda location names body) read)).mono fun us _ some => ?_
    simp [some]

theorem letIn_faithful :
    Faithful (n + 1) (n' + 1) (letIn expr) (letIn expr') (Sentence .expression) := by
  have read : Sound expr fun _ _ => True := sound.form.mono fun _ _ _ => trivial
  -- What comes after the keyword: items, and the body after another keyword.
  let rest (ts : List Token) : Prop := ∃ us vs, Items .semicolon us ∧ Sentence .expression vs ∧
    ts = us ++ .symbol .inKeyword :: vs
  obtain ⟨us, items⟩ := exists_items .semicolon
  obtain ⟨vs, sentence⟩ := exists_sentence .expression
  refine .spanning (Faithful.afterSymbol (?_ : Faithful n n' _ _ rest)
    ⟨_, us, vs, items, sentence, rfl⟩ ?_) (keyword_consumes ?_)
  · refine (items1_faithful inner sound sound' .semicolon).bind (items1_sentence sound .semicolon)
      (fun us items => ⟨_, us, vs, items, sentence, rfl⟩) ?_
    intro us definitions items
    exact (keyword_faithful (inner.map read) (exists_sentence _)
      fun vs sentence => ⟨us, vs, items, sentence, rfl⟩).lessen (Nat.sub_le ..) (Nat.sub_le ..)
  · rintro _ ⟨us, vs, ⟨parts, trailing, nonempty, rfl, all⟩, ⟨body, derives⟩, rfl⟩
    exact ⟨_, .letIn parts trailing nonempty all derives⟩
  · apply (items1_sentence sound .semicolon).bind
    intro _ definitions _
    exact (keyword_consumes (Sound.map read)).mono fun _ _ _ => trivial

omit sound' in
theorem conditional_faithful :
    Faithful (n + 1) (n' + 1) (conditional expr) (conditional expr') (Sentence .expression) := by
  have read : Sound expr fun _ _ => True := sound.form.mono fun _ _ _ => trivial
  have derived := expr_sentence sound
  obtain ⟨ws, sentence⟩ := exists_sentence .expression
  -- What comes after the keyword: the condition, and both branches.
  let branches (ts : List Token) : Prop := ∃ us vs, Sentence .expression us ∧
    Sentence .expression vs ∧ ts = us ++ .symbol .elseKeyword :: vs
  let rest (ts : List Token) : Prop := ∃ us vs, Sentence .expression us ∧ branches vs ∧
    ts = enclosed .leftParen .rightParen us ++ vs
  have header : Sound (between .leftParen .rightParen expr) fun ts _ => ∃ us,
      Sentence .expression us ∧ ts = enclosed .leftParen .rightParen us :=
    Sound.between (derived.mono fun us _ sentence => ⟨us, sentence, rfl⟩)
  refine .spanning (Faithful.afterSymbol (?_ : Faithful n n' _ _ rest)
    ⟨_, ws, _, sentence, ⟨ws, ws, sentence, sentence, rfl⟩, rfl⟩ ?_) (keyword_consumes ?_)
  · have condition : Faithful n n' (between .leftParen .rightParen expr)
        (between .leftParen .rightParen expr')
        fun ts => ∃ us, Sentence .expression us ∧ ts = enclosed .leftParen .rightParen us :=
      (Faithful.between inner derived (exists_sentence _)
        fun us sentence => ⟨us, sentence, rfl⟩).lessen (Nat.le_succ n) (Nat.le_succ n')
    refine condition.bind header ?_ ?_
    · rintro _ ⟨us, first, rfl⟩
      exact ⟨_, us, _, first, ⟨ws, ws, sentence, sentence, rfl⟩, rfl⟩
    · rintro _ condition ⟨us, first, rfl⟩
      refine (inner.lessen (Nat.sub_le ..) (Nat.sub_le ..)).bind derived
        (fun vs second => ⟨.symbol .elseKeyword :: ws, us, _, first,
          ⟨vs, ws, second, sentence, rfl⟩, rfl⟩) ?_
      intro vs whenTrue second
      refine (keyword_faithful (inner.map read) (exists_sentence _)
        fun ws third => ⟨us, _, first, ⟨vs, ws, second, third, rfl⟩, rfl⟩).lessen ?_ ?_
      · exact Nat.le_trans (Nat.sub_le ..) (Nat.sub_le ..)
      · exact Nat.le_trans (Nat.sub_le ..) (Nat.sub_le ..)
  · rintro _ ⟨us, _, ⟨a, first⟩, ⟨vs, ws, ⟨b, second⟩, ⟨c, third⟩, rfl⟩, rfl⟩
    exact ⟨_, .conditional first second third⟩
  · apply header.bind
    intro _ condition _
    apply read.bind
    intro _ whenTrue _
    exact (keyword_consumes (Sound.map read)).mono fun _ _ _ => trivial

/-- What stands in the parentheses of a `for`. -/
def binder (expr : Parser Phrase) : Parser (Ident × Phrase) := do
  let item ← ident
  let _ ← symbol .inKeyword
  let list ← expr
  pure (item, list)

/-- A name, the keyword, and an expression. -/
def Binder (ts : List Token) : Prop :=
  ∃ name us, Sentence .expression us ∧ ts = .ident name :: .symbol .inKeyword :: us

omit inner sound' in
theorem binder_sentence : Sound (binder expr) fun ts _ => Binder ts := by
  apply ident_sound.bind
  rintro _ item rfl
  apply (symbol_sound .inKeyword).bind
  rintro _ _ rfl
  exact Sound.map ((expr_sentence sound).mono fun us _ sentence =>
    ⟨item.name, us, sentence, by simp⟩)

omit sound' in
theorem binder_faithful : Faithful n n' (binder expr) (binder expr') Binder := by
  obtain ⟨ws, sentence⟩ := exists_sentence .expression
  refine ident_faithful.bind ident_sound ?_ ?_
  · rintro _ ⟨name, rfl⟩
    exact ⟨.symbol .inKeyword :: ws, name, ws, sentence, rfl⟩
  · rintro _ item rfl
    exact (keyword_faithful (inner.map (sound.form.mono fun _ _ _ => trivial)) (exists_sentence _)
      fun us list => ⟨item.name, us, list, rfl⟩).lessen (Nat.sub_le ..) (Nat.sub_le ..)

omit sound' in
theorem forEach_faithful :
    Faithful (n + 1) (n' + 1) (forEach expr) (forEach expr') (Sentence .expression) := by
  have read : Sound expr fun _ _ => True := sound.form.mono fun _ _ _ => trivial
  obtain ⟨ws, sentence⟩ := exists_sentence .expression
  -- What comes after the keyword: the binder, and the body.
  let rest (ts : List Token) : Prop := ∃ us vs, Binder us ∧ Sentence .expression vs ∧
    ts = enclosed .leftParen .rightParen us ++ vs
  have some : ∃ ts, Binder ts := ⟨_, "", ws, sentence, rfl⟩
  have header : Sound (between .leftParen .rightParen (binder expr)) fun ts _ => ∃ us,
      Binder us ∧ ts = enclosed .leftParen .rightParen us :=
    Sound.between ((binder_sentence sound).mono fun us _ inside => ⟨us, inside, rfl⟩)
  obtain ⟨us, inside⟩ := some
  refine .spanning (Faithful.afterSymbol (?_ : Faithful n n' _ _ rest)
    ⟨_, us, ws, inside, sentence, rfl⟩ ?_) (keyword_consumes ?_)
  · have parens : Faithful (n + 1) (n' + 1) (between .leftParen .rightParen (binder expr))
        (between .leftParen .rightParen (binder expr'))
        fun ts => ∃ us, Binder us ∧ ts = enclosed .leftParen .rightParen us :=
      .between (binder_faithful inner sound) (binder_sentence sound) ⟨us, inside⟩
        fun us inside => ⟨us, inside, rfl⟩
    refine (parens.lessen (Nat.le_succ n) (Nat.le_succ n')).bind header ?_ ?_
    · rintro _ ⟨us, first, rfl⟩
      exact ⟨ws, us, ws, first, sentence, rfl⟩
    · rintro _ ⟨item, list⟩ ⟨us, first, rfl⟩
      exact ((inner.lessen (Nat.sub_le ..) (Nat.sub_le ..)).mono
        fun vs body => ⟨[], us, vs, first, body, by simp⟩).map read
  · rintro _ ⟨_, vs, ⟨name, us, ⟨a, list⟩, rfl⟩, ⟨b, body⟩, rfl⟩
    exact ⟨_, .forEach name list body⟩
  · apply header.bind
    intro _ pair _
    exact Sound.map read

/-- An expression before it gets its label. -/
def alternatives (expr : Parser Phrase) : Parser Phrase :=
  choice [lambda expr, letIn expr, conditional expr, forEach expr, definition expr]

theorem alternatives_faithful :
    Faithful (n + 1) (n' + 1) (alternatives expr) (alternatives expr') (Sentence .expression) :=
  (lambda_faithful inner sound).orElse <| (letIn_faithful inner sound sound').orElse <|
    (conditional_faithful inner sound).orElse <| (forEach_faithful inner sound).orElse <|
      (definition_faithful inner sound sound').mono fun ts sentence => ⟨[], by
        simpa using sentence.tighter rfl⟩

end Levels

section Greed

variable {n : Nat} {expr : Parser Phrase} (inner : Faithful n n expr expr (Sentence .expression))
  (sound : Locates expr (Reads .expression)) (greedy : Greedy n expr)

include sound greedy

omit sound greedy in
theorem keyword_greedy {α : Type} {k : Nat} {s : Symbol} {q : Parser α} (rest : Greedy k q) :
    Greedy (k + 1) (do let _ ← symbol s; q) := by
  refine .bind (symbol_sound s) ?_
  rintro _ _ rfl
  exact rest

omit sound in
theorem lambda_greedy : Greedy (n + 1) (lambda expr) := by
  refine .spanning (.bind params_sound fun ts names params => ?_)
  obtain ⟨token, more, rfl, -⟩ := params.begins
  refine (keyword_greedy greedy.map).lessen ?_
  simp only [List.length_cons]
  omega

theorem letIn_greedy : Greedy (n + 1) (letIn expr) :=
  .spanning (keyword_greedy (.bind (items1_sentence sound .semicolon) fun _ _ _ =>
    (keyword_greedy greedy.map).lessen (Nat.le_trans (Nat.sub_le ..) (Nat.le_succ n))))

theorem conditional_greedy : Greedy (n + 1) (conditional expr) := by
  have read : Sound expr fun _ _ => True := sound.form.mono fun _ _ _ => trivial
  have header : Sound (between .leftParen .rightParen expr) fun _ _ => True :=
    Sound.between (read.mono fun _ _ _ => trivial)
  refine .spanning (keyword_greedy (.bind header fun _ _ _ => .bind read fun _ _ _ =>
    (keyword_greedy greedy.map).lessen ?_))
  omega

theorem forEach_greedy : Greedy (n + 1) (forEach expr) := by
  have header : Sound (between .leftParen .rightParen (binder expr)) fun _ _ => True :=
    Sound.between ((binder_sentence sound).mono fun _ _ _ => trivial)
  exact .spanning (keyword_greedy (.bind header fun _ _ _ => (greedy.lessen (Nat.sub_le ..)).map))

include inner in
theorem definition_greedy : Greedy (n + 1) (definition expr) := by
  refine .bind (disjunction_locates sound).form fun ts _ _ => ?_
  have definiens : Faithful (n + 1) (n + 1) (do
      let _ ← symbol .assign
      expr) (do
      let _ ← symbol .assign
      expr) fun us => ∃ vs, us = .symbol .assign :: vs ∧ Sentence .expression vs :=
    inner.afterSymbol (exists_sentence _) fun us sentence => ⟨us, rfl, sentence⟩
  exact (((keyword_greedy greedy).optional definiens).lessen (Nat.sub_le ..)).map

include inner in
theorem alternatives_greedy : Greedy (n + 1) (alternatives expr) :=
  (lambda_greedy greedy).orElse <| (letIn_greedy sound greedy).orElse <|
    (conditional_greedy sound greedy).orElse <| (forEach_greedy sound greedy).orElse <|
      definition_greedy inner sound greedy

end Greed

/-- Tokens somewhere. -/
def placed (tokens : List Token) : List Lexeme :=
  tokens.map fun token => ⟨token, ⟨⟨"", ""⟩, 0, 0⟩⟩

theorem tokens_placed (tokens : List Token) (stop : Nat) :
    (Cursor.mk (placed tokens) stop).tokens = tokens := by
  simp [placed, Cursor.tokens, Function.comp_def]

/-- Every expression is read up to its end. -/
theorem upTo_reads {ts : List Token} (sentence : Sentence .expression ts) {cursor : Cursor}
    (tokens : cursor.tokens = ts) {depth : Nat} (short : ts.length < depth) :
    ∃ phrase next, (upTo depth cursor).outcome = some (phrase, next) ∧ next.rest = [] := by
  obtain ⟨tree, derives⟩ := sentence
  obtain ⟨phrase, next, run, left, -⟩ := upTo_complete depth derives short
    (show Next (follow .expression) [] by simp [Next]) (by simpa using tokens)
  exact ⟨phrase, next, run, by simpa [Cursor.tokens] using left⟩

/-- A failure at the first token is reported only if no expression can start with that token: a text
with an expression that does would have been told apart before. -/
theorem alternatives_missed {n : Nat}
    (inner : ∀ k, Faithful n k (upTo n) (upTo k) (Sentence .expression))
    (greedy : Greedy n (upTo n)) (cursor : Cursor) (m : Miss) (short : cursor.rest.length < n + 1)
    (here : (alternatives (upTo n) cursor).miss = some m)
    (first : m.remaining = cursor.rest.length) :
    ¬ Expected.expression.Covers cursor.tokens.head? := by
  rintro ⟨token, more, tree, starts, derives⟩
  obtain ⟨v, stop⟩ := cursor
  have reports := alternatives_faithful (inner (placed (token :: more)).length) (upTo_locates n)
    (upTo_locates _)
  have stays : Stays v.length (alternatives (upTo n) ⟨v, stop⟩) := by
    constructor
    · intro other same
      obtain rfl : m = other := Option.some.inj (here.symm.trans same)
      exact Nat.le_of_eq first.symm
    · intro phrase next run
      obtain ⟨other, same, le⟩ := alternatives_greedy (inner n) (upTo_locates n) greedy _ _ _ short run
      obtain rfl : m = other := Option.some.inj (here.symm.trans same)
      exact first ▸ le
  have enough : (token :: more).length < (placed (token :: more)).length + 1 := by simp [placed]
  obtain ⟨phrase, next, run, ended⟩ := upTo_reads ⟨tree, derives⟩
    (tokens_placed (token :: more) stop) enough
  rcases reports.coherent [] v (placed (token :: more)) stop short (Nat.lt_succ_self _) stays with
    agree | ⟨e, ⟨other, same, -, mem⟩, covers⟩
  · have ran : (alternatives (upTo (placed (token :: more)).length)
        ⟨[] ++ placed (token :: more), stop⟩).outcome = some (phrase, next) := run
    rw [ran] at agree
    generalize (alternatives (upTo n) ⟨[] ++ v, stop⟩).outcome = outcome at agree
    cases agree with
    | read _ u stop' => simp [placed] at ended
  · obtain rfl : m = other := Option.some.inj (here.symm.trans same)
    obtain ⟨read, after, split, left, -, missed, -⟩ := (reports.reports _ short m here).2 e mem
    obtain rfl : read = [] := by
      have lengths := congrArg List.length split
      simp only [Cursor.tokens, List.length_map, List.length_append] at lengths first
      exact List.length_eq_zero_iff.mp (by omega)
    rw [List.nil_append] at split
    rw [← split, starts] at missed
    exact missed covers

/-- The reports of failures in expressions are right, and where an expression ends, something else
could have come next. -/
theorem upTo_faithful (n : Nat) :
    (∀ k, Faithful n k (upTo n) (upTo k) (Sentence .expression)) ∧ Greedy n (upTo n) := by
  induction n with
  | zero =>
    constructor
    · intro k
      refine ⟨fun _ _ _ run => (nomatch run), fun _ short => absurd short (Nat.not_lt_zero _),
        fun _ short => absurd short (Nat.not_lt_zero _),
        fun _ _ _ _ short => absurd short (Nat.not_lt_zero _)⟩
    · exact fun _ _ _ short => absurd short (Nat.not_lt_zero _)
  | succ n ih =>
    obtain ⟨inner, greedy⟩ := ih
    have labelled (k : Nat) :
        Faithful (n + 1) (k + 1) (upTo (n + 1)) (upTo (k + 1)) (Sentence .expression) := by
      refine (alternatives_faithful (inner k) (upTo_locates n) (upTo_locates k)).labelled ?_ ?_
        (alternatives_missed inner greedy)
      · obtain ⟨tree, derives⟩ := sentence_name .expression ""
        exact ⟨_, _, [], tree, rfl, derives⟩
      · intro t
        constructor
        · rintro ⟨token, more, tree, is, derives⟩
          obtain rfl := Option.some.inj is
          exact ⟨more, tree, derives⟩
        · rintro ⟨more, tree, derives⟩
          exact ⟨t, more, tree, rfl, derives⟩
    refine ⟨fun k => ?_, (alternatives_greedy (inner n) (upTo_locates n) greedy).labelled⟩
    cases k with
    | zero => exact (labelled 0).alone
    | succ k => exact labelled k

end Grammar

end ShapeLang
