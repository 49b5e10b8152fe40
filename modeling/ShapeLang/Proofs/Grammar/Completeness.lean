import ShapeLang.Proofs.Grammar.Soundness

/-! # Every derivation is read

Each level is read greedily, so what comes after a sentence must not continue it. `follow` collects
what can come after a sentence of a level inside a larger one: for an expression only a closing
symbol, and on each tighter level also the operators of the looser ones. One theorem per level
carries `Complete` from the expressions inside to the level; the expressions inside are shorter, so
`upTo_complete` is an induction on the length.

Where two alternatives begin alike, the one that is tried first refuses what the other one derives:
`lambda_refuses` and `record_refuses`.
-/

namespace ShapeLang

namespace Grammar

open ShapeLang.Parser

/-- The symbols of the operators of a level. -/
def Level.symbols (level : Level) : List Symbol := level.operators.map (·.1)

/-- The symbols that can come after a sentence of the level and before the end of the expression
that it stands in. -/
def continuing : Level → List Symbol
  | .expression | .definition => []
  | .disjunction => [.assign]
  | .conjunction => [.or, .assign]
  | .comparison => [.and, .or, .assign]
  | .sum => Level.comparison.symbols ++ [.and, .or, .assign]
  | .product => Level.sum.symbols ++ Level.comparison.symbols ++ [.and, .or, .assign]
  | .signed | .power =>
    Level.product.symbols ++ Level.sum.symbols ++ Level.comparison.symbols ++ [.and, .or, .assign]
  | .suffixed => .caret :: (Level.product.symbols ++ Level.sum.symbols ++
    Level.comparison.symbols ++ [.and, .or, .assign])
  | .atom => continuers

/-- The symbols that can come after a sentence of the level. -/
def follow (level : Level) : List Symbol := continuing level ++ closers

section Follow

variable {level below : Level}

theorem follow_tighter (next : level.tighter? = some below) :
    ∀ s ∈ follow level, s ∈ follow below := by
  cases level <;> cases next <;> decide

theorem symbols_follow (next : level.tighter? = some below) :
    ∀ s ∈ level.symbols, s ∈ follow below := by
  cases level <;> cases next <;> decide

theorem symbols_not_follow (level : Level) : ∀ s ∈ level.symbols, s ∉ follow level := by
  cases level <;> decide

theorem symbols_nodup (level : Level) : level.symbols.Nodup := by
  cases level <;> decide

theorem closers_not_open : ∀ s ∈ closers, s ∉ openers := by decide

end Follow

/-- Every sentence of the level with fewer tokens than the bound is read, and given its form, where
something comes after it that can come after a sentence of the level. -/
def Complete (level : Level) (bound : Nat) (p : Parser Phrase) : Prop :=
  ∀ ⦃ts a rest⦄, Derives level ts a → ts.length < bound → Next (follow level) rest →
    Accepts p ts rest fun phrase => phrase.tree = a

section Words

variable {rest : List Token}

theorem ident_refuses (s : Symbol) : Refuses ident (.symbol s :: rest) := by
  apply token_refuses
  rintro ⟨token, location⟩ rfl
  rfl

theorem literal_accepts {token : Token} {a : Tree} (is : Literal token a) :
    Accepts literal [token] rest fun phrase => phrase.tree = a := by
  apply token_accepts
  rintro ⟨_, location⟩ rfl
  cases is with
  | number value => exact ⟨_, rfl, rfl⟩
  | boolean value => exact ⟨_, rfl, rfl⟩
  | text content => exact ⟨_, rfl, rfl⟩

theorem literal_refuses_symbol (s : Symbol) : Refuses literal (.symbol s :: rest) := by
  apply token_refuses
  rintro ⟨token, location⟩ rfl
  rfl

theorem literal_refuses_name (name : String) : Refuses literal (.ident name :: rest) := by
  apply token_refuses
  rintro ⟨token, location⟩ rfl
  rfl

theorem variableName_accepts (name : String) :
    Accepts variableName [.ident name] rest fun phrase => phrase.tree = .ident name :=
  ((ident_accepts name).mono fun _ is => congrArg Tree.ident is).map

variable {α : Type} {table : List (Symbol × α)}

theorem oneOf_accepts {s : Symbol} {a : α} (known : (s, a) ∈ table)
    (distinct : (table.map (·.1)).Nodup) :
    Accepts (oneOf table) [.symbol s] rest fun entry => entry.1 = a := by
  induction table with
  | nil => cases known
  | cons entry table ih =>
    rw [List.map_cons, List.nodup_cons] at distinct
    rcases List.mem_cons.mp known with rfl | later
    · apply Accepts.choice
      exact ((symbol_accepts s).mono fun _ _ => rfl).map
    · apply Refuses.choice _ (ih later distinct.2)
      apply Refuses.map
      apply symbol_refuses
      intro same
      have : s = entry.1 := by simpa using same
      exact distinct.1 (this ▸ List.mem_map_of_mem later)

theorem oneOf_refuses (other : ∀ s ∈ table.map (·.1), rest.head? ≠ some (.symbol s)) :
    Refuses (oneOf table) rest := by
  apply choice_refuses
  intro p mem
  obtain ⟨entry, known, rfl⟩ := List.mem_map.mp mem
  exact (symbol_refuses (other _ (List.mem_map_of_mem known))).map

end Words

section Items

variable {expr : Parser Phrase} {bound : Nat} {rest : List Token} {separator closing : Symbol}

theorem length_le_spread (separator : Symbol) (trailing : Bool) {uses : List (List Token)}
    {ts : List Token} (mem : ts ∈ uses) : ts.length ≤ (spread separator trailing uses).length := by
  cases uses with
  | nil => cases mem
  | cons first others =>
    rw [spread_cons, List.length_append, List.length_append]
    rcases List.mem_cons.mp mem with rfl | later
    · omega
    · have inside : Token.symbol separator :: ts <:+: (others.map (.symbol separator :: ·)).flatten :=
        List.infix_of_mem_flatten (List.mem_map_of_mem later)
      have := inside.length_le
      rw [List.length_cons] at this
      omega

/-- After the first item comes a separator, or what closes the row. -/
theorem exists_after_first (separator closing : Symbol) (rest : List Token) (trailing : Bool) (first : List Token) (others : List (List Token)) :
    ∃ more, spread separator trailing (first :: others) ++ .symbol closing :: rest = first ++ more ∧
      Next [separator, closing] more := by
  rw [spread_cons]
  refine ⟨_, List.append_assoc .., ?_⟩
  cases others with
  | cons => exact next_cons (by simp) _
  | nil =>
    cases trailing
    · exact next_cons (by simp) _
    · exact next_cons (by simp) _

/-- No expression begins with a symbol that closes one. -/
theorem refuses_closer (inner : Locates expr (Reads .expression)) (closes : closing ∈ closers) :
    Refuses expr (.symbol closing :: rest) := by
  apply inner.form.refuses
  intro ts a more derives same
  apply (Derives.begins derives).not_symbol (closers_not_open closing closes) more
  rw [same]
  rfl

theorem Complete.expression_accepts (whole : Complete .expression bound expr) {ts : List Token}
    {a : Tree} (derives : Derives .expression ts a) (short : ts.length < bound)
    (closes : closing ∈ closers) :
    Accepts expr ts (.symbol closing :: rest) fun phrase => phrase.tree = a :=
  whole derives short (next_cons closes rest)

variable (parts : List (List Token × Tree)) (trailing : Bool)

theorem Complete.each (whole : Complete .expression bound expr)
    (derive : ∀ part ∈ parts, Derives .expression part.1 part.2)
    (short : (spread separator trailing (parts.map (·.1))).length < bound)
    (separates : separator ∈ closers) (closes : closing ∈ closers) :
    ∀ part ∈ parts, ∀ more, Next [separator, closing] more →
      Accepts expr part.1 more fun phrase => phrase.tree = part.2 := by
  intro part mem more next
  have := length_le_spread separator trailing (List.mem_map_of_mem (f := (·.1)) mem)
  apply whole (derive part mem) (by omega)
  apply next.mono
  rintro s (_ | ⟨_, _ | ⟨_, known⟩⟩)
  · exact separates
  · exact closes
  · cases known

theorem Complete.separated1_accepts (whole : Complete .expression bound expr)
    (inner : Locates expr (Reads .expression)) (nonempty : parts ≠ [])
    (derive : ∀ part ∈ parts, Derives .expression part.1 part.2)
    (short : (spread separator trailing (parts.map (·.1))).length < bound)
    (separates : separator ∈ closers) (closes : closing ∈ closers) (different : separator ≠ closing) :
    Accepts (separated1 expr (symbol separator)) (spread separator trailing (parts.map (·.1)))
      (.symbol closing :: rest) fun phrases => Phrase.trees phrases = parts.map (·.2) := by
  simp only [Phrase.trees_eq]
  exact Parser.separated1_accepts parts trailing nonempty inner.form
    (whole.each parts trailing derive short separates closes) (refuses_closer inner closes) different

theorem Complete.separated_accepts (whole : Complete .expression bound expr)
    (inner : Locates expr (Reads .expression))
    (derive : ∀ part ∈ parts, Derives .expression part.1 part.2)
    (short : (spread separator trailing (parts.map (·.1))).length < bound)
    (separates : separator ∈ closers) (closes : closing ∈ closers) (different : separator ≠ closing) :
    Accepts (separated expr (symbol separator)) (spread separator trailing (parts.map (·.1)))
      (.symbol closing :: rest) fun phrases => Phrase.trees phrases = parts.map (·.2) := by
  simp only [Phrase.trees_eq]
  exact Parser.separated_accepts parts trailing inner.form
    (whole.each parts trailing derive short separates closes) (refuses_closer inner closes) different

end Items

section Atoms

variable {expr : Parser Phrase} {bound : Nat} (inner : Locates expr (Reads .expression))
  (whole : Complete .expression bound expr) {rest : List Token}

theorem variableName_refuses (s : Symbol) : Refuses variableName (.symbol s :: rest) :=
  (ident_refuses s).map

/-- What stands in one kind of brackets does not begin with another symbol. -/
theorem brackets_refuse {α : Type} {opening closing s : Symbol} {p : Parser α}
    {f : α → Location → Phrase} (other : s ≠ opening) :
    Refuses (spanning (f <$> between opening closing p)) (.symbol s :: rest) :=
  (between_refuses (by simpa using other)).map.spanning

theorem length_enclosed (opening closing : Symbol) (tokens : List Token) :
    (enclosed opening closing tokens).length = tokens.length + 2 := by
  simp [enclosed]

include inner whole

theorem list_accepts {parts : List (List Token × Tree)} {trailing : Bool}
    (derive : ∀ part ∈ parts, Derives .expression part.1 part.2)
    (short : (spread .comma trailing (parts.map (·.1))).length < bound) :
    Accepts (listOf expr)
      (enclosed .leftBracket .rightBracket (spread .comma trailing (parts.map (·.1)))) rest
      fun phrase => phrase.tree = .list (parts.map (·.2)) := by
  apply Accepts.spanning _ (by simp [enclosed])
  apply Accepts.map
  apply Accepts.between
  apply (whole.separated_accepts parts trailing inner derive short (by decide) (by decide)
    (by decide)).mono
  intro items are location
  rw [Phrase.tree, are]

omit inner in
theorem field_accepts {name : String} {ts : List Token} {a : Tree}
    (derives : Derives .expression ts a) (short : ts.length < bound) (next : Next closers rest) :
    Accepts (field expr) (.ident name :: .symbol .colon :: ts) rest fun field =>
      (field.1.name, field.2.tree) = (name, a) := by
  apply (ident_accepts name).bind_one
  rintro id rfl
  apply Accepts.after_symbol
  apply (whole derives short next).bind_nil
  rintro value rfl
  exact pure_accepts rfl

theorem record_accepts {fields : List (String × List Token × Tree)} {trailing : Bool}
    (derive : ∀ field ∈ fields, Derives .expression field.2.1 field.2.2)
    (short : (spread .comma trailing
      (fields.map fun field => .ident field.1 :: .symbol .colon :: field.2.1)).length < bound) :
    Accepts (recordOf expr)
      (enclosed .leftBrace .rightBrace (spread .comma trailing
        (fields.map fun field => .ident field.1 :: .symbol .colon :: field.2.1))) rest
      fun phrase => phrase.tree = .record (fields.map fun field => (field.1, field.2.2)) := by
  let parts : List (List Token × String × Tree) := fields.map fun field =>
    (.ident field.1 :: .symbol .colon :: field.2.1, field.1, field.2.2)
  apply Accepts.spanning _ (by simp [enclosed])
  apply Accepts.map
  apply Accepts.between
  have items : Accepts (separated (field expr) (symbol .comma))
      (spread .comma trailing (parts.map (·.1))) (.symbol .rightBrace :: rest)
      fun read => read.map (fun field => (field.1.name, field.2.tree)) = parts.map (·.2) := by
    apply Parser.separated_accepts parts trailing (field_sound inner)
    case stop => exact (ident_refuses .rightBrace).bind
    case different => decide
    case each =>
      intro part mem more next
      obtain ⟨field, origin, rfl⟩ := List.mem_map.mp mem
      have := length_le_spread .comma trailing (List.mem_map_of_mem (f := fun field =>
        Token.ident field.1 :: .symbol .colon :: field.2.1) origin)
      simp only [List.length_cons] at this
      exact field_accepts whole (derive field origin) (by omega) (next.mono (by decide))
  simp only [parts, List.map_map, Function.comp_def] at items
  apply items.mono
  intro read are location
  rw [Phrase.tree, Phrase.fieldTrees_eq, are]

omit whole in
/-- A record is tried before a module, but the first item of a module does not begin like a
field. -/
theorem record_refuses {ts : List Token} {a : Tree} (derives : Derives .expression ts a)
    (next : Next [.semicolon, .rightBrace] rest) :
    Refuses (recordOf expr) (.symbol .leftBrace :: (ts ++ rest)) := by
  have read : Sound (between .leftBrace .rightBrace (separated (field expr) (symbol .comma)))
      fun used _ => ∃ uses trailing, used = enclosed .leftBrace .rightBrace
        (spread .comma trailing uses) ∧
        ∀ us ∈ uses, ∃ name vs, us = .ident name :: .symbol .colon :: vs := by
    apply Sound.between
    apply (field_sound inner).separated.mono
    rintro _ fields ⟨uses, trailing, rfl, each⟩
    refine ⟨uses, trailing, rfl, fun us mem => ?_⟩
    obtain ⟨i, small, rfl⟩ := List.getElem_of_mem mem
    obtain ⟨vs, is, -⟩ := each.get small (each.length_eq ▸ small)
    exact ⟨_, vs, is⟩
  apply Refuses.spanning
  apply Refuses.map
  apply read.refuses
  rintro _ _ more ⟨uses, trailing, rfl, each⟩ same
  replace same : spread .comma trailing uses ++ .symbol .rightBrace :: more = ts ++ rest := by
    simpa [enclosed] using same
  obtain ⟨token, others, rfl, opens⟩ := derives.begins
  cases uses with
  | nil => exact absurd (opens .rightBrace (List.cons.inj same).1.symm) (by decide)
  | cons us uses =>
    obtain ⟨name, vs, rfl⟩ := each us List.mem_cons_self
    rw [spread_cons] at same
    obtain ⟨rfl, following⟩ := List.cons.inj same
    -- What comes after the name is a colon, which continues no operand and closes none.
    have colon : (others ++ rest).head? = some (.symbol .colon) := congrArg List.head? following.symm
    have after := derives.after_name
    cases others with
    | nil => exact next.not_symbol (by decide) colon
    | cons => exact after.not_symbol (by decide) colon

theorem module_accepts {parts : List (List Token × Tree)} {trailing : Bool} (nonempty : parts ≠ [])
    (derive : ∀ part ∈ parts, Derives .expression part.1 part.2)
    (short : (spread .semicolon trailing (parts.map (·.1))).length < bound) :
    Accepts (moduleOf expr)
      (enclosed .leftBrace .rightBrace (spread .semicolon trailing (parts.map (·.1)))) rest
      fun phrase => phrase.tree = .module (parts.map (·.2)) := by
  apply Accepts.spanning _ (by simp [enclosed])
  apply Accepts.map
  apply Accepts.between
  apply (whole.separated1_accepts parts trailing inner nonempty derive short (by decide) (by decide)
    (by decide)).mono
  intro items are location
  rw [Phrase.tree, are]

/-- An atom ends with itself: anything can come after it. -/
theorem atom_accepts {ts : List Token} {a : Tree} (derives : Derives .atom ts a)
    (short : ts.length < bound + 1) : Accepts (atom expr) ts rest fun phrase => phrase.tree = a := by
  cases derives with
  | tighter next => cases next
  | binary next => cases next
  | literal is => exact Accepts.choice (literal_accepts is)
  | ident name =>
    apply Refuses.choice (literal_refuses_name name)
    exact Accepts.choice (variableName_accepts name)
  | list parts trailing derive =>
    rw [length_enclosed] at short
    apply Refuses.choice (literal_refuses_symbol _)
    apply Refuses.choice (variableName_refuses _)
    exact Accepts.choice (list_accepts inner whole derive (by omega))
  | record fields trailing derive =>
    rw [length_enclosed] at short
    apply Refuses.choice (literal_refuses_symbol _)
    apply Refuses.choice (variableName_refuses _)
    apply Refuses.choice (brackets_refuse (by decide))
    exact Accepts.choice (record_accepts inner whole derive (by omega))
  | «module» parts trailing nonempty derive =>
    rw [length_enclosed] at short
    apply Refuses.choice (literal_refuses_symbol _)
    apply Refuses.choice (variableName_refuses _)
    apply Refuses.choice (brackets_refuse (by decide))
    apply Refuses.choice
    · cases parts with
      | nil => exact absurd rfl nonempty
      | cons part parts =>
        obtain ⟨more, same, next⟩ :=
          exists_after_first .semicolon .rightBrace rest trailing part.1 (parts.map (·.1))
        have whole : enclosed .leftBrace .rightBrace (spread .semicolon trailing
            ((part :: parts).map (·.1))) ++ rest = .symbol .leftBrace :: (part.1 ++ more) := by
          rw [← same]
          simp [enclosed]
        rw [whole]
        exact record_refuses inner (derive part List.mem_cons_self) next
    · exact Accepts.choice (module_accepts inner whole nonempty derive (by omega))
  | parens derives =>
    rw [length_enclosed] at short
    apply Refuses.choice (literal_refuses_symbol _)
    apply Refuses.choice (variableName_refuses _)
    apply Refuses.choice (brackets_refuse (by decide))
    apply Refuses.choice (brackets_refuse (by decide))
    apply Refuses.choice (brackets_refuse (by decide))
    apply Accepts.choice
    apply Accepts.between
    exact whole.expression_accepts derives (by omega) (by decide)

end Atoms

section Operands

variable {expr : Parser Phrase} {bound : Nat} (inner : Locates expr (Reads .expression))
  (whole : Complete .expression bound expr) {ts rest : List Token} {a : Tree}

/-- Where no operand continues, nothing is appended to it. -/
theorem suffix_refuses (base : Phrase) (next : Next (follow .suffixed) rest) :
    Refuses (suffix expr base) rest := by
  apply choice_refuses
  simp only [List.forall_mem_cons, List.not_mem_nil, IsEmpty.forall_iff, implies_true, and_true]
  refine ⟨?call, ?dot, ?index⟩
  case call => exact (between_refuses (next.not_symbol (by decide))).map.spanning
  case dot => exact (symbol_refuses (next.not_symbol (by decide))).bind.map.spanning
  case index => exact (between_refuses (next.not_symbol (by decide))).map.spanning

include inner whole

theorem call_accepts (base : Phrase) {args : List (List Token × Tree)} {trailing : Bool}
    (derive : ∀ arg ∈ args, Derives .expression arg.1 arg.2)
    (short : (spread .comma trailing (args.map (·.1))).length < bound) :
    Accepts (suffix expr base)
      (enclosed .leftParen .rightParen (spread .comma trailing (args.map (·.1)))) rest
      fun phrase => phrase.tree = .call base.tree (args.map (·.2)) := by
  apply Accepts.choice
  apply Accepts.spanning _ (by simp [enclosed])
  apply Accepts.map
  apply Accepts.between
  apply (whole.separated_accepts args trailing inner derive short (by decide) (by decide)
    (by decide)).mono
  intro read are location
  rw [Phrase.tree, are]

omit inner whole in
theorem dot_accepts (base : Phrase) (name : String) :
    Accepts (suffix expr base) [.symbol .dot, .ident name] rest
      fun phrase => phrase.tree = .dot base.tree name := by
  apply Refuses.choice (brackets_refuse (by decide))
  apply Accepts.choice
  apply Accepts.spanning _ (by simp)
  apply Accepts.map
  apply Accepts.after_symbol
  apply (ident_accepts name).mono
  rintro id rfl location
  rfl

omit inner in
theorem index_accepts (base : Phrase) (derives : Derives .expression ts a)
    (short : ts.length < bound) :
    Accepts (suffix expr base) (enclosed .leftBracket .rightBracket ts) rest
      fun phrase => phrase.tree = .index base.tree a := by
  apply Refuses.choice (brackets_refuse (by decide))
  apply Refuses.choice
  · apply Refuses.spanning
    apply Refuses.map
    apply Refuses.bind
    apply symbol_refuses
    simp [enclosed]
  apply Accepts.choice
  apply Accepts.spanning _ (by simp [enclosed])
  apply Accepts.map
  apply Accepts.between
  apply (whole.expression_accepts derives short (by decide)).mono
  rintro place rfl location
  rfl

/-- From its atom, an operand is reached by appending one suffix after the other. -/
theorem suffixed_reaches (derives : Derives .suffixed ts a) (short : ts.length < bound + 1)
    {cursor : Cursor} (tokens : cursor.tokens = ts ++ rest) :
    ∃ first middle phrase final, (atom expr cursor).outcome = some (first, middle) ∧
      Reaches (suffix expr) (first, middle) (phrase, final) ∧ final.tokens = rest ∧
      phrase.tree = a := by
  generalize level : Level.suffixed = l at derives
  induction derives generalizing rest with
  | tighter next part _ =>
    subst level
    cases next
    obtain ⟨phrase, final, run, left, is⟩ := atom_accepts inner whole part short tokens
    exact ⟨phrase, final, phrase, final, run, .refl, left, is⟩
  | binary _ known => subst level; cases known
  | call function args trailing derive ih =>
    rw [List.length_append, length_enclosed] at short
    obtain ⟨first, middle, base, before, run, reached, left, rfl⟩ :=
      ih (by omega) (tokens.trans (List.append_assoc ..)) rfl
    obtain ⟨phrase, final, one, ends, is⟩ :=
      call_accepts inner whole base derive (by omega) left
    exact ⟨first, middle, phrase, final, run, reached.tail one, ends, is⟩
  | dot _ name ih =>
    rw [List.length_append] at short
    obtain ⟨first, middle, base, before, run, reached, left, rfl⟩ :=
      ih (by omega) (tokens.trans (List.append_assoc ..)) rfl
    obtain ⟨phrase, final, one, ends, is⟩ := dot_accepts base name left
    exact ⟨first, middle, phrase, final, run, reached.tail one, ends, is⟩
  | index _ place ih =>
    rw [List.length_append, length_enclosed] at short
    obtain ⟨first, middle, base, before, run, reached, left, rfl⟩ :=
      ih (by omega) (tokens.trans (List.append_assoc ..)) rfl
    obtain ⟨phrase, final, one, ends, is⟩ := index_accepts whole base place (by omega) left
    exact ⟨first, middle, phrase, final, run, reached.tail one, ends, is⟩
  | _ => cases level

theorem postfixed_complete : Complete .suffixed (bound + 1) (postfixed expr) := by
  intro ts a rest derives short next cursor tokens
  obtain ⟨first, middle, phrase, final, run, reached, left, is⟩ :=
    suffixed_reaches inner whole derives short tokens
  have stops : (suffix expr phrase final).outcome = none := suffix_refuses phrase next left
  have extended := extend_outcome (fun base => (suffix_sound inner base).mono fun _ _ => And.left)
    reached stops
  exact ⟨phrase, final, by rw [postfixed, bind_outcome, run]; exact extended, left, is⟩

omit inner whole in
theorem ofPowers_tree (base : Phrase) (exponents : List Phrase) :
    (Phrase.ofPowers base exponents).tree =
      Tree.powers base.tree (exponents.map Phrase.tree) := by
  induction exponents generalizing base with
  | nil => rfl
  | cons exponent exponents ih =>
    rw [Phrase.ofPowers, Phrase.ofBinary, Phrase.tree, ih, List.map_cons, Tree.powers]

theorem powers_complete : Complete .power (bound + 1) (powers expr) := by
  intro ts a rest derives short next
  obtain ⟨us, b, parts, rfl, rfl, first, derive⟩ := derives.power_parts
  let pieces : List (List Token × Tree) :=
    parts.map fun part => (.symbol .caret :: part.1, part.2)
  have tokens : (parts.map fun part => Token.symbol .caret :: part.1) = pieces.map (·.1) := by
    simp [pieces]
  rw [tokens, List.length_append] at short
  have following : Next (follow .suffixed) ((pieces.map (·.1)).flatten ++ rest) := by
    cases parts with
    | nil => exact next.mono (by decide)
    | cons => exact next_cons (by decide) _
  have exponent : Sound (do
      let _ ← symbol .caret
      postfixed expr) fun us _ => ∃ vs, us = .symbol .caret :: vs := by
    apply (symbol_sound .caret).bind
    rintro _ _ rfl
    exact (postfixed_locates inner).form.mono fun vs _ _ => ⟨vs, rfl⟩
  have exponents : Accepts (many do
      let _ ← symbol .caret
      postfixed expr) (pieces.map (·.1)).flatten rest
      fun read => read.map Phrase.tree = pieces.map (·.2) := by
    apply many_accepts (Next (follow .suffixed)) pieces exponent
    case nonempty => rintro _ _ ⟨vs, rfl⟩; simp
    case ends => exact next.mono (by decide)
    case stop => exact (symbol_refuses (next.not_symbol (by decide))).bind
    case continues =>
      intro piece mem more
      obtain ⟨part, _, rfl⟩ := List.mem_map.mp mem
      exact next_cons (by decide) _
    case each =>
      intro piece mem more next
      obtain ⟨part, origin, rfl⟩ := List.mem_map.mp mem
      have inside := (List.infix_of_mem_flatten (List.mem_map_of_mem (f := (·.1)) mem)).length_le
      rw [List.length_cons] at inside
      apply Accepts.after_symbol
      exact postfixed_complete inner whole (derive part origin) (by omega) next
  rw [tokens]
  apply Accepts.bind (postfixed_complete inner whole first (by omega) following)
  rintro base rfl
  apply exponents.bind_nil
  intro read are
  apply pure_accepts
  rw [ofPowers_tree, are]
  simp [pieces, Function.comp_def]

omit inner whole in
theorem ofSigns_tree (operand : Phrase) (read : List (UnaryOp × Location)) :
    (Phrase.ofSigns operand read).tree = (read.map (·.1)).foldr .unary operand.tree := by
  induction read with
  | nil => rfl
  | cons sign read ih =>
    rw [List.map_cons, List.foldr_cons, ← ih]
    rfl

theorem signed_complete : Complete .signed (bound + 1) (signed expr) := by
  intro ts a rest derives short next
  obtain ⟨read, us, b, rfl, rfl, known, last⟩ := derives.signed_parts
  let pieces : List (List Token × UnaryOp) := read.map fun sign => ([.symbol sign.1], sign.2)
  have tokens : (read.map fun sign => [Token.symbol sign.1]) = pieces.map (·.1) := by
    simp [pieces]
  rw [List.length_append] at short
  have stop : Refuses (oneOf signs) (us ++ rest) := by
    apply oneOf_refuses
    intro s known
    apply last.power_begins.not_symbol
    revert s
    decide
  have prefixes : Accepts (many (oneOf signs)) (pieces.map (·.1)).flatten (us ++ rest)
      fun all => all.map (·.1) = pieces.map (·.2) := by
    apply many_accepts (fun _ => True) pieces (oneOf_sound signs)
    case nonempty => rintro _ _ ⟨s, -, rfl⟩; simp
    case ends => trivial
    case stop => exact stop
    case continues => exact fun _ _ _ => trivial
    case each =>
      intro piece mem more _
      obtain ⟨sign, origin, rfl⟩ := List.mem_map.mp mem
      exact oneOf_accepts (known sign origin) (by decide)
  rw [tokens]
  apply Accepts.bind prefixes
  intro all are
  apply Accepts.bind_nil (powers_complete inner whole last (by omega) next)
  rintro operand rfl
  apply pure_accepts
  rw [ofSigns_tree, are]
  simp [pieces, Function.comp_def]

end Operands

section Operators

variable {level below : Level} {operand : Parser Phrase} {bound : Nat} {ts rest : List Token}
  {a : Tree}

theorem operation_accepts {s : Symbol} {op : BinaryOp} (known : (s, op) ∈ level.operators)
    (left : Phrase) (right : Accepts operand ts rest fun phrase => phrase.tree = a) :
    Accepts (operation level.operators operand left) (.symbol s :: ts) rest
      fun phrase => phrase.tree = .binary op left.tree a := by
  apply (oneOf_accepts known (symbols_nodup level)).bind_one
  rintro ⟨_, location⟩ rfl
  apply right.bind_nil
  rintro phrase rfl
  exact pure_accepts rfl

theorem operation_refuses (left : Phrase) (next : Next (follow level) rest) :
    Refuses (operation level.operators operand left) rest := by
  apply Refuses.bind
  apply oneOf_refuses
  intro s known
  exact next.not_symbol (symbols_not_follow level s known)

/-- From its first operand, a sentence is reached by one operation after the other. -/
theorem operations_reach (binary : level.operators ≠ []) (next : level.tighter? = some below)
    (complete : Complete below bound operand) (derives : Derives level ts a)
    (short : ts.length < bound) (following : Next (follow below) rest) {cursor : Cursor}
    (tokens : cursor.tokens = ts ++ rest) :
    ∃ first middle phrase final, (operand cursor).outcome = some (first, middle) ∧
      Reaches (operation level.operators operand) (first, middle) (phrase, final) ∧
      final.tokens = rest ∧ phrase.tree = a := by
  induction hn : ts.length using Nat.strongRecOn generalizing ts a rest with
  | ind n ih =>
    rcases derives.binary_cases binary next with
      part | ⟨us, vs, b, c, s, op, rfl, rfl, known, left, right⟩
    · obtain ⟨phrase, final, run, ended, is⟩ := complete part short following tokens
      exact ⟨phrase, final, phrase, final, run, .refl, ended, is⟩
    · rw [List.length_append, List.length_cons] at short hn
      have continues : Next (follow below) (.symbol s :: (vs ++ rest)) :=
        next_cons (symbols_follow next s (List.mem_map_of_mem known)) _
      obtain ⟨first, middle, phrase, before, run, reached, ended, rfl⟩ :=
        ih us.length (by omega) left (by omega) continues (by simpa using tokens) rfl
      obtain ⟨whole, final, one, ends, is⟩ :=
        operation_accepts known phrase (complete right (by omega) following) ended
      exact ⟨first, middle, whole, final, run, reached.tail one, ends, is⟩

theorem leftAssociative_complete (level : Level) {below : Level} (binary : level.operators ≠ [])
    (next : level.tighter? = some below) (sound : Locates operand (Reads below))
    (complete : Complete below bound operand) :
    Complete level bound (leftAssociative level.operators operand) := by
  intro ts a rest derives short following cursor tokens
  obtain ⟨first, middle, phrase, final, run, reached, left, is⟩ :=
    operations_reach binary next complete derives short (following.mono (follow_tighter next)) tokens
  have stops : (operation level.operators operand phrase final).outcome = none :=
    operation_refuses phrase following left
  have steps (left : Phrase) :
      Sound (operation level.operators operand left) fun us _ => us ≠ [] := by
    apply (operation_sound sound left).mono
    rintro _ _ ⟨s, op, vs, right, rfl, -⟩
    simp
  have extended := extend_outcome steps reached stops
  exact ⟨phrase, final, by rw [leftAssociative, bind_outcome, run]; exact extended, left, is⟩

end Operators

section Expressions

variable {expr : Parser Phrase} {bound : Nat} {ts rest : List Token} {a : Tree}

/-- Functions are tried before operands, but nothing that is an operand, up to where it ends, begins
like a function. -/
theorem lambda_refuses (derives : Derives .definition ts a) (next : Next closers rest) :
    Refuses (lambda expr) (ts ++ rest) := by
  apply Refuses.spanning
  apply params_sound.bind_refuses
  intro ps names more params same
  apply Refuses.bind
  apply symbol_refuses
  exact derives.not_params next params same

theorem lambda_refuses_keyword {s : Symbol} (other : s ≠ .leftParen) :
    Refuses (lambda expr) (.symbol s :: rest) := by
  apply Refuses.spanning
  apply Refuses.bind
  apply choice_refuses
  simp only [List.forall_mem_cons, List.not_mem_nil, IsEmpty.forall_iff, implies_true, and_true]
  constructor
  · exact (ident_refuses s).map
  · exact between_refuses (by simpa using other)

theorem keyword_refuses {s : Symbol} {p : Parser (Location → Phrase)}
    (other : rest.head? ≠ some (.symbol s)) :
    Refuses (spanning do let _ ← symbol s; p) rest :=
  (symbol_refuses other).bind.spanning

theorem params_accepts {ps : List Token} {names : List String} (params : Params ps names) :
    Accepts Grammar.params ps rest fun read => read.map (·.name) = names := by
  cases params with
  | one name =>
    apply Accepts.choice
    apply Accepts.map
    exact (ident_accepts name).mono fun id is => by simp [is]
  | listed names trailing =>
    apply Refuses.choice (ident_refuses _).map
    apply Accepts.choice
    apply Accepts.between
    let parts : List (List Token × String) := names.map fun name => ([.ident name], name)
    have items : Accepts (separated ident (symbol .comma)) (spread .comma trailing (parts.map (·.1)))
        (.symbol .rightParen :: rest) fun read => read.map (·.name) = parts.map (·.2) := by
      apply Parser.separated_accepts parts trailing ident_sound
      case stop => exact ident_refuses .rightParen
      case different => decide
      case each =>
        intro part mem more _
        obtain ⟨name, _, rfl⟩ := List.mem_map.mp mem
        exact ident_accepts name
    simpa [parts, Function.comp_def] using items

variable (inner : Locates expr (Reads .expression)) (whole : Complete .expression bound expr)

include inner whole

theorem disjunction_complete : Complete .disjunction (bound + 1) (disjunction expr) := by
  apply leftAssociative_complete .disjunction (by decide) rfl (conjunction_locates inner)
  apply leftAssociative_complete .conjunction (by decide) rfl (comparison_locates inner)
  apply leftAssociative_complete .comparison (by decide) rfl (sum_locates inner)
  apply leftAssociative_complete .sum (by decide) rfl (product_locates inner)
  apply leftAssociative_complete .product (by decide) rfl (signed_locates inner)
  exact signed_complete inner whole

theorem definition_complete : Complete .definition (bound + 1) (definition expr) := by
  intro ts a rest derives short next
  cases derives with
  | tighter tighter part =>
    cases tighter
    apply Accepts.bind_nil (disjunction_complete inner whole part short (next.mono (by decide)))
    rintro target rfl
    have nothing : Accepts (optional do
        let _ ← symbol .assign
        expr) [] rest (· = none) :=
      Refuses.optional (symbol_refuses (next.not_symbol (by decide))).bind rfl
    apply nothing.bind_nil
    rintro _ rfl
    exact pure_accepts rfl
  | @definition _ us _ b target definiens =>
    rw [List.length_append, List.length_cons] at short
    apply Accepts.bind (disjunction_complete inner whole target (by omega) (next_cons (by decide) _))
    rintro target rfl
    have assigned : Accepts (optional do
        let _ ← symbol .assign
        expr) (.symbol .assign :: us) rest
        fun read => ∃ phrase : Phrase, read = some phrase ∧ phrase.tree = b := by
      apply Accepts.optional
      apply Accepts.after_symbol
      exact (whole definiens (by omega) next).mono fun phrase is => ⟨phrase, rfl, is⟩
    apply assigned.bind_nil
    rintro _ ⟨definiens, rfl, rfl⟩
    exact pure_accepts rfl
  | binary _ known => cases known

omit inner in
theorem lambda_accepts {ps : List Token} {names : List String} (params : Params ps names)
    (derives : Derives .expression ts a) (short : ts.length < bound) (next : Next closers rest) :
    Accepts (lambda expr) (ps ++ .symbol .arrow :: ts) rest
      fun phrase => phrase.tree = .lambda names a := by
  apply Accepts.spanning _ (by simp)
  apply Accepts.bind (params_accepts params)
  rintro read rfl
  apply Accepts.after_symbol
  apply (whole derives short next).bind_nil
  rintro body rfl
  exact pure_accepts fun _ => rfl

theorem letIn_accepts {parts : List (List Token × Tree)} {trailing : Bool} (nonempty : parts ≠ [])
    (derive : ∀ part ∈ parts, Derives .expression part.1 part.2)
    (few : (spread .semicolon trailing (parts.map (·.1))).length < bound)
    (derives : Derives .expression ts a) (short : ts.length < bound) (next : Next closers rest) :
    Accepts (letIn expr) (.symbol .letKeyword ::
      (spread .semicolon trailing (parts.map (·.1)) ++ .symbol .inKeyword :: ts)) rest
      fun phrase => phrase.tree = .letIn (parts.map (·.2)) a := by
  apply Accepts.spanning _ (by simp)
  apply Accepts.after_symbol
  apply Accepts.bind (whole.separated1_accepts parts trailing inner nonempty derive few (by decide)
    (by decide) (by decide))
  intro definitions are
  apply Accepts.after_symbol
  apply (whole derives short next).bind_nil
  rintro body rfl
  apply pure_accepts
  intro location
  rw [Phrase.tree, are]

omit inner in
theorem conditional_accepts {us vs : List Token} {b c : Tree} (condition : Derives .expression ts a)
    (whenTrue : Derives .expression us b) (whenFalse : Derives .expression vs c)
    (short : ts.length < bound ∧ us.length < bound ∧ vs.length < bound)
    (next : Next closers rest) :
    Accepts (conditional expr) (.symbol .ifKeyword ::
      (enclosed .leftParen .rightParen ts ++ (us ++ .symbol .elseKeyword :: vs))) rest
      fun phrase => phrase.tree = .conditional a b c := by
  apply Accepts.spanning _ (by simp)
  apply Accepts.after_symbol
  apply Accepts.bind (whole.expression_accepts condition short.1 (by decide)).between
  rintro condition rfl
  apply Accepts.bind (whole.expression_accepts whenTrue short.2.1 (by decide))
  rintro whenTrue rfl
  apply Accepts.after_symbol
  apply (whole whenFalse short.2.2 next).bind_nil
  rintro whenFalse rfl
  exact pure_accepts fun _ => rfl

omit inner in
theorem forEach_accepts {us : List Token} {b : Tree} (name : String)
    (list : Derives .expression ts a) (body : Derives .expression us b)
    (short : ts.length < bound ∧ us.length < bound) (next : Next closers rest) :
    Accepts (forEach expr) (.symbol .forKeyword ::
      (enclosed .leftParen .rightParen (.ident name :: .symbol .inKeyword :: ts) ++ us)) rest
      fun phrase => phrase.tree = .forEach name a b := by
  apply Accepts.spanning _ (by simp)
  apply Accepts.after_symbol
  have header {more : List Token} : Accepts (between .leftParen .rightParen do
      let item ← ident
      let _ ← symbol .inKeyword
      let list ← expr
      pure (item, list)) (enclosed .leftParen .rightParen (.ident name :: .symbol .inKeyword :: ts))
      more fun header => header.1.name = name ∧ header.2.tree = a := by
    apply Accepts.between
    apply (ident_accepts name).bind_one
    rintro item rfl
    apply Accepts.after_symbol
    apply (whole.expression_accepts list short.1 (by decide)).bind_nil
    rintro list rfl
    exact pure_accepts ⟨rfl, rfl⟩
  apply header.bind
  rintro ⟨item, list⟩ ⟨rfl, rfl⟩
  apply (whole body short.2 next).bind_nil
  rintro body rfl
  exact pure_accepts fun _ => rfl

theorem expression_complete : Complete .expression (bound + 1) (expression expr) := by
  intro ts a rest derives short next
  apply Accepts.labelled
  cases derives with
  | tighter tighter part =>
    cases tighter
    have begins := (part.leading (by decide)).begins
    apply Refuses.choice (lambda_refuses part next)
    apply Refuses.choice (keyword_refuses (begins.not_symbol (by decide) rest))
    apply Refuses.choice (keyword_refuses (begins.not_symbol (by decide) rest))
    apply Refuses.choice (keyword_refuses (begins.not_symbol (by decide) rest))
    apply Accepts.choice
    exact definition_complete inner whole part short next
  | binary _ known => cases known
  | lambda params derives =>
    rw [List.length_append, List.length_cons] at short
    apply Accepts.choice
    exact lambda_accepts whole params derives (by omega) next
  | letIn parts trailing nonempty derive derives =>
    rw [List.length_cons, List.length_append, List.length_cons] at short
    apply Refuses.choice (lambda_refuses_keyword (by decide))
    apply Accepts.choice
    exact letIn_accepts inner whole nonempty derive (by omega) derives (by omega) next
  | conditional condition whenTrue whenFalse =>
    rw [List.length_cons, List.length_append, List.length_append, List.length_cons,
      length_enclosed] at short
    apply Refuses.choice (lambda_refuses_keyword (by decide))
    apply Refuses.choice (keyword_refuses (by simp))
    apply Accepts.choice
    exact conditional_accepts whole condition whenTrue whenFalse (by omega) next
  | forEach name list body =>
    rw [List.length_cons, List.length_append, length_enclosed, List.length_cons,
      List.length_cons] at short
    apply Refuses.choice (lambda_refuses_keyword (by decide))
    apply Refuses.choice (keyword_refuses (by simp))
    apply Refuses.choice (keyword_refuses (by simp))
    apply Accepts.choice
    exact forEach_accepts whole name list body (by omega) next

end Expressions

/-- Every expression is read, if the depth is greater than the number of its tokens. -/
theorem upTo_complete (depth : Nat) : Complete .expression depth (upTo depth) := by
  induction depth with
  | zero =>
    intro ts a rest _ short
    exact absurd short (Nat.not_lt_zero _)
  | succ depth ih => exact expression_complete (upTo_locates depth) ih

theorem endOfInput_accepts : Accepts endOfInput [] [] fun _ => True := by
  rintro ⟨lexemes, stop⟩ tokens
  obtain rfl : lexemes = [] := by simpa [Cursor.tokens] using tokens
  exact ⟨(), _, rfl, rfl, trivial⟩

/-- What is read as a program is one, with nothing after it. -/
theorem program_reads {cursor next : Cursor} {phrase : Phrase}
    (run : (program cursor).outcome = some (phrase, next)) :
    Reads .expression cursor.rest phrase := by
  unfold program at run
  rw [bind_outcome, Option.bind_eq_some_iff] at run
  obtain ⟨⟨phrase, after⟩, ran, ends⟩ := run
  rw [bind_outcome, Option.bind_eq_some_iff] at ends
  obtain ⟨⟨_, final⟩, ended, last⟩ := ends
  cases last
  obtain ⟨used, split, -, reads⟩ := upTo_locates _ _ ran
  obtain ⟨lexemes, stop⟩ := after
  cases lexemes with
  | cons => cases ended
  | nil =>
    rw [split]
    simpa using reads

theorem program_accepts (cursor : Cursor) {a : Tree} (derives : Derives .expression cursor.tokens a) :
    ∃ phrase next, (program cursor).outcome = some (phrase, next) ∧ phrase.tree = a := by
  have short : cursor.tokens.length < cursor.rest.length + 1 := by simp [Cursor.tokens]
  have none : Next (follow .expression) [] := by simp [Next]
  have reads := upTo_complete _ derives short none
  obtain ⟨phrase, next, run, -, is⟩ :=
    (reads.bind_nil fun phrase is => endOfInput_accepts.bind_nil fun _ _ =>
      pure_accepts (a := phrase) is) (List.append_nil cursor.tokens).symm
  exact ⟨phrase, next, run, is⟩

end Grammar

namespace Phrase

open Grammar

variable {source : Source} {tokens : List Lexeme}

theorem parse_eq_ok_iff {phrase : Phrase} :
    parse source tokens = .ok phrase ↔
      ∃ next, (program ⟨tokens, 0⟩).outcome = some (phrase, next) := by
  unfold parse
  rcases program ⟨tokens, 0⟩ with ⟨_ | ⟨other, next⟩, miss⟩
  · simp
  · simp [eq_comm]

theorem reads_of_parse {phrase : Phrase} (parsed : parse source tokens = .ok phrase) :
    Reads .expression tokens phrase := by
  obtain ⟨next, run⟩ := parse_eq_ok_iff.mp parsed
  exact program_reads run

/-- The phrase that is read has the form of a derivation of all tokens. -/
theorem derives_of_parse {phrase : Phrase} (parsed : parse source tokens = .ok phrase) :
    Derives .expression (tokens.map (·.token)) phrase.tree :=
  (reads_of_parse parsed).derives

/-- Tokens that have a derivation are read, with the form that it gives them. -/
theorem parse_of_derives (source : Source) {tree : Tree}
    (derives : Derives .expression (tokens.map (·.token)) tree) :
    ∃ phrase, parse source tokens = .ok phrase ∧ phrase.tree = tree := by
  obtain ⟨phrase, next, run, is⟩ := program_accepts ⟨tokens, 0⟩ derives
  exact ⟨phrase, parse_eq_ok_iff.mpr ⟨next, run⟩, is⟩

/-- The grammar is unambiguous, and a text is read as a phrase exactly if its tokens have a
derivation with the form of this phrase. -/
theorem parse_exact (source : Source) (tokens : List Lexeme) :
    (∀ tree, (∃ phrase, parse source tokens = .ok phrase ∧ phrase.tree = tree) ↔
      Derives .expression (tokens.map (·.token)) tree) ∧
    ∀ tree other, Derives .expression (tokens.map (·.token)) tree →
      Derives .expression (tokens.map (·.token)) other → tree = other := by
  constructor
  · intro tree
    constructor
    · rintro ⟨phrase, parsed, rfl⟩
      exact derives_of_parse parsed
    · exact parse_of_derives source
  · intro tree other derives derives'
    obtain ⟨phrase, parsed, rfl⟩ := parse_of_derives source derives
    obtain ⟨phrase', parsed', rfl⟩ := parse_of_derives source derives'
    rw [parsed] at parsed'
    cases parsed'
    rfl

end Phrase

end ShapeLang
