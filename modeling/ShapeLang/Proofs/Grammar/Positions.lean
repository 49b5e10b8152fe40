import ShapeLang.Proofs.Grammar.Located
import ShapeLang.Proofs.Grammar.Reading

/-! # Whatever is read has its places by the grammar

A parser that succeeds has read some lexemes, and stands behind the last of them. `Locates` says
what holds of these lexemes and the result. One theorem per level carries it from the expressions
inside to the level; `upTo_locates` is by induction on the depth.
-/

namespace ShapeLang

open ShapeLang.Grammar

namespace Parser

variable {α β : Type} {p q : Parser α} {f : α → Parser β} {reads : List Lexeme → α → Prop}

section Results

variable {cursor : Cursor} {post post' : α → Cursor → Prop}

/-- What holds of each result that a parser has at a cursor. -/
def Yields (p : Parser α) (cursor : Cursor) (post : α → Cursor → Prop) : Prop :=
  ∀ ⦃a next⦄, (p cursor).outcome = some (a, next) → post a next

namespace Yields

theorem mono (yields : Yields p cursor post) (imp : ∀ a next, post a next → post' a next) :
    Yields p cursor post' :=
  fun _ _ run => imp _ _ (yields run)

theorem pure {a : α} (here : post a cursor) : Yields (Pure.pure a) cursor post := by
  intro b next run
  cases run
  exact here

theorem bind {f : α → Parser β} {last : β → Cursor → Prop} (first : Yields p cursor post)
    (second : ∀ a next, post a next → Yields (f a) next last) : Yields (p >>= f) cursor last := by
  intro b next run
  rw [bind_outcome, Option.bind_eq_some_iff] at run
  obtain ⟨⟨a, between⟩, ran, runs⟩ := run
  exact second a between (first ran) runs

theorem map {f : α → β} {last : β → Cursor → Prop}
    (yields : Yields p cursor fun a next => last (f a) next) : Yields (f <$> p) cursor last :=
  Yields.bind yields fun _ _ holds => .pure holds

theorem orElse (first : Yields p cursor post) (second : Yields q cursor post) :
    Yields (orElse p q) cursor post := by
  intro a next run
  rw [orElse_outcome, Option.or_eq_some_iff] at run
  rcases run with run | ⟨-, run⟩
  · exact first run
  · exact second run

theorem choice {ps : List (Parser α)} (each : ∀ p ∈ ps, Yields p cursor post) :
    Yields (choice ps) cursor post := by
  induction ps with
  | nil => exact fun _ _ run => by cases run
  | cons p ps ih =>
    obtain ⟨first, rest⟩ := List.forall_mem_cons.mp each
    intro a next run
    rw [choice_cons, Option.or_eq_some_iff] at run
    rcases run with run | ⟨-, run⟩
    · exact first run
    · exact ih rest run

/-- What each step preserves holds at the end. -/
theorem extend {step : α → Parser α} {a : α} (start : post a cursor)
    (preserved : ∀ a next, post a next → Yields (step a) next post) :
    Yields (extend step a) cursor post := by
  intro b next run
  obtain ⟨final, ran, reached⟩ : ∃ final, (Parser.extend step a cursor).outcome = some final ∧
      Reaches step (a, cursor) final := extendUpTo_outcome _ a cursor
  obtain rfl : (b, next) = final := Option.some.inj (run.symm.trans ran)
  clear run ran
  suffices ∀ state, Reaches step (a, cursor) state → post state.1 state.2 from this _ reached
  intro state path
  induction path with
  | refl => exact start
  | tail _ one ih => exact preserved _ _ ih one

end Yields

end Results

/-- Every result is one that the lexemes which were read can have. -/
def Locates (p : Parser α) (reads : List Lexeme → α → Prop) : Prop :=
  ∀ cursor : Cursor, Yields p cursor fun a next => ∃ used, cursor.rest = used ++ next.rest ∧
    next.stop = ending cursor.stop used ∧ reads used a

theorem Locates.mono {more : List Lexeme → α → Prop} (locates : Locates p reads)
    (imp : ∀ used a, reads used a → more used a) : Locates p more :=
  fun cursor => (locates cursor).mono fun a _ ⟨used, split, stop, holds⟩ =>
    ⟨used, split, stop, imp used a holds⟩

section Sequence

theorem pure_locates {a : α} (here : reads [] a) : Locates (pure a) reads :=
  fun _ => .pure ⟨[], rfl, rfl, here⟩

theorem Locates.bind {more : List Lexeme → β → Prop} (first : Locates p reads)
    (second : ∀ ts a, reads ts a → Locates (f a) fun us b => more (ts ++ us) b) :
    Locates (p >>= f) more := by
  intro cursor
  refine (first cursor).bind ?_
  rintro a middle ⟨ts, split, stop, holds⟩
  refine (second ts a holds middle).mono ?_
  rintro b next ⟨us, splits, stops, result⟩
  exact ⟨ts ++ us, by rw [split, splits, List.append_assoc],
    by rw [stops, stop, ending_append], result⟩

theorem Locates.map {reads : List Lexeme → β → Prop} {g : α → β}
    (locates : Locates p fun used a => reads used (g a)) : Locates (g <$> p) reads :=
  fun cursor => (locates cursor).map

end Sequence

section Alternatives

theorem Locates.orElse (first : Locates p reads) (second : Locates q reads) :
    Locates (orElse p q) reads :=
  fun cursor => (first cursor).orElse (second cursor)

theorem choice_locates {ps : List (Parser α)} (all : ∀ p ∈ ps, Locates p reads) :
    Locates (choice ps) reads :=
  fun cursor => .choice fun p mem => all p mem cursor

theorem Locates.labelled {label : Expected} (locates : Locates p reads) :
    Locates (labelled label p) reads :=
  fun cursor _ _ run => locates cursor run

theorem Locates.optional {reads : List Lexeme → Option α → Prop}
    (locates : Locates p fun used a => reads used (some a)) (none : reads [] none) :
    Locates (optional p) reads :=
  locates.map.orElse (pure_locates none)

end Alternatives

section Words

theorem token_locates {accept : Lexeme → Option α} {expected : Expected}
    (reading : ∀ lexeme a, accept lexeme = some a → reads [lexeme] a) :
    Locates (token expected accept) reads := by
  rintro ⟨lexemes, stop⟩ a next run
  cases lexemes with
  | nil => cases run
  | cons lexeme others =>
    simp only [token] at run
    cases accepted : accept lexeme with
    | none => simp [accepted] at run
    | some b =>
      simp only [accepted, Option.some.injEq, Prod.mk.injEq] at run
      obtain ⟨rfl, rfl⟩ := run
      exact ⟨[lexeme], rfl, rfl, reading lexeme b accepted⟩

theorem symbol_locates (s : Symbol) :
    Locates (symbol s) fun used place => used = [.mark s place] := by
  apply token_locates
  rintro ⟨token, place⟩ _ accepted
  split at accepted
  case isTrue is =>
    cases accepted
    obtain rfl : token = .symbol s := is
    rfl
  case isFalse => cases accepted

end Words

section Brackets

theorem Locates.between {opening closing : Symbol}
    (locates : Locates p fun used a =>
      ∀ left right, reads (bracketed opening closing left right used) a) :
    Locates (between opening closing p) reads := by
  apply (symbol_locates opening).bind
  rintro _ left rfl
  apply locates.bind
  intro ts a holds
  apply (symbol_locates closing).bind
  rintro _ right rfl
  apply pure_locates
  simpa using holds left right

/-- The range is that of the lexemes, of which there is one at least. -/
theorem Locates.spanning {p : Parser (Location → α)}
    (locates : Locates p fun used make => used ≠ [] ∧ reads used (make (span used))) :
    Locates (spanning p) reads := by
  rintro ⟨lexemes, stop⟩ a next run
  unfold Parser.spanning at run
  rcases ran : p ⟨lexemes, stop⟩ with ⟨_ | ⟨make, after⟩, miss⟩
  · cases lexemes <;> simp [ran] at run
  · obtain ⟨used, split, stops, some, holds⟩ := locates ⟨lexemes, stop⟩ (congrArg Reply.outcome ran)
    obtain ⟨first, rest, rfl⟩ := List.exists_cons_of_ne_nil some
    obtain rfl : lexemes = first :: (rest ++ after.rest) := split
    simp only [ran, Option.some.injEq, Prod.mk.injEq] at run
    obtain ⟨rfl, rfl⟩ := run
    refine ⟨first :: rest, rfl, stops, ?_⟩
    rw [stops]
    exact holds

end Brackets

section Repetition

/-- What every step preserves holds of all that was read. -/
theorem extend_locates {step : α → Parser α} {a : α} (start : reads [] a)
    (locates : ∀ ts b, reads ts b → Locates (step b) fun us c => reads (ts ++ us) c) :
    Locates (extend step a) reads := by
  intro cursor
  refine .extend ⟨[], rfl, rfl, start⟩ ?_
  rintro b middle ⟨ts, split, stop, holds⟩
  refine (locates ts b holds middle).mono ?_
  rintro c next ⟨us, splits, stops, result⟩
  exact ⟨ts ++ us, by rw [split, splits, List.append_assoc],
    by rw [stops, stop, ending_append], result⟩

/-- A step that puts one more result in front makes a list of results, the last one in front. -/
theorem pieces_locates {step : List α → Parser (List α)} (start : List α)
    (locates : ∀ done, Locates (step done) fun us all => ∃ a, all = a :: done ∧ reads us a) :
    Locates (extend step start) fun used all =>
      ∃ uses as, used = uses.flatten ∧ all = as.reverse ++ start ∧ List.Forall₂ reads uses as := by
  apply extend_locates
  · exact ⟨[], [], rfl, rfl, .nil⟩
  rintro _ _ ⟨uses, as, rfl, rfl, each⟩
  apply (locates _).mono
  rintro us _ ⟨a, rfl, one⟩
  refine ⟨uses ++ [us], as ++ [a], by simp, by simp, ?_⟩
  exact List.rel_append each (.cons one .nil)

theorem Locates.many (locates : Locates p reads) :
    Locates (many p) fun used as =>
      ∃ uses, used = uses.flatten ∧ List.Forall₂ reads uses as := by
  apply Locates.bind (pieces_locates [] fun done =>
    (locates.mono fun us a one => ⟨a, rfl, one⟩).map)
  rintro _ _ ⟨uses, as, rfl, rfl, each⟩
  apply pure_locates
  exact ⟨uses, by simp, by simpa using each⟩

variable {separator : Symbol}

/-- What was read after the first item of a row. -/
theorem tail_of_pieces {items uses : List (List Lexeme)} {trail : List Lexeme}
    (each : List.Forall₂ (fun use item => ∃ place, use = .mark separator place :: item) uses items)
    (last : trail = [] ∨ ∃ place, trail = [.mark separator place]) :
    Tail separator items (uses.flatten ++ trail) := by
  induction each with
  | nil =>
    rcases last with rfl | ⟨place, rfl⟩
    · exact .done
    · exact .trailing place
  | cons one _ ih =>
    obtain ⟨place, rfl⟩ := one
    simpa using Tail.next place ih

theorem Locates.separated1 (locates : Locates p reads) :
    Locates (separated1 p (symbol separator)) fun used as =>
      ∃ pieces, pieces ≠ [] ∧ Series separator pieces used ∧ List.Forall₂ reads pieces as := by
  apply locates.bind
  intro ts a first
  rw [itemsAfter_eq]
  have more (done : List α) : Locates (oneMore p separator done) fun us all =>
      ∃ b, all = b :: done ∧ ∃ item, (∃ place, us = .mark separator place :: item) ∧
        reads item b := by
    apply (symbol_locates separator).bind
    rintro _ place rfl
    apply locates.bind
    intro us b one
    exact pure_locates ⟨b, rfl, us, ⟨place, by simp⟩, one⟩
  apply (pieces_locates [a] more).bind
  rintro _ _ ⟨uses, as, rfl, rfl, each⟩
  obtain ⟨items, apart, all⟩ : ∃ items, List.Forall₂ (fun use item =>
      ∃ place, use = Lexeme.mark separator place :: item) uses items ∧
        List.Forall₂ reads items as := by
    induction each with
    | nil => exact ⟨[], .nil, .nil⟩
    | cons one _ ih =>
      obtain ⟨item, place, one⟩ := one
      obtain ⟨items, apart, all⟩ := ih
      exact ⟨item :: items, .cons place apart, .cons one all⟩
  have trailing : Locates (Parser.optional (symbol separator)) fun used _ =>
      used = [] ∨ ∃ place, used = [.mark separator place] :=
    .optional ((symbol_locates separator).mono fun _ place is => .inr ⟨place, is⟩) (.inl rfl)
  apply trailing.bind
  intro trail _ last
  apply pure_locates
  refine ⟨ts :: items, by simp, ?_, by simpa using List.Forall₂.cons first all⟩
  have row : Series separator (ts :: items) (ts ++ _) := .some (tail_of_pieces apart last)
  simpa using row

theorem Locates.separated (locates : Locates p reads) :
    Locates (separated p (symbol separator)) fun used as =>
      ∃ pieces, Series separator pieces used ∧ List.Forall₂ reads pieces as := by
  apply Locates.orElse
  · exact locates.separated1.mono fun _ _ ⟨pieces, _, row, each⟩ => ⟨pieces, row, each⟩
  · exact pure_locates ⟨[], .none, .nil⟩

end Repetition

end Parser

namespace Grammar

open ShapeLang.Parser

section Words

theorem ident_locates : Locates ident fun used name => used = [name.lexeme] := by
  apply token_locates
  rintro ⟨token, place⟩ name read
  cases token with
  | ident name => cases read; rfl
  | symbol => cases read
  | boolean => cases read
  | number => cases read
  | text => cases read

theorem literal_locates : Locates literal (Reads .atom) := by
  apply token_locates
  rintro ⟨token, place⟩ phrase read
  cases token with
  | number value => cases read; exact .leaf (.numeral place value)
  | boolean value => cases read; exact .leaf (.boolean place value)
  | text content => cases read; exact .leaf (.text place content)
  | ident => cases read
  | symbol => cases read

theorem oneOf_locates {α : Type} (table : List (Symbol × α)) :
    Locates (oneOf table) fun used entry =>
      ∃ s, (s, entry.1) ∈ table ∧ used = [.mark s entry.2] := by
  apply choice_locates
  intro p mem
  obtain ⟨⟨s, a⟩, known, rfl⟩ := List.mem_map.mp mem
  apply Locates.map
  apply (symbol_locates s).mono
  rintro _ place rfl
  exact ⟨s, known, rfl⟩

end Words

/-- Items of which each is read, as the rules of the grammar want them. -/
theorem exists_pairs {α β : Type} {reads : α → β → Prop} {uses : List α} {values : List β}
    (each : List.Forall₂ reads uses values) :
    ∃ items : List (α × β), items.map (·.1) = uses ∧ items.map (·.2) = values ∧
      ∀ item ∈ items, reads item.1 item.2 := by
  induction each with
  | nil => exact ⟨[], rfl, rfl, by simp⟩
  | @cons use value _ _ one _ ih =>
    obtain ⟨items, rfl, rfl, all⟩ := ih
    exact ⟨(use, value) :: items, rfl, rfl, List.forall_mem_cons.mpr ⟨one, all⟩⟩

section Levels

variable {expr : Parser Phrase} (inner : Locates expr (Reads .expression))

include inner

theorem list_locates : Locates (listOf expr) (Reads .atom) := by
  apply Locates.spanning
  apply Locates.map
  apply Locates.between
  apply inner.separated.mono
  rintro row _ ⟨_, joined, each⟩ left right
  obtain ⟨items, rfl, rfl, all⟩ := exists_pairs each
  exact ⟨by simp, .list left right joined all rfl⟩

theorem field_locates : Locates (field expr) fun used field => ∃ entry : Entry,
    used = entry.piece ∧ field = (entry.name, entry.value) ∧
      Reads .expression entry.lexemes entry.value := by
  apply ident_locates.bind
  rintro _ name rfl
  apply (symbol_locates .colon).bind
  rintro _ colon rfl
  apply inner.bind
  intro ts value reads
  exact pure_locates ⟨⟨name, colon, ts, value⟩, by simp [Entry.piece], rfl, reads⟩

theorem record_locates : Locates (recordOf expr) (Reads .atom) := by
  apply Locates.spanning
  apply Locates.map
  apply Locates.between
  apply (field_locates inner).separated.mono
  rintro row fields ⟨pieces, joined, each⟩ left right
  obtain ⟨entries, rfl, rfl, all⟩ : ∃ entries : List Entry, entries.map Entry.piece = pieces ∧
      entries.map (fun entry => (entry.name, entry.value)) = fields ∧
      ∀ entry ∈ entries, Reads .expression entry.lexemes entry.value := by
    clear joined
    induction each with
    | nil => exact ⟨[], rfl, rfl, by simp⟩
    | cons one _ ih =>
      obtain ⟨entry, rfl, rfl, reads⟩ := one
      obtain ⟨entries, rfl, rfl, all⟩ := ih
      exact ⟨entry :: entries, rfl, rfl, List.forall_mem_cons.mpr ⟨reads, all⟩⟩
  exact ⟨by simp, .record left right joined all rfl⟩

theorem module_locates : Locates (moduleOf expr) (Reads .atom) := by
  apply Locates.spanning
  apply Locates.map
  apply Locates.between
  apply inner.separated1.mono
  rintro row _ ⟨_, nonempty, joined, each⟩ left right
  obtain ⟨items, rfl, rfl, all⟩ := exists_pairs each
  exact ⟨by simp, .module left right (by simpa using nonempty) joined all rfl⟩

theorem parenthesized_locates : Locates (parenthesized expr) (Reads .atom) := by
  apply Locates.between
  apply inner.mono
  intro ts phrase reads left right
  exact .parens left right reads rfl

theorem atom_locates : Locates (atom expr) (Reads .atom) := by
  apply choice_locates
  simp only [List.forall_mem_cons, List.not_mem_nil, IsEmpty.forall_iff, implies_true, and_true]
  refine ⟨literal_locates, ?name, list_locates inner, record_locates inner, module_locates inner,
    parenthesized_locates inner⟩
  apply Locates.map
  apply ident_locates.mono
  rintro _ name rfl
  exact .leaf (.ident name)

theorem suffix_locates (base : Phrase) :
    Locates (suffix expr base) fun us phrase =>
      ∀ ts, Reads .suffixed ts base → Reads .suffixed (ts ++ us) phrase := by
  apply choice_locates
  simp only [List.forall_mem_cons, List.not_mem_nil, IsEmpty.forall_iff, implies_true, and_true]
  refine ⟨?call, ?dot, ?index⟩
  case call =>
    apply Locates.spanning
    apply Locates.map
    apply Locates.between
    apply inner.separated.mono
    rintro row _ ⟨_, joined, each⟩ left right
    obtain ⟨items, rfl, rfl, all⟩ := exists_pairs each
    refine ⟨by simp, fun ts reads => ?_⟩
    rw [span_concat]
    exact .call left right reads joined all rfl
  case dot =>
    apply Locates.spanning
    apply Locates.map
    apply (symbol_locates .dot).bind
    rintro _ sign rfl
    apply ident_locates.mono
    rintro _ field rfl
    exact ⟨by simp, fun ts reads => .dot sign field reads rfl⟩
  case index =>
    apply Locates.spanning
    apply Locates.map
    apply Locates.between
    apply inner.mono
    intro us place reads' left right
    refine ⟨by simp, fun ts reads => ?_⟩
    rw [span_concat]
    exact .index left right reads reads' rfl

theorem postfixed_locates : Locates (postfixed expr) (Reads .suffixed) := by
  apply (atom_locates inner).bind
  intro ts base reads
  apply extend_locates
  · simpa using Reads.tighter rfl reads
  intro us phrase before
  apply (suffix_locates inner phrase).mono
  intro vs longer after
  simpa using after _ before

omit inner in
theorem powers_read {ts : List Lexeme} {base : Phrase} (first : Reads .suffixed ts base)
    {uses : List (List Lexeme)} {exponents : List Phrase}
    (each : List.Forall₂ (fun us phrase => ∃ sign vs, us = .mark .caret sign :: vs ∧
      Reads .suffixed vs phrase) uses exponents) :
    Reads .power (ts ++ uses.flatten) (.ofPowers base exponents) := by
  induction each generalizing ts base with
  | nil => simpa [Phrase.ofPowers] using Reads.tighter rfl first
  | cons one _ ih =>
    obtain ⟨sign, vs, rfl, reads⟩ := one
    exact .power sign first (ih reads) (by simp)

theorem powers_locates : Locates (powers expr) (Reads .power) := by
  apply (postfixed_locates inner).bind
  intro ts base first
  have exponent : Locates (do
      let _ ← symbol .caret
      postfixed expr) fun us phrase => ∃ sign vs, us = .mark .caret sign :: vs ∧
        Reads .suffixed vs phrase := by
    apply (symbol_locates .caret).bind
    rintro _ sign rfl
    apply (postfixed_locates inner).mono
    intro vs phrase reads
    exact ⟨sign, vs, rfl, reads⟩
  apply exponent.many.bind
  rintro _ exponents ⟨uses, rfl, each⟩
  apply pure_locates
  simpa using powers_read first each

omit inner in
theorem signs_read {ts : List Lexeme} {operand : Phrase} (last : Reads .power ts operand)
    {uses : List (List Lexeme)} {read : List (UnaryOp × Location)}
    (each : List.Forall₂ (fun us sign => ∃ s, (s, sign.1) ∈ signs ∧ us = [.mark s sign.2])
      uses read) :
    Reads .signed (uses.flatten ++ ts) (.ofSigns operand read) := by
  induction each with
  | nil => exact .tighter rfl last
  | cons one _ ih =>
    obtain ⟨s, known, rfl⟩ := one
    exact .signed _ known ih rfl

theorem signed_locates : Locates (signed expr) (Reads .signed) := by
  apply (oneOf_locates signs).many.bind
  rintro _ read ⟨uses, rfl, each⟩
  apply (powers_locates inner).bind
  intro ts operand reads
  apply pure_locates
  simpa using signs_read reads each

omit inner in
/-- Operators of one level between operands of the next tighter one. -/
theorem leftAssociative_locates (level : Level) {below : Level} {operand : Parser Phrase}
    (next : level.tighter? = some below) (locates : Locates operand (Reads below)) :
    Locates (leftAssociative level.operators operand) (Reads level) := by
  apply locates.bind
  intro ts first reads
  apply extend_locates
  · simpa using Reads.tighter next reads
  intro us left before
  apply (oneOf_locates level.operators).bind
  rintro _ ⟨op, sign⟩ ⟨s, known, rfl⟩
  apply locates.bind
  intro vs right after
  exact pure_locates (.binary sign next known before after (by simp))

theorem product_locates : Locates (product expr) (Reads .product) :=
  leftAssociative_locates .product rfl (signed_locates inner)

theorem sum_locates : Locates (sum expr) (Reads .sum) :=
  leftAssociative_locates .sum rfl (product_locates inner)

theorem comparison_locates : Locates (comparison expr) (Reads .comparison) :=
  leftAssociative_locates .comparison rfl (sum_locates inner)

theorem conjunction_locates : Locates (conjunction expr) (Reads .conjunction) :=
  leftAssociative_locates .conjunction rfl (comparison_locates inner)

theorem disjunction_locates : Locates (disjunction expr) (Reads .disjunction) :=
  leftAssociative_locates .disjunction rfl (conjunction_locates inner)

theorem definition_locates : Locates (definition expr) (Reads .definition) := by
  apply (disjunction_locates inner).bind
  intro ts target reads
  have definiens : Locates (optional do
      let _ ← symbol .assign
      expr) fun us definiens? => definiens?.elim (us = []) fun definiens =>
        ∃ sign vs, us = .mark .assign sign :: vs ∧ Reads .expression vs definiens := by
    apply Locates.optional _ rfl
    apply (symbol_locates .assign).bind
    rintro _ sign rfl
    apply inner.mono
    intro vs definiens whole
    exact ⟨sign, vs, rfl, whole⟩
  apply definiens.bind
  rintro us (_ | definiens) read
  · obtain rfl : us = [] := read
    apply pure_locates
    simpa using Reads.tighter rfl reads
  · obtain ⟨sign, vs, rfl, whole⟩ := read
    exact pure_locates (.definition sign reads whole (by simp))

omit inner in
theorem params_locates : Locates params Names := by
  apply choice_locates
  simp only [List.forall_mem_cons, List.not_mem_nil, IsEmpty.forall_iff, implies_true, and_true]
  constructor
  · apply Locates.map
    apply ident_locates.mono
    rintro _ name rfl
    exact .one name
  · apply Locates.between
    apply ident_locates.separated.mono
    rintro row names ⟨pieces, joined, each⟩ left right
    obtain rfl : pieces = names.map fun name => [name.lexeme] := by
      clear joined
      induction each with
      | nil => rfl
      | cons one _ ih => rw [one, ih, List.map_cons]
    exact .listed left right joined rfl

theorem lambda_locates : Locates (lambda expr) (Reads .expression) := by
  apply Locates.spanning
  apply params_locates.bind
  intro ps names params
  apply (symbol_locates .arrow).bind
  rintro _ arrow rfl
  apply inner.bind
  intro ts body reads
  exact pure_locates ⟨by simp, .lambda arrow params reads (by simp)⟩

theorem letIn_locates : Locates (letIn expr) (Reads .expression) := by
  apply Locates.spanning
  apply (symbol_locates .letKeyword).bind
  rintro _ opening rfl
  apply inner.separated1.bind
  rintro row _ ⟨_, nonempty, joined, each⟩
  obtain ⟨items, rfl, rfl, all⟩ := exists_pairs each
  apply (symbol_locates .inKeyword).bind
  rintro _ divider rfl
  apply inner.bind
  intro ts body reads
  exact pure_locates
    ⟨by simp, .letIn opening divider (by simpa using nonempty) joined all reads (by simp)⟩

theorem conditional_locates : Locates (conditional expr) (Reads .expression) := by
  apply Locates.spanning
  apply (symbol_locates .ifKeyword).bind
  rintro _ opening rfl
  have header : Locates (between .leftParen .rightParen expr) fun used condition =>
      ∃ left right ts, used = bracketed .leftParen .rightParen left right ts ∧
        Reads .expression ts condition :=
    Locates.between (inner.mono fun ts _ reads left right => ⟨left, right, ts, rfl, reads⟩)
  apply header.bind
  rintro _ condition ⟨left, right, ts, rfl, first⟩
  apply inner.bind
  intro us whenTrue second
  apply (symbol_locates .elseKeyword).bind
  rintro _ divider rfl
  apply inner.bind
  intro vs whenFalse third
  exact pure_locates ⟨by simp, .conditional opening left right divider first second third (by simp)⟩

theorem forEach_locates : Locates (forEach expr) (Reads .expression) := by
  apply Locates.spanning
  apply (symbol_locates .forKeyword).bind
  rintro _ opening rfl
  have header : Locates (between .leftParen .rightParen do
      let item ← ident
      let _ ← symbol .inKeyword
      let list ← expr
      pure (item, list)) fun used header => ∃ left right divider ts,
        used = bracketed .leftParen .rightParen left right
          (header.1.lexeme :: .mark .inKeyword divider :: ts) ∧ Reads .expression ts header.2 := by
    apply Locates.between
    apply ident_locates.bind
    rintro _ item rfl
    apply (symbol_locates .inKeyword).bind
    rintro _ divider rfl
    apply inner.bind
    intro ts list reads
    exact pure_locates fun left right => ⟨left, right, divider, ts, by simp, reads⟩
  apply header.bind
  rintro _ ⟨item, list⟩ ⟨left, right, divider, ts, rfl, first⟩
  apply inner.bind
  intro us body second
  exact pure_locates ⟨by simp, .forEach opening left right divider item first second (by simp)⟩

theorem expression_locates : Locates (expression expr) (Reads .expression) := by
  apply Locates.labelled
  apply choice_locates
  simp only [List.forall_mem_cons, List.not_mem_nil, IsEmpty.forall_iff, implies_true, and_true]
  refine ⟨lambda_locates inner, letIn_locates inner, conditional_locates inner,
    forEach_locates inner, ?_⟩
  apply (definition_locates inner).mono
  intro ts phrase reads
  exact .tighter rfl reads

end Levels

/-- Whatever is read as an expression has its places by the grammar. -/
theorem upTo_locates (depth : Nat) : Locates (upTo depth) (Reads .expression) := by
  induction depth with
  | zero =>
    intro cursor phrase next run
    cases run
  | succ depth ih => exact expression_locates ih

end Grammar

end ShapeLang
