import ShapeLang.Phrase.Grammar
import ShapeLang.Proofs.Grammar.Derivation

/-! # The grammar with places

`Reads` has the rules of `Derives`, and says of each rule where the phrase is that it makes. A
phrase that is known by its own tokens extends from the first of them to the last. A phrase that is
made of an operator and its operands extends over the places of the operands, and this is less than
their tokens if an operand stands in parentheses: these leave no trace in the operand.

Only the tokens count: the places of the phrase can be moved together with theirs.
-/

namespace ShapeLang

namespace Lexeme

/-- A symbol at a place. -/
abbrev mark (symbol : Symbol) (place : Location) : Lexeme := ⟨.symbol symbol, place⟩

/-- The same token at another place. -/
def relocate (move : Location → Location) (lexeme : Lexeme) : Lexeme :=
  ⟨lexeme.token, move lexeme.location⟩

@[simp] theorem relocate_mark (move : Location → Location) (symbol : Symbol) (place : Location) :
    (mark symbol place).relocate move = mark symbol (move place) :=
  rfl

end Lexeme

/-- A name as a token. -/
def Ident.lexeme (name : Ident) : Lexeme := ⟨.ident name.name, name.location⟩

/-- The same name at another place. -/
def Ident.relocate (move : Location → Location) (name : Ident) : Ident :=
  ⟨name.name, move name.location⟩

@[simp] theorem Ident.lexeme_inj {name other : Ident} :
    name.lexeme = other.lexeme ↔ name = other := by
  cases name
  cases other
  simp [lexeme]

@[simp] theorem Ident.relocate_lexeme (move : Location → Location) (name : Ident) :
    name.lexeme.relocate move = (name.relocate move).lexeme :=
  rfl

/-- From where the first range starts to where the second one ends. -/
def Location.through (first last : Location) : Location := ⟨first.source, first.start, last.stop⟩

namespace Phrase

mutual

/-- The same phrase with all its parts at other places. -/
def relocate (move : Location → Location) : Phrase → Phrase
  | numeral place value => numeral (move place) value
  | boolean place value => boolean (move place) value
  | text place content => text (move place) content
  | ident place name => ident (move place) (name.relocate move)
  | list place items => list (move place) (relocateAll move items)
  | record place fields => record (move place) (relocateFields move fields)
  | module place items => module (move place) (relocateAll move items)
  | definition place target definiens =>
    definition (move place) (target.relocate move) (definiens.relocate move)
  | lambda place params body =>
    lambda (move place) (params.map (·.relocate move)) (body.relocate move)
  | call place function args => call (move place) (function.relocate move) (relocateAll move args)
  | dot place base field => dot (move place) (base.relocate move) (field.relocate move)
  | index place base item => index (move place) (base.relocate move) (item.relocate move)
  | unary place op operand => unary (move place) op (operand.relocate move)
  | binary place op left right =>
    binary (move place) op (left.relocate move) (right.relocate move)
  | conditional place condition whenTrue whenFalse =>
    conditional (move place) (condition.relocate move) (whenTrue.relocate move)
      (whenFalse.relocate move)
  | letIn place definitions body =>
    letIn (move place) (relocateAll move definitions) (body.relocate move)
  | forEach place item items body =>
    forEach (move place) (item.relocate move) (items.relocate move) (body.relocate move)

def relocateAll (move : Location → Location) : List Phrase → List Phrase
  | [] => []
  | phrase :: phrases => phrase.relocate move :: relocateAll move phrases

def relocateFields (move : Location → Location) : List (Ident × Phrase) → List (Ident × Phrase)
  | [] => []
  | (name, phrase) :: fields =>
    (name.relocate move, phrase.relocate move) :: relocateFields move fields

end

variable {move : Location → Location}

@[simp] theorem relocateAll_eq (phrases : List Phrase) :
    relocateAll move phrases = phrases.map (·.relocate move) := by
  induction phrases with
  | nil => rfl
  | cons phrase phrases ih => rw [relocateAll, ih, List.map_cons]

@[simp] theorem relocateFields_eq (fields : List (Ident × Phrase)) :
    relocateFields move fields =
      fields.map fun field => (field.1.relocate move, field.2.relocate move) := by
  induction fields with
  | nil => rfl
  | cons field fields ih =>
    obtain ⟨name, phrase⟩ := field
    rw [relocateFields, ih, List.map_cons]

@[simp] theorem relocate_location (move : Location → Location) (phrase : Phrase) :
    (phrase.relocate move).location = move phrase.location := by
  cases phrase <;> rfl

end Phrase

namespace Grammar

/-- Where the last of some lexemes ends, or the given offset if there is none. -/
def ending (stop : Nat) (lexemes : List Lexeme) : Nat :=
  lexemes.foldl (fun _ lexeme => lexeme.location.stop) stop

/-- From the first of some lexemes to the last. -/
def span : List Lexeme → Location
  | [] => ⟨⟨"", ""⟩, 0, 0⟩
  | first :: rest =>
    ⟨first.location.source, first.location.start, ending first.location.stop rest⟩

/-- Lexemes in a pair of brackets. -/
abbrev bracketed (opening closing : Symbol) (left right : Location) (lexemes : List Lexeme) :
    List Lexeme :=
  .mark opening left :: (lexemes ++ [.mark closing right])

/-- What follows the first piece of a row: further pieces with a separator before each of them, and
perhaps one more separator. -/
inductive Tail (separator : Symbol) : List (List Lexeme) → List Lexeme → Prop
  | done : Tail separator [] []
  | trailing (place : Location) : Tail separator [] [.mark separator place]
  | next {piece rest : List Lexeme} {pieces : List (List Lexeme)} (place : Location)
      (tail : Tail separator pieces rest) :
      Tail separator (piece :: pieces) (.mark separator place :: (piece ++ rest))

/-- Pieces one after the other with a separator between them, and perhaps one after the last. -/
inductive Series (separator : Symbol) : List (List Lexeme) → List Lexeme → Prop
  | none : Series separator [] []
  | some {piece rest : List Lexeme} {pieces : List (List Lexeme)}
      (tail : Tail separator pieces rest) : Series separator (piece :: pieces) (piece ++ rest)

/-- The parameters of a function: one name, or any number of names in parentheses. -/
inductive Names : List Lexeme → List Ident → Prop
  | one (name : Ident) : Names [name.lexeme] [name]
  | listed {whole row : List Lexeme} {names : List Ident} (left right : Location)
      (joined : Series .comma (names.map fun name => [name.lexeme]) row)
      (is : whole = bracketed .leftParen .rightParen left right row) : Names whole names

/-- A token that is a phrase by itself. -/
inductive Leaf : Lexeme → Phrase → Prop
  | numeral (place : Location) (value : Float) : Leaf ⟨.number value, place⟩ (.numeral place value)
  | boolean (place : Location) (value : Bool) : Leaf ⟨.boolean value, place⟩ (.boolean place value)
  | text (place : Location) (content : String) : Leaf ⟨.text content, place⟩ (.text place content)
  | ident (name : Ident) : Leaf name.lexeme (.ident name.location name)

/-- A field of a record as it is written. -/
structure Entry where
  name : Ident
  colon : Location
  lexemes : List Lexeme
  value : Phrase

/-- All lexemes of a field. -/
def Entry.piece (entry : Entry) : List Lexeme :=
  entry.name.lexeme :: .mark .colon entry.colon :: entry.lexemes

/-- The lexemes are a sentence of the level, and are read as the phrase, places included. -/
inductive Reads : Level → List Lexeme → Phrase → Prop
  | tighter {level below : Level} {whole : List Lexeme} {phrase : Phrase}
      (next : level.tighter? = some below) (part : Reads below whole phrase) :
      Reads level whole phrase
  | lambda {whole ps ls : List Lexeme} (arrow : Location) {names : List Ident} {body : Phrase}
      (params : Names ps names) (inner : Reads .expression ls body)
      (is : whole = ps ++ .mark .arrow arrow :: ls) :
      Reads .expression whole (.lambda (span whole) names body)
  | letIn {whole row ls : List Lexeme} (opening divider : Location)
      {items : List (List Lexeme × Phrase)} {body : Phrase} (nonempty : items ≠ [])
      (joined : Series .semicolon (items.map (·.1)) row)
      (parts : ∀ item ∈ items, Reads .expression item.1 item.2) (inner : Reads .expression ls body)
      (is : whole = .mark .letKeyword opening :: (row ++ .mark .inKeyword divider :: ls)) :
      Reads .expression whole (.letIn (span whole) (items.map (·.2)) body)
  | conditional {whole ts us vs : List Lexeme} (opening left right divider : Location)
      {condition whenTrue whenFalse : Phrase} (first : Reads .expression ts condition)
      (second : Reads .expression us whenTrue) (third : Reads .expression vs whenFalse)
      (is : whole = .mark .ifKeyword opening ::
        (bracketed .leftParen .rightParen left right ts ++
          (us ++ .mark .elseKeyword divider :: vs))) :
      Reads .expression whole (.conditional (span whole) condition whenTrue whenFalse)
  | forEach {whole ts us : List Lexeme} (opening left right divider : Location) (item : Ident)
      {list body : Phrase} (first : Reads .expression ts list) (second : Reads .expression us body)
      (is : whole = .mark .forKeyword opening :: (bracketed .leftParen .rightParen left right
        (item.lexeme :: .mark .inKeyword divider :: ts) ++ us)) :
      Reads .expression whole (.forEach (span whole) item list body)
  | definition {whole ts us : List Lexeme} (sign : Location) {target definiens : Phrase}
      (left : Reads .disjunction ts target) (right : Reads .expression us definiens)
      (is : whole = ts ++ .mark .assign sign :: us) :
      Reads .definition whole
        (.definition (target.location.join definiens.location) target definiens)
  | binary {level below : Level} {whole ts us : List Lexeme} (sign : Location) {symbol : Symbol}
      {op : BinaryOp} {left right : Phrase} (next : level.tighter? = some below)
      (known : (symbol, op) ∈ level.operators) (first : Reads level ts left)
      (second : Reads below us right) (is : whole = ts ++ .mark symbol sign :: us) :
      Reads level whole (.ofBinary op left right)
  | signed {whole ts : List Lexeme} (sign : Location) {symbol : Symbol} {op : UnaryOp}
      {operand : Phrase} (known : (symbol, op) ∈ signs) (inner : Reads .signed ts operand)
      (is : whole = .mark symbol sign :: ts) :
      Reads .signed whole (.unary (sign.join operand.location) op operand)
  | power {whole ts us : List Lexeme} (sign : Location) {base exponent : Phrase}
      (first : Reads .suffixed ts base) (second : Reads .power us exponent)
      (is : whole = ts ++ .mark .caret sign :: us) :
      Reads .power whole (.ofBinary .power base exponent)
  | call {whole ts row : List Lexeme} (left right : Location) {function : Phrase}
      {items : List (List Lexeme × Phrase)} (first : Reads .suffixed ts function)
      (joined : Series .comma (items.map (·.1)) row)
      (parts : ∀ item ∈ items, Reads .expression item.1 item.2)
      (is : whole = ts ++ bracketed .leftParen .rightParen left right row) :
      Reads .suffixed whole
        (.call (function.location.join (left.through right)) function (items.map (·.2)))
  | dot {whole ts : List Lexeme} (sign : Location) {base : Phrase} (field : Ident)
      (first : Reads .suffixed ts base) (is : whole = ts ++ [.mark .dot sign, field.lexeme]) :
      Reads .suffixed whole (.dot (base.location.join (sign.through field.location)) base field)
  | index {whole ts us : List Lexeme} (left right : Location) {base place : Phrase}
      (first : Reads .suffixed ts base) (second : Reads .expression us place)
      (is : whole = ts ++ bracketed .leftBracket .rightBracket left right us) :
      Reads .suffixed whole (.index (base.location.join (left.through right)) base place)
  | leaf {lexeme : Lexeme} {phrase : Phrase} (leaf : Leaf lexeme phrase) :
      Reads .atom [lexeme] phrase
  | list {whole row : List Lexeme} (left right : Location) {items : List (List Lexeme × Phrase)}
      (joined : Series .comma (items.map (·.1)) row)
      (parts : ∀ item ∈ items, Reads .expression item.1 item.2)
      (is : whole = bracketed .leftBracket .rightBracket left right row) :
      Reads .atom whole (.list (span whole) (items.map (·.2)))
  | record {whole row : List Lexeme} (left right : Location) {entries : List Entry}
      (joined : Series .comma (entries.map Entry.piece) row)
      (parts : ∀ entry ∈ entries, Reads .expression entry.lexemes entry.value)
      (is : whole = bracketed .leftBrace .rightBrace left right row) :
      Reads .atom whole (.record (span whole) (entries.map fun entry => (entry.name, entry.value)))
  | module {whole row : List Lexeme} (left right : Location) {items : List (List Lexeme × Phrase)}
      (nonempty : items ≠ []) (joined : Series .semicolon (items.map (·.1)) row)
      (parts : ∀ item ∈ items, Reads .expression item.1 item.2)
      (is : whole = bracketed .leftBrace .rightBrace left right row) :
      Reads .atom whole (.module (span whole) (items.map (·.2)))
  | parens {whole ts : List Lexeme} (left right : Location) {phrase : Phrase}
      (inner : Reads .expression ts phrase)
      (is : whole = bracketed .leftParen .rightParen left right ts) : Reads .atom whole phrase

section Forgetting

variable {level : Level} {separator : Symbol} {whole : List Lexeme} {pieces : List (List Lexeme)}
  {phrase : Phrase} {names : List Ident}

theorem Tail.tokens (tail : Tail separator pieces whole) :
    ∃ trailing : Bool, whole.map (·.token) =
      (pieces.map fun piece => .symbol separator :: piece.map (·.token)).flatten ++
        if trailing then [.symbol separator] else [] := by
  induction tail with
  | done => exact ⟨false, rfl⟩
  | trailing place => exact ⟨true, rfl⟩
  | next place _ ih =>
    obtain ⟨trailing, same⟩ := ih
    exact ⟨trailing, by simp [same]⟩

theorem Series.tokens (row : Series separator pieces whole) :
    ∃ trailing, whole.map (·.token) =
      spread separator trailing (pieces.map (·.map (·.token))) := by
  cases row with
  | none => exact ⟨false, rfl⟩
  | some tail =>
    obtain ⟨trailing, same⟩ := tail.tokens
    refine ⟨trailing, ?_⟩
    rw [List.map_append, same, List.map_cons, spread_cons, List.map_map]
    rfl

theorem Names.derives (params : Names whole names) :
    Params (whole.map (·.token)) (names.map (·.name)) := by
  cases params with
  | one name => exact .one name.name
  | listed left right joined is =>
    obtain ⟨trailing, same⟩ := joined.tokens
    have listed := Params.listed (names.map (·.name)) trailing
    rw [is]
    simpa [enclosed, same, Ident.lexeme, Function.comp_def] using listed

/-- Without the places this is the grammar. -/
theorem Reads.derives (reads : Reads level whole phrase) :
    Derives level (whole.map (·.token)) phrase.tree := by
  induction reads with
  | tighter next _ ih => exact .tighter next ih
  | lambda arrow params _ is ih =>
    rw [is]
    simpa using Derives.lambda params.derives ih
  | @letIn _ _ _ opening divider items _ nonempty joined _ _ is ih ih' =>
    obtain ⟨trailing, same⟩ := joined.tokens
    have derives := Derives.letIn (items.map fun item => (item.1.map (·.token), item.2.tree))
      trailing (by simpa using nonempty) (List.forall_mem_map.mpr ih) ih'
    rw [is]
    simpa [same, Phrase.trees_eq, Function.comp_def] using derives
  | conditional opening left right divider _ _ _ is ih₁ ih₂ ih₃ =>
    rw [is]
    simpa [enclosed] using Derives.conditional ih₁ ih₂ ih₃
  | forEach opening left right divider item _ _ is ih₁ ih₂ =>
    rw [is]
    simpa [enclosed, Ident.lexeme] using Derives.forEach item.name ih₁ ih₂
  | definition sign _ _ is ih₁ ih₂ =>
    rw [is]
    simpa using Derives.definition ih₁ ih₂
  | binary sign next known _ _ is ih₁ ih₂ =>
    rw [is]
    simpa [Phrase.ofBinary] using Derives.binary next known ih₁ ih₂
  | signed sign known _ is ih =>
    rw [is]
    simpa using Derives.signed known ih
  | power sign _ _ is ih₁ ih₂ =>
    rw [is]
    simpa [Phrase.ofBinary] using Derives.power ih₁ ih₂
  | @call _ _ _ left right _ items _ joined _ is ih₁ ih₂ =>
    obtain ⟨trailing, same⟩ := joined.tokens
    have derives := Derives.call ih₁ (items.map fun item => (item.1.map (·.token), item.2.tree))
      trailing (List.forall_mem_map.mpr ih₂)
    rw [is]
    simpa [enclosed, same, Phrase.trees_eq, Function.comp_def] using derives
  | dot sign field _ is ih =>
    rw [is]
    simpa [Ident.lexeme] using Derives.dot ih field.name
  | index left right _ _ is ih₁ ih₂ =>
    rw [is]
    simpa [enclosed] using Derives.index ih₁ ih₂
  | leaf leaf =>
    cases leaf with
    | numeral place value => exact .literal (.number value)
    | boolean place value => exact .literal (.boolean value)
    | text place content => exact .literal (.text content)
    | ident name => exact .ident name.name
  | @list _ _ left right items joined _ is ih =>
    obtain ⟨trailing, same⟩ := joined.tokens
    have derives := Derives.list (items.map fun item => (item.1.map (·.token), item.2.tree))
      trailing (List.forall_mem_map.mpr ih)
    rw [is]
    simpa [enclosed, same, Phrase.trees_eq, Function.comp_def] using derives
  | @record _ _ left right entries joined _ is ih =>
    obtain ⟨trailing, same⟩ := joined.tokens
    have derives := Derives.record
      (entries.map fun entry => (entry.name.name, entry.lexemes.map (·.token), entry.value.tree))
      trailing (List.forall_mem_map.mpr ih)
    rw [is]
    simpa [enclosed, same, Phrase.fieldTrees_eq, Function.comp_def, Entry.piece, Ident.lexeme]
      using derives
  | @«module» _ _ left right items nonempty joined _ is ih =>
    obtain ⟨trailing, same⟩ := joined.tokens
    have derives := Derives.module (items.map fun item => (item.1.map (·.token), item.2.tree))
      trailing (by simpa using nonempty) (List.forall_mem_map.mpr ih)
    rw [is]
    simpa [enclosed, same, Phrase.trees_eq, Function.comp_def] using derives
  | parens left right _ is ih =>
    rw [is]
    simpa [enclosed] using Derives.parens ih

end Forgetting

section Moving

variable {level : Level} {separator : Symbol} {whole : List Lexeme} {pieces : List (List Lexeme)}
  {phrase : Phrase} {names : List Ident}

/-- A way of moving ranges that carries the range over two others to the range over their images. -/
structure Rigid (move : Location → Location) : Prop where
  join : ∀ first second, move (first.join second) = (move first).join (move second)
  through : ∀ first last, move (first.through last) = (move first).through (move last)

/-- To another source, and there so many bytes further on. -/
def shift (source : Source) (offset : Nat) (place : Location) : Location :=
  ⟨source, place.start + offset, place.stop + offset⟩

theorem shift_rigid (source : Source) (offset : Nat) : Rigid (shift source offset) := by
  constructor
  · intro first second
    simp [shift, Location.join, Nat.add_min_add_right, Nat.add_max_add_right]
  · exact fun _ _ => rfl

variable {move : Location → Location}

theorem ending_append (stop : Nat) (first second : List Lexeme) :
    ending stop (first ++ second) = ending (ending stop first) second :=
  List.foldl_append

/-- The last lexeme counts, whatever stands in front of it. -/
theorem span_concat (first last : Lexeme) (middle : List Lexeme) :
    span (first :: (middle ++ [last])) = first.location.through last.location := by
  simp [span, ending, Location.through]

theorem span_eq_through {lexemes : List Lexeme} (some : lexemes ≠ []) :
    span lexemes = (lexemes.head some).location.through (lexemes.getLast some).location := by
  obtain ⟨first, rest, rfl⟩ := List.exists_cons_of_ne_nil some
  rcases List.eq_nil_or_concat rest with rfl | ⟨middle, last, rfl⟩
  · rfl
  · simp only [List.concat_eq_append, span_concat, List.head_cons]
    rw [List.getLast_cons (by simp), List.getLast_concat]

theorem Rigid.span (rigid : Rigid move) {lexemes : List Lexeme} (some : lexemes ≠ []) :
    span (lexemes.map (·.relocate move)) = move (Grammar.span lexemes) := by
  rw [span_eq_through some, span_eq_through (by simpa using some), rigid.through]
  simp [Lexeme.relocate]

theorem Rigid.ofBinary (rigid : Rigid move) (op : BinaryOp) (left right : Phrase) :
    (Phrase.ofBinary op left right).relocate move =
      .ofBinary op (left.relocate move) (right.relocate move) := by
  simp [Phrase.ofBinary, Phrase.relocate, rigid.join]

theorem relocate_bracketed (opening closing : Symbol) (left right : Location)
    (lexemes : List Lexeme) :
    (bracketed opening closing left right lexemes).map (·.relocate move) =
      bracketed opening closing (move left) (move right) (lexemes.map (·.relocate move)) := by
  simp [Lexeme.relocate]

theorem Tail.relocate (tail : Tail separator pieces whole) (move : Location → Location) :
    Tail separator (pieces.map (·.map (·.relocate move))) (whole.map (·.relocate move)) := by
  induction tail with
  | done => exact .done
  | trailing place => exact .trailing (move place)
  | next place _ ih => simpa using Tail.next (move place) ih

theorem Series.relocate (row : Series separator pieces whole) (move : Location → Location) :
    Series separator (pieces.map (·.map (·.relocate move))) (whole.map (·.relocate move)) := by
  cases row with
  | none => exact .none
  | some tail => simpa using Series.some (tail.relocate move)

theorem Names.relocate (params : Names whole names) (move : Location → Location) :
    Names (whole.map (·.relocate move)) (names.map (·.relocate move)) := by
  cases params with
  | one name => exact .one (name.relocate move)
  | listed left right joined is =>
    refine .listed (move left) (move right) ?_ (by rw [is, relocate_bracketed])
    simpa [Function.comp_def] using joined.relocate move

theorem Leaf.relocate {lexeme : Lexeme} (leaf : Leaf lexeme phrase) (move : Location → Location) :
    Leaf (lexeme.relocate move) (phrase.relocate move) := by
  cases leaf with
  | numeral place value => exact .numeral (move place) value
  | boolean place value => exact .boolean (move place) value
  | text place content => exact .text (move place) content
  | ident name => exact .ident (name.relocate move)

/-- Lexemes that are moved are read as the phrase that is moved with them. -/
theorem Reads.relocate (reads : Reads level whole phrase) (rigid : Rigid move) :
    Reads level (whole.map (·.relocate move)) (phrase.relocate move) := by
  -- The items of a row, moved one by one.
  have moved {separator : Symbol} {items : List (List Lexeme × Phrase)} {row : List Lexeme}
      (joined : Series separator (items.map (·.1)) row) :
      Series separator ((items.map fun item =>
        (item.1.map (·.relocate move), item.2.relocate move)).map (·.1))
        (row.map (·.relocate move)) := by
    simpa [Function.comp_def] using joined.relocate move
  induction reads with
  | tighter next _ ih => exact .tighter next ih
  | lambda arrow params _ is ih =>
    rw [Phrase.relocate, ← rigid.span (by simp [is])]
    exact .lambda (move arrow) (params.relocate move) ih (by rw [is, List.map_append]; rfl)
  | letIn opening divider nonempty joined _ _ is ih₁ ih₂ =>
    rw [Phrase.relocate, ← rigid.span (by simp [is])]
    simpa [Function.comp_def] using Reads.letIn (move opening) (move divider)
      (by simpa using nonempty) (moved joined)
      (List.forall_mem_map.mpr ih₁) ih₂ (by rw [is, List.map_cons, List.map_append]; rfl)
  | conditional opening left right divider _ _ _ is ih₁ ih₂ ih₃ =>
    rw [Phrase.relocate, ← rigid.span (by simp [is])]
    exact .conditional (move opening) (move left) (move right) (move divider) ih₁ ih₂ ih₃
      (by rw [is, List.map_cons, List.map_append, relocate_bracketed, List.map_append]; rfl)
  | forEach opening left right divider item _ _ is ih₁ ih₂ =>
    rw [Phrase.relocate, ← rigid.span (by simp [is])]
    exact .forEach (move opening) (move left) (move right) (move divider) _ ih₁ ih₂
      (by rw [is, List.map_cons, List.map_append, relocate_bracketed]; rfl)
  | definition sign _ _ is ih₁ ih₂ =>
    rw [Phrase.relocate, rigid.join, ← Phrase.relocate_location move,
      ← Phrase.relocate_location move]
    exact .definition (move sign) ih₁ ih₂ (by rw [is, List.map_append]; rfl)
  | binary sign next known _ _ is ih₁ ih₂ =>
    rw [rigid.ofBinary]
    exact .binary (move sign) next known ih₁ ih₂ (by rw [is, List.map_append]; rfl)
  | signed sign known _ is ih =>
    rw [Phrase.relocate, rigid.join, ← Phrase.relocate_location move]
    exact .signed (move sign) known ih (by rw [is]; rfl)
  | power sign _ _ is ih₁ ih₂ =>
    rw [rigid.ofBinary]
    exact .power (move sign) ih₁ ih₂ (by rw [is, List.map_append]; rfl)
  | call left right _ joined _ is ih₁ ih₂ =>
    rw [Phrase.relocate, rigid.join, rigid.through, ← Phrase.relocate_location move]
    simpa [Function.comp_def] using Reads.call (move left) (move right) ih₁ (moved joined)
      (List.forall_mem_map.mpr ih₂) (by rw [is, List.map_append, relocate_bracketed])
  | dot sign field _ is ih =>
    rw [Phrase.relocate, rigid.join, rigid.through, ← Phrase.relocate_location move]
    exact .dot (move sign) (field.relocate move) ih (by rw [is, List.map_append]; rfl)
  | index left right _ _ is ih₁ ih₂ =>
    rw [Phrase.relocate, rigid.join, rigid.through, ← Phrase.relocate_location move]
    exact .index (move left) (move right) ih₁ ih₂ (by rw [is, List.map_append, relocate_bracketed])
  | leaf leaf => exact .leaf (leaf.relocate move)
  | list left right joined _ is ih =>
    rw [Phrase.relocate, ← rigid.span (by simp [is])]
    simpa [Function.comp_def] using Reads.list (move left) (move right) (moved joined)
      (List.forall_mem_map.mpr ih) (by rw [is, relocate_bracketed])
  | @record _ row left right entries joined _ is ih =>
    let other : List Entry := entries.map fun entry => ⟨entry.name.relocate move, move entry.colon,
      entry.lexemes.map (·.relocate move), entry.value.relocate move⟩
    have joined' : Series .comma (other.map Entry.piece) (row.map (·.relocate move)) := by
      simpa [other, Function.comp_def, Entry.piece] using joined.relocate move
    rw [Phrase.relocate, ← rigid.span (by simp [is])]
    simpa [other, Function.comp_def] using Reads.record (move left) (move right) joined'
      (List.forall_mem_map.mpr ih) (by rw [is, relocate_bracketed])
  | «module» left right nonempty joined _ is ih =>
    rw [Phrase.relocate, ← rigid.span (by simp [is])]
    simpa [Function.comp_def] using Reads.module (move left) (move right)
      (by simpa using nonempty) (moved joined) (List.forall_mem_map.mpr ih)
      (by rw [is, relocate_bracketed])
  | parens left right _ is ih =>
    exact .parens (move left) (move right) ih (by rw [is, relocate_bracketed])

end Moving

end Grammar

end ShapeLang
