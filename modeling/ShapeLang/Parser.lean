import ShapeLang.Token

/-! # Parsers over tokens

A parser reads tokens from a cursor. Beside its result it reports the furthest token at which some
way of reading failed, with everything that could have stood there. This report is also made by a
parser that succeeds, since what follows it may fail earlier than that.
-/

namespace ShapeLang

/-- Something that a syntax error can say was expected: a symbol, the end of the text, or any token
that can start a kind of phrase. -/
inductive Expected where
  | symbol (symbol : Symbol)
  | endOfInput
  | expression
  | identifier
  | literal
deriving DecidableEq, Repr

namespace Expected

/-- How a message names it. A symbol's name stands in two pairs of quotes. -/
def shown : Expected → String
  | symbol s => "''" ++ s.name ++ "''"
  | endOfInput => "end of input"
  | expression => "expression"
  | identifier => "identifier"
  | literal => "literal"

end Expected

/-- A failure to read a token: how many tokens were left there, and what could have stood there. -/
structure Miss where
  remaining : Nat
  expected : List Expected
deriving DecidableEq, Repr

namespace Miss

/-- The alternatives of both, each once. -/
def union (first second : List Expected) : List Expected :=
  second.foldl (fun all e => if e ∈ all then all else all ++ [e]) first

/-- The further of two reports; the alternatives of both if they are at the same token. -/
def merge : Option Miss → Option Miss → Option Miss
  | none, second => second
  | first, none => first
  | some first, some second =>
    if first.remaining < second.remaining then some first
    else if second.remaining < first.remaining then some second
    else some ⟨first.remaining, union first.expected second.expected⟩

end Miss

/-- The tokens that are left, and where the last token that was read ends. -/
structure Cursor where
  rest : List Lexeme
  stop : Nat

/-- The result of a parser, if it succeeded, and the furthest failure on its way. -/
structure Reply (α : Type) where
  outcome : Option (α × Cursor)
  miss : Option Miss

abbrev Parser (α : Type) := Cursor → Reply α

namespace Parser

variable {α β : Type}

instance : Monad Parser where
  pure a := fun cursor => ⟨some (a, cursor), none⟩
  bind p f := fun cursor =>
    match p cursor with
    | ⟨some (a, next), miss⟩ =>
      let reply := f a next
      ⟨reply.outcome, Miss.merge miss reply.miss⟩
    | ⟨none, miss⟩ => ⟨none, miss⟩

/-- Reads as the first parser does, or else as the second does from the same place. -/
def orElse (p q : Parser α) : Parser α := fun cursor =>
  match p cursor with
  | ⟨some result, miss⟩ => ⟨some result, miss⟩
  | ⟨none, miss⟩ =>
    let reply := q cursor
    ⟨reply.outcome, Miss.merge miss reply.miss⟩

/-- The first of the alternatives that succeeds. -/
def choice : List (Parser α) → Parser α
  | [] => fun _ => ⟨none, none⟩
  | [p] => p
  | p :: ps => orElse p (choice ps)

/-- Reports a failure at the very first token as the name of the whole rule. -/
def labelled (label : Expected) (p : Parser α) : Parser α := fun cursor =>
  let reply := p cursor
  { reply with
    miss := reply.miss.map fun miss =>
      if miss.remaining = cursor.rest.length then ⟨miss.remaining, [label]⟩ else miss }

/-- Reads one token of a class that is reported under the given name. -/
def token (expected : Expected) (accept : Lexeme → Option α) : Parser α := fun cursor =>
  let missed : Reply α := ⟨none, some ⟨cursor.rest.length, [expected]⟩⟩
  match cursor.rest with
  | [] => missed
  | lexeme :: rest =>
    match accept lexeme with
    | some a => ⟨some (a, ⟨rest, lexeme.location.stop⟩), none⟩
    | none => missed

/-- Reads the symbol. -/
def symbol (s : Symbol) : Parser Location :=
  token (.symbol s) fun lexeme =>
    if lexeme.token = .symbol s then some lexeme.location else none

/-- Succeeds only where no token is left. -/
def endOfInput : Parser Unit := fun cursor =>
  match cursor.rest with
  | [] => ⟨some ((), cursor), none⟩
  | _ => ⟨none, some ⟨cursor.rest.length, [.endOfInput]⟩⟩

/-- Gives the result the range of the tokens that were read. -/
def spanning (p : Parser (Location → α)) : Parser α := fun cursor =>
  match cursor.rest, p cursor with
  | first :: _, ⟨some (make, next), miss⟩ =>
    ⟨some (make ⟨first.location.source, first.location.start, next.stop⟩, next), miss⟩
  | _, ⟨_, miss⟩ => ⟨none, miss⟩

/-- Reads as the parser does, or nothing. -/
def optional (p : Parser α) : Parser (Option α) :=
  orElse (some <$> p) (pure none)

/-- Extends a result as often as the step succeeds, at most `fuel` times. -/
def extendUpTo (step : α → Parser α) : Nat → α → Parser α
  | 0, a => pure a
  | fuel + 1, a => fun cursor =>
    match step a cursor with
    | ⟨some (next, after), miss⟩ =>
      let reply := extendUpTo step fuel next after
      ⟨reply.outcome, Miss.merge miss reply.miss⟩
    | ⟨none, miss⟩ => ⟨some (a, cursor), miss⟩

/-- Extends a result as often as the step succeeds. Every step has to read a token, so the fuel is
enough for all tokens and for the step that fails at their end. -/
def extend (step : α → Parser α) (a : α) : Parser α := fun cursor =>
  extendUpTo step (cursor.rest.length + 1) a cursor

/-- As many results as can be read one after the other. -/
def many (p : Parser α) : Parser (List α) := do
  let reversed ← extend (fun done => (· :: done) <$> p) []
  pure reversed.reverse

/-- What is left of a list of items after the first one: a separator may stand after each item,
also after the last one. -/
def itemsAfter (item : Parser α) (separator : Parser β) (firstItem : α) : Parser (List α) := do
  let reversed ← extend (fun done => do
    let _ ← separator
    let next ← item
    pure (next :: done)) [firstItem]
  let _ ← optional separator
  pure reversed.reverse

/-- One or more items with separators between them, and perhaps one after the last. -/
def separated1 (item : Parser α) (separator : Parser β) : Parser (List α) := do
  let firstItem ← item
  itemsAfter item separator firstItem

/-- Items with separators between them, and perhaps one after the last. -/
def separated (item : Parser α) (separator : Parser β) : Parser (List α) :=
  orElse (separated1 item separator) (pure [])

/-- What stands between two symbols. -/
def between (opening closing : Symbol) (p : Parser α) : Parser α := do
  let _ ← symbol opening
  let a ← p
  let _ ← symbol closing
  pure a

end Parser

end ShapeLang
