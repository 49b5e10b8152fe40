import ShapeLang.Parser
import ShapeLang.Phrase

/-! # The grammar of programs

From loosest to tightest: definitions, `||`, `&&`, comparisons, sums, products, prefix operators,
powers, and what is appended to an atom. Functions, `let`, `if` and `for` reach as far to the right
as they can and are operands only in parentheses. Powers and definitions nest to the right, all
other operators to the left.

The grammar of an expression refers to itself only after at least one token, so `Grammar.upTo`
unfolds it as often as there are tokens.
-/

namespace ShapeLang

namespace Phrase

/-- Two operands and what joins them; the phrase covers both. -/
def ofBinary (op : BinaryOp) (left right : Phrase) : Phrase :=
  binary (left.location.join right.location) op left right

/-- Powers group from the right: `a ^ b ^ c` is `a ^ (b ^ c)`. -/
def ofPowers (base : Phrase) : List Phrase → Phrase
  | [] => base
  | exponent :: exponents => ofBinary .power base (ofPowers exponent exponents)

/-- Prefix operators in front of an operand, the last one closest to it. -/
def ofSigns (operand : Phrase) (signs : List (UnaryOp × Location)) : Phrase :=
  signs.foldr (fun sign operand => unary (sign.2.join operand.location) sign.1 operand) operand

end Phrase

namespace Grammar

open ShapeLang.Parser

/-- Reads a name. -/
def ident : Parser Ident :=
  token .identifier fun lexeme =>
    match lexeme.token with
    | .ident name => some ⟨name, lexeme.location⟩
    | _ => none

/-- Reads a number, a truth value or a text. -/
def literal : Parser Phrase :=
  token .literal fun lexeme =>
    match lexeme.token with
    | .number value => some (.numeral lexeme.location value)
    | .boolean value => some (.boolean lexeme.location value)
    | .text content => some (.text lexeme.location content)
    | _ => none

section Levels

variable (expr : Parser Phrase)

def variableName : Parser Phrase := (fun id => .ident id.location id) <$> ident

def listOf : Parser Phrase :=
  spanning <| (fun items location => .list location items) <$>
    between .leftBracket .rightBracket (separated expr (symbol .comma))

def field : Parser (Ident × Phrase) := do
  let name ← ident
  let _ ← symbol .colon
  let value ← expr
  pure (name, value)

/-- Fields in braces. An empty pair of braces is a record, since a module has an item. -/
def recordOf : Parser Phrase :=
  spanning <| (fun fields location => .record location fields) <$>
    between .leftBrace .rightBrace (separated (field expr) (symbol .comma))

def moduleOf : Parser Phrase :=
  spanning <| (fun items location => .module location items) <$>
    between .leftBrace .rightBrace (separated1 expr (symbol .semicolon))

/-- Parentheses leave nothing behind but the grouping. -/
def parenthesized : Parser Phrase := between .leftParen .rightParen expr

def atom : Parser Phrase :=
  choice [literal, variableName, listOf expr, recordOf expr, moduleOf expr, parenthesized expr]

/-- What can be appended to an atom. It covers the atom and all of itself. -/
def suffix (base : Phrase) : Parser Phrase :=
  choice [
    spanning <| (fun args location => .call (base.location.join location) base args) <$>
      between .leftParen .rightParen (separated expr (symbol .comma)),
    spanning <| (fun name location => .dot (base.location.join location) base name) <$> (do
      let _ ← symbol .dot
      ident),
    spanning <| (fun index location => .index (base.location.join location) base index) <$>
      between .leftBracket .rightBracket expr]

def postfixed : Parser Phrase := do
  let base ← atom expr
  extend (suffix expr) base

def powers : Parser Phrase := do
  let base ← postfixed expr
  let exponents ← many do
    let _ ← symbol .caret
    postfixed expr
  pure (.ofPowers base exponents)

/-- One of some symbols, each with what it stands for. -/
def oneOf {α : Type} (table : List (Symbol × α)) : Parser (α × Location) :=
  choice (table.map fun entry => (fun location => (entry.2, location)) <$> symbol entry.1)

def signed : Parser Phrase := do
  let signs ← many (oneOf [(.minus, UnaryOp.negate), (.not, UnaryOp.not)])
  let operand ← powers expr
  pure (.ofSigns operand signs)

/-- Operands with operators of one level between them, grouped from the left. -/
def leftAssociative (table : List (Symbol × BinaryOp)) (operand : Parser Phrase) :
    Parser Phrase := do
  let first ← operand
  extend (fun left => do
    let (op, _) ← oneOf table
    let right ← operand
    pure (.ofBinary op left right)) first

def product : Parser Phrase :=
  leftAssociative [(.star, .multiply), (.slash, .divide)] (signed expr)

def sum : Parser Phrase :=
  leftAssociative [(.plus, .add), (.minus, .subtract)] (product expr)

def comparison : Parser Phrase :=
  leftAssociative [(.lessEqual, .lessEqual), (.greaterEqual, .greaterEqual), (.less, .less),
    (.greater, .greater), (.equal, .equal), (.notEqual, .notEqual)] (sum expr)

def conjunction : Parser Phrase := leftAssociative [(.and, .and)] (comparison expr)

def disjunction : Parser Phrase := leftAssociative [(.or, .or)] (conjunction expr)

/-- An operand that may be the target of a definition. -/
def definition : Parser Phrase := do
  let target ← disjunction expr
  let definiens ← optional do
    let _ ← symbol .assign
    expr
  pure <| match definiens with
    | some definiens =>
      .definition (target.location.join definiens.location) target definiens
    | none => target

def params : Parser (List Ident) :=
  choice [(fun id => [id]) <$> ident,
    between .leftParen .rightParen (separated ident (symbol .comma))]

def lambda : Parser Phrase :=
  spanning do
    let names ← params
    let _ ← symbol .arrow
    let body ← expr
    pure fun location => .lambda location names body

def letIn : Parser Phrase :=
  spanning do
    let _ ← symbol .letKeyword
    let definitions ← separated1 expr (symbol .semicolon)
    let _ ← symbol .inKeyword
    let body ← expr
    pure fun location => .letIn location definitions body

def conditional : Parser Phrase :=
  spanning do
    let _ ← symbol .ifKeyword
    let condition ← between .leftParen .rightParen expr
    let whenTrue ← expr
    let _ ← symbol .elseKeyword
    let whenFalse ← expr
    pure fun location => .conditional location condition whenTrue whenFalse

def forEach : Parser Phrase :=
  spanning do
    let _ ← symbol .forKeyword
    let (item, list) ← between .leftParen .rightParen do
      let item ← ident
      let _ ← symbol .inKeyword
      let list ← expr
      pure (item, list)
    let body ← expr
    pure fun location => .forEach location item list body

/-- An expression, given how the expressions inside it are read. -/
def expression : Parser Phrase :=
  labelled .expression
    (choice [lambda expr, letIn expr, conditional expr, forEach expr, definition expr])

end Levels

/-- Expressions that are nested less than `depth` times. -/
def upTo : Nat → Parser Phrase
  | 0 => fun _ => ⟨none, none⟩
  | depth + 1 => expression (upTo depth)

/-- A whole program: one expression and nothing after it. -/
def program : Parser Phrase := fun cursor =>
  let whole : Parser Phrase := do
    let phrase ← upTo (cursor.rest.length + 1)
    endOfInput
    pure phrase
  whole cursor

end Grammar

/-- A text whose tokens do not form a program: what could have stood at the first token that no
program has there, and that token, or nothing at the end of the text. -/
structure SyntaxError where
  expected : List Expected
  found : Option Token
  location : Location

namespace SyntaxError

/-- The alternatives in alphabetic order, and what stands there instead. -/
def message (e : SyntaxError) : String :=
  let alternatives := (e.expected.map Expected.shown).mergeSort (· ≤ ·)
  let found := match e.found with
    | some token => "`" ++ token.shown ++ "`"
    | none => "end of input"
  "syntax error: expected " ++ " or ".intercalate alternatives ++ ", found " ++ found

end SyntaxError

namespace Phrase

/-- The syntax error for a furthest failure: it points at the token that was left there. -/
def syntaxError (source : Source) (tokens : List Lexeme) (miss : Miss) : SyntaxError :=
  match tokens.drop (tokens.length - miss.remaining) with
  | lexeme :: _ => ⟨miss.expected, some lexeme.token, lexeme.location⟩
  | [] => ⟨miss.expected, none, ⟨source, source.size, source.size⟩⟩

/-- Reads the tokens of a source as one program. -/
def parse (source : Source) (tokens : List Lexeme) : Except SyntaxError Phrase :=
  match Grammar.program ⟨tokens, 0⟩ with
  | ⟨some (phrase, _), _⟩ => .ok phrase
  | ⟨none, miss⟩ => .error (syntaxError source tokens (miss.getD ⟨tokens.length, []⟩))

end Phrase

end ShapeLang
