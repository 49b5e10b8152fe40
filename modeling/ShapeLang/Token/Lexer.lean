import ShapeLang.Decimal.Numeral
import ShapeLang.Token

/-! # Lexical analysis

A text is cut into pieces: blanks and comments, tokens, and rejected parts. Every piece is as long
as it can be, and what follows a rejected part is read as if it stood at the start of a text.
-/

namespace ShapeLang

def isBlank (c : Char) : Bool :=
  c = ' ' || c = '\t' || c = '\r' || c = '\n' || c = '\x0c'

def isWordStart (c : Char) : Bool :=
  ('a' ≤ c && c ≤ 'z') || ('A' ≤ c && c ≤ 'Z') || c = '_'

def isWordChar (c : Char) : Bool := isWordStart c || isDecimalDigit c

namespace Quoted

/-- How the text after an opening quote goes on. -/
inductive Ending where
  /-- The closing quote was found; here is what stands between and after the quotes. -/
  | closed (inner rest : List Char)
  /-- A backslash that is followed by a line feed or by nothing; the rest starts with it. -/
  | badEscape (inner rest : List Char)
  /-- The text ends without a closing quote. -/
  | unclosed (inner : List Char)
deriving DecidableEq, Repr

namespace Ending

def push (c : Char) : Ending → Ending
  | closed inner rest => closed (c :: inner) rest
  | badEscape inner rest => badEscape (c :: inner) rest
  | unclosed inner => unclosed (c :: inner)

end Ending

/-- Looks for the closing quote. A backslash takes the next character with it. -/
def ending : List Char → Ending
  | [] => .unclosed []
  | '"' :: rest => .closed [] rest
  | '\\' :: c :: rest =>
    if c = '\n' then .badEscape [] ('\\' :: c :: rest)
    else ((ending rest).push c).push '\\'
  | c :: rest => if c = '\\' then .badEscape [] [c] else (ending rest).push c

/-- The characters that a literal stands for: `\n`, `\t`, `\\` and `\"` are replaced, and any other
escape is kept as it is written. There is no result if the text ends in a lone backslash. -/
def decode? : List Char → Option (List Char)
  | [] => some []
  | '\\' :: c :: rest =>
    (decode? rest).map fun tail =>
      if c = 'n' then '\n' :: tail
      else if c = 't' then '\t' :: tail
      else if c = '\\' then '\\' :: tail
      else if c = '"' then '"' :: tail
      else '\\' :: c :: tail
  | c :: rest => if c = '\\' then none else (decode? rest).map (c :: ·)

/-- The literal body for a text: the four characters that need an escape get one. -/
def encode : List Char → List Char
  | [] => []
  | c :: rest =>
    if c = '\\' then '\\' :: '\\' :: encode rest
    else if c = '"' then '\\' :: '"' :: encode rest
    else if c = '\n' then '\\' :: 'n' :: encode rest
    else if c = '\t' then '\\' :: 't' :: encode rest
    else c :: encode rest

end Quoted

/-- What one step of the lexer finds. -/
inductive Finding where
  | skipped
  | token (token : Token)
  | rejected
deriving DecidableEq

/-- One step of the lexer: the finding, the characters it covers and the rest of the text. -/
structure Piece where
  finding : Finding
  taken : List Char
  rest : List Char
deriving DecidableEq

namespace Piece

/-- The piece that starts with a quote. -/
def ofQuote (afterQuote : List Char) : Piece :=
  match Quoted.ending afterQuote with
  | .closed inner rest =>
    let finding := match Quoted.decode? inner with
      | some content => .token (.text (String.ofList content))
      | none => .rejected
    ⟨finding, '"' :: (inner ++ ['"']), rest⟩
  | .badEscape inner rest => ⟨.rejected, '"' :: inner, rest⟩
  | .unclosed inner => ⟨.rejected, '"' :: inner, []⟩

/-- The token for a word: a keyword, a truth value or a name. -/
def wordToken (word : List Char) : Token :=
  match Symbol.keyword? word with
  | some keyword => .symbol keyword
  | none =>
    if word = ['t', 'r', 'u', 'e'] then .boolean true
    else if word = ['f', 'a', 'l', 's', 'e'] then .boolean false
    else .ident (String.ofList word)

/-- The piece that starts with a character that starts no longer form. -/
def ofMark (c : Char) (rest : List Char) : Piece :=
  let double := match rest with
    | d :: rest => (Symbol.double? c d).map fun s => ⟨.token (.symbol s), [c, d], rest⟩
    | [] => none
  match double, Symbol.single? c with
  | some piece, _ => piece
  | none, some s => ⟨.token (.symbol s), [c], rest⟩
  | none, none => ⟨.rejected, [c], rest⟩

/-- The first piece of a text that starts with the given character. -/
def first (c : Char) (rest : List Char) : Piece :=
  let text := c :: rest
  if isBlank c then ⟨.skipped, text.takeWhile isBlank, text.dropWhile isBlank⟩
  else if c = '/' ∧ rest.head? = some '/' then
    ⟨.skipped, text.takeWhile (· ≠ '\n'), text.dropWhile (· ≠ '\n')⟩
  else if isDecimalDigit c then
    let (numeral, after) := Numeral.scan text
    ⟨.token (.number numeral.toFloat), text.take (text.length - after.length), after⟩
  else if isWordStart c then
    ⟨.token (wordToken (text.takeWhile isWordChar)), text.takeWhile isWordChar,
      text.dropWhile isWordChar⟩
  else if c = '"' then ofQuote rest
  else ofMark c rest

end Piece

/-- The pieces of a text, in order. Every piece takes at least one character, so the number of
characters is enough fuel. -/
def piecesUpTo : Nat → List Char → List Piece
  | 0, _ => []
  | _ + 1, [] => []
  | fuel + 1, c :: rest =>
    let piece := Piece.first c rest
    piece :: piecesUpTo fuel piece.rest

def pieces (cs : List Char) : List Piece := piecesUpTo cs.length cs

/-- The tokens and the rejected parts of a source, each in order. -/
structure Lexing where
  tokens : List Lexeme
  rejections : List Rejection

namespace Lexing

/-- Sorts the pieces that start at a byte offset into tokens and rejections. -/
def collect (source : Source) : Nat → List Piece → Lexing
  | _, [] => ⟨[], []⟩
  | start, piece :: pieces =>
    let stop := start + byteLength piece.taken
    let lexing := collect source stop pieces
    match piece.finding, piece.taken with
    | .token token, _ => { lexing with tokens := ⟨token, ⟨source, start, stop⟩⟩ :: lexing.tokens }
    | .rejected, c :: _ =>
      { lexing with rejections := ⟨c, ⟨source, start, stop⟩⟩ :: lexing.rejections }
    | _, _ => lexing

end Lexing

/-- Cuts a source into its tokens and its rejected parts. -/
def Source.lex (source : Source) : Lexing := Lexing.collect source 0 (pieces source.chars)

end ShapeLang
