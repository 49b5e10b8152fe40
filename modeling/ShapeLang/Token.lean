import ShapeLang.Decimal.Layout
import ShapeLang.Source

/-! # Tokens

The words of the language. `Symbol` collects the keywords and the punctuation marks: each has one
spelling, and a name under which syntax errors report it.
-/

namespace ShapeLang

/-- A token that is its spelling and carries nothing else. -/
inductive Symbol where
  | letKeyword | inKeyword | ifKeyword | elseKeyword | forKeyword
  | plus | minus | star | slash | caret
  | assign | equal | notEqual | less | greater | lessEqual | greaterEqual
  | and | or | not
  | dot | colon | arrow
  | leftParen | rightParen | leftBrace | rightBrace | leftBracket | rightBracket
  | semicolon | comma
deriving DecidableEq, Repr

namespace Symbol

/-- The name under which the symbol is reported. -/
def name : Symbol → String
  | letKeyword => "Let"
  | inKeyword => "In"
  | ifKeyword => "If"
  | elseKeyword => "Else"
  | forKeyword => "For"
  | plus => "Plus"
  | minus => "Minus"
  | star => "Star"
  | slash => "Slash"
  | caret => "Caret"
  | assign => "Assign"
  | equal => "Eq"
  | notEqual => "NotEq"
  | less => "Lt"
  | greater => "Gt"
  | lessEqual => "Lte"
  | greaterEqual => "Gte"
  | and => "And"
  | or => "Or"
  | not => "Not"
  | dot => "Dot"
  | colon => "Colon"
  | arrow => "Arrow"
  | leftParen => "LParen"
  | rightParen => "RParen"
  | leftBrace => "LBrace"
  | rightBrace => "RBrace"
  | leftBracket => "LBracket"
  | rightBracket => "RBracket"
  | semicolon => "Semicolon"
  | comma => "Comma"

/-- The word that is reserved for a keyword, if it is one. -/
def keyword? : List Char → Option Symbol
  | ['l', 'e', 't'] => some letKeyword
  | ['i', 'n'] => some inKeyword
  | ['i', 'f'] => some ifKeyword
  | ['e', 'l', 's', 'e'] => some elseKeyword
  | ['f', 'o', 'r'] => some forKeyword
  | _ => none

/-- The punctuation mark that is spelled with exactly these two characters. -/
def double? : Char → Char → Option Symbol
  | '=', '=' => some equal
  | '!', '=' => some notEqual
  | '<', '=' => some lessEqual
  | '>', '=' => some greaterEqual
  | '&', '&' => some and
  | '|', '|' => some or
  | '-', '>' => some arrow
  | _, _ => none

/-- The punctuation mark that is spelled with exactly this character. -/
def single? : Char → Option Symbol
  | '+' => some plus
  | '-' => some minus
  | '*' => some star
  | '/' => some slash
  | '^' => some caret
  | '=' => some assign
  | '<' => some less
  | '>' => some greater
  | '!' => some not
  | '.' => some dot
  | ':' => some colon
  | '(' => some leftParen
  | ')' => some rightParen
  | '\x7b' => some leftBrace
  | '\x7d' => some rightBrace
  | '[' => some leftBracket
  | ']' => some rightBracket
  | ';' => some semicolon
  | ',' => some comma
  | _ => none

end Symbol

/-- A word of the language. -/
inductive Token where
  | symbol (symbol : Symbol)
  | boolean (value : Bool)
  | number (value : Float)
  | text (content : String)
  | ident (name : String)
deriving DecidableEq

namespace Token

/-- How messages show a token: a text stands in quotes, with its escapes already replaced. -/
def shown : Token → String
  | symbol s => s.name
  | boolean value => if value then "true" else "false"
  | number value => Layout.plain.text value
  | text content => "\"" ++ content ++ "\""
  | ident name => name

end Token

/-- A token and where it stands. -/
structure Lexeme where
  token : Token
  location : Location

/-- A part of the text at which no token starts. -/
structure Rejection where
  char : Char
  location : Location

namespace Rejection

def message (rejection : Rejection) : String :=
  "unrecognized character '" ++ rejection.char.toString ++ "'"

end Rejection

end ShapeLang
