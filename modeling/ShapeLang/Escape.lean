import ShapeLang.Escape.Unseen

/-! # Texts with every character visible

A text can be shown between double quotes in such a way that each of its characters can be told.
Quotes and backslashes have a backslash before them; some controls are written by a letter, and
all other characters that cannot be seen by their number.
-/

namespace ShapeLang.Escape

/-- How a character is written between quotes. -/
def char : Char → List Char
  | '"' => ['\\', '"']
  | '\\' => ['\\', '\\']
  | '\n' => ['\\', 'n']
  | '\r' => ['\\', 'r']
  | '\t' => ['\\', 't']
  | '\x00' => ['\\', '0']
  | c =>
    if isUnseen c then ['\\', 'u', '\x7b'] ++ Nat.toDigits 16 c.toNat ++ ['\x7d'] else [c]

/-- The text between quotes. -/
def quote (text : String) : String :=
  String.ofList ('"' :: text.toList.flatMap char ++ ['"'])

end ShapeLang.Escape
