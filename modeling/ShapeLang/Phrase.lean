import ShapeLang.Source

/-! # Phrases

A phrase is a program or a part of one, as it is written. Every phrase knows the place of its text.
-/

namespace ShapeLang

/-- An occurrence of a name. -/
structure Ident where
  name : String
  location : Location

inductive UnaryOp where
  | negate
  | not
deriving DecidableEq, Repr

namespace UnaryOp

def symbol : UnaryOp → String
  | negate => "-"
  | not => "!"

end UnaryOp

inductive BinaryOp where
  | add | subtract | multiply | divide | power
  | less | lessEqual | greater | greaterEqual
  | equal | notEqual
  | and | or
deriving DecidableEq, Repr

namespace BinaryOp

def symbol : BinaryOp → String
  | add => "+"
  | subtract => "-"
  | multiply => "*"
  | divide => "/"
  | power => "^"
  | less => "<"
  | lessEqual => "<="
  | greater => ">"
  | greaterEqual => ">="
  | equal => "=="
  | notEqual => "!="
  | and => "&&"
  | or => "||"

end BinaryOp

/-- The forms of phrases. -/
inductive Phrase where
  | numeral (location : Location) (value : Float)
  | boolean (location : Location) (value : Bool)
  | text (location : Location) (content : String)
  | ident (location : Location) (name : Ident)
  /-- Written `[a, b, c]`. -/
  | list (location : Location) (items : List Phrase)
  /-- Written `{ name: value, ... }`. -/
  | record (location : Location) (fields : List (Ident × Phrase))
  /-- Written `{ a = 1; b = a + 1 }`. The grammar does not decide whether the items are
  definitions. -/
  | module (location : Location) (items : List Phrase)
  /-- Written `target = definiens`, where the target should be a name or a header `f(x, y)`. -/
  | definition (location : Location) (target definiens : Phrase)
  /-- Written `(p, t) -> body` or `x -> body`. -/
  | lambda (location : Location) (params : List Ident) (body : Phrase)
  /-- Written `function(a, b)`. -/
  | call (location : Location) (function : Phrase) (args : List Phrase)
  /-- Written `base.field`. -/
  | dot (location : Location) (base : Phrase) (field : Ident)
  /-- Written `base[index]`. -/
  | index (location : Location) (base index : Phrase)
  | unary (location : Location) (op : UnaryOp) (operand : Phrase)
  | binary (location : Location) (op : BinaryOp) (left right : Phrase)
  /-- Written `if (condition) whenTrue else whenFalse`. -/
  | conditional (location : Location) (condition whenTrue whenFalse : Phrase)
  /-- Written `let a = 1; b = 2 in body`. -/
  | letIn (location : Location) (definitions : List Phrase) (body : Phrase)
  /-- Written `for (item in list) body`. -/
  | forEach (location : Location) (item : Ident) (list body : Phrase)

namespace Phrase

/-- The place of the phrase's text. -/
def location : Phrase → Location
  | numeral location _ => location
  | boolean location _ => location
  | text location _ => location
  | ident location _ => location
  | list location _ => location
  | record location _ => location
  | module location _ => location
  | definition location _ _ => location
  | lambda location _ _ => location
  | call location _ _ => location
  | dot location _ _ => location
  | index location _ _ => location
  | unary location _ _ => location
  | binary location _ _ _ => location
  | conditional location _ _ _ => location
  | letIn location _ _ => location
  | forEach location _ _ _ => location

mutual

/-- Number of phrases in the tree, names included. -/
def size : Phrase → Nat
  | numeral _ _ | boolean _ _ | text _ _ | ident _ _ => 1
  | list _ items => sizeAll items + 1
  | record _ fields => sizeFields fields + 1
  | module _ items => sizeAll items + 1
  | definition _ target definiens => target.size + definiens.size + 1
  | lambda _ _ body => body.size + 1
  | call _ function args => function.size + sizeAll args + 1
  | dot _ base _ => base.size + 1
  | index _ base place => base.size + place.size + 1
  | unary _ _ operand => operand.size + 1
  | binary _ _ left right => left.size + right.size + 1
  | conditional _ condition whenTrue whenFalse =>
    condition.size + whenTrue.size + whenFalse.size + 1
  | letIn _ definitions body => sizeAll definitions + body.size + 1
  | forEach _ _ items body => items.size + body.size + 1

/-- Total size of the phrases of a list. -/
def sizeAll : List Phrase → Nat
  | [] => 0
  | phrase :: phrases => phrase.size + sizeAll phrases

/-- Total size of the values of a list of fields. -/
def sizeFields : List (Ident × Phrase) → Nat
  | [] => 0
  | (_, phrase) :: fields => phrase.size + sizeFields fields

end

end Phrase

end ShapeLang
