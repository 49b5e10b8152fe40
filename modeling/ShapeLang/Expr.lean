import ShapeLang.Builtin
import ShapeLang.Phrase

/-! # Expressions

An expression is a phrase in which every name is resolved: to a constant, or to a slot of a frame
that is some number of frames further out. Each node keeps the place of its phrase.
-/

namespace ShapeLang

/-- A value that is known without evaluation. -/
inductive Constant where
  | bool (value : Bool)
  | num (value : Float)
  | text (content : String)
  | list (items : List Constant)
  | record (fields : List (String × Constant))
  | builtin (function : Builtin)

/-- The forms of expressions. -/
inductive Expr where
  | constant (location : Location) (value : Constant)
  /-- The slot of the frame that is `depth` frames further out. -/
  | slot (location : Location) (depth slot : Nat)
  | call (location : Location) (function : Expr) (args : List Expr)
  | list (location : Location) (items : List Expr)
  | record (location : Location) (fields : List (String × Expr))
  /-- A frame of its own, with one slot for each name. -/
  | module (location : Location) (slotCount : Nat) (fields : List (String × Nat))
      (definitions : List (Nat × Expr))
  /-- The bindings take slots of the enclosing frame. -/
  | letIn (location : Location) (bindings : List (Nat × Expr)) (body : Expr)
  /-- A frame of its own for each call, with the parameters in its first slots. -/
  | lambda (location : Location) (paramCount slotCount : Nat) (body : Expr)
  | unary (location : Location) (op : UnaryOp) (operand : Expr)
  | binary (location : Location) (op : BinaryOp) (left right : Expr)
  | conditional (location : Location) (condition whenTrue whenFalse : Expr)
  | dot (location : Location) (base : Expr) (field : String)
  | index (location : Location) (base index : Expr)
  /-- A frame of its own for each item, with the item in the first slot. -/
  | forEach (location : Location) (slotCount : Nat) (list body : Expr)

namespace Expr

/-- The place of the phrase that the expression comes from. -/
def location : Expr → Location
  | constant location _ => location
  | slot location _ _ => location
  | call location _ _ => location
  | list location _ => location
  | record location _ => location
  | module location _ _ _ => location
  | letIn location _ _ => location
  | lambda location _ _ _ => location
  | unary location _ _ => location
  | binary location _ _ _ => location
  | conditional location _ _ _ => location
  | dot location _ _ => location
  | index location _ _ => location
  | forEach location _ _ _ => location

end Expr

/-- A function literal. No two literals of a program stand at the same place, so the place
identifies it. -/
structure Lambda where
  location : Location
  paramCount : Nat
  slotCount : Nat
  body : Expr

/-- A module literal. -/
structure ModuleExpr where
  slotCount : Nat
  fields : List (String × Nat)
  definitions : List (Nat × Expr)

/-- Names that are bound to constants around a whole program. -/
abbrev Namespace := List (String × Constant)

end ShapeLang
