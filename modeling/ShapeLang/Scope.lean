import ShapeLang.Expr
import ShapeLang.Fault

/-! # Scopes

While a program is analysed, the scopes around the current phrase form a stack, the innermost
first. A name is looked up from the inside out; on the way every scope that opens a frame counts
one. The scopes of `let` share the frame of the scope around them.
-/

namespace ShapeLang

/-- How far the analysis of a definition is. -/
inductive Progress where
  | waiting
  /-- Being analysed: a reference to it from inside is a reference to its slot. -/
  | active
  | done (expr : Expr)

/-- One of the definitions of a module or of a `let`. -/
structure Definition where
  name : String
  slot : Nat
  body : Phrase
  progress : Progress

/-- What a scope binds. -/
inductive Binders where
  /-- Names with constant values. -/
  | constants (names : Namespace)
  /-- Definitions that can refer to each other, and the order in which they were asked for. -/
  | definitions (entries : List Definition) (requests : List String)
  /-- Parameters, or the item of a loop. -/
  | parameters (slots : List (String × Nat))

structure Scope where
  binders : Binders
  /-- Whether what is bound here lives in a frame of its own. -/
  opensFrame : Bool
  /-- In a scope that opens a frame: how many slots of the frame are taken. -/
  slotCount : Nat

/-- The scopes around a phrase, the innermost first. -/
abbrev Scopes := List Scope

/-- What a name is resolved to. -/
inductive Binding where
  | constant (value : Constant)
  | slot (depth slot : Nat)
  /-- A definition, and how many scopes lie inside the scope that holds it. -/
  | definition (depth slot inner : Nat)

namespace Binding

/-- The same binding, seen from one scope further in. -/
def fromInside (opensFrame : Bool) : Binding → Binding
  | constant value => constant value
  | slot depth s => slot (if opensFrame then depth + 1 else depth) s
  | definition depth s inner => definition (if opensFrame then depth + 1 else depth) s (inner + 1)

end Binding

namespace Scope

/-- The binding of a name in this scope alone. -/
def find? (scope : Scope) (name : String) : Option Binding :=
  match scope.binders with
  | .constants names => (names.lookup name).map .constant
  | .parameters slots => (slots.lookup name).map (.slot 0)
  | .definitions entries _ =>
    (entries.find? (·.name == name)).map fun entry => .definition 0 entry.slot 0

/-- The names of a whole program. It opens the root frame. -/
def ofNamespace (names : Namespace) : Scope := ⟨.constants names, true, 0⟩

/-- Definitions in consecutive slots. -/
def entriesFrom (base : Nat) (definitions : List (String × Phrase)) : List Definition :=
  definitions.mapIdx fun i definition => ⟨definition.1, base + i, definition.2, .waiting⟩

/-- The scope of a module literal. -/
def ofModule (definitions : List (String × Phrase)) : Scope :=
  ⟨.definitions (entriesFrom 0 definitions) [], true, definitions.length⟩

/-- The scope of a `let` whose slots start at `base` in the frame around it. -/
def ofLet (base : Nat) (definitions : List (String × Phrase)) : Scope :=
  ⟨.definitions (entriesFrom base definitions) [], false, base + definitions.length⟩

/-- The scope of parameters, which take the first slots of a frame. -/
def ofParameters (names : List String) : Scope :=
  ⟨.parameters (names.mapIdx fun i name => (name, i)), true, names.length⟩

end Scope

namespace Scopes

/-- The binding of a name in the innermost scope that has one. -/
def resolve? : Scopes → String → Option Binding
  | [], _ => none
  | scope :: scopes, name =>
    match scope.find? name with
    | some binding => some binding
    | none => (resolve? scopes name).map (.fromInside scope.opensFrame)

/-- Number of slots taken in the current frame. -/
def slotCount : Scopes → Nat
  | [] => 0
  | scope :: scopes => if scope.opensFrame then scope.slotCount else slotCount scopes

/-- Takes further slots in the current frame. -/
def reserve (count : Nat) : Scopes → Scopes
  | [] => []
  | scope :: scopes =>
    if scope.opensFrame then { scope with slotCount := scope.slotCount + count } :: scopes
    else scope :: reserve count scopes

end Scopes

end ShapeLang
