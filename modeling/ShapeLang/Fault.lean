import ShapeLang.Source

/-! # Exceptions and defects

An exception is a mistake of the program that is read, analysed, evaluated or turned into shader
code. A defect is a broken promise inside the library: it is reported, and no program that was
compiled should meet one.
-/

namespace ShapeLang

/-- The mistakes that a program can make once it can be parsed. -/
inductive ErrorKind where
  | unboundIdentifier (name : String)
  | notAnExpression
  | notADefinition
  | invalidDefinition
  | multipleDefinition (name : String)
  | recursiveDefinition
  | wrongType (expected found : String)
  | argumentCount (expected found : Nat)
  | noSuchField (name : String)
  | indexOutOfRange (index : String) (length : Nat)
  | stackOverflow (limit : Nat)
  | userError (message : String)
  | notAShape
  | unsupportedInShader (what : String)
deriving DecidableEq, Repr

namespace ErrorKind

def message : ErrorKind → String
  | unboundIdentifier name => s!"{name}: not defined"
  | notAnExpression => "not an expression"
  | notADefinition => "not a definition"
  | invalidDefinition => "invalid definition: left side must be a name or a function header"
  | multipleDefinition name => s!"{name}: multiply defined"
  | recursiveDefinition => "illegal recursive reference"
  | wrongType expected found => s!"expected {expected}, got {found}"
  | argumentCount expected found =>
    s!"wrong number of arguments: expected {expected}, got {found}"
  | noSuchField name => s!"no field named '{name}'"
  | indexOutOfRange index length => s!"index {index} out of range for list of length {length}"
  | stackOverflow limit => s!"call depth exceeds {limit}"
  | userError message => message
  | notAShape => "not a shape"
  | unsupportedInShader what => s!"{what} is not supported in shader code"

end ErrorKind

/-- A mistake and the places that led to it, the innermost first. -/
structure Exception where
  kind : ErrorKind
  locations : List Location
deriving DecidableEq, Repr

namespace Exception

/-- The same mistake, seen from the given further callers. -/
def calledFrom (callers : List Location) (e : Exception) : Exception :=
  { e with locations := e.locations ++ callers }

end Exception

/-- The promises that the library makes to itself. -/
inductive Defect where
  /-- A slot number is not one of the frame's. -/
  | slotOutOfRange (slot size : Nat)
  /-- A slot is read before anything was put there. -/
  | emptySlot (slot : Nat)
  /-- A frame has fewer enclosing frames than an expression counts on. -/
  | noAncestor (depth : Nat)
  /-- A reference leads to no frame. -/
  | noFrame
  /-- The same three for the symbolic frames of shader code. -/
  | shaderSlotOutOfRange (slot size : Nat)
  | emptyShaderSlot (slot : Nat)
  | noShaderFrame
  /-- The frame of a shape function stands alone. -/
  | noClosureFrame
  /-- A definition was asked for and not analysed, or analysed in no scope. -/
  | unanalysedDefinition (name : String)
  | noDefinitions
  /-- A builtin function is applied to fewer or more arguments than it takes. -/
  | builtinArguments (name : String)
deriving DecidableEq, Repr

namespace Defect

def message : Defect → String
  | slotOutOfRange slot size => s!"ICE: slot {slot} out of range (frame has {size})"
  | emptySlot slot => s!"ICE: read of uninitialized slot {slot}"
  | noAncestor depth => s!"ICE: no ancestor frame at depth {depth}"
  | noFrame => "ICE: no such frame"
  | shaderSlotOutOfRange slot size => s!"ICE: GL slot {slot} out of range (frame has {size})"
  | emptyShaderSlot slot => s!"ICE: read of uninitialized GL slot {slot}"
  | noShaderFrame => "ICE: no such GL frame"
  | noClosureFrame => "ICE: captured shape frame has no closure frame"
  | unanalysedDefinition name => s!"ICE: definition '{name}' was not analyzed"
  | noDefinitions => "ICE: definitions() on a scope without definitions"
  | builtinArguments name => s!"ICE: builtin '{name}' applied to a wrong number of arguments"

end Defect

/-- Why a computation ended without a result. -/
inductive Fault where
  | exception (e : Exception)
  | defect (d : Defect)
  /-- The steps that were granted did not suffice. -/
  | outOfFuel
deriving DecidableEq, Repr

end ShapeLang
