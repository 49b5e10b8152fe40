import ShapeLang.ErrorCode
import ShapeLang.Program

/-! # Diagnostics

What a user is told about an error: its code and message, the places that it concerns, the most
important one first, and further notes.
-/

namespace ShapeLang

/-- A place and what is said about it. -/
structure Label where
  location : Location
  message : String
deriving DecidableEq, Repr

structure Diagnostic where
  code : ErrorCode
  message : String
  labels : List Label
  notes : List String
deriving DecidableEq, Repr

namespace Diagnostic

/-- The labels of an exception: the place of the mistake with its message, then the calls that led
there. -/
def exceptionLabels (e : Exception) : List Label :=
  match e.locations with
  | [] => []
  | place :: callers => ⟨place, e.kind.message⟩ :: callers.map (⟨·, "called from here"⟩)

/-- The notes on an exception. -/
def exceptionNotes : ErrorKind → List String
  | .stackOverflow _ => ["the limit can be raised with `--max-depth`"]
  | _ => []

/-- The diagnostic of an error. -/
def ofError (error : ProgramError) : Diagnostic :=
  match error with
  | .lexical rejection =>
    ⟨.unrecognizedCharacter, error.message,
      [⟨rejection.location, "this character is not recognized"⟩], []⟩
  | .syntactic e => ⟨.syntaxError, error.message, [⟨e.location, "here"⟩], []⟩
  | .exception e =>
    ⟨.ofKind e.kind, error.message, exceptionLabels e, exceptionNotes e.kind⟩

end Diagnostic

end ShapeLang
