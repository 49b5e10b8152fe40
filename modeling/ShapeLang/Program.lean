import ShapeLang.Eval
import ShapeLang.Phrase.Grammar
import ShapeLang.Scope.Analysis
import ShapeLang.Token.Lexer

/-! # Programs

From a text to a value: the text is cut into tokens, the tokens form a phrase, the names of the
phrase are resolved, and the resulting expression is evaluated in the root frame of the program.
The text is parsed even if a part of it is no token, so that both kinds of errors are reported.
-/

namespace ShapeLang

/-- An error of any stage. -/
inductive ProgramError where
  | lexical (rejection : Rejection)
  | syntactic (error : SyntaxError)
  | exception (e : Exception)

namespace ProgramError

/-- The place to point at, if the error has one. -/
def location? : ProgramError → Option Location
  | lexical rejection => some rejection.location
  | syntactic error => some error.location
  | exception e => e.locations.head?

def message : ProgramError → String
  | lexical rejection => rejection.message
  | syntactic error => error.message
  | exception e => e.kind.message

end ProgramError

/-- The phrase of a source without errors. -/
def Source.phrase (source : Source) : Except (List ProgramError) Phrase :=
  let lexing := source.lex
  let rejections := lexing.rejections.map .lexical
  match Phrase.parse source lexing.tokens with
  | .ok phrase => if rejections.isEmpty then .ok phrase else .error rejections
  | .error e => .error (rejections ++ [.syntactic e])

/-- A compiled program, with its root frame. -/
structure Program where
  source : Source
  phrase : Phrase
  expr : Expr
  frame : FrameId

namespace Program

/-- The place that stands for the program as a whole. -/
def nub (p : Program) : Location := p.phrase.location

/-- The exceptions of a computation as errors of a program. Other faults stay. -/
def catching {α : Type} (action : Eval α) : Eval (Except (List ProgramError) α) := fun heap =>
  match action heap with
  | (.ok a, after) => (.ok (.ok a), after)
  | (.error (.exception e), after) => (.ok (.error [.exception e]), after)
  | (.error fault, after) => (.error fault, after)

/-- Resolves the names of a phrase. Exceptions continue with the calls around the frame that asked
for the program, if there is one. -/
def resolve (names : Namespace) (held : List Held) (caller : Option FrameId) (phrase : Phrase) :
    Eval Resolved := do
  match phrase.analyze names with
  | .ok resolved => pure resolved
  | .error (.exception e) =>
    let heap ← Eval.heap
    let callers := match caller with
      | some caller => heap.callers held caller
      | none => []
    throw (.exception (e.calledFrom callers))
  | .error fault => throw fault

/-- Compiles a source. The caller is the frame that asks for it, if there is one. -/
def compile (names : Namespace) (held : List Held) (caller : Option FrameId) (source : Source) :
    Eval (Except (List ProgramError) Program) := do
  match source.phrase with
  | .error errors => pure (.error errors)
  | .ok phrase => catching do
    let resolved ← resolve names held caller phrase
    let frame ← Eval.allocRoot resolved.slotCount caller
    pure ⟨source, phrase, resolved.expr, frame⟩

/-- Evaluates the program in its root frame, which later evaluations use again. -/
def eval (m : Machine) (fuel : Nat) (held : List Held) (p : Program) : Eval Value :=
  Eval.upTo m fuel (.frame p.frame :: held) p.frame p.expr

/-- What a value stands for as a result: a module with its fields, or the values of a list. A
single value counts as a list of one. -/
def denoted : Value → List (String × Nat) ⊕ List Value
  | .module _ fields => .inl fields
  | .list items _ => .inr items
  | other => .inr [other]

end Program

end ShapeLang
