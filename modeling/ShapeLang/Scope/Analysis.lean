import ShapeLang.Scope

/-! # Analysis

Resolves the names of a phrase. A definition is analysed when its name is met for the first time,
in the scopes around the definition and not in those around the name; the definitions of a group
that were not met are analysed afterwards, in order. So each is analysed once, and slots of inner
`let`s are given out in the order in which the definitions were met.
-/

namespace ShapeLang

/-- A computation over the scopes around the current phrase. The scopes are kept on a fault. -/
abbrev Analysis := ExceptT Fault (StateM Scopes)

/-- What a phrase stands for: an expression, or a definition that is not looked into yet. -/
inductive Meaning where
  | expression (expr : Expr)
  | definition (name : Ident) (definiens : Phrase)

namespace Analysis

variable {α : Type}

def raise (kind : ErrorKind) (location : Location) : Analysis α :=
  throw (.exception ⟨kind, [location]⟩)

def liftExcept (result : Except Fault α) : Analysis α := fun scopes => (result, scopes)

/-- Runs in the scopes that are left without the innermost ones. -/
def outside (inner : Nat) (action : Analysis α) : Analysis α := fun scopes =>
  let (result, outer) := action (scopes.drop inner)
  (result, scopes.take inner ++ outer)

/-- Runs inside one more scope, and gives back how it left that scope. -/
def inside (scope : Scope) (action : Analysis α) : Analysis (α × Scope) := fun scopes =>
  match action (scope :: scopes) with
  | (result, closed :: outer) => (result.map (·, closed), outer)
  | (_, []) => (.error (.defect .noDefinitions), [])

/-- The definition that a phrase of the form `target = definiens` makes: `f(x) = e` defines `f` as
a function, which gets the place of the whole definition. -/
def splitDefinition (location : Location) (target definiens : Phrase) :
    Analysis (Ident × Phrase) :=
  match target with
  | .ident _ name => pure (name, definiens)
  | .call _ (.ident _ name) args => do
    let params ← args.mapM fun arg =>
      match arg with
      | .ident _ param => pure param
      | _ => raise .invalidDefinition arg.location
    pure (name, .lambda location params definiens)
  | _ => raise .invalidDefinition target.location

/-- The definitions of a `let` or a module, which must have different names. `seen` are the names
of the definitions before. -/
def collectDefinitions (seen : List String) : List Phrase → Analysis (List (String × Phrase))
  | [] => pure []
  | .definition location target definiens :: items => do
    let (name, definiens) ← splitDefinition location target definiens
    if name.name ∈ seen then raise (.multipleDefinition name.name) name.location
    let rest ← collectDefinitions (name.name :: seen) items
    pure ((name.name, definiens) :: rest)
  | item :: _ => raise .notADefinition item.location

/-- Refuses a parameter list that has a name twice. `seen` are the names of the parameters
before. -/
def checkParameters (seen : List String) : List Ident → Analysis Unit
  | [] => pure ()
  | param :: params => do
    if param.name ∈ seen then raise (.multipleDefinition param.name) param.location
    checkParameters (param.name :: seen) params

/-- Changes the entry of a name in the innermost scope, and perhaps the log of requests. -/
def updateEntry (name : String) (progress : Progress) (requested : List String) : Analysis Unit :=
  modify fun scopes =>
    match scopes with
    | ⟨.definitions entries requests, opensFrame, slotCount⟩ :: outer =>
      let entries := entries.map fun entry =>
        if entry.name == name then { entry with progress } else entry
      ⟨.definitions entries (requests ++ requested), opensFrame, slotCount⟩ :: outer
    | scopes => scopes

/-- The scopes around the current phrase. -/
def scopes : Analysis Scopes := get

/-- The definitions of the innermost scope. -/
def entries : Analysis (List Definition) := do
  match ← scopes with
  | ⟨.definitions entries _, _, _⟩ :: _ => pure entries
  | _ => throw (.defect .noDefinitions)

section Step

variable (analyze : Phrase → Analysis Expr)

/-- Analyses a definition of the innermost scope, unless that was done or is under way. -/
def define (name : String) : Analysis Unit := do
  match (← entries).find? (·.name == name) with
  | some ⟨_, _, body, .waiting⟩ =>
    updateEntry name .active [name]
    let expr ← analyze body
    updateEntry name (.done expr) []
  | some _ => pure ()
  | none => throw (.defect (.unanalysedDefinition name))

/-- Analyses the definitions of the innermost scope, each with the slot that it fills. -/
def defineAll : Analysis (List (Nat × Expr)) := do
  (← entries).forM fun entry => define analyze entry.name
  (← entries).mapM fun entry =>
    match entry.progress with
    | .done expr => pure (entry.slot, expr)
    | _ => throw (.defect (.unanalysedDefinition entry.name))

/-- Resolves a name that occurs as an expression. -/
def reference (location : Location) (id : Ident) : Analysis Expr := do
  match (← scopes).resolve? id.name with
  | none => raise (.unboundIdentifier id.name) id.location
  | some (.constant value) => pure (.constant location value)
  | some (.slot depth slot) => pure (.slot location depth slot)
  | some (.definition depth slot inner) =>
    outside inner (define analyze id.name)
    pure (.slot location depth slot)

/-- The module literal whose scope was left like this. -/
def moduleFrom (scope : Scope) (definitions : List (Nat × Expr)) : Except Fault ModuleExpr :=
  match scope.binders with
  | .definitions entries _ =>
    .ok ⟨scope.slotCount, entries.map fun entry => (entry.name, entry.slot), definitions⟩
  | _ => .error (.defect .noDefinitions)

/-- A module with the given definitions, in a scope of its own. -/
def moduleOf (definitions : List (String × Phrase)) : Analysis ModuleExpr := do
  let (definitions, scope) ← inside (.ofModule definitions) (defineAll analyze)
  liftExcept (moduleFrom scope definitions)

/-- The fields of a record, whose names must be different. -/
def fields (seen : List String) : List (Ident × Phrase) → Analysis (List (String × Expr))
  | [] => pure []
  | (id, value) :: rest => do
    if id.name ∈ seen then raise (.multipleDefinition id.name) id.location
    let value ← analyze value
    let rest ← fields (id.name :: seen) rest
    pure ((id.name, value) :: rest)

/-- Analyses one phrase, given how the phrases inside it and the definitions that it meets are
analysed. -/
def step : Phrase → Analysis Meaning
  | .numeral location value => pure (.expression (.constant location (.num value)))
  | .boolean location value => pure (.expression (.constant location (.bool value)))
  | .text location content => pure (.expression (.constant location (.text content)))
  | .ident location id => .expression <$> reference analyze location id
  | .list location items => do
    let items ← items.mapM analyze
    pure (.expression (.list location items))
  | .record location values => do
    let values ← fields analyze [] values
    pure (.expression (.record location values))
  | .module location items => do
    let definitions ← collectDefinitions [] items
    let ⟨slotCount, fields, definitions⟩ ← moduleOf analyze definitions
    pure (.expression (.module location slotCount fields definitions))
  | .definition location target definiens => do
    let (name, definiens) ← splitDefinition location target definiens
    pure (.definition name definiens)
  | .lambda location params body => do
    checkParameters [] params
    let (body, scope) ← inside (.ofParameters (params.map (·.name))) (analyze body)
    pure (.expression (.lambda location params.length scope.slotCount body))
  | .call location function args => do
    let function ← analyze function
    let args ← args.mapM analyze
    pure (.expression (.call location function args))
  | .dot location base field => do
    let base ← analyze base
    pure (.expression (.dot location base field.name))
  | .index location base index => do
    let base ← analyze base
    let index ← analyze index
    pure (.expression (.index location base index))
  | .unary location op operand => do
    let operand ← analyze operand
    pure (.expression (.unary location op operand))
  | .binary location op left right => do
    let left ← analyze left
    let right ← analyze right
    pure (.expression (.binary location op left right))
  | .conditional location condition whenTrue whenFalse => do
    let condition ← analyze condition
    let whenTrue ← analyze whenTrue
    let whenFalse ← analyze whenFalse
    pure (.expression (.conditional location condition whenTrue whenFalse))
  | .letIn location items body => do
    let definitions ← collectDefinitions [] items
    let base := (← scopes).slotCount
    modify (Scopes.reserve definitions.length)
    let ((bindings, body), _) ← inside (.ofLet base definitions) do
      let bindings ← defineAll analyze
      let body ← analyze body
      pure (bindings, body)
    pure (.expression (.letIn location bindings body))
  | .forEach location item list body => do
    let list ← analyze list
    let (body, scope) ← inside (.ofParameters [item.name]) (analyze body)
    pure (.expression (.forEach location scope.slotCount list body))

/-- The expression that a phrase stands for; a definition is no expression. -/
def asExpression (phrase : Phrase) : Meaning → Analysis Expr
  | .expression expr => pure expr
  | .definition _ _ => raise .notAnExpression phrase.location

end Step

/-- Analyses phrases that are nested, directly or through definitions, less than `fuel` times. -/
def exprUpTo : Nat → Phrase → Analysis Expr
  | 0, _ => throw .outOfFuel
  | fuel + 1, phrase => do
    let meaning ← step (exprUpTo fuel) phrase
    asExpression phrase meaning

/-- The meaning of a phrase. Every phrase in it is analysed at most once, so its size is enough
fuel for the phrases inside. -/
def meaning (phrase : Phrase) : Analysis Meaning := step (exprUpTo phrase.size) phrase

/-- The expression for a whole program. A definition that stands alone is a module with one
field. -/
def program (phrase : Phrase) : Analysis Expr := do
  match ← meaning phrase with
  | .expression expr => pure expr
  | .definition name definiens =>
    let ⟨slotCount, fields, definitions⟩ ←
      moduleOf (exprUpTo phrase.size) [(name.name, definiens)]
    pure (.module phrase.location slotCount fields definitions)

end Analysis

/-- A program with all names resolved, and the number of slots of its outermost frame. -/
structure Resolved where
  expr : Expr
  slotCount : Nat

namespace Phrase

/-- The meaning of a phrase among the given names. -/
def meaning (names : Namespace) (phrase : Phrase) : Except Fault Meaning :=
  (Analysis.meaning phrase [.ofNamespace names]).1

/-- Resolves the names of a program. -/
def analyze (names : Namespace) (phrase : Phrase) : Except Fault Resolved :=
  let (result, scopes) := Analysis.program phrase [.ofNamespace names]
  result.map (⟨·, scopes.slotCount⟩)

/-- Analyses the definitions of a module, and tells in which order they were asked for. -/
def analyzeModule (names : Namespace) (definitions : List (String × Phrase)) :
    Except Fault ModuleExpr × List String :=
  let fuel := definitions.foldr (fun definition total => definition.2.size + total) 0
  let scopes : Scopes := [.ofModule definitions, .ofNamespace names]
  match Analysis.defineAll (Analysis.exprUpTo fuel) scopes with
  | (result, scope :: _) =>
    let requests := match scope.binders with
      | .definitions _ requests => requests
      | _ => []
    (result.bind (Analysis.moduleFrom scope), requests)
  | (_, []) => (.error (.defect .noDefinitions), [])

/-- The definitions of a module literal. -/
def definitions (names : Namespace) (items : List Phrase) :
    Except Fault (List (String × Phrase)) :=
  (Analysis.collectDefinitions [] items [.ofNamespace names]).1

end Phrase

end ShapeLang
