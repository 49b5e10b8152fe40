import ShapeLang.Shape.Export

/-! # Sessions

A host compiles programs and works with what they give it: it evaluates them again, reads fields,
calls functions, looks for shapes and samples or exports them, in any order. Whatever a request
fails with, the host can go on; the frames keep what was evaluated.
-/

namespace ShapeLang

open Shader

/-- What a host has in its hands. -/
structure Session where
  programs : List Program
  values : List Value
  recognizers : List Recognizer

/-- What a host can ask for. What it has is named by its position; there is no answer if there is
no such thing. -/
inductive Request where
  | compile (names : Namespace) (caller : Option FrameId) (source : Source)
  | eval (program : Nat)
  /-- A value that the host makes itself. -/
  | constant (value : Constant)
  | list (items : List Nat)
  | record (fields : List (String × Nat))
  | item (value index : Nat)
  | field (value : Nat) (name : String) (context : Context)
  | call (function : Nat) (args : List Nat) (caller : Option FrameId) (site : Location)
  | recognizer (nub : Option Location)
  | recognize (recognizer value : Nat)
  | require (recognizer value : Nat)
  | dist (recognizer : Nat) (p : Point) (t : Float)
  | colour (recognizer : Nat) (p : Point) (t : Float)
  /-- Inlines a function of a shape into code that the host has written already. -/
  | inline (recognizer : Nat) (role : ShapeRole) (param : Term) (compiler : Compiler)
  | shader (recognizer : Nat)

namespace Session

/-- A session that begins with a program. -/
def start (p : Program) : Session := ⟨[p], [], []⟩

variable (s : Session)

def addValue (value : Value) : Session := { s with values := s.values ++ [value] }

def addProgram (p : Program) : Session := { s with programs := s.programs ++ [p] }

def addRecognizer (r : Recognizer) : Session := { s with recognizers := s.recognizers ++ [r] }

/-- The recognizer after it has looked at a value. -/
def setRecognizer (i : Nat) (r : Recognizer) : Session :=
  { s with recognizers := s.recognizers.set i r }

/-- A frame that the host names as a caller, if it exists. -/
def caller (caller : Option FrameId) : Eval (Option FrameId) := do
  let heap ← Eval.heap
  pure (caller.filter fun id => (heap.frame? id).isSome)

/-- The frame that makes the host's calls, unless it names another one. -/
def callingFrame (named : Option FrameId) : Eval FrameId := do
  match ← caller named with
  | some id => pure id
  | none => Eval.allocRoot 0 none

/-- The value at a position, if there is one. -/
def withValue (i : Nat) (next : Value → Eval Session) : Eval Session :=
  match s.values[i]? with
  | some value => next value
  | none => pure s

def withProgram (i : Nat) (next : Program → Eval Session) : Eval Session :=
  match s.programs[i]? with
  | some p => next p
  | none => pure s

def withRecognizer (i : Nat) (next : Recognizer → Eval Session) : Eval Session :=
  match s.recognizers[i]? with
  | some r => next r
  | none => pure s

/-- Answers a request, with as much fuel as is granted, for a host that holds on to some frames. -/
def answer (m : Machine) (fuel : Nat) (held : List Held) : Request → Eval Session
  | .compile names named source => do
    match ← Program.compile names held (← caller named) source with
    | .ok p => pure (s.addProgram p)
    | .error _ => pure s
  | .eval i => s.withProgram i fun p => s.addValue <$> p.eval m fuel held
  | .constant value => pure (s.addValue value.toValue)
  | .list items => pure (s.addValue (.ofItems (items.filterMap (s.values[·]?))))
  | .record fields =>
    pure (s.addValue (.ofFields (fields.filterMap fun field =>
      s.values[field.2]?.map fun value => (field.1, value))))
  | .item i index => s.withValue i fun value =>
    match value with
    | .list items _ => pure (((items[index]?).map s.addValue).getD s)
    | _ => pure s
  | .field i name context => s.withValue i fun value =>
    (fun found => (found.map s.addValue).getD s) <$>
      Eval.field? (Eval.upTo m fuel) held value name context
  | .call i args named site => s.withValue i fun function => do
    let frame ← callingFrame named
    s.addValue <$>
      Eval.call m (Eval.upTo m fuel) held function (args.filterMap (s.values[·]?)) frame site
  | .recognizer nub => pure (s.addRecognizer (.new nub))
  | .recognize i j => s.withRecognizer i fun r => s.withValue j fun value =>
    (fun found => s.setRecognizer i found.2) <$> r.recognize (Eval.upTo m fuel) held value
  | .require i j => s.withRecognizer i fun r => s.withValue j fun value =>
    s.setRecognizer i <$> r.require (Eval.upTo m fuel) held value
  | .dist i p t => s.withRecognizer i fun r =>
    (fun _ => s) <$> r.dist (Eval.upTo m fuel) held p t
  | .colour i p t => s.withRecognizer i fun r =>
    (fun _ => s) <$> r.colour (Eval.upTo m fuel) held p t
  | .inline i role param compiler => s.withRecognizer i fun r => do
    let (result, _) ←
      Compile.runWith compiler (r.inline (Eval.upTo m fuel) held fuel role param)
    match result with
    | .ok _ => pure s
    | .error fault => throw fault
  | .shader i => s.withRecognizer i fun r => do
    match ← r.shader (Eval.upTo m fuel) held fuel with
    | (_, none) => pure s
    | (_, some fault) => throw fault

end Session

/-- A request with the fuel that is granted for it, and what the host holds on to meanwhile. -/
structure Turn where
  request : Request
  fuel : Nat
  held : List Held

namespace Session

/-- One turn of a session: what the request failed with, if it failed, and what is left. -/
def turn (m : Machine) (state : Session × Heap) (t : Turn) : Option Fault × Session × Heap :=
  match state.1.answer m t.fuel t.held t.request state.2 with
  | (.ok after, heap) => (none, after, heap)
  | (.error fault, heap) => (some fault, state.1, heap)

/-- The session after some turns. -/
def play (m : Machine) (state : Session × Heap) : List Turn → Session × Heap
  | [] => state
  | t :: turns => play m (turn m state t).2 turns

/-- What the requests of some turns fail with. -/
def faults (m : Machine) (state : Session × Heap) : List Turn → List Fault
  | [] => []
  | t :: turns => (turn m state t).1.toList ++ faults m (turn m state t).2 turns

end Session

end ShapeLang
