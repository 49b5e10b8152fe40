import ShapeLang.BoundingBox
import ShapeLang.Eval

/-! # Shapes

A record or a module is a shape if it has two functions: the signed distance to the surface and
the colour, at a point and a time. The functions take the point and the time as two arguments, or
both as one list of four numbers. What else a shape says about itself is optional: in how many
dimensions it makes sense, and where it lies.

Recognition is final: a recognizer that has met a shape keeps it, whatever values follow.
-/

namespace ShapeLang

/-- A function of a shape, with a frame of its own that is used again for each call. The parent of
the frame is the frame that the closure captured. -/
structure ShapeFunction where
  lambda : Lambda
  frame : FrameId

/-- The functions that a shape must have. -/
inductive ShapeRole where
  | dist
  | colour
deriving DecidableEq, Repr

namespace ShapeRole

/-- The field that holds the function, which is also its name in shader code. -/
def name : ShapeRole → String
  | dist => "dist"
  | colour => "colour"

end ShapeRole

/-- A recognized shape. -/
structure Shape where
  is2d : Bool
  is3d : Bool
  bounds : BoundingBox
  dist : ShapeFunction
  colour : ShapeFunction

/-- The function of a role. -/
def Shape.function (shape : Shape) : ShapeRole → ShapeFunction
  | .dist => shape.dist
  | .colour => shape.colour

/-- Looks for a shape among the values of a program. -/
structure Recognizer where
  /-- The place of the whole program, once it is compiled. -/
  nub : Option Location
  shape : Option Shape

namespace Recognizer

/-- A recognizer that has met no shape yet. -/
def new (nub : Option Location) : Recognizer := ⟨nub, none⟩

def isShape (r : Recognizer) : Bool := r.shape.isSome

def is2d (r : Recognizer) : Bool := r.shape.any (·.is2d)

def is3d (r : Recognizer) : Bool := r.shape.any (·.is3d)

/-- The box around the shape. -/
def bounds (r : Recognizer) : BoundingBox := (r.shape.map (·.bounds)).getD default

/-- What is blamed if a shape is missing: the whole program. -/
def context (r : Recognizer) : Context :=
  match r.nub with
  | some nub => .place nub none
  | none => .empty

/-- The frames that the functions of the shape keep. -/
def held (r : Recognizer) : List Held :=
  match r.shape with
  | some shape => [.frame shape.dist.frame, .frame shape.colour.frame]
  | none => []

end Recognizer

namespace Shape

/-- The function literal and the captured frame of a value that can serve as a function of a
shape: a closure with one or two parameters. -/
def closure? : Value → Option (Lambda × FrameId)
  | .closure _ lambda env =>
    if lambda.paramCount = 1 ∨ lambda.paramCount = 2 then some (lambda, env) else none
  | _ => none

/-- The value of a flag that may be left out. A value that is no truth value is refused. -/
def flag? : Option Value → Option Bool
  | none => some false
  | some (.bool b) => some b
  | some _ => none

/-- The box that a value gives, or the whole space of the shape's dimension if it gives none. -/
def bounds? (is3d : Bool) : Option Value → Option BoundingBox
  | some value => BoundingBox.ofValue? value
  | none => some (if is3d then .infinite3 else .infinite2)

/-- A shape function with a new frame. -/
def capture (lambda : Lambda) (env : FrameId) : Eval ShapeFunction := do
  pure ⟨lambda, ← Eval.allocChild lambda.slotCount env⟩

/-- The shape that a value describes. Fields are read only as long as the fields before them fit:
the functions, then both flags, then the box. A shape that claims neither two nor three dimensions
has three. -/
def ofValue? (evaluate : Evaluator) (held : List Held) (context : Context) (value : Value) :
    Eval (Option Shape) := do
  let read (name : String) : Eval (Option Value) :=
    Eval.field? evaluate (.value value :: held) value name context
  let some (dist, distEnv) := (← read ShapeRole.dist.name).bind closure? | return none
  let some (colour, colourEnv) := (← read ShapeRole.colour.name).bind closure? | return none
  let flat ← read "is_2d_shape"
  let solid ← read "is_3d_shape"
  let some is2d := flag? flat | return none
  let some solid := flag? solid | return none
  let is3d := solid || !is2d
  let some bounds := bounds? is3d (← read "bbox") | return none
  return some ⟨is2d, is3d, bounds, ← capture dist distEnv, ← capture colour colourEnv⟩

end Shape

namespace Recognizer

section Evaluating

variable (evaluate : Evaluator) (held : List Held)

/-- Looks whether a value is a shape, and keeps the first shape that it meets. -/
def recognize (r : Recognizer) (value : Value) : Eval (Bool × Recognizer) := do
  if r.isShape then return (true, r)
  match ← Shape.ofValue? evaluate held r.context value with
  | some shape => return (true, { r with shape := some shape })
  | none => return (false, r)

/-- Looks for a shape where there has to be one. -/
def require (r : Recognizer) (value : Value) : Eval Recognizer := do
  let (found, r) ← r.recognize evaluate held value
  if found then pure r else Eval.raise held r.context .notAShape

/-- The function of a role, if there is a shape. -/
def function (r : Recognizer) (role : ShapeRole) : Eval ShapeFunction :=
  match r.shape with
  | some shape => pure (shape.function role)
  | none => Eval.raise held r.context .notAShape

/-- Calls a function of the shape at a point and a time, in its own frame, which is emptied first.
No call is counted for it. -/
def callAt (function : ShapeFunction) (p : Point) (t : Float) : Eval Value := do
  Eval.clear function.frame
  if function.lambda.paramCount = 1 then
    Eval.store function.frame 0 (.ready (.ofNumbers [p.x, p.y, p.z, t]))
  else
    Eval.store function.frame 0 (.ready (.ofNumbers [p.x, p.y, p.z]))
    Eval.store function.frame 1 (.ready (.num t))
  evaluate (.frame function.frame :: held) function.frame function.lambda.body

/-- Calls the function of a role, and takes a result of the right form from it. -/
def sample {α : Type} (r : Recognizer) (role : ShapeRole) (result : Value → Except ErrorKind α)
    (p : Point) (t : Float) : Eval α := do
  let held := r.held ++ held
  let function ← r.function held role
  let value ← callAt evaluate held function p t
  Eval.blaming (.value value :: held) (.place function.lambda.body.location (some function.frame))
    (result value)

/-- The distance from a point to the surface, negative inside. -/
def dist (r : Recognizer) (p : Point) (t : Float) : Eval Float :=
  r.sample evaluate held .dist Eval.toNumber p t

/-- The three components of a colour. -/
def toColour (value : Value) : Except ErrorKind (List Float) :=
  match value.numbers? with
  | some [red, green, blue] => .ok [red, green, blue]
  | _ => .error (.wrongType "colour [r,g,b]" value.shown)

/-- The colour of the shape at a point. -/
def colour (r : Recognizer) (p : Point) (t : Float) : Eval (List Float) :=
  r.sample evaluate held .colour toColour p t

end Evaluating

end Recognizer

end ShapeLang
