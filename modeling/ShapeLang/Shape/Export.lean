import ShapeLang.Shader.Inlining
import ShapeLang.Program
import ShapeLang.Shape

/-! # Shader code of shapes

A shape is exported as two shader functions of one parameter, a vector with the coordinates of a
point and the time. Each function is compiled on its own, so that its names start from one.
-/

namespace ShapeLang

open Shader

namespace ShapeRole

/-- The type of the function's result in shader code. -/
def resultType : ShapeRole → ShaderType
  | dist => .float
  | colour => .vec3

end ShapeRole

namespace ShapeFunction

/-- Inlines a function of a shape at the point and time that a vector of four components holds. -/
def inline (compile : Inliner) (function : ShapeFunction) (param : Term) : Compile Term := do
  match (← Compile.evaluating (Eval.frame function.frame)).parent with
  | none => Compile.defect .noClosureFrame
  | some env => do
    let args ←
      if function.lambda.paramCount = 1 then pure [param]
      else do
        let point ← Compile.define .vec3 (.firstThree param)
        let time ← Compile.define .float (.component param 3)
        pure [point, time]
    Compile.inlineCall compile function.lambda (.captured env) args
      function.lambda.body.location

end ShapeFunction

namespace Recognizer

section Exporting

variable (evaluate : Evaluator) (held : List Held) (fuel : Nat)

/-- Inlines the function of a role. -/
def inline (r : Recognizer) (role : ShapeRole) (param : Term) : Compile Term := do
  let held := r.held ++ held
  let function ← Compile.evaluating (r.function held role)
  function.inline (Compile.upTo evaluate held fuel) param

/-- The parameter of a shader function. -/
def shaderParam : Term := ⟨.name 0, .vec4⟩

/-- The text of a shader function. -/
def functionText (role : ShapeRole) (body : String) (result : Term) : String :=
  role.resultType.name ++ " " ++ role.name ++ "(vec4 " ++ shaderParam.text ++ ")\n\x7b\n" ++ body ++
    "  return " ++ result.text ++ ";\n\x7d\n"

/-- Compiles the shader function of a role. Its result must have the type of the role. -/
def shaderFunction (r : Recognizer) (role : ShapeRole) : Eval String := do
  let (result, compiler) ← Compile.runWith .new (r.inline evaluate held fuel role shaderParam)
  let term ← match result with
    | .ok term => pure term
    | .error fault => throw fault
  if term.type ≠ role.resultType then
    let function ← r.function held role
    Eval.raise held (.place function.lambda.body.location none)
      (.wrongType s!"{role.resultType.name} result from {role.name}" term.type.name)
  pure (functionText role compiler.body term)

/-- The shader functions of some roles. If one of them cannot be compiled, then those before it
are written, and its fault is given. -/
def writeShader (r : Recognizer) : List ShapeRole → Eval (String × Option Fault)
  | [] => pure ("", none)
  | role :: roles => do
    match ← Eval.attempt (r.shaderFunction evaluate held fuel role) with
    | .error fault => pure ("", some fault)
    | .ok text => do
      let (rest, fault) ← r.writeShader roles
      pure (text ++ rest, fault)

/-- The shader code of the shape: the distance and the colour. -/
def shader (r : Recognizer) : Eval (String × Option Fault) :=
  r.writeShader evaluate held fuel [.dist, .colour]

end Exporting

end Recognizer

namespace Program

/-- From a text to shader code. -/
def shaderOfSource (m : Machine) (fuel : Nat) (names : Namespace) (source : Source) :
    Eval (Except (List ProgramError) String) := do
  match ← compile names [] none source with
  | .error errors => pure (.error errors)
  | .ok p => catching do
    let value ← p.eval m fuel []
    let held : List Held := [.frame p.frame, .value value]
    let evaluate := Eval.upTo m fuel
    let r ← (Recognizer.new (some p.nub)).require evaluate held value
    match ← r.shader evaluate held fuel with
    | (text, none) => pure text
    | (_, some fault) => throw fault

end Program

end ShapeLang
