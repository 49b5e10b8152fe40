import ShapeLang.Diagnostic
import ShapeLang.Shape.Export

/-! # The command line

A source file is compiled, and its value or its shader code is written to a file or to standard
output. Instead of that, the code of an error can be explained.
-/

namespace ShapeLang.CommandLine

/-- What is written for a program. -/
inductive Emission where
  | shader
  | value

structure Options where
  input : Option String
  /-- The file to write, or none for standard output. -/
  output : Option String
  emission : Emission
  maxCallDepth : Nat
  /-- The error code to explain. -/
  explained : Option String

namespace Options

def standard : Options := ⟨none, none, .shader, Machine.standard.maxCallDepth, none⟩

/-- The number that a text of digits denotes. -/
def count? (text : String) : Option Nat :=
  if text.toList.all isDecimalDigit then text.toNat? else none

/-- Separates `--name=value` into the name and the value. -/
def splitArgument (argument : String) : List String :=
  match argument.toList.span (· ≠ '=') with
  | (name, '=' :: value) =>
    if argument.startsWith "--" then [String.ofList name, String.ofList value] else [argument]
  | _ => [argument]

/-- Reads arguments into options. The value of an option is the argument that follows it. -/
def read (options : Options) : List String → Except String Options
  | [] => .ok options
  | "-o" :: file :: rest | "--output-file" :: file :: rest =>
    read { options with output := some file } rest
  | "--emit" :: "glsl" :: rest => read { options with emission := .shader } rest
  | "--emit" :: "value" :: rest => read { options with emission := .value } rest
  | "--max-depth" :: depth :: rest =>
    match count? depth with
    | some n => read { options with maxCallDepth := n } rest
    | none => .error s!"invalid value '{depth}' for '--max-depth'"
  | "--explain" :: code :: rest => read { options with explained := some code } rest
  | argument :: rest =>
    if argument.startsWith "-" || options.input.isSome then
      .error s!"unexpected argument '{argument}'"
    else read { options with input := some argument } rest

end Options

/-- More steps than a run of the program takes. -/
def fuel : Nat := Nat.pow 10 15

/-- What is written for a source. -/
def emitted (options : Options) (source : Source) : Eval (Except (List ProgramError) String) :=
  let m : Machine := { Machine.standard with maxCallDepth := options.maxCallDepth }
  match options.emission with
  | .shader => Program.shaderOfSource m fuel Namespace.standard source
  | .value => do
    match ← Program.compile Namespace.standard [] none source with
    | .error errors => pure (.error errors)
    | .ok p => Program.catching ((·.shown ++ "\n") <$> p.eval m fuel [])

/-- The lines that tell of an error. -/
def report (d : Diagnostic) : List String :=
  s!"error[{d.code.text}]: {d.message}" ::
    d.labels.map (fun l => s!"  {l.location.label}: {l.message}") ++
    d.notes.map (fun note => s!"  note: {note}")

/-- The explanation of an error code. -/
def explain (code : ErrorCode) : String :=
  s!"{code.text}: {code.title}\n\n{code.explanation}"

/-- Why a run ended without a result and without an error of the program. -/
def faultText : Fault → String
  | .exception e => e.kind.message
  | .defect d => d.message
  | .outOfFuel => "too many steps"

/-- Reads the text of a source file. -/
def readSource (name : String) : IO Source := do
  try
    pure ⟨name, ← IO.FS.readFile name⟩
  catch e => throw (IO.userError s!"Failed to read file '{name}': {e}")

/-- Compiles a source file and writes what is asked for, or reports the errors. -/
def run (options : Options) (input : String) : IO UInt32 := do
  let source ← readSource input
  match (emitted options source .empty).1 with
  | .error fault =>
    IO.eprintln (faultText fault)
    pure 1
  | .ok (.error errors) =>
    for error in errors do
      for line in report (.ofError error) do
        IO.eprintln line
    pure 1
  | .ok (.ok text) =>
    match options.output with
    | some file => IO.FS.writeFile file text
    | none => IO.print text
    pure 0

end ShapeLang.CommandLine

open ShapeLang ShapeLang.CommandLine in
/-- The exit code is zero on success, one for a failed run and two for unusable arguments. -/
def main (args : List String) : IO UInt32 := do
  match Options.standard.read (args.flatMap Options.splitArgument) with
  | .error message =>
    IO.eprintln s!"error: {message}"
    pure 2
  | .ok options =>
    match options.explained, options.input with
    | some text, _ =>
      match ErrorCode.ofText? text with
      | some code =>
        IO.println (explain code)
        pure 0
      | none =>
        IO.eprintln s!"error: unknown error code '{text}'"
        pure 1
    | none, some input =>
      try run options input
      catch e =>
        IO.eprintln s!"error: {e}"
        pure 1
    | none, none =>
      IO.eprintln "error: no input file"
      pure 2
