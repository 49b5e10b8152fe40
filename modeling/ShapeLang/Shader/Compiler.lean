import ShapeLang.Eval
import ShapeLang.Shader.Statement

/-! # The state of shader compilation

Shader code is made by evaluating with terms in place of values: each basic operation emits one
statement. A function that is called is inlined. Its frame is symbolic, and around it lie the
symbolic frames of the functions that it is inlined into, or the frames that a closure captured,
whose values are known.
-/

namespace ShapeLang.Shader

inductive SymbolicSlot where
  | empty
  | pending (expr : Expr)
  | busy
  | ready (term : Term)

/-- The frame around a symbolic frame. -/
inductive Outer where
  | captured (id : FrameId)
  | symbolic (id : Nat)

structure SymbolicFrame where
  slots : List SymbolicSlot
  outer : Outer

structure Compiler where
  statements : Array Statement
  /-- The number of the next name; `r0` is left to the parameter of a whole function. -/
  nextId : Nat
  /-- The functions that are being inlined, the innermost first. A function literal is told from
  others by its place, not by its identity: two programs that were compiled from one text under one
  name count as one. -/
  inlining : List Location
  frames : Array SymbolicFrame

namespace Compiler

def new : Compiler := ⟨#[], 1, [], #[]⟩

/-- The statements so far. -/
def body (compiler : Compiler) : String :=
  String.join (compiler.statements.toList.map Statement.text)

/-- A new name. -/
def fresh (type : ShaderType) (compiler : Compiler) : Term × Compiler :=
  (⟨.name compiler.nextId, type⟩, { compiler with nextId := compiler.nextId + 1 })

/-- A new name, and the statement that defines it. -/
def define (type : ShaderType) (operation : Operation) (compiler : Compiler) : Term × Compiler :=
  (⟨.name compiler.nextId, type⟩,
    { compiler with
      nextId := compiler.nextId + 1
      statements := compiler.statements.push ⟨type, compiler.nextId, operation⟩ })

/-- Puts something into a slot of a symbolic frame, if the frame has it. -/
def put (compiler : Compiler) (id slot : Nat) (content : SymbolicSlot) : Compiler :=
  { compiler with
    frames := compiler.frames.modify id fun frame =>
      { frame with slots := frame.slots.set slot content } }

end Compiler

/-- Captured frames are evaluated, and symbolic frames are compiled. -/
structure CompilerState where
  heap : Heap
  compiler : Compiler

/-- A computation that compiles. Its state is kept on a fault. -/
abbrev Compile := ExceptT Fault (StateM CompilerState)

namespace Compile

variable {α : Type}

def defect (d : Defect) : Compile α := throw (.defect d)

/-- Mistakes in shader code are blamed on a place alone, without callers. -/
def raise (location : Location) (kind : ErrorKind) : Compile α :=
  throw (.exception ⟨kind, [location]⟩)

def unsupported (location : Location) (what : String) : Compile α :=
  raise location (.unsupportedInShader what)

/-- Runs an evaluation over the captured frames. -/
def evaluating (action : Eval α) : Compile α := fun state =>
  let (result, heap) := action state.heap
  (result, { state with heap })

/-- Runs a compilation as a part of an evaluation. The compiler is kept on a fault. -/
def runWith (compiler : Compiler) (action : Compile α) : Eval (Except Fault α × Compiler) :=
  fun heap =>
    let (result, state) := action ⟨heap, compiler⟩
    (.ok (result, state.compiler), state.heap)

def compiler : Compile Compiler := (·.compiler) <$> get

def changing (f : Compiler → α × Compiler) : Compile α :=
  modifyGet fun state =>
    let (a, compiler) := f state.compiler
    (a, { state with compiler })

/-- Emits a statement, and gives the name that it defines. -/
def define (type : ShaderType) (operation : Operation) : Compile Term :=
  changing (Compiler.define type operation)

def frame (id : Nat) : Compile SymbolicFrame := do
  match (← compiler).frames[id]? with
  | some frame => pure frame
  | none => defect .noShaderFrame

def alloc (slotCount : Nat) (outer : Outer) : Compile Nat :=
  changing fun compiler =>
    (compiler.frames.size,
      { compiler with
        frames := compiler.frames.push ⟨List.replicate slotCount .empty, outer⟩ })

def store (id slot : Nat) (content : SymbolicSlot) : Compile Unit := do
  let size := (← frame id).slots.length
  if slot < size then changing fun compiler => ((), compiler.put id slot content)
  else defect (.shaderSlotOutOfRange slot size)

/-- Puts terms into consecutive slots. -/
def storeAll (id slot : Nat) : List Term → Compile Unit
  | [] => pure ()
  | term :: terms => do
    store id slot (.ready term)
    storeAll id (slot + 1) terms

/-- Puts definitions into their slots, to be compiled when they are needed. -/
def storePending (id : Nat) : List (Nat × Expr) → Compile Unit
  | [] => pure ()
  | (slot, expr) :: definitions => do
    store id slot (.pending expr)
    storePending id definitions

/-- The frame that is some steps further out. -/
def ancestor (id : Nat) : Nat → Compile Outer
  | 0 => pure (.symbolic id)
  | depth + 1 => do
    match (← frame id).outer with
    | .symbolic outer => ancestor outer depth
    | .captured outer => .captured <$> evaluating (Eval.ancestor outer depth)

/-- Runs a computation, and puts the definition back into its slot if it fails. -/
def settling (id slot : Nat) (definition : Expr) (action : Compile Term) : Compile Term :=
  fun state =>
    match action state with
    | (.ok term, after) =>
      (.ok term, { after with compiler := after.compiler.put id slot (.ready term) })
    | (.error fault, after) =>
      (.error fault, { after with compiler := after.compiler.put id slot (.pending definition) })

/-- Runs a computation while a function is being inlined. -/
def inlining (function : Location) (action : Compile α) : Compile α := fun state =>
  let entered := { state.compiler with inlining := function :: state.compiler.inlining }
  let (result, after) := action { state with compiler := entered }
  (result, { after with
    compiler := { after.compiler with inlining := after.compiler.inlining.drop 1 } })

end Compile

end ShapeLang.Shader
