import ShapeLang.Shader.Inlining
import ShapeLang.Proofs.Computation
import ShapeLang.Proofs.Frame.Heap
import ShapeLang.Proofs.Frame.Slots

/-! # How the operations of shader compilation end

One rule for each operation that compilation is made of, and what the operations leave of the
symbolic frames.
-/

namespace ShapeLang

namespace Shader.Compiler

variable {compiler : Compiler} {id other slot : Nat} {frame : SymbolicFrame}

theorem frame?_put_self {content : SymbolicSlot} (found : compiler.frames[id]? = some frame) :
    (compiler.put id slot content).frames[id]? =
      some { frame with slots := frame.slots.set slot content } := by
  simp [put, Array.getElem?_modify, found]

theorem frame?_put_ne {content : SymbolicSlot} (different : id ≠ other) :
    (compiler.put id slot content).frames[other]? = compiler.frames[other]? := by
  simp [put, Array.getElem?_modify, different]

theorem size_put {content : SymbolicSlot} :
    (compiler.put id slot content).frames.size = compiler.frames.size := by
  simp [put]

/-- Puts contents into slots of a symbolic frame. -/
def putEach (compiler : Compiler) (id : Nat) : List (Nat × SymbolicSlot) → Compiler
  | [] => compiler
  | (slot, content) :: rest => (compiler.put id slot content).putEach id rest

variable {contents : List (Nat × SymbolicSlot)}

theorem frame?_putEach_self (found : compiler.frames[id]? = some frame) :
    (compiler.putEach id contents).frames[id]? =
      some { frame with slots := setEach frame.slots contents } := by
  induction contents generalizing compiler frame with
  | nil => exact found
  | cons first rest ih => rw [putEach, ih (frame?_put_self found), setEach]

theorem frame?_putEach_ne (different : id ≠ other) :
    (compiler.putEach id contents).frames[other]? = compiler.frames[other]? := by
  induction contents generalizing compiler with
  | nil => rfl
  | cons first rest ih => rw [putEach, ih, frame?_put_ne different]

theorem size_putEach : (compiler.putEach id contents).frames.size = compiler.frames.size := by
  induction contents generalizing compiler with
  | nil => rfl
  | cons first rest ih => rw [putEach, ih, size_put]

/-- Writing slots changes nothing else than frames. -/
theorem putEach_rest : (compiler.putEach id contents).statements = compiler.statements ∧
    (compiler.putEach id contents).nextId = compiler.nextId ∧
    (compiler.putEach id contents).inlining = compiler.inlining := by
  induction contents generalizing compiler with
  | nil => exact ⟨rfl, rfl, rfl⟩
  | cons first rest ih => exact ih

/-- The state with a new symbolic frame. -/
def alloc (compiler : Compiler) (slotCount : Nat) (outer : Outer) : Compiler :=
  { compiler with
    frames := compiler.frames.push ⟨List.replicate slotCount .empty, outer⟩ }

theorem frame?_alloc_self (slotCount : Nat) (outer : Outer) :
    (compiler.alloc slotCount outer).frames[compiler.frames.size]? =
      some ⟨List.replicate slotCount .empty, outer⟩ := by
  simp [alloc]

theorem frame?_alloc_ne {slotCount : Nat} {outer : Outer} (old : other ≠ compiler.frames.size) :
    (compiler.alloc slotCount outer).frames[other]? = compiler.frames[other]? := by
  simp only [alloc, Array.getElem?_push]
  rw [if_neg old]

end Shader.Compiler

namespace Shader.CompilerState

/-- The state with a new symbolic frame inside `outer`, with something in its slots already. -/
def enter (state : CompilerState) (slotCount : Nat) (outer : Outer)
    (contents : List (Nat × SymbolicSlot)) : CompilerState :=
  { state with
    compiler := (state.compiler.alloc slotCount outer).putEach state.compiler.frames.size
      contents }

/-- The state in which the body of a function is inlined. -/
def entering (state : CompilerState) (function : Location) : CompilerState :=
  { state with
    compiler := { state.compiler with inlining := function :: state.compiler.inlining } }

/-- The state after the body of a function was inlined. -/
def leaving (state : CompilerState) : CompilerState :=
  { state with compiler := { state.compiler with inlining := state.compiler.inlining.drop 1 } }

end Shader.CompilerState

open Shader

/-- Definitions that wait in their slots. -/
def symbolicPendings (definitions : List (Nat × Expr)) : List (Nat × SymbolicSlot) :=
  definitions.map fun definition => (definition.1, .pending definition.2)

/-- Terms in consecutive slots. -/
def symbolicReadies (slot : Nat) : List Term → List (Nat × SymbolicSlot)
  | [] => []
  | term :: terms => (slot, .ready term) :: symbolicReadies (slot + 1) terms

theorem map_symbolicReadies (slot : Nat) (terms : List Term) :
    (symbolicReadies slot terms).map (·.1) = List.range' slot terms.length := by
  induction terms generalizing slot with
  | nil => rfl
  | cons term terms ih =>
    rw [symbolicReadies, List.map_cons, ih, List.length_cons, List.range'_succ]

theorem mem_symbolicReadies {slot : Nat} {terms : List Term} {content : Nat × SymbolicSlot}
    (mem : content ∈ symbolicReadies slot terms) : ∃ term, content.2 = .ready term := by
  induction terms generalizing slot with
  | nil => simp [symbolicReadies] at mem
  | cons term terms ih =>
    rcases List.mem_cons.mp mem with rfl | mem
    · exact ⟨term, rfl⟩
    · exact ih mem

theorem inlining_run {α : Type} (function : Location) (action : Compile α) (state : CompilerState) :
    Compile.inlining function action state =
      ((action (state.entering function)).1, (action (state.entering function)).2.leaving) := rfl

namespace Ends

variable {α : Type} {state : CompilerState} {id slot : Nat} {fails : Fault → CompilerState → Prop}

theorem unsupported {returns : α → CompilerState → Prop} {location : Location} {what : String}
    (error : fails (.exception ⟨.unsupportedInShader what, [location]⟩) state) :
    Ends (Compile.unsupported location what) state returns fails := error

theorem refuse {returns : α → CompilerState → Prop} {location : Location} {kind : ErrorKind}
    (error : fails (.exception ⟨kind, [location]⟩) state) :
    Ends (Compile.raise location kind) state returns fails := error

theorem evaluating {action : Eval α} {returns : α → CompilerState → Prop}
    (ends : Ends action state.heap (fun a heap => returns a { state with heap })
      fun fault heap => fails fault { state with heap }) :
    Ends (Compile.evaluating action) state returns fails := by
  unfold Ends Compile.evaluating
  unfold Ends at ends
  rcases ran : action state.heap with ⟨_ | _, after⟩ <;> simpa only [ran] using ends

theorem changing {f : Compiler → α × Compiler} {returns : α → CompilerState → Prop}
    (ok : returns (f state.compiler).1 { state with compiler := (f state.compiler).2 }) :
    Ends (Compile.changing f) state returns fails := ok

theorem define {type : ShaderType} {operation : Operation} {returns : Term → CompilerState → Prop}
    (ok : returns ⟨.name state.compiler.nextId, type⟩
      { state with compiler := (state.compiler.define type operation).2 }) :
    Ends (Compile.define type operation) state returns fails := ok

theorem compiler {returns : Compiler → CompilerState → Prop} (ok : returns state.compiler state) :
    Ends Compile.compiler state returns fails := ok

theorem symbolicFrame {returns : SymbolicFrame → CompilerState → Prop}
    (ok : ∀ frame, state.compiler.frames[id]? = some frame → returns frame state)
    (missing : state.compiler.frames[id]? = none → fails (.defect .noShaderFrame) state) :
    Ends (Compile.frame id) state returns fails := by
  refine Ends.through (fun found after => state.compiler = found ∧ state = after)
    (.compiler ⟨rfl, rfl⟩) ?_
  rintro _ _ ⟨rfl, rfl⟩
  cases found : state.compiler.frames[id]? with
  | some frame => exact Ends.pure (ok frame found)
  | none => exact Ends.throw (missing found)

theorem symbolicAlloc {slotCount : Nat} {outer : Outer} {returns : Nat → CompilerState → Prop}
    (ok : returns state.compiler.frames.size
      { state with compiler := state.compiler.alloc slotCount outer }) :
    Ends (Compile.alloc slotCount outer) state returns fails := ok

theorem symbolicStore {content : SymbolicSlot} {returns : Unit → CompilerState → Prop}
    (ok : ∀ frame, state.compiler.frames[id]? = some frame → slot < frame.slots.length →
      returns () { state with compiler := state.compiler.put id slot content })
    (outside : ∀ frame, state.compiler.frames[id]? = some frame → ¬ slot < frame.slots.length →
      fails (.defect (.shaderSlotOutOfRange slot frame.slots.length)) state)
    (missing : state.compiler.frames[id]? = none → fails (.defect .noShaderFrame) state) :
    Ends (Compile.store id slot content) state returns fails := by
  refine Ends.through (fun frame after =>
    state.compiler.frames[id]? = some frame ∧ state = after)
    (.symbolicFrame (fun frame found => ⟨found, rfl⟩) missing) ?_
  rintro frame _ ⟨found, rfl⟩
  by_cases inside : slot < frame.slots.length
  · simp only [inside, ↓reduceIte]
    exact Ends.changing (ok frame found inside)
  · simp only [inside, ↓reduceIte]
    exact Ends.throw (outside frame found inside)

theorem symbolicStore_found {content : SymbolicSlot} {frame : SymbolicFrame}
    {returns : Unit → CompilerState → Prop} (found : state.compiler.frames[id]? = some frame)
    (inside : slot < frame.slots.length)
    (ok : returns () { state with compiler := state.compiler.put id slot content }) :
    Ends (Compile.store id slot content) state returns fails := by
  refine symbolicStore (fun _ _ _ => ok) (fun other found' outside => ?_) fun missing => by
    simp [found] at missing
  rw [Option.some.inj (found'.symm.trans found)] at outside
  exact (outside inside).elim

theorem symbolicStorePending {definitions : List (Nat × Expr)} {frame : SymbolicFrame}
    {returns : Unit → CompilerState → Prop} (found : state.compiler.frames[id]? = some frame)
    (inside : ∀ definition ∈ definitions, definition.1 < frame.slots.length)
    (ok : returns ()
      { state with compiler := state.compiler.putEach id (symbolicPendings definitions) }) :
    Ends (Compile.storePending id definitions) state returns fails := by
  induction definitions generalizing state frame with
  | nil => exact Ends.pure ok
  | cons definition definitions ih =>
    refine Ends.through (fun _ after => { state with
      compiler := state.compiler.put id definition.1 (.pending definition.2) } = after)
      (symbolicStore_found found
      (inside definition (by simp)) rfl) ?_
    rintro _ _ rfl
    exact ih (Compiler.frame?_put_self found) (fun other mem => by
      simpa using inside other (by simp [mem])) ok

theorem symbolicStoreAll {terms : List Term} {frame : SymbolicFrame}
    {returns : Unit → CompilerState → Prop} (found : state.compiler.frames[id]? = some frame)
    (inside : slot + terms.length ≤ frame.slots.length)
    (ok : returns ()
      { state with compiler := state.compiler.putEach id (symbolicReadies slot terms) }) :
    Ends (Compile.storeAll id slot terms) state returns fails := by
  induction terms generalizing state frame slot with
  | nil => exact Ends.pure ok
  | cons term terms ih =>
    simp only [List.length_cons] at inside
    refine Ends.through (fun _ after => { state with
      compiler := state.compiler.put id slot (.ready term) } = after)
      (symbolicStore_found found (by omega) rfl) ?_
    rintro _ _ rfl
    exact ih (Compiler.frame?_put_self found) (by simp; omega) ok

theorem symbolicSettling {definition : Expr} {action : Compile Term}
    {returns : Term → CompilerState → Prop}
    (ends : Ends action state (fun term after => returns term
        { after with compiler := after.compiler.put id slot (.ready term) })
      fun fault after => fails fault
        { after with compiler := after.compiler.put id slot (.pending definition) }) :
    Ends (Compile.settling id slot definition action) state returns fails := by
  unfold Ends Compile.settling
  unfold Ends at ends
  rcases ran : action state with ⟨_ | _, after⟩ <;> simpa only [ran] using ends

theorem inlining {function : Location} {action : Compile α}
    {returns : α → CompilerState → Prop}
    (ends : Ends action (state.entering function) (fun a after => returns a after.leaving)
      fun fault after => fails fault after.leaving) :
    Ends (Compile.inlining function action) state returns fails := by
  unfold Ends at ends ⊢
  rw [inlining_run]
  rcases ran : action (state.entering function) with ⟨_ | _, after⟩ <;> simpa only [ran] using ends

/-- Forcing a symbolic slot, by what is in the slot. -/
theorem symbolicForce {compile : Inliner} {location : Location}
    {returns : Term → CompilerState → Prop}
    (ready : ∀ frame term, state.compiler.frames[id]? = some frame →
      frame.slots[slot]? = some (.ready term) → returns term state)
    (pending : ∀ frame definition, state.compiler.frames[id]? = some frame →
      frame.slots[slot]? = some (.pending definition) →
      Ends (compile id definition) { state with compiler := state.compiler.put id slot .busy }
        (fun term after => returns term
          { after with compiler := after.compiler.put id slot (.ready term) })
        fun fault after => fails fault
          { after with compiler := after.compiler.put id slot (.pending definition) })
    (busy : ∀ frame, state.compiler.frames[id]? = some frame →
      frame.slots[slot]? = some .busy →
      fails (.exception ⟨.recursiveDefinition, [location]⟩) state)
    (empty : ∀ frame, state.compiler.frames[id]? = some frame →
      frame.slots[slot]? = some .empty → fails (.defect (.emptyShaderSlot slot)) state)
    (outside : ∀ frame, state.compiler.frames[id]? = some frame → frame.slots[slot]? = none →
      fails (.defect (.shaderSlotOutOfRange slot frame.slots.length)) state)
    (missing : state.compiler.frames[id]? = none → fails (.defect .noShaderFrame) state) :
    Ends (Compile.force compile location id slot) state returns fails := by
  refine Ends.through (fun frame after =>
    state.compiler.frames[id]? = some frame ∧ state = after)
    (.symbolicFrame (fun frame found => ⟨found, rfl⟩) missing) ?_
  rintro frame _ ⟨found, rfl⟩
  dsimp only
  cases content : frame.slots[slot]? with
  | none => exact Ends.throw (outside frame found content)
  | some content' =>
    cases content' with
    | empty => exact Ends.throw (empty frame found content)
    | busy => exact Ends.refuse (busy frame found content)
    | ready term => exact Ends.pure (ready frame term found content)
    | pending definition =>
      have inside : slot < frame.slots.length := (List.getElem?_eq_some_iff.mp content).1
      refine Ends.through (fun _ after =>
        { state with compiler := state.compiler.put id slot .busy } = after)
        (.symbolicStore_found found inside rfl) ?_
      rintro _ _ rfl
      exact Ends.symbolicSettling (pending frame definition found content)

end Ends

end ShapeLang
