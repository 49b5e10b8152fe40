import ShapeLang.Proofs.Alongside
import ShapeLang.Proofs.Shader.Operations

/-! # The code that was written before makes no difference

A compiler numbers the names that it defines and the symbolic frames that it makes. Two compilers
that have written different code inline a function in the same steps: what they add differs by the
numbers of the names that are new.
-/

namespace ShapeLang.Shader

open Compile (Callee)

section Numbers

variable {old new id i : Nat}

/-- The number of a name in a compiler whose new names begin with `new` instead of `old`. -/
def renumber (old new id : Nat) : Nat :=
  if id < old then id else id - old + new

theorem renumber_add : renumber old new (old + i) = new + i := by
  rw [renumber, if_neg (by omega)]
  omega

variable (old new)

def Atom.renumbered : Atom → Atom
  | .name id => .name (renumber old new id)
  | other => other

namespace Term

def renumbered (term : Term) : Term := ⟨term.atom.renumbered old new, term.type⟩

end Term

def Operation.renumbered : Operation → Operation
  | .verbatim text => .verbatim text
  | .construct type parts => .construct type (parts.map (·.renumbered old new))
  | .negate operand => .negate (operand.renumbered old new)
  | .not operand => .not (operand.renumbered old new)
  | .binary op left right => .binary op (left.renumbered old new) (right.renumbered old new)
  | .select condition whenTrue whenFalse =>
    .select (condition.renumbered old new) (whenTrue.renumbered old new)
      (whenFalse.renumbered old new)
  | .component vector index => .component (vector.renumbered old new) index
  | .firstThree vector => .firstThree (vector.renumbered old new)
  | .element vector index => .element (vector.renumbered old new) (index.renumbered old new)
  | .apply function type args => .apply function type (args.map (·.renumbered old new))
  | .product factor copies => .product (factor.renumbered old new) copies
  | .reciprocal type factor copies => .reciprocal type (factor.renumbered old new) copies

def Statement.renumbered (statement : Statement) : Statement :=
  ⟨statement.type, renumber old new statement.id, statement.operation.renumbered old new⟩

def SymbolicSlot.renumbered : SymbolicSlot → SymbolicSlot
  | .ready term => .ready (term.renumbered old new)
  | other => other

variable {old new}

@[simp] theorem Term.type_renumbered (term : Term) : (term.renumbered old new).type = term.type :=
  rfl

/-- Names are no literals. -/
@[simp] theorem Term.literal?_renumbered (term : Term) :
    (term.renumbered old new).literal? = term.literal? := by
  obtain ⟨atom, type⟩ := term
  cases atom <;> rfl

theorem commonType_renumbered (type : ShaderType) (args : List Term) :
    Compile.commonType type (args.map (·.renumbered old new)) = Compile.commonType type args := by
  induction args generalizing type with
  | nil => rfl
  | cons arg args ih =>
    simp only [List.map_cons, Compile.commonType]
    rw [Term.type_renumbered, ih, ih]

end Numbers

/-- What is around a frame that is new, in two compilers. -/
inductive OuterMoved (first second : Compiler) : Outer → Outer → Prop
  | captured (id : FrameId) : OuterMoved first second (.captured id) (.captured id)
  | symbolic (i : Nat) : OuterMoved first second (.symbolic (first.frames.size + i))
      (.symbolic (second.frames.size + i))

/-- A frame that is new, in two compilers. -/
structure FrameMoved (first second : Compiler) (frame frame' : SymbolicFrame) : Prop where
  outer : OuterMoved first second frame.outer frame'.outer
  slots : frame'.slots = frame.slots.map (·.renumbered first.nextId second.nextId)

/-- Two compilers have the same frames that are new. -/
def FramesMoved (first second : Compiler) (frames frames' : Array SymbolicFrame) : Prop :=
  ∀ i : Nat, Option.Rel (FrameMoved first second) frames[first.frames.size + i]?
    frames'[second.frames.size + i]?

/-- The same code was added to what two compilers had written, up to the numbers of new names. -/
def Appended (first second after after' : Compiler) : Prop :=
  ∃ added, after.statements.toList = first.statements.toList ++ added ∧
    after'.statements.toList =
      second.statements.toList ++ added.map (·.renumbered first.nextId second.nextId)

/-- Two compilations that began in two compilers have come equally far, while some functions are
being inlined. -/
structure Beside (first second : Compiler) (stack : List Location)
    (state state' : CompilerState) : Prop where
  heap : state'.heap = state.heap
  inlining : state.compiler.inlining = stack
  inlining' : state'.compiler.inlining = stack
  appended : Appended first second state.compiler state'.compiler
  names : ∃ count, state.compiler.nextId = first.nextId + count ∧
    state'.compiler.nextId = second.nextId + count
  size : ∃ count, state.compiler.frames.size = first.frames.size + count ∧
    state'.compiler.frames.size = second.frames.size + count
  frames : FramesMoved first second state.compiler.frames state'.compiler.frames

variable {first second : Compiler} {stack : List Location} {state state' : CompilerState}

namespace Beside

/-- Nothing was added yet. -/
theorem start (heap : Heap) (idle : first.inlining = stack) (idle' : second.inlining = stack) :
    Beside first second stack ⟨heap, first⟩ ⟨heap, second⟩ := by
  refine ⟨rfl, idle, idle', ⟨[], by simp, by simp⟩, ⟨0, rfl, rfl⟩, ⟨0, rfl, rfl⟩, fun i => ?_⟩
  rw [Array.getElem?_eq_none (Nat.le_add_right _ i), Array.getElem?_eq_none (Nat.le_add_right _ i)]
  exact .none

variable (beside : Beside first second stack state state')
include beside

/-- Both define a name. -/
theorem define (type : ShaderType) (operation : Operation) :
    (state'.compiler.define type (operation.renumbered first.nextId second.nextId)).1 =
        (state.compiler.define type operation).1.renumbered first.nextId second.nextId ∧
      Beside first second stack
        { state with compiler := (state.compiler.define type operation).2 }
        { state' with
          compiler := (state'.compiler.define type
            (operation.renumbered first.nextId second.nextId)).2 } := by
  obtain ⟨added, before, before'⟩ := beside.appended
  obtain ⟨count, next, next'⟩ := beside.names
  have number : renumber first.nextId second.nextId state.compiler.nextId =
      state'.compiler.nextId := by
    rw [next, next', renumber_add]
  refine ⟨?_, beside.heap, beside.inlining, beside.inlining',
    ⟨added ++ [⟨type, state.compiler.nextId, operation⟩], ?_, ?_⟩, ⟨count + 1, ?_, ?_⟩,
    beside.size, beside.frames⟩
  · simp only [Compiler.define, Term.renumbered, Atom.renumbered, number]
  · simp only [Compiler.define, Array.toList_push, before, List.append_assoc]
  · simp only [Compiler.define, Array.toList_push, before', List.map_append, List.map_cons,
      List.map_nil, List.append_assoc, Statement.renumbered, number]
  · simp only [Compiler.define, next, Nat.add_assoc]
  · simp only [Compiler.define, next', Nat.add_assoc]

/-- Both put the same into a slot. -/
theorem put (i slot : Nat) (content : SymbolicSlot) : Beside first second stack
    { state with compiler := state.compiler.put (first.frames.size + i) slot content }
    { state' with
      compiler := state'.compiler.put (second.frames.size + i) slot
        (content.renumbered first.nextId second.nextId) } := by
  refine ⟨beside.heap, beside.inlining, beside.inlining', beside.appended, beside.names, ?_,
    fun j => ?_⟩
  · simpa only [Compiler.size_put] using beside.size
  have moved := beside.frames j
  by_cases same : i = j
  · subst same
    simp only [Compiler.put, Array.getElem?_modify, ↓reduceIte]
    generalize state.compiler.frames[first.frames.size + i]? = frame at moved ⊢
    generalize state'.compiler.frames[second.frames.size + i]? = frame' at moved ⊢
    cases moved with
    | none => exact .none
    | some moved =>
      refine .some ⟨moved.outer, ?_⟩
      dsimp only
      rw [moved.slots, List.map_set]
  · dsimp only
    rwa [Compiler.frame?_put_ne (by omega), Compiler.frame?_put_ne (by omega)]

/-- Both make a frame. -/
theorem alloc (slotCount : Nat) {outer outer' : Outer} (moved : OuterMoved first second outer outer') :
    Beside first second stack
      { state with compiler := state.compiler.alloc slotCount outer }
      { state' with compiler := state'.compiler.alloc slotCount outer' } := by
  obtain ⟨count, size, size'⟩ := beside.size
  refine ⟨beside.heap, beside.inlining, beside.inlining', beside.appended, beside.names,
    ⟨count + 1, ?_, ?_⟩, fun i => ?_⟩
  · simp only [Compiler.alloc, Array.size_push, size, Nat.add_assoc]
  · simp only [Compiler.alloc, Array.size_push, size', Nat.add_assoc]
  by_cases here : i = count
  · subst here
    dsimp only
    rw [← size, ← size', Compiler.frame?_alloc_self, Compiler.frame?_alloc_self]
    exact .some ⟨moved, by rw [List.map_replicate]; rfl⟩
  · dsimp only
    rw [Compiler.frame?_alloc_ne (by omega), Compiler.frame?_alloc_ne (by omega)]
    exact beside.frames i

theorem entering (place : Location) :
    Beside first second (place :: stack) (state.entering place) (state'.entering place) :=
  { beside with
    inlining := congrArg (place :: ·) beside.inlining
    inlining' := congrArg (place :: ·) beside.inlining' }

theorem leaving {place : Location} {rest : List Location} (inside : stack = place :: rest) :
    Beside first second rest state.leaving state'.leaving := by
  have drop : stack.drop 1 = rest := by rw [inside, List.drop_one, List.tail_cons]
  exact { beside with
    inlining := (congrArg (List.drop 1) beside.inlining).trans drop
    inlining' := (congrArg (List.drop 1) beside.inlining').trans drop }

end Beside

/-- Two computations that do the same in two compilers. -/
def Renames {α β : Type} (first second : Compiler) (post : α → β → Prop) (action : Compile α)
    (action' : Compile β) : Prop :=
  ∀ stack state state', Beside first second stack state state' → EndAlike
    (fun a later b later' => post a b ∧ Beside first second stack later later')
    (fun fault later fault' later' => fault = fault' ∧ Beside first second stack later later')
    (action state) (action' state')

/-- Two computations that give the same term in two compilers. -/
abbrev RenamesTerm (first second : Compiler) (action action' : Compile Term) : Prop :=
  Renames first second (fun term term' => term' = term.renumbered first.nextId second.nextId)
    action action'

/-- Functions that are called in two compilers. -/
inductive CalleeMoved (first second : Compiler) : Callee → Callee → Prop
  | lambda (lambda : Lambda) {outer outer' : Outer} (moved : OuterMoved first second outer outer') :
      CalleeMoved first second (.lambda lambda outer) (.lambda lambda outer')
  | builtin (function : Builtin) : CalleeMoved first second (.builtin function) (.builtin function)

namespace Renames

variable {α β γ δ : Type} {post : α → β → Prop} {location : Location}

theorem pure {a : α} {b : β} (ok : post a b) :
    Renames first second post (Pure.pure a) (Pure.pure b) :=
  fun _ _ _ beside => .returned ⟨ok, beside⟩

theorem throw (fault : Fault) : Renames first second post (MonadExcept.throw fault : Compile α)
    (MonadExcept.throw fault : Compile β) :=
  fun _ _ _ beside => .failed ⟨rfl, beside⟩

theorem raise (kind : ErrorKind) : Renames first second post
    (Compile.raise location kind : Compile α) (Compile.raise location kind : Compile β) :=
  throw _

theorem unsupported (what : String) : Renames first second post
    (Compile.unsupported location what : Compile α) (Compile.unsupported location what : Compile β) :=
  throw _

theorem defect (d : Defect) : Renames first second post (Compile.defect d : Compile α)
    (Compile.defect d : Compile β) :=
  throw _

theorem bind {post' : γ → δ → Prop} {action : Compile α} {action' : Compile β}
    {next : α → Compile γ} {next' : β → Compile δ} (begun : Renames first second post action action')
    (rest : ∀ a b, post a b → Renames first second post' (next a) (next' b)) :
    Renames first second post' (action >>= next) (action' >>= next') := by
  intro stack state state' beside
  have began := begun stack state state' beside
  rw [bind_run, bind_run]
  generalize action state = last, action' state' = last' at began ⊢
  cases began with
  | failed refused => exact .failed refused
  | returned done => exact rest _ _ done.1 _ _ _ done.2

theorem map {post' : γ → δ → Prop} {action : Compile α} {action' : Compile β} {f : α → γ}
    {g : β → δ} (begun : Renames first second post action action')
    (ok : ∀ a b, post a b → post' (f a) (g b)) :
    Renames first second post' (f <$> action) (g <$> action') := by
  simp only [map_eq_pure_bind]
  exact begun.bind fun a b same => pure (ok a b same)

/-- Both refuse if a check fails, or both go on. -/
theorem guarded {check : Prop} [Decidable check] {action refusal : Compile α}
    {action' refusal' : Compile β} (passed : Renames first second post action action')
    (refused : Renames first second post refusal refusal') :
    Renames first second post (if check then action else refusal)
      (if check then action' else refusal') := by
  by_cases holds : check
  · simpa only [holds, ↓reduceIte] using passed
  · simpa only [holds, ↓reduceIte] using refused

/-- What is compiled after a check that refuses some code. -/
theorem checked {check : Prop} [Decidable check] {refusal : Compile Unit} {next : Compile α}
    {next' : Compile β} (refused : Renames first second (fun _ _ => False) refusal refusal)
    (rest : Renames first second post next next') :
    Renames first second post
      (do
        if check then refusal
        next)
      (do
        if check then refusal
        next') := by
  by_cases holds : check
  · simp only [holds, ↓reduceIte]
    exact refused.bind fun _ _ impossible => impossible.elim
  · simp only [holds, ↓reduceIte]
    exact rest

/-- What is read of the compilers. -/
theorem compiler : Renames first second
    (fun compiler compiler' => compiler'.inlining = compiler.inlining ∧
      FramesMoved first second compiler.frames compiler'.frames)
    Compile.compiler Compile.compiler :=
  fun _ _ _ beside =>
    .returned ⟨⟨beside.inlining'.trans beside.inlining.symm, beside.frames⟩, beside⟩

/-- Captured frames are evaluated in the same way. -/
theorem evaluating (action : Eval α) : Renames first second (fun a b => b = a)
    (Compile.evaluating action) (Compile.evaluating action) := by
  rintro stack ⟨heap, compiler⟩ ⟨heap', compiler'⟩ beside
  obtain rfl : heap' = heap := beside.heap
  have run (compiler : Compiler) : Compile.evaluating action ⟨heap', compiler⟩ =
      ((action heap').1, ⟨(action heap').2, compiler⟩) := rfl
  rw [run, run]
  rcases action heap' with ⟨fault | a, after⟩
  · exact .failed ⟨rfl, { beside with heap := rfl }⟩
  · exact .returned ⟨rfl, { beside with heap := rfl }⟩

section Emitting

theorem define (type : ShaderType) (operation : Operation) :
    RenamesTerm first second (Compile.define type operation)
      (Compile.define type (operation.renumbered first.nextId second.nextId)) :=
  fun _ _ _ beside => .returned (beside.define type operation)

theorem number (x : Float) :
    RenamesTerm first second (Compile.number location x) (Compile.number location x) := by
  unfold Compile.number Term.ofNumber?
  by_cases finite : x.isFinite
  · simp only [finite, ↓reduceIte]
    exact pure rfl
  · simp only [finite, Bool.false_eq_true, ↓reduceIte]
    exact unsupported _

theorem numbers (xs : List Float) : Renames first second (fun _ _ => True)
    (xs.forM fun x => discard (Compile.number location x))
    (xs.forM fun x => discard (Compile.number location x)) := by
  induction xs with
  | nil => exact pure trivial
  | cons x xs ih =>
    have first : Renames first second (fun _ _ => True) (discard (Compile.number location x))
        (discard (Compile.number location x)) := (number x).map fun _ _ _ => trivial
    exact first.bind fun _ _ _ => ih

theorem constant (value : Value) :
    RenamesTerm first second (Compile.constant location value) (Compile.constant location value) := by
  cases value with
  | num x => exact number x
  | bool b => exact pure rfl
  | list items held =>
    simp only [Compile.constant]
    split
    · exact unsupported _
    · split
      · exact unsupported _
      · exact (numbers _).bind fun _ _ _ => pure rfl
  | _ => exact unsupported _

theorem integerPower (base : Term) (type : ShaderType) (exponent : Int) :
    RenamesTerm first second (Compile.integerPower base type exponent)
      (Compile.integerPower (base.renumbered first.nextId second.nextId) type exponent) := by
  unfold Compile.integerPower
  split
  · refine pure ?_
    split <;> rfl
  · exact pure rfl
  · exact define _ _
  · exact define _ _

theorem power (type : ShaderType) (base exponent : Term) :
    RenamesTerm first second (Compile.power location type base exponent)
      (Compile.power location type (base.renumbered first.nextId second.nextId)
        (exponent.renumbered first.nextId second.nextId)) := by
  unfold Compile.power
  rw [Term.literal?_renumbered]
  split
  · exact unsupported _
  · split
    · exact guarded (integerPower base type _) (define type (.apply "pow" type [base, exponent]))
    · exact define type (.apply "pow" type [base, exponent])

theorem binary (op : BinaryOp) (a b : Term) :
    RenamesTerm first second (Compile.binary location op a b)
      (Compile.binary location op (a.renumbered first.nextId second.nextId)
        (b.renumbered first.nextId second.nextId)) := by
  have common : Compile.commonType .float [a.renumbered first.nextId second.nextId,
      b.renumbered first.nextId second.nextId] = Compile.commonType .float [a, b] :=
    commonType_renumbered .float [a, b]
  unfold Compile.binary
  simp only [common, Term.type_renumbered]
  cases op with
  | add | subtract | multiply | divide =>
    cases Compile.commonType .float [a, b] with
    | ok type => exact define type (.binary _ a b)
    | error _ => exact unsupported _
  | power =>
    cases Compile.commonType .float [a, b] with
    | ok type => exact power type a b
    | error _ => exact unsupported _
  | _ => exact guarded (define .bool (.binary _ a b)) (unsupported _)

theorem unary (op : UnaryOp) (x : Term) :
    RenamesTerm first second (Compile.unary location op x)
      (Compile.unary location op (x.renumbered first.nextId second.nextId)) := by
  unfold Compile.unary
  rw [Term.literal?_renumbered]
  cases op with
  | negate =>
    cases x.literal? with
    | some n => exact number _
    | none => exact guarded (define x.type (.negate x)) (unsupported _)
  | not => exact guarded (define .bool (.not x)) (unsupported _)

theorem vector (items : List Term) :
    RenamesTerm first second (Compile.vector location items)
      (Compile.vector location (items.map (·.renumbered first.nextId second.nextId))) := by
  unfold Compile.vector
  have found : (items.map (·.renumbered first.nextId second.nextId)).find? (·.type ≠ .float) =
      (items.find? (·.type ≠ .float)).map (·.renumbered first.nextId second.nextId) := by
    rw [List.find?_map]
    rfl
  rw [found, List.length_map]
  cases items.find? (·.type ≠ .float) with
  | some item => exact unsupported _
  | none =>
    cases ShaderType.vectorWithCount? items.length with
    | some type => exact define type (.construct type items)
    | none => exact unsupported _

theorem field (name : String) (v : Term) :
    RenamesTerm first second (Compile.field location name v)
      (Compile.field location name (v.renumbered first.nextId second.nextId)) := by
  unfold Compile.field
  dsimp only
  rw [Term.type_renumbered]
  split
  · exact define .float (.component v _)
  · exact unsupported _

theorem builtin (function : Builtin) (args : List Term) :
    RenamesTerm first second (Compile.builtin location function args)
      (Compile.builtin location function
        (args.map (·.renumbered first.nextId second.nextId))) := by
  unfold Compile.builtin
  rw [List.length_map, commonType_renumbered]
  split
  · exact unsupported _
  refine checked (raise _) ?_
  split
  · exact unsupported _
  rename_i name signature _ _ type _
  cases signature with
  | reduce => exact define .float (.apply name type args)
  | reducePair =>
    match args with
    | [a, b] => exact guarded (unsupported _) (define .float (.apply name type [a, b]))
    | [] | [_] | _ :: _ :: _ :: _ => exact defect _
  | map | zip => exact define type (.apply name type args)

end Emitting

section Frames

variable (i : Nat)

theorem frame : Renames first second (FrameMoved first second)
    (Compile.frame (first.frames.size + i)) (Compile.frame (second.frames.size + i)) := by
  refine compiler.bind fun compiler compiler' seen => ?_
  have moved := seen.2 i
  generalize compiler.frames[first.frames.size + i]? = frame at moved ⊢
  generalize compiler'.frames[second.frames.size + i]? = frame' at moved ⊢
  cases moved with
  | none => exact defect _
  | some moved => exact pure moved

theorem store (slot : Nat) (content : SymbolicSlot) : Renames first second (fun _ _ => True)
    (Compile.store (first.frames.size + i) slot content)
    (Compile.store (second.frames.size + i) slot
      (content.renumbered first.nextId second.nextId)) := by
  refine (frame i).bind fun frame frame' moved => ?_
  have size : frame'.slots.length = frame.slots.length := by rw [moved.slots, List.length_map]
  simp only [size]
  exact guarded (fun _ _ _ beside => .returned ⟨trivial, beside.put i slot content⟩) (defect _)

theorem storeAll (slot : Nat) (terms : List Term) : Renames first second (fun _ _ => True)
    (Compile.storeAll (first.frames.size + i) slot terms)
    (Compile.storeAll (second.frames.size + i) slot
      (terms.map (·.renumbered first.nextId second.nextId))) := by
  induction terms generalizing slot with
  | nil => exact pure trivial
  | cons term terms ih => exact (store i slot (.ready term)).bind fun _ _ _ => ih (slot + 1)

theorem storePending (definitions : List (Nat × Expr)) : Renames first second (fun _ _ => True)
    (Compile.storePending (first.frames.size + i) definitions)
    (Compile.storePending (second.frames.size + i) definitions) := by
  induction definitions with
  | nil => exact pure trivial
  | cons definition definitions ih =>
    exact (store i definition.1 (.pending definition.2)).bind fun _ _ _ => ih

theorem ancestor (depth : Nat) : Renames first second (OuterMoved first second)
    (Compile.ancestor (first.frames.size + i) depth)
    (Compile.ancestor (second.frames.size + i) depth) := by
  induction depth generalizing i with
  | zero => exact pure (.symbolic i)
  | succ depth ih =>
    refine (frame i).bind fun frame frame' moved => ?_
    have outer := moved.outer
    generalize frame.outer = around, frame'.outer = around' at outer ⊢
    cases outer with
    | symbolic j => exact ih j
    | captured id =>
      refine (evaluating (Eval.ancestor id depth)).map fun owner _ same => ?_
      rw [same]
      exact .captured owner

/-- A new frame has the next number. -/
theorem alloc (slotCount : Nat) {outer outer' : Outer}
    (moved : OuterMoved first second outer outer') :
    Renames first second (fun id id' => ∃ i, id = first.frames.size + i ∧
      id' = second.frames.size + i)
      (Compile.alloc slotCount outer) (Compile.alloc slotCount outer') := by
  intro stack state state' beside
  exact .returned ⟨beside.size, beside.alloc slotCount moved⟩

theorem inlining (place : Location) {action action' : Compile Term}
    (inner : RenamesTerm first second action action') :
    RenamesTerm first second (Compile.inlining place action) (Compile.inlining place action') := by
  intro stack state state' beside
  have run (action : Compile Term) (state : CompilerState) :
      Compile.inlining place action state = ((action (state.entering place)).1,
        (action (state.entering place)).2.leaving) := rfl
  have ended := inner _ _ _ (beside.entering place)
  rw [run, run]
  generalize action (state.entering place) = last,
    action' (state'.entering place) = last' at ended ⊢
  cases ended with
  | failed refused => exact .failed ⟨refused.1, refused.2.leaving rfl⟩
  | returned done => exact .returned ⟨done.1, done.2.leaving rfl⟩

theorem settling (slot : Nat) (definition : Expr) {action action' : Compile Term}
    (inner : RenamesTerm first second action action') :
    RenamesTerm first second
      (Compile.settling (first.frames.size + i) slot definition action)
      (Compile.settling (second.frames.size + i) slot definition action') := by
  intro stack state state' beside
  have ended := inner _ _ _ beside
  rw [Compile.settling, Compile.settling]
  generalize action state = last, action' state' = last' at ended ⊢
  cases ended with
  | failed refused => exact .failed ⟨refused.1, refused.2.put i slot (.pending definition)⟩
  | @returned term term' later later' done =>
    obtain ⟨rfl, beside'⟩ := done
    exact .returned ⟨rfl, beside'.put i slot (.ready term)⟩

end Frames

section Step

variable {evaluate : Evaluator} {held : List Held} {compile : Inliner}
  (follows : ∀ i expr, RenamesTerm first second (compile (first.frames.size + i) expr)
    (compile (second.frames.size + i) expr))
  (i : Nat)

theorem captured (id : FrameId) (slot : Nat) :
    Renames first second (fun value value' : Value => value' = value)
      (Compile.captured evaluate held location id slot)
      (Compile.captured evaluate held location id slot) :=
  evaluating _

/-- The function that is called is the same. -/
theorem callee (function : Expr) : Renames first second (CalleeMoved first second)
    (Compile.callee evaluate held (first.frames.size + i) function)
    (Compile.callee evaluate held (second.frames.size + i) function) := by
  have computed : Renames first second (CalleeMoved first second)
      (Compile.unsupported function.location "call of a computed function value")
      (Compile.unsupported function.location "call of a computed function value") := unsupported _
  cases function with
  | constant location value =>
    cases value with
    | builtin function => exact pure (.builtin function)
    | _ => exact computed
  | lambda location paramCount slotCount body => exact pure (.lambda _ (.symbolic i))
  | slot location depth slot =>
    refine (ancestor i depth).bind fun outer outer' moved => ?_
    cases moved with
    | symbolic j =>
      refine (frame j).bind fun frame frame' moved => ?_
      rw [moved.slots, List.getElem?_map]
      cases frame.slots[slot]? with
      | none => exact computed
      | some content =>
        cases content with
        | pending expr =>
          cases expr with
          | lambda => exact pure (.lambda _ (.symbolic j))
          | _ => exact computed
        | _ => exact computed
    | captured owner =>
      refine (captured owner slot).bind fun value value' same => ?_
      rw [same]
      cases value with
      | closure serial lambda env => exact pure (.lambda lambda (.captured env))
      | builtin function => exact pure (.builtin function)
      | _ => exact computed
  | _ => exact computed

include follows

theorem force (slot : Nat) : RenamesTerm first second
    (Compile.force compile location (first.frames.size + i) slot)
    (Compile.force compile location (second.frames.size + i) slot) := by
  refine (frame i).bind fun frame frame' moved => ?_
  dsimp only
  rw [moved.slots, List.getElem?_map, List.length_map]
  cases frame.slots[slot]? with
  | none => exact defect _
  | some content =>
    cases content with
    | empty => exact defect _
    | busy => exact raise _
    | ready term => exact pure rfl
    | pending definition =>
      exact (store i slot .busy).bind fun _ _ _ => settling i slot definition (follows i definition)

theorem each (exprs : List Expr) : Renames first second
    (fun terms terms' => terms' = terms.map (·.renumbered first.nextId second.nextId))
    (exprs.mapM (compile (first.frames.size + i)))
    (exprs.mapM (compile (second.frames.size + i))) := by
  induction exprs with
  | nil => exact pure rfl
  | cons expr exprs ih =>
    simp only [List.mapM_cons]
    refine (follows i expr).bind fun term _ same => ih.bind fun terms _ same' => pure ?_
    rw [same, same', List.map_cons]

/-- A call is inlined in the same way. -/
theorem inlineCall (lambda : Lambda) {outer outer' : Outer}
    (moved : OuterMoved first second outer outer') (args : List Term) :
    RenamesTerm first second (Compile.inlineCall compile lambda outer args location)
      (Compile.inlineCall compile lambda outer'
        (args.map (·.renumbered first.nextId second.nextId)) location) := by
  unfold Compile.inlineCall
  rw [List.length_map]
  refine checked (raise _) (compiler.bind fun compiler compiler' seen => ?_)
  rw [seen.1]
  refine checked (unsupported _) ((alloc lambda.slotCount moved).bind fun id id' numbers => ?_)
  obtain ⟨j, rfl, rfl⟩ := numbers
  exact (storeAll j 0 args).bind fun _ _ _ => inlining lambda.location (follows j lambda.body)

theorem step (expr : Expr) : RenamesTerm first second
    (Compile.step evaluate held compile (first.frames.size + i) expr)
    (Compile.step evaluate held compile (second.frames.size + i) expr) := by
  cases expr with
  | constant location value => exact constant _
  | slot location depth slot =>
    refine (ancestor i depth).bind fun outer outer' moved => ?_
    cases moved with
    | symbolic j => exact force follows j slot
    | captured owner =>
      refine (captured owner slot).bind fun value _ same => ?_
      rw [same]
      exact constant value
  | call location function args =>
    refine (callee i function).bind fun callee callee' moved => ?_
    refine (each follows i args).bind fun args _ same => ?_
    rw [same]
    cases moved with
    | lambda lambda moved => exact inlineCall follows lambda moved args
    | builtin function => exact builtin function args
  | list location items =>
    refine (each follows i items).bind fun items _ same => ?_
    rw [same]
    exact vector items
  | record => exact unsupported _
  | «module» => exact unsupported _
  | lambda => exact unsupported _
  | forEach => exact unsupported _
  | letIn location bindings body =>
    exact (storePending i bindings).bind fun _ _ _ => follows i body
  | unary location op operand =>
    refine (follows i operand).bind fun x _ same => ?_
    rw [same]
    exact unary op x
  | binary location op left right =>
    refine (follows i left).bind fun a _ same => (follows i right).bind fun b _ same' => ?_
    rw [same, same']
    exact binary op a b
  | conditional location condition whenTrue whenFalse =>
    refine (follows i condition).bind fun c _ same => ?_
    rw [same, Term.type_renumbered]
    refine checked (unsupported _) ((follows i whenTrue).bind fun a _ same => ?_)
    refine (follows i whenFalse).bind fun b _ same' => ?_
    rw [same, same', Term.type_renumbered, Term.type_renumbered]
    exact checked (unsupported _) (define a.type (.select c a b))
  | dot location base name =>
    refine (follows i base).bind fun v _ same => ?_
    rw [same]
    exact field name v
  | index location base index =>
    refine (follows i base).bind fun v _ same => ?_
    rw [same, Term.type_renumbered]
    split
    · exact unsupported _
    · refine (follows i index).bind fun position _ same => ?_
      rw [same, Term.type_renumbered, Term.literal?_renumbered]
      refine checked (unsupported _) ?_
      split
      · split
        · exact define .float (.component v _)
        · exact raise _
      · exact define .float (.element v position)

omit follows in
theorem upTo (fuel : Nat) (expr : Expr) : RenamesTerm first second
    (Compile.upTo evaluate held fuel (first.frames.size + i) expr)
    (Compile.upTo evaluate held fuel (second.frames.size + i) expr) := by
  induction fuel generalizing i expr with
  | zero => exact throw _
  | succ fuel ih => exact step ih i expr

end Step

end Renames

end ShapeLang.Shader
