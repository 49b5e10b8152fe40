import ShapeLang.Proofs.Eval.Operations
import ShapeLang.Proofs.Shader.Captures

/-! # Twin code has the same shader code

Two compilations of twin code go through the same steps. They emit the same statements, learn the
same from the captured frames, and refuse the same.
-/

namespace ShapeLang

namespace Shader

open Compile (Callee)

section Echoes

/-- Only code was emitted. -/
structure Emitted (state later : CompilerState) : Prop where
  heap : later.heap = state.heap
  frames : later.compiler.frames = state.compiler.frames
  inlining : later.compiler.inlining = state.compiler.inlining

/-- Two states between which the same code was emitted. -/
structure Level (state state' : CompilerState) : Prop where
  statements : state.compiler.statements = state'.compiler.statements
  nextId : state.compiler.nextId = state'.compiler.nextId

/-- Two computations that emit the same code, and refuse for the same reason. -/
def Echoes {α : Type} (kinds : ErrorKind → ErrorKind → Prop) (action action' : Compile α) : Prop :=
  ∀ state state', Level state state' → EndAlike
    (fun a later a' later' => a = a' ∧ Emitted state later ∧ Emitted state' later' ∧
      Level later later')
    (fun fault later fault' later' => fault.Like kinds fault' ∧ later.heap = state.heap ∧
      later'.heap = state'.heap ∧ Level later later')
    (action state) (action' state')

theorem Joined.level {evaluate evaluate' : Nat → Evaluator} {held held' : List Held}
    {captures : Captures evaluate evaluate' held held'} {setting : Setting captures}
    {state state' : CompilerState} (joined : Joined setting state state') : Level state state' :=
  ⟨joined.statements, joined.nextId⟩

theorem Emitted.refl (state : CompilerState) : Emitted state state := ⟨rfl, rfl, rfl⟩

theorem Emitted.trans {state between later : CompilerState} (first : Emitted state between)
    (second : Emitted between later) : Emitted state later :=
  ⟨second.heap.trans first.heap, second.frames.trans first.frames,
    second.inlining.trans first.inlining⟩

namespace Echoes

variable {α β : Type} {kinds : ErrorKind → ErrorKind → Prop} {location location' : Location}

theorem pure (a : α) : Echoes kinds (pure a : Compile α) (Pure.pure a) :=
  fun _ _ level => .returned ⟨rfl, .refl _, .refl _, level⟩

theorem refuse {kind kind' : ErrorKind} (same : kinds kind kind') :
    Echoes kinds (Compile.raise location kind : Compile α) (Compile.raise location' kind') :=
  fun _ _ level => .failed ⟨.exception same, rfl, rfl, level⟩

theorem defect (d d' : Defect) : Echoes kinds (Compile.defect d : Compile α) (Compile.defect d') :=
  fun _ _ level => .failed ⟨.defect d d', rfl, rfl, level⟩

theorem define (type : ShaderType) (operation : Operation) :
    Echoes kinds (Compile.define type operation) (Compile.define type operation) := by
  intro state state' level
  have emitted (state : CompilerState) : Emitted state
      { state with compiler := (state.compiler.define type operation).2 } := ⟨rfl, rfl, rfl⟩
  refine .returned ⟨?_, emitted state, emitted state', ?_, ?_⟩
  · simp only [level.nextId]
  · simp only [level.nextId, level.statements]
  · simp only [level.nextId]

theorem bind {action action' : Compile α} {next next' : α → Compile β}
    (first : Echoes kinds action action') (second : ∀ a, Echoes kinds (next a) (next' a)) :
    Echoes kinds (action >>= next) (action' >>= next') := by
  intro state state' level
  have began := first state state' level
  rw [bind_run, bind_run]
  generalize action state = last, action' state' = last' at began ⊢
  cases began with
  | failed refused => exact .failed refused
  | @returned a a' later later' done =>
    obtain ⟨rfl, emitted, emitted', level'⟩ := done
    have ended := second a later later' level'
    dsimp only
    generalize next a later = last, next' a later' = last' at ended ⊢
    cases ended with
    | failed refused =>
      obtain ⟨like, heap, heap', level''⟩ := refused
      exact .failed ⟨like, heap.trans emitted.heap, heap'.trans emitted'.heap, level''⟩
    | returned done =>
      obtain ⟨same, more, more', level''⟩ := done
      exact .returned ⟨same, emitted.trans more, emitted'.trans more', level''⟩

/-- Code that is emitted if a check passes. -/
theorem guarded {check : Prop} [Decidable check] {action action' refusal refusal' : Compile α}
    (passed : Echoes kinds action action') (refused : Echoes kinds refusal refusal') :
    Echoes kinds (if check then action else refusal) (if check then action' else refusal') := by
  by_cases holds : check
  · simpa only [holds, ↓reduceIte] using passed
  · simpa only [holds, ↓reduceIte] using refused

theorem integerPower (base : Term) (type : ShaderType) (exponent : Int) : Echoes kinds
    (Compile.integerPower base type exponent) (Compile.integerPower base type exponent) := by
  unfold Compile.integerPower
  split
  · exact pure _
  · exact pure _
  · exact define _ _
  · exact define _ _

variable (alike : ∀ kind, kinds kind kind)
include alike

theorem unsupported (what : String) : Echoes kinds
    (Compile.unsupported location what : Compile α) (Compile.unsupported location' what) :=
  refuse (alike _)

theorem number (x : Float) :
    Echoes kinds (Compile.number location x) (Compile.number location' x) := by
  unfold Compile.number
  cases Term.ofNumber? x with
  | some term => exact pure term
  | none => exact unsupported alike _

theorem numbers (xs : List Float) : Echoes kinds
    (xs.forM fun x => discard (Compile.number location x))
    (xs.forM fun x => discard (Compile.number location' x)) := by
  induction xs with
  | nil => exact pure ()
  | cons x xs ih => exact bind (bind (number alike x) fun _ => pure ()) fun _ => ih

theorem constant {literals : Location → Location → Prop} {sees : FrameId → FrameId → Pairing}
    {value value' : Value} (shows : value.Shows literals sees value') :
    Echoes kinds (Compile.constant location value) (Compile.constant location' value') := by
  cases shows with
  | bool value => exact pure _
  | num value => exact number alike value
  | list same =>
    simp only [Compile.constant, same]
    split
    · exact unsupported alike _
    · split
      · exact unsupported alike _
      · exact bind (numbers alike _) fun _ => pure _
  | _ => exact unsupported alike _

theorem power {type : ShaderType} {base exponent : Term} : Echoes kinds
    (Compile.power location type base exponent) (Compile.power location' type base exponent) := by
  unfold Compile.power
  split
  · exact unsupported alike _
  · split
    · exact guarded (integerPower base type _) (define _ _)
    · exact define _ _

theorem binary {op : BinaryOp} {a b : Term} :
    Echoes kinds (Compile.binary location op a b) (Compile.binary location' op a b) := by
  unfold Compile.binary
  have emits (type : ShaderType) : Echoes kinds (Compile.define type (.binary op a b))
      (Compile.define type (.binary op a b)) := define _ _
  cases op with
  | add | subtract | multiply | divide =>
    cases Compile.commonType .float [a, b] with
    | ok type => exact emits type
    | error _ => exact unsupported alike _
  | power =>
    cases Compile.commonType .float [a, b] with
    | ok type => exact power alike
    | error _ => exact unsupported alike _
  | _ => exact guarded (emits .bool) (unsupported alike _)

theorem unary {op : UnaryOp} {x : Term} :
    Echoes kinds (Compile.unary location op x) (Compile.unary location' op x) := by
  unfold Compile.unary
  cases op with
  | negate =>
    cases x.literal? with
    | some n => exact number alike _
    | none => exact guarded (define _ _) (unsupported alike _)
  | not => exact guarded (define _ _) (unsupported alike _)

theorem vector {items : List Term} :
    Echoes kinds (Compile.vector location items) (Compile.vector location' items) := by
  unfold Compile.vector
  cases items.find? (·.type ≠ .float) with
  | some item => exact unsupported alike _
  | none =>
    cases ShaderType.vectorWithCount? items.length with
    | some type => exact define _ _
    | none => exact unsupported alike _

theorem field {name : String} {v : Term} :
    Echoes kinds (Compile.field location name v) (Compile.field location' name v) := by
  unfold Compile.field
  dsimp only
  split
  · exact define _ _
  · exact unsupported alike _

theorem builtin {function : Builtin} {args : List Term} : Echoes kinds
    (Compile.builtin location function args) (Compile.builtin location' function args) := by
  unfold Compile.builtin
  split
  · exact unsupported alike _
  · by_cases count : args.length = function.arity
    · simp only [count, ne_eq, not_true_eq_false, ↓reduceIte]
      split
      · exact unsupported alike _
      · split
        · exact define _ _
        · exact guarded (unsupported alike _) (define _ _)
        · exact defect _ _
        · exact define _ _
        · exact define _ _
    · simp only [count, ne_eq, not_false_eq_true, ↓reduceIte]
      exact fun _ _ level => .failed ⟨.exception (alike _), rfl, rfl, level⟩

end Echoes

end Echoes

section Parallel

variable {evaluate evaluate' : Nat → Evaluator} {held held' : List Held}
  {captures : Captures evaluate evaluate' held held'} {setting wider : Setting captures}
  {state state' : CompilerState} {α β γ δ : Type}

/-- Two compilations that have come equally far end alike, from some amount of fuel for the
captured frames on. When they fail, they have emitted the same code, and the symbolic frames are of
no use any more. -/
def Parallel (setting : Setting captures) (action : Nat → Compile α) (action' : Nat → Compile β)
    (state state' : CompilerState) (post : Setting captures → α → β → Prop) : Prop :=
  Alongside action action' state state'
    (fun a after b after' => ∃ wider, setting.Later wider ∧ Joined wider after after' ∧
      post wider a b)
    fun fault after fault' after' => fault.Like captures.kinds fault' ∧ Level after after' ∧
      ∃ world, captures.later setting.world world ∧ captures.heaps world after.heap after'.heap

/-- What two compilations make of twin expressions. -/
def Follows (captures : Captures evaluate evaluate' held held') (compile compile' : Nat → Inliner) :
    Prop :=
  ∀ (setting : Setting captures) state state' id expr expr', Joined setting state state' →
    Expr.Twin captures.literals (setting.sees id) expr expr' →
    Parallel setting (compile · id expr) (compile' · id expr') state state'
      fun _ term term' => term = term'

/-- Two functions that can be inlined. -/
inductive CalleeTwin (setting : Setting captures) : Callee → Callee → Prop
  | lambda {lambda lambda' : Lambda} {outer outer' : Outer} {around : OuterPair}
      (outers : OuterTwin around outer outer')
      (code : Expr.Twin captures.literals (setting.around around) lambda.expr lambda'.expr) :
      CalleeTwin setting (.lambda lambda outer) (.lambda lambda' outer')
  | builtin (function : Builtin) : CalleeTwin setting (.builtin function) (.builtin function)

namespace Parallel

variable {action : Nat → Compile α} {action' : Nat → Compile β}
  {post : Setting captures → α → β → Prop}

theorem pure (joined : Joined setting state state') {a : α} {b : β} (ok : post setting a b) :
    Parallel setting (fun _ => Pure.pure a) (fun _ => Pure.pure b) state state' post :=
  Alongside.pure ⟨setting, .refl setting, joined, ok⟩

/-- Both compilations refuse. -/
theorem refuse (joined : Joined setting state state') {location location' : Location}
    (kind : ErrorKind) : Parallel setting
      (fun _ => (Compile.raise location kind : Compile α))
      (fun _ => (Compile.raise location' kind : Compile β)) state state' post :=
  Alongside.throw ⟨.exception (captures.alike kind), joined.level, setting.world, captures.refl _,
    joined.heaps⟩

theorem of_echoes (joined : Joined setting state state') {action action' : Compile α}
    (echoes : Echoes captures.kinds action action') :
    Parallel setting (fun _ => action) (fun _ => action') state state' fun _ a b => a = b := by
  apply Alongside.of_ends
  have ended := echoes state state' joined.level
  generalize action state = last, action' state' = last' at ended ⊢
  cases ended with
  | returned done =>
    obtain ⟨same, emitted, emitted', level⟩ := done
    exact .returned ⟨setting, .refl setting, joined.emitted emitted.heap emitted'.heap
      emitted.frames emitted'.frames emitted.inlining emitted'.inlining level.statements
      level.nextId, same⟩
  | failed refused =>
    obtain ⟨like, heap, heap', level⟩ := refused
    exact .failed ⟨like, level, setting.world, captures.refl _, heap ▸ heap' ▸ joined.heaps⟩

/-- What two compilations do after they have come equally far. -/
theorem from_later (later : setting.Later wider)
    (parallel : Parallel wider action action' state state' post) :
    Parallel setting action action' state state' post := by
  apply Alongside.mono parallel
  · rintro a after b after' ⟨widest, later', rest⟩
    exact ⟨widest, later.trans later', rest⟩
  · rintro fault after fault' after' ⟨like, level, world, later', heaps⟩
    exact ⟨like, level, world, captures.trans later.world later', heaps⟩

theorem bind {next : Nat → α → Compile γ} {next' : Nat → β → Compile δ}
    {post' : Setting captures → γ → δ → Prop}
    (first : Parallel setting action action' state state' post)
    (second : ∀ a b wider after after', setting.Later wider → Joined wider after after' →
      post wider a b → Parallel wider (next · a) (next' · b) after after' post') :
    Parallel setting (fun fuel => action fuel >>= next fuel) (fun fuel => action' fuel >>= next' fuel)
      state state' post' := by
  refine Alongside.bind first ?_
  rintro a after b after' ⟨wider, later, joined, ok⟩
  exact (second a b wider after after' later joined ok).from_later later

/-- What is compiled next is compiled for the same terms. -/
theorem andThen {action action' : Nat → Compile α} {next : Nat → α → Compile γ}
    {next' : Nat → α → Compile δ} {post' : Setting captures → γ → δ → Prop}
    (first : Parallel setting action action' state state' fun _ a b => a = b)
    (second : ∀ a wider after after', setting.Later wider → Joined wider after after' →
      Parallel wider (next · a) (next' · a) after after' post') :
    Parallel setting (fun fuel => action fuel >>= next fuel) (fun fuel => action' fuel >>= next' fuel)
      state state' post' := by
  refine first.bind ?_
  rintro a _ wider after after' later joined rfl
  exact second a wider after after' later joined

/-- What is compiled after a check that refuses some code. -/
theorem checked (joined : Joined setting state state') {check : Prop} [Decidable check]
    {location location' : Location} {kind : ErrorKind} {next next' : Nat → Compile α}
    {post : Setting captures → α → α → Prop}
    (rest : ¬ check → Parallel setting next next' state state' post) :
    Parallel setting
      (fun fuel => do
        if check then Compile.raise location kind
        next fuel)
      (fun fuel => do
        if check then Compile.raise location' kind
        next' fuel) state state' post := by
  by_cases holds : check
  · simp only [holds, ↓reduceIte]
    have stopped : Parallel setting (fun _ => (Compile.raise location kind : Compile PUnit))
        (fun _ => (Compile.raise location' kind : Compile PUnit)) state state'
        fun _ _ _ => False := refuse joined _
    exact stopped.bind fun _ _ _ _ _ _ _ impossible => impossible.elim
  · simpa only [holds, ↓reduceIte] using rest holds

end Parallel

end Parallel

section Steps

variable {evaluate evaluate' : Nat → Evaluator} {held held' : List Held}
  {captures : Captures evaluate evaluate' held held'} {setting wider : Setting captures}
  {state state' : CompilerState} {compile compile' : Nat → Inliner} {id slot slot' depth : Nat}
  {location location' : Location}

/-- Two captured slots from which both compilations learn the same. -/
def Captures.Reads (captures : Captures evaluate evaluate' held held') (world : captures.World)
    (heap heap' : Heap) (owner owner' : FrameId) (slot slot' : Nat) : Prop :=
  ∀ context context' : Context, Alongside
    (fun fuel => Eval.force (evaluate fuel) held owner slot context)
    (fun fuel => Eval.force (evaluate' fuel) held' owner' slot' context') heap heap'
    (fun value after value' after' => ∃ wider, captures.later world wider ∧
      captures.heaps wider after after' ∧ value.Shows captures.literals (captures.sees wider) value')
    fun fault after fault' after' => fault.Like captures.kinds fault' ∧
      ∃ wider, captures.later world wider ∧ captures.heaps wider after after'

/-- What lies further out, where something that both read is looked for. -/
inductive Reaches (setting : Setting captures) (state state' : CompilerState) (slot slot' : Nat) :
    Outer → Outer → Prop
  | symbolic {owner : Nat} {pair : FramePair} (there : setting.frames[owner]? = some pair)
      (together : pair.slots slot slot') :
      Reaches setting state state' slot slot' (.symbolic owner) (.symbolic owner)
  | captured {owner owner' : FrameId}
      (reads : captures.Reads setting.world state.heap state'.heap owner owner' slot slot') :
      Reaches setting state state' slot slot' (.captured owner) (.captured owner')

/-- The state after a definition was compiled or could not be compiled. -/
def Compile.settledState (id slot : Nat) (definition : Expr) (result : Except Fault Term)
    (after : CompilerState) : CompilerState :=
  { after with compiler := after.compiler.put id slot <|
      match result with
      | .ok term => .ready term
      | .error _ => .pending definition }

namespace Joined

theorem frame_ran {frame : SymbolicFrame} (found : state.compiler.frames[id]? = some frame) :
    Compile.frame id state = (.ok frame, state) := by
  refine Ends.exact (.symbolicFrame (fun other found' => ?_) fun missing => ?_)
  · exact ⟨Option.some.inj (found'.symm.trans found), rfl⟩
  · rw [found] at missing
    cases missing

theorem ancestor_ran {owner outer : FrameId} (reached : state.heap.ancestor? outer depth = some owner) :
    (Outer.captured <$> Compile.evaluating (Eval.ancestor outer depth)) state =
      (.ok (.captured owner), state) := by
  refine Ends.exact (.map (.evaluating (Ends.ancestor (fun other reached' => ?_) fun missing => ?_)))
  · exact ⟨congrArg _ (Option.some.inj (reached'.symm.trans reached)), rfl⟩
  · rw [reached] at missing
    cases missing

/-- Finding the frame where something is read. -/
theorem ancestor (joined : Joined setting state state') (seen : setting.sees id depth slot slot') :
    ∃ outer outer', Compile.ancestor id depth state = (.ok outer, state) ∧
      Compile.ancestor id depth state' = (.ok outer', state') ∧
      Reaches setting state state' slot slot' outer outer' := by
  induction depth generalizing id with
  | zero =>
    obtain ⟨pair, there, together⟩ := seen
    exact ⟨_, _, rfl, rfl, .symbolic there together⟩
  | succ depth ih =>
    obtain ⟨⟨slots, around⟩, there, seen⟩ := seen
    obtain ⟨frame, frame', found, found', twin⟩ := joined.frames id _ there
    rw [Compile.ancestor, bind_run, bind_run, frame_ran found, frame_ran found']
    dsimp only
    cases frame with | mk contents outer =>
    cases frame' with | mk contents' outer' =>
    cases twin.outer with
    | captured around around' =>
      obtain ⟨owner, owner', reached, reached', reads⟩ := captures.reading joined.heaps seen
      exact ⟨_, _, ancestor_ran reached, ancestor_ran reached', .captured reads⟩
    | symbolic around => exact ih seen

/-- Reading a slot of a captured frame. -/
theorem captured (joined : Joined setting state state') {owner owner' : FrameId}
    (reads : captures.Reads setting.world state.heap state'.heap owner owner' slot slot') :
    Parallel setting (fun fuel => Compile.captured (evaluate fuel) held location owner slot)
      (fun fuel => Compile.captured (evaluate' fuel) held' location' owner' slot') state state'
      fun wider value value' =>
        value.Shows captures.literals (captures.sees wider.world) value' := by
  have runs {α : Type} {action : Eval α} {state : CompilerState} {result : Except Fault α}
      {after : Heap} (ran : action state.heap = (result, after)) :
      Compile.evaluating action state = (result, { state with heap := after }) := by
    rw [Compile.evaluating, ran]
  refine Alongside.around (fun _ after => { state with heap := after })
    (fun _ after => { state' with heap := after }) (fun _ _ _ => runs) (fun _ _ _ => runs)
    ((reads _ _).mono ?_ fun _ _ _ _ failure =>
      ⟨failure.1, ⟨joined.statements, joined.nextId⟩, failure.2⟩)
  rintro value after value' after' ⟨world, later, heaps, shows⟩
  exact ⟨⟨world, setting.frames⟩, ⟨later, List.prefix_rfl⟩, joined.advance later heaps, shows⟩

/-- Reading a slot of a symbolic frame. -/
theorem force (joined : Joined setting state state') (follows : Follows captures compile compile')
    {pair : FramePair} (there : setting.frames[id]? = some pair)
    (together : pair.slots slot slot') :
    Parallel setting (fun fuel => Compile.force (compile fuel) location id slot)
      (fun fuel => Compile.force (compile' fuel) location' id slot') state state'
      fun _ term term' => term = term' := by
  obtain ⟨frame, frame', found, found', twin⟩ := joined.frames id pair there
  obtain ⟨content, content', holds, holds', alike⟩ := twin.slots slot slot' together
  refine Alongside.steps (frame_ran found) (frame_ran found') ?_
  simp only [holds, holds']
  cases alike with
  | empty =>
    exact Alongside.throw ⟨.defect _ _, joined.level, setting.world, captures.refl _,
      joined.heaps⟩
  | busy => exact Parallel.refuse joined _
  | ready term => exact Parallel.pure joined rfl
  | @pending definition definition' code =>
    have marked := joined.put there together .busy
    have stored {state : CompilerState} {frame : SymbolicFrame} {slot : Nat}
        {content : SymbolicSlot} (found : state.compiler.frames[id]? = some frame)
        (holds : frame.slots[slot]? = some content) :
        Compile.store id slot .busy state =
          (.ok (), { state with compiler := state.compiler.put id slot .busy }) :=
      Ends.exact (.symbolicStore_found found (List.getElem?_eq_some_iff.mp holds).1 ⟨rfl, rfl⟩)
    refine Alongside.steps (stored found holds) (stored found' holds') ?_
    have settled {state : CompilerState} {slot : Nat} {definition : Expr} {action : Compile Term}
        {result : Except Fault Term} {after : CompilerState} (ran : action state = (result, after)) :
        Compile.settling id slot definition action state =
          (result, Compile.settledState id slot definition result after) := by
      cases result <;> rw [Compile.settling, ran] <;> rfl
    refine Alongside.around (Compile.settledState id slot definition)
      (Compile.settledState id slot' definition') (fun _ _ _ => settled) (fun _ _ _ => settled)
      (Alongside.mono (follows setting _ _ id definition definition' marked code) ?_
        fun _ _ _ _ failure =>
          ⟨failure.1, ⟨failure.2.1.statements, failure.2.1.nextId⟩, failure.2.2⟩)
    rintro term after _ after' ⟨wider, later, joined', rfl⟩
    exact ⟨wider, later, joined'.put (later.frame there) together (.ready term), rfl⟩

/-- Finding the function that is called. -/
theorem callee (joined : Joined setting state state') {function function' : Expr}
    (twin : Expr.Twin captures.literals (setting.sees id) function function') :
    Parallel setting (fun fuel => Compile.callee (evaluate fuel) held id function)
      (fun fuel => Compile.callee (evaluate' fuel) held' id function') state state'
      fun wider => CalleeTwin wider := by
  cases twin with
  | @constant _ location location' value =>
    cases value with
    | builtin function => exact .pure joined (.builtin function)
    | _ => exact .refuse joined _
  | lambda slots literal layout params inner =>
    exact .pure joined (.lambda (.symbolic id) (.lambda slots literal layout params inner))
  | @slot _ location location' depth slot slot' seen =>
    obtain ⟨outer, outer', ran, ran', reaches⟩ := joined.ancestor seen
    refine Alongside.steps ran ran' ?_
    cases reaches with
    | symbolic there together =>
      obtain ⟨frame, frame', found, found', frames⟩ := joined.frames _ _ there
      obtain ⟨content, content', holds, holds', alike⟩ := frames.slots slot slot' together
      refine Alongside.steps (frame_ran found) (frame_ran found') ?_
      simp only [holds, holds']
      cases alike with
      | pending code =>
        cases code with
        | lambda slots literal layout params inner =>
          exact Parallel.pure joined
            (.lambda (.symbolic _) (.lambda slots literal layout params inner))
        | _ => exact Parallel.refuse joined _
      | _ => exact Parallel.refuse joined _
    | captured reads =>
      refine (joined.captured reads).bind ?_
      rintro value value' wider after after' later joined' shows
      cases shows with
      | closure code => exact .pure joined' (.lambda (.captured _ _) code)
      | builtin function => exact .pure joined' (.builtin function)
      | _ => exact .refuse joined' _
  | _ => exact .refuse joined _

/-- Whether a function is being inlined already is the same in both. -/
theorem inlining_iff (joined : Joined setting state state') {place place' : Location}
    (same : captures.literals place place') :
    place ∈ state.compiler.inlining ↔ place' ∈ state'.compiler.inlining := by
  have all := joined.inlining
  generalize state.compiler.inlining = places, state'.compiler.inlining = places' at all
  induction all with
  | nil => simp
  | cons first _ ih =>
    simp only [List.mem_cons, ih, captures.distinct _ _ _ _ same first]

/-- A new symbolic frame with the arguments of a function. -/
theorem enter (joined : Joined setting state state') {outer outer' : Outer} {around : OuterPair}
    (outers : OuterTwin around outer outer') {paramCount slotCount slotCount' : Nat}
    {slots : Nat → Nat → Prop} (layout : Matching slotCount slotCount' slots)
    (params : ∀ slot < paramCount, slots slot slot) {args : List Term}
    (count : args.length = paramCount) :
    Joined (setting.add ⟨slots, around⟩) (state.enter slotCount outer (symbolicReadies 0 args))
      (state'.enter slotCount' outer' (symbolicReadies 0 args)) := by
  let contents := (symbolicReadies 0 args).map fun content => (content, content)
  have doubled : contents.map (·.1) = symbolicReadies 0 args := by
    simp [contents, Function.comp_def]
  have order : (contents.map (·.2)).Perm (symbolicReadies 0 args) := by
    simp [contents, Function.comp_def]
  have all := (joined.alloc layout outers).putEach (setting.frame_add ⟨slots, around⟩) contents order
  rw [doubled] at all
  simp only [CompilerState.enter, joined.size, joined.size']
  refine all ?_ (fun content mem => ?_) fun content mem => ?_
  · simp only [contents, List.map_map, Function.comp_def]
    rw [map_symbolicReadies]
    exact List.nodup_range'
  · obtain ⟨content, here, rfl⟩ := List.mem_map.mp mem
    have inRange := List.mem_map_of_mem (f := (·.1)) here
    rw [map_symbolicReadies, List.mem_range'_1] at inRange
    exact params content.1 (by omega)
  · obtain ⟨content, here, rfl⟩ := List.mem_map.mp mem
    obtain ⟨term, same⟩ := mem_symbolicReadies here
    rw [same]
    exact .ready term

/-- What is compiled while a function is being inlined. -/
theorem whileInlining {place place' : Location} {action action' : Nat → Compile Term}
    (parallel : Parallel setting action action' (state.entering place) (state'.entering place')
      fun _ term term' => term = term') :
    Parallel setting (fun fuel => Compile.inlining place (action fuel))
      (fun fuel => Compile.inlining place' (action' fuel)) state state'
      fun _ term term' => term = term' := by
  have runs {place : Location} {action : Compile Term} {state : CompilerState}
      {result : Except Fault Term} {after : CompilerState}
      (ran : action (state.entering place) = (result, after)) :
      Compile.inlining place action state = (result, after.leaving) := by
    have run : Compile.inlining place action state = ((action (state.entering place)).1,
        (action (state.entering place)).2.leaving) := rfl
    rw [run, ran]
  refine Alongside.around (fun _ after => after.leaving) (fun _ after => after.leaving)
    (fun _ _ _ => runs) (fun _ _ _ => runs) (Alongside.mono parallel ?_ fun _ _ _ _ failure =>
      ⟨failure.1, ⟨failure.2.1.statements, failure.2.1.nextId⟩, failure.2.2⟩)
  rintro term after _ after' ⟨wider, later, joined', rfl⟩
  exact ⟨wider, later, joined'.leaving, rfl⟩

/-- The body of a function is compiled in a new symbolic frame. -/
theorem inlineCall (joined : Joined setting state state') (follows : Follows captures compile compile')
    {lambda lambda' : Lambda} {outer outer' : Outer} {around : OuterPair}
    (outers : OuterTwin around outer outer')
    (code : Expr.Twin captures.literals (setting.around around) lambda.expr lambda'.expr)
    (args : List Term) :
    Parallel setting (fun fuel => Compile.inlineCall (compile fuel) lambda outer args location)
      (fun fuel => Compile.inlineCall (compile' fuel) lambda' outer' args location') state state'
      fun _ term term' => term = term' := by
  obtain ⟨place, paramCount, slotCount, body⟩ := lambda
  obtain ⟨place', paramCount', slotCount', body'⟩ := lambda'
  cases code with | lambda slots literal layout params inner =>
  unfold Compile.inlineCall
  refine Parallel.checked joined fun count => ?_
  have count : args.length = paramCount := Decidable.not_not.mp count
  refine Alongside.steps (a := state.compiler) (b := state'.compiler) rfl rfl ?_
  simp only [joined.inlining_iff literal]
  refine Parallel.checked joined fun _ => ?_
  have allocated (state : CompilerState) (slotCount : Nat) (outer : Outer) :
      Compile.alloc slotCount outer state = (.ok state.compiler.frames.size,
        { state with compiler := state.compiler.alloc slotCount outer }) := rfl
  have filled {state : CompilerState} {slotCount : Nat} {outer : Outer}
      (roomy : paramCount ≤ slotCount) : Compile.storeAll state.compiler.frames.size 0 args
        { state with compiler := state.compiler.alloc slotCount outer } =
          (.ok (), state.enter slotCount outer (symbolicReadies 0 args)) := by
    refine Ends.exact (.symbolicStoreAll (Compiler.frame?_alloc_self slotCount outer) ?_
      ⟨rfl, rfl⟩)
    rw [List.length_replicate, Nat.zero_add, count]
    exact roomy
  have roomy : paramCount ≤ slotCount ∧ paramCount ≤ slotCount' := by
    have inside (slot : Nat) (low : slot < paramCount) :=
      layout.inside slot slot (params slot low)
    constructor
    · exact Nat.le_of_not_lt fun less => absurd (inside slotCount less).1 (Nat.lt_irrefl _)
    · exact Nat.le_of_not_lt fun less => absurd (inside slotCount' less).2 (Nat.lt_irrefl _)
  refine Alongside.steps (allocated state slotCount outer) (allocated state' slotCount' outer') ?_
  refine Alongside.steps (filled roomy.1) (filled roomy.2) ?_
  have entered := (joined.enter outers layout params count).entering literal
  have compiled := follows _ _ _ setting.frames.length body body' entered
    (inner.mono Setting.sees_add)
  rw [joined.size, joined.size']
  exact (whileInlining compiled).from_later (.add setting _)

/-- Compiling several parts in a symbolic frame. -/
theorem each (joined : Joined setting state state') (follows : Follows captures compile compile')
    (exprs : List (Expr × Expr))
    (twins : ∀ pair ∈ exprs, Expr.Twin captures.literals (setting.sees id) pair.1 pair.2) :
    Parallel setting (fun fuel => (exprs.map (·.1)).mapM (compile fuel id))
      (fun fuel => (exprs.map (·.2)).mapM (compile' fuel id)) state state'
      fun _ terms terms' => terms = terms' := by
  induction exprs generalizing setting state state' with
  | nil => exact .pure joined rfl
  | cons pair exprs ih =>
    simp only [List.map_cons, List.mapM_cons]
    refine (follows setting state state' id _ _ joined (twins pair (by simp))).andThen ?_
    intro term wider after after' later joined'
    refine (ih joined' fun other mem => (twins other (by simp [mem])).mono later.sees).andThen ?_
    intro terms widest last last' _ joined''
    exact .pure joined'' rfl

/-- Definitions wait in their slots. -/
theorem storePending (joined : Joined setting state state')
    (bindings : List ((Nat × Expr) × (Nat × Expr))) {bindings' : List (Nat × Expr)}
    (distinct : (bindings.map (·.1.1)).Nodup) (order : (bindings.map (·.2)).Perm bindings')
    (together : ∀ binding ∈ bindings, setting.sees id 0 binding.1.1 binding.2.1)
    (parts : ∀ binding ∈ bindings,
      Expr.Twin captures.literals (setting.sees id) binding.1.2 binding.2.2) :
    ∃ after after', Compile.storePending id (bindings.map (·.1)) state = (.ok (), after) ∧
      Compile.storePending id bindings' state' = (.ok (), after') ∧ Joined setting after after' := by
  cases bindings with
  | nil =>
    obtain rfl := List.nil_perm.mp order
    exact ⟨_, _, rfl, rfl, joined⟩
  | cons first bindings =>
    obtain ⟨pair, there, -⟩ := together first (by simp)
    obtain ⟨frame, frame', found, found', twin⟩ := joined.frames id pair there
    have both (binding : (Nat × Expr) × (Nat × Expr)) (mem : binding ∈ first :: bindings) :
        pair.slots binding.1.1 binding.2.1 := by
      obtain ⟨other, there', slots⟩ := together binding mem
      obtain rfl := Option.some.inj (there.symm.trans there')
      exact slots
    have roomy (binding : (Nat × Expr) × (Nat × Expr)) (mem : binding ∈ first :: bindings) :
        binding.1.1 < frame.slots.length ∧ binding.2.1 < frame'.slots.length := by
      obtain ⟨_, _, holds, holds', -⟩ := twin.slots _ _ (both binding mem)
      exact ⟨(List.getElem?_eq_some_iff.mp holds).1, (List.getElem?_eq_some_iff.mp holds').1⟩
    let contents := (first :: bindings).map fun binding =>
      ((binding.1.1, SymbolicSlot.pending binding.1.2), (binding.2.1, SymbolicSlot.pending binding.2.2))
    have contents₁ : contents.map (·.1) = symbolicPendings ((first :: bindings).map (·.1)) := by
      simp [contents, symbolicPendings, Function.comp_def]
    have contents₂ : contents.map (·.2) = symbolicPendings ((first :: bindings).map (·.2)) := by
      simp [contents, symbolicPendings, Function.comp_def]
    have order' : (contents.map (·.2)).Perm (symbolicPendings bindings') := by
      rw [contents₂]
      exact order.map _
    have stored := joined.putEach there contents order'
      (by simpa [contents, Function.comp_def] using distinct) (fun content mem => ?_) fun content mem => ?_
    · rw [contents₁] at stored
      refine ⟨_, _, Ends.exact (.symbolicStorePending found (fun definition mem => ?_) ⟨rfl, rfl⟩),
        Ends.exact (.symbolicStorePending found' (fun definition mem => ?_) ⟨rfl, rfl⟩), stored⟩
      · obtain ⟨binding, here, rfl⟩ := List.mem_map.mp mem
        exact (roomy binding here).1
      · obtain ⟨binding, here, rfl⟩ := List.mem_map.mp (order.symm.subset mem)
        exact (roomy binding here).2
    · obtain ⟨binding, here, rfl⟩ := List.mem_map.mp mem
      exact both binding here
    · obtain ⟨binding, here, rfl⟩ := List.mem_map.mp mem
      exact .pending (parts binding here)

end Joined

/-- Constants are the same for both compilations. -/
theorem shows_constant {literals : Location → Location → Prop}
    {sees : FrameId → FrameId → Pairing} (value : Constant) :
    value.toValue.Shows literals sees value.toValue := by
  cases value with
  | bool value => exact .bool value
  | num value => exact .num value
  | text content => exact .text content content
  | list items => exact .list rfl
  | record fields => exact .record _ _ _ _
  | builtin function => exact .builtin function

theorem follows_step (follows : Follows captures compile compile') :
    Follows captures (fun fuel => Compile.step (evaluate fuel) held (compile fuel))
      fun fuel => Compile.step (evaluate' fuel) held' (compile' fuel) := by
  intro setting state state' id expr expr' joined twin
  -- A part of the expression, compiled in the same frame later on.
  have part {wider : Setting captures} {after after' : CompilerState} {inner inner' : Expr}
      (later : setting.Later wider) (joined : Joined wider after after')
      (twin : Expr.Twin captures.literals (setting.sees id) inner inner') :
      Parallel wider (compile · id inner) (compile' · id inner') after after'
        fun _ term term' => term = term' :=
    follows wider after after' id inner inner' joined (twin.mono later.sees)
  cases twin with
  | constant value =>
    have shows : value.toValue.Shows captures.literals (captures.sees setting.world)
        value.toValue := shows_constant value
    exact .of_echoes joined (Echoes.constant captures.alike shows)
  | @slot _ location location' depth slot slot' seen =>
    obtain ⟨outer, outer', ran, ran', reaches⟩ := joined.ancestor seen
    refine Alongside.steps ran ran' ?_
    cases reaches with
    | symbolic there together => exact joined.force follows there together
    | captured reads =>
      refine (joined.captured reads).bind ?_
      intro value value' wider after after' later joined' shows
      exact .of_echoes joined' (Echoes.constant captures.alike shows)
  | call args head rest =>
    refine (joined.callee head).bind ?_
    intro callee callee' wider after after' later joined' callees
    refine (joined'.each follows args fun arg mem => (rest arg mem).mono later.sees).andThen ?_
    intro args wider' last last' later' joined''
    cases callees with
    | lambda outers code => exact joined''.inlineCall follows outers (code.mono later'.around) args
    | builtin function => exact .of_echoes joined'' (Echoes.builtin captures.alike)
  | list items parts =>
    refine (joined.each follows items parts).andThen ?_
    intro items wider after after' later joined'
    exact .of_echoes joined' (Echoes.vector captures.alike)
  | record => exact .refuse joined _
  | «module» => exact .refuse joined _
  | lambda => exact .refuse joined _
  | forEach => exact .refuse joined _
  | letIn bindings distinct order together parts rest =>
    obtain ⟨after, after', ran, ran', joined'⟩ :=
      joined.storePending bindings distinct order together parts
    exact Alongside.steps ran ran' (part (.refl setting) joined' rest)
  | unary operand =>
    refine (part (.refl setting) joined operand).andThen ?_
    intro x wider after after' later joined'
    exact .of_echoes joined' (Echoes.unary captures.alike)
  | binary first second =>
    refine (part (.refl setting) joined first).andThen ?_
    intro a wider after after' later joined'
    refine (part later joined' second).andThen ?_
    intro b widest last last' later' joined''
    exact .of_echoes joined'' (Echoes.binary captures.alike)
  | conditional first second third =>
    refine (part (.refl setting) joined first).andThen ?_
    intro c wider₁ after₁ after₁' later₁ joined₁
    refine Parallel.checked joined₁ fun _ => ?_
    refine (part later₁ joined₁ second).andThen ?_
    intro a wider₂ after₂ after₂' later₂ joined₂
    refine (part (later₁.trans later₂) joined₂ third).andThen ?_
    intro b wider₃ after₃ after₃' later₃ joined₃
    refine Parallel.checked joined₃ fun _ => ?_
    exact .of_echoes joined₃ (.define _ _)
  | dot name base =>
    refine (part (.refl setting) joined base).andThen ?_
    intro v wider after after' later joined'
    exact .of_echoes joined' (Echoes.field captures.alike)
  | index first second =>
    refine (part (.refl setting) joined first).andThen ?_
    intro v wider after after' later joined'
    split
    · exact .refuse joined' _
    · refine (part later joined' second).andThen ?_
      intro i widest last last' later' joined''
      refine Parallel.checked joined'' fun _ => ?_
      split
      · split
        · exact .of_echoes joined'' (.define _ _)
        · exact .refuse joined'' _
      · exact .of_echoes joined'' (.define _ _)

/-- Twin code is compiled to the same code, with the same amount of fuel. -/
theorem follows_upTo (captures : Captures evaluate evaluate' held held') (depth : Nat) :
    Follows captures (fun fuel => Compile.upTo (evaluate fuel) held depth)
      fun fuel => Compile.upTo (evaluate' fuel) held' depth := by
  induction depth with
  | zero =>
    intro setting state state' id expr expr' joined twin
    exact Alongside.throw ⟨.outOfFuel, joined.level, setting.world, captures.refl _, joined.heaps⟩
  | succ depth ih => exact follows_step ih

end Steps

end Shader

end ShapeLang
