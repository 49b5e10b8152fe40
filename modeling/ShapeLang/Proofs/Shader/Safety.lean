import ShapeLang.Proofs.Eval.Safety
import ShapeLang.Proofs.Shader.Direct
import ShapeLang.Proofs.Shader.Frames

/-! # Shader compilation meets no defect

Code that fits its symbolic frame, with trusted frames around, is compiled without a defect. When
compilation fails, the symbolic frames are of no use any more, but what was trusted stays trusted.
-/

namespace ShapeLang

namespace Shader

open Eval (Stage World Broken)

/-- The value that stands for a frame that has to be trusted. -/
def holder (id : FrameId) : Value := .module id []

theorem trusts_holder {heap : Heap} {trust : Trust} {id : FrameId} :
    heap.Trusts trust (holder id) ↔ trust id := by
  refine ⟨fun trusted => ?_, fun trusted => .module ⟨trusted, by simp⟩⟩
  cases trusted with
  | «module» known => exact known.1

section Compile

variable (start : Heap) (owners : List FrameId) (entry : List Value) (base : Nat)

/-- A state of compilation, with the captured frames that it has met. -/
structure Course (state : CompilerState) (captured : List FrameId) : Prop where
  stage : Stage start owners entry state.heap (captured.map holder)
  sound : state.Sound base captured

/-- A fault that leaves what was trusted trusted. -/
def Spoilt (fault : Fault) (state : CompilerState) : Prop :=
  Broken start owners entry fault state.heap

/-- The compilation goes on from `state` and reaches `later`. -/
def Proceeds (state : CompilerState) (captured : List FrameId) (later : CompilerState)
    (captured' : List FrameId) : Prop :=
  state.Grows later ∧ (∀ id ∈ captured, id ∈ captured') ∧
    Course start owners entry base later captured'

/-- A computation that meets no defect and lets the compilation go on. -/
def Keeps {α : Type} (action : Compile α) (state : CompilerState) (captured : List FrameId) :
    Prop :=
  Ends action state
    (fun _ later => ∃ captured', Proceeds start owners entry base state captured later captured')
    (Spoilt start owners entry)

/-- A compiler of expressions that meets no defect. -/
def SafeInliner (compile : Inliner) : Prop :=
  ∀ state captured id expr, Course start owners entry base state captured → base ≤ id →
    state.Fits id expr → Keeps start owners entry base (compile id expr) state captured

variable {start owners entry base} {state middle later : CompilerState}
  {captured captured' captured'' : List FrameId}

namespace Course

theorem refl (course : Course start owners entry base state captured) :
    Proceeds start owners entry base state captured state captured :=
  ⟨.refl state, fun _ mem => mem, course⟩

theorem spoilt (course : Course start owners entry base state captured) (e : Exception) :
    Spoilt start owners entry (.exception e) state :=
  course.stage.broken e

end Course

theorem Proceeds.trans
    (first : Proceeds start owners entry base state captured middle captured')
    (second : Proceeds start owners entry base middle captured' later captured'') :
    Proceeds start owners entry base state captured later captured'' :=
  ⟨first.1.trans second.1, fun id mem => second.2.1 id (first.2.1 id mem), second.2.2⟩

/-- Steps of compilation that emit code. -/
theorem Course.emit (course : Course start owners entry base state captured)
    (later : CompilerState) (heap : later.heap = state.heap)
    (frames : later.compiler.frames = state.compiler.frames) :
    Proceeds start owners entry base state captured later captured := by
  have same : state.heap.Grows later.heap := by
    rw [heap]
    exact .refl _
  exact ⟨.of_frames same frames, fun _ mem => mem, by rw [heap]; exact course.stage,
    course.sound.of_frames same frames⟩

/-- A computation that only emits code. -/
theorem Direct.keeps {α : Type} {kind : Operation → Prop} {action : Compile α}
    (direct : Direct kind action) (course : Course start owners entry base state captured) :
    Keeps start owners entry base action state captured := by
  refine (direct.ends state).mono
    (fun _ later same => ⟨captured, course.emit later same.1 same.2.1⟩) ?_
  rintro _ later ⟨heap, e, rfl⟩
  have spoilt := course.spoilt e
  rw [Spoilt] at spoilt ⊢
  rwa [heap]

namespace Keeps

variable {α β : Type} {action : Compile α}

theorem pure (course : Course start owners entry base state captured) (a : α) :
    Keeps start owners entry base (pure a : Compile α) state captured :=
  ⟨captured, course.refl⟩


/-- What is compiled next may rely on what was there before. -/
theorem bind {next : α → Compile β} (first : Keeps start owners entry base action state captured)
    (second : ∀ a later captured', Proceeds start owners entry base state captured later captured' →
      Keeps start owners entry base (next a) later captured') :
    Keeps start owners entry base (action >>= next) state captured := by
  refine Ends.bind first fun a later rest => ?_
  obtain ⟨captured', proceeds⟩ := rest
  refine (second a later captured' proceeds).mono (fun _ last rest => ?_) fun _ _ spoilt => spoilt
  obtain ⟨captured'', proceeds'⟩ := rest
  exact ⟨captured'', proceeds.trans proceeds'⟩

end Keeps

section Captured

variable {ev : Evaluator} {held : List Held} {location : Location} {id depth slot : Nat}

/-- A captured frame that was met is trusted. -/
theorem secures_captured (mem : id ∈ captured) :
    Stage.Secures start owners state.heap (captured.map holder) (· id) :=
  fun _ _ _ _ trusted => trusts_holder.mp (trusted _ (List.mem_map_of_mem mem))

variable (start owners base captured) in
/-- What lies further out, where something that is seen is looked for. -/
def Met (state : CompilerState) (slot : Nat) : Outer → Prop
  | .symbolic owner => base ≤ owner ∧ state.Filled owner slot
  | .captured owner => state.heap.Filled owner slot ∧
      Stage.Secures start owners state.heap (captured.map holder) (· owner)

theorem Course.ancestor (course : Course start owners entry base state captured) (low : base ≤ id)
    (seen : state.sees (.symbolic id) depth slot) :
    Ends (Compile.ancestor id depth) state
      (fun outer later => state = later ∧ Met start owners base captured state slot outer)
      (Spoilt start owners entry) := by
  induction depth generalizing id with
  | zero =>
    rw [CompilerState.sees] at seen
    exact .pure ⟨rfl, low, seen⟩
  | succ depth ih =>
    rw [CompilerState.sees] at seen
    obtain ⟨frame, found, seen⟩ := seen
    rw [Compile.ancestor]
    refine Ends.through (fun found later => frame = found ∧ state = later)
      (.symbolicFrame
      (fun other found' => ⟨Option.some.inj (found.symm.trans found'), rfl⟩) fun missing => by
        simp [found] at missing) ?_
    rintro _ _ ⟨rfl, rfl⟩
    cases around : frame.outer with
    | symbolic outer =>
      rw [around] at seen
      exact ih (course.sound.symbolic id frame outer low found around) seen
    | captured outer =>
      rw [around, CompilerState.sees] at seen
      obtain ⟨owner, reached, filled⟩ := seen
      have mem := course.sound.captured id frame outer low found around
      refine .map (.evaluating (Ends.ancestor (fun other reached' => ?_) fun missing => by
        simp [reached] at missing))
      obtain rfl := Option.some.inj (reached'.symm.trans reached)
      exact ⟨rfl, filled, fun trust sound inside fresh trusted =>
        sound.ancestor (secures_captured mem trust sound inside fresh trusted) reached⟩

/-- Reading a slot of a captured frame, with what is trusted afterwards. -/
theorem Course.captured_ends (course : Course start owners entry base state captured)
    (safe : Eval.Safe ev) (world : World start owners entry) (filled : state.heap.Filled id slot)
    (member : Stage.Secures start owners state.heap (captured.map holder) (· id)) :
    Ends (Compile.captured ev held location id slot) state
      (fun value later => state.heap.Grows later.heap ∧
        later.compiler.frames = state.compiler.frames ∧
        Stage start owners entry later.heap (value :: captured.map holder))
      (Spoilt start owners entry) := by
  obtain ⟨trust, sound, inside, fresh, trusted⟩ := course.stage.witness world
  have here : World state.heap [id] [] :=
    ⟨trust, sound, by simpa using member trust sound inside fresh trusted, by simp⟩
  have enter : Stage.Secures start owners state.heap (captured.map holder) fun trust =>
      (∀ other ∈ [id], trust other) ∧
        ∀ value ∈ ([] : List Value), state.heap.Trusts trust value :=
    fun trust sound inside fresh trusted => by simpa using member trust sound inside fresh trusted
  refine .evaluating ((Eval.stays_force safe here (.refl state.heap [id] [])
    (fun _ _ inside _ _ => inside id (by simp)) filled).mono (fun value later second => ?_)
    fun fault later broken => broken.andThen course.stage enter)
  exact ⟨second.grows, rfl, course.stage.andThen second enter⟩

/-- The compilation of a definition starts, with a mark in its place. -/
theorem Course.begun (course : Course start owners entry base state captured)
    {frame : SymbolicFrame} {definition : Expr} (low : base ≤ id)
    (found : state.compiler.frames[id]? = some frame)
    (pending : frame.slots[slot]? = some (.pending definition)) :
    Proceeds start owners entry base state captured
        { state with compiler := state.compiler.put id slot .busy } captured ∧
      CompilerState.Fits { state with compiler := state.compiler.put id slot .busy } id
        definition := by
  have busy := CompilerState.Grows.put state id slot (show SymbolicSlot.busy ≠ .empty by simp)
  exact ⟨⟨busy, fun _ mem => mem, course.stage,
    course.sound.putEach [(slot, .busy)] (by simp) (by simp)⟩,
    (course.sound.pending id _ slot definition low found pending).mono busy⟩

/-- Reading a slot of a symbolic frame. -/
theorem Course.force_keeps (course : Course start owners entry base state captured)
    {compile : Inliner} (safe : SafeInliner start owners entry base compile) (low : base ≤ id)
    (filled : state.Filled id slot) :
    Keeps start owners entry base (Compile.force compile location id slot) state captured := by
  obtain ⟨frame, content, found, holds, nonempty⟩ := filled
  have only {other : SymbolicFrame} (found' : state.compiler.frames[id]? = some other) :
      other = frame := Option.some.inj (found'.symm.trans found)
  refine .symbolicForce (fun other term found' ready => ⟨captured, course.refl⟩)
    (fun other definition found' pending => ?_) (fun _ _ _ => course.spoilt _)
    (fun other found' empty => ?_) (fun other found' none => ?_) fun missing => ?_
  · obtain ⟨begun, fits⟩ := course.begun low found' pending
    refine (safe _ captured id definition begun.2.2 low fits).mono
      (fun term later rest => ?_) fun fault later spoilt => spoilt
    obtain ⟨captured', grows, included, course'⟩ := rest
    refine ⟨captured', (begun.1.trans grows).trans (.put later id slot (by simp)), included,
      course'.stage, course'.sound.putEach [(slot, .ready term)] (by simp) ?_⟩
    simp
  · obtain rfl := only found'
    rw [holds] at empty
    exact (nonempty (Option.some.inj empty)).elim
  · obtain rfl := only found'
    rw [holds] at none
    cases none
  · rw [found] at missing
    cases missing

end Captured

section Calls

variable {ev : Evaluator} {held : List Held} {compile : Inliner} {location : Location} {id : Nat}

variable (base captured) in
/-- A function that can be inlined: the frame around it is one of those at hand. -/
def Callable (state : CompilerState) : Compile.Callee → Prop
  | .lambda lambda outer => (∀ id, outer = .symbolic id → base ≤ id) ∧
      (∀ id, outer = .captured id → id ∈ captured) ∧
      Expr.Scoped (state.sees outer)
        (.lambda lambda.location lambda.paramCount lambda.slotCount lambda.body)
  | .builtin _ => True

theorem Callable.mono {callee : Compile.Callee} (callable : Callable base captured state callee)
    (grows : state.Grows later) (included : ∀ id ∈ captured, id ∈ captured') :
    Callable base captured' later callee := by
  cases callee with
  | lambda lambda outer =>
    obtain ⟨symbolic, inside, sees⟩ := callable
    exact ⟨symbolic, fun id same => included id (inside id same), sees.mono grows.sees⟩
  | builtin => trivial

/-- Finding the function that is called. -/
theorem Course.callee_ends (course : Course start owners entry base state captured)
    (safe : Eval.Safe ev) (world : World start owners entry) (low : base ≤ id) {function : Expr}
    (sees : function.Scoped (state.sees (.symbolic id))) :
    Ends (Compile.callee ev held id function) state
      (fun callee later => ∃ captured',
        Proceeds start owners entry base state captured later captured' ∧
          Callable base captured' later callee)
      (Spoilt start owners entry) := by
  have computed : Ends (Compile.unsupported function.location
      "call of a computed function value" : Compile Compile.Callee) state
      (fun callee later => ∃ captured',
        Proceeds start owners entry base state captured later captured' ∧
          Callable base captured' later callee)
      (Spoilt start owners entry) := .unsupported (course.spoilt _)
  unfold Compile.callee
  dsimp only
  split
  · exact .pure ⟨captured, course.refl, trivial⟩
  · exact .pure ⟨captured, course.refl, fun _ same => Outer.symbolic.inj same ▸ low,
      (fun _ same => by cases same), sees⟩
  · rename_i depth slot
    cases sees with
    | slot seen =>
      refine (course.ancestor low seen).bind ?_
      rintro outer _ ⟨rfl, met⟩
      cases outer with
      | symbolic owner =>
        obtain ⟨low, frame, content, found, holds, -⟩ := met
        refine Ends.through (fun found later => frame = found ∧ state = later)
          (.symbolicFrame
          (fun other found' => ⟨Option.some.inj (found.symm.trans found'), rfl⟩) fun missing => by
            simp [found] at missing) ?_
        rintro _ _ ⟨rfl, rfl⟩
        split
        · rename_i pending
          exact .pure ⟨captured, course.refl, fun _ same => Outer.symbolic.inj same ▸ low,
            (fun _ same => by cases same),
            (course.sound.pending owner frame slot _ low found pending).sees⟩
        · exact computed
      | captured owner =>
        obtain ⟨filled, member⟩ := met
        refine (course.captured_ends safe world filled member).bind ?_
        rintro value later ⟨grows, frames, stage⟩
        have course' : Course start owners entry base later captured :=
          ⟨stage.subset fun _ mem => List.mem_cons_of_mem _ mem,
            course.sound.of_frames grows frames⟩
        have proceeds : Proceeds start owners entry base state captured later captured :=
          ⟨.of_frames grows frames, fun _ mem => mem, course'⟩
        have refused {place : Location} {what : String} : Ends (Compile.unsupported place what :
            Compile Compile.Callee) later
            (fun callee last => ∃ captured',
              Proceeds start owners entry base state captured last captured' ∧
                Callable base captured' last callee)
            (Spoilt start owners entry) := .unsupported (course'.spoilt _)
        cases value with
        | closure serial lambda env =>
          refine .pure ⟨env :: captured, ⟨proceeds.1, fun _ mem => List.mem_cons_of_mem _ mem,
            stage.derive fun trust _ _ _ trusted other mem => ?_,
            course'.sound.subset fun _ mem => List.mem_cons_of_mem _ mem⟩, ?_⟩
          · rcases List.mem_cons.mp mem with rfl | mem
            · cases trusted _ List.mem_cons_self with
              | closure known => exact trusts_holder.mpr known.1
            · exact trusted other (List.mem_cons_of_mem _ mem)
          · refine ⟨(fun _ same => by cases same), fun _ same => ?_, ?_⟩
            · exact Outer.captured.inj same ▸ List.mem_cons_self
            · refine stage.secured world fun _ _ _ _ trusted => ?_
              cases trusted _ List.mem_cons_self with
              | closure known =>
                refine known.2.mono fun depth slot seen => ?_
                rwa [CompilerState.sees]
        | builtin function => exact .pure ⟨captured, proceeds, trivial⟩
        | _ => exact refused
  · exact computed

/-- A new symbolic frame with its arguments, in which the body of a function can be compiled. -/
theorem Course.entered (course : Course start owners entry base state captured) {lambda : Lambda}
    {outer : Outer} (callable : Callable base captured state (.lambda lambda outer))
    {args : List Term} (count : args.length = lambda.paramCount) :
    Room lambda.slotCount (List.range lambda.paramCount ++ lambda.body.letSlots) ∧
      Proceeds start owners entry base state captured
        ((state.enter lambda.slotCount outer (symbolicReadies 0 args)).entering lambda.location)
        captured ∧
      CompilerState.Fits
        ((state.enter lambda.slotCount outer (symbolicReadies 0 args)).entering lambda.location)
        state.compiler.frames.size lambda.body := by
  obtain ⟨symbolic, inside, sees⟩ := callable
  obtain ⟨room, sees⟩ : Room lambda.slotCount
      (List.range lambda.paramCount ++ lambda.body.letSlots) ∧
      lambda.body.Scoped (Visibility.enter (state.sees outer)
        (List.range lambda.paramCount)) := by
    cases sees with
    | lambda room inner => exact ⟨room, inner⟩
  have nonempty : ∀ content ∈ symbolicReadies 0 args, content.2 ≠ .empty :=
    fun content mem => by
      obtain ⟨term, same⟩ := mem_symbolicReadies mem
      simp [same]
  have grows : state.Grows (state.enter lambda.slotCount outer (symbolicReadies 0 args)) :=
    .enter nonempty
  have entered : Course start owners entry base
      (state.enter lambda.slotCount outer (symbolicReadies 0 args)) captured :=
    ⟨course.stage, course.sound.enter symbolic inside fun _ mem => mem_symbolicReadies mem⟩
  have fits : (state.enter lambda.slotCount outer (symbolicReadies 0 args)).Fits
      state.compiler.frames.size lambda.body := by
    refine CompilerState.fits_enter sees nonempty (fun slot mem => ?_) room.inside
    have inRange : slot ∈ (symbolicReadies 0 args).map (·.1) := by
      rw [map_symbolicReadies, count]
      simpa using mem
    exact List.mem_map.mp inRange
  have begun := entered.emit ((state.enter lambda.slotCount outer
    (symbolicReadies 0 args)).entering lambda.location) rfl rfl
  exact ⟨room, ⟨grows.trans begun.1, begun.2⟩, fits.mono begun.1⟩

/-- The body of a function is compiled in a new symbolic frame. -/
theorem Course.inlineCall_keeps (course : Course start owners entry base state captured)
    (safe : SafeInliner start owners entry base compile) {lambda : Lambda} {outer : Outer}
    (callable : Callable base captured state (.lambda lambda outer)) {args : List Term} :
    Keeps start owners entry base (Compile.inlineCall compile lambda outer args location) state
      captured := by
  have refused : Spoilt start owners entry
      (.exception ⟨.argumentCount lambda.paramCount args.length, [location]⟩) state :=
    course.spoilt _
  unfold Compile.inlineCall
  by_cases count : args.length = lambda.paramCount
  · simp only [count, ne_eq, not_true_eq_false, ↓reduceIte]
    refine Ends.through (fun found later => state.compiler = found ∧ state = later)
      (.compiler ⟨rfl, rfl⟩) ?_
    rintro _ _ ⟨rfl, rfl⟩
    by_cases recursive : lambda.location ∈ state.compiler.inlining
    · simp only [recursive, ↓reduceIte]
      exact .unsupported (course.spoilt _)
    · simp only [recursive, ↓reduceIte]
      refine Ends.through (fun entered later =>
        state.compiler.frames.size = entered ∧
          { state with compiler := state.compiler.alloc lambda.slotCount outer } = later)
        (.symbolicAlloc ⟨rfl, rfl⟩) ?_
      rintro _ _ ⟨rfl, rfl⟩
      obtain ⟨room, entered, fits⟩ := course.entered callable count
      refine Ends.through (fun _ later =>
        state.enter lambda.slotCount outer (symbolicReadies 0 args) = later)
        (.symbolicStoreAll (Compiler.frame?_alloc_self lambda.slotCount outer) ?_ rfl) ?_
      · rw [List.length_replicate, Nat.zero_add, count]
        exact room.length_le
      rintro _ _ rfl
      refine Ends.inlining ((safe _ captured _ lambda.body entered.2.2 course.sound.base_le
        fits).mono (fun term later rest => ?_) fun _ _ spoilt => spoilt)
      obtain ⟨captured', proceeds⟩ := rest
      have left := proceeds.2.2.emit later.leaving rfl rfl
      exact ⟨captured', entered.1.trans (proceeds.1.trans left.1), proceeds.2.1, left.2.2⟩
  · simp only [count, ne_eq, not_false_eq_true, ↓reduceIte]
    exact .refuse refused

end Calls

section Step

variable {ev : Evaluator} {held : List Held} {compile : Inliner} {id : Nat}

private theorem fits_inside {expr part : Expr} (fits : state.Fits id expr)
    (sees : part.Scoped (state.sees (.symbolic id)))
    (included : ∀ slot ∈ part.letSlots, slot ∈ expr.letSlots) : state.Fits id part := by
  obtain ⟨frame, found, inside⟩ := fits.room
  exact ⟨sees, frame, found, fun slot mem => inside slot (included slot mem)⟩

/-- Compiling several parts in a symbolic frame. -/
theorem Course.each_keeps (course : Course start owners entry base state captured)
    (safe : SafeInliner start owners entry base compile) (low : base ≤ id) (exprs : List Expr)
    (fits : ∀ expr ∈ exprs, state.Fits id expr) :
    Keeps start owners entry base (exprs.mapM (compile id)) state captured := by
  induction exprs generalizing state captured with
  | nil => exact .pure course []
  | cons expr exprs ih =>
    rw [List.mapM_cons]
    refine (safe state captured id expr course low (fits expr (by simp))).bind
      fun term later captured' proceeds => ?_
    refine (ih proceeds.2.2 fun other mem => (fits other (by simp [mem])).mono proceeds.1).bind
      fun terms last captured'' proceeds' => .pure proceeds'.2.2 _

/-- What is compiled after a check that refuses some code. -/
private theorem Course.unless (course : Course start owners entry base state captured)
    {check : Prop} [Decidable check] {location : Location} {what : String} {next : Compile Term}
    (keeps : ¬ check → Keeps start owners entry base next state captured) :
    Keeps start owners entry base (do
      if check then Compile.unsupported location what
      next) state captured := by
  by_cases holds : check
  · simp only [holds, ↓reduceIte]
    exact Ends.unsupported (course.spoilt _)
  · simp only [holds, ↓reduceIte]
    exact keeps holds

/-- The bindings of a `let` are stored, after which its body can be compiled. -/
theorem Course.stored (course : Course start owners entry base state captured)
    {location : Location} {bindings : List (Nat × Expr)} {body : Expr}
    (fits : state.Fits id (.letIn location bindings body)) :
    Proceeds start owners entry base state captured
        { state with compiler := state.compiler.putEach id (symbolicPendings bindings) } captured ∧
      CompilerState.Fits
        { state with compiler := state.compiler.putEach id (symbolicPendings bindings) } id body := by
  obtain ⟨frame, found, inside⟩ := fits.room
  have nonempty : ∀ content ∈ symbolicPendings bindings, content.2 ≠ .empty :=
    fun content mem => by
      obtain ⟨binding, -, rfl⟩ := List.mem_map.mp mem
      simp
  have roomy (binding : Nat × Expr) (mem : binding ∈ bindings) :
      binding.1 < frame.slots.length := by
    refine inside binding.1 ?_
    rw [Expr.letSlots_letIn, List.append_assoc]
    exact List.mem_append_left _ (List.mem_map_of_mem mem)
  have grows := CompilerState.Grows.putEach state id nonempty
  have extended (depth slot : Nat)
      (seen : Visibility.extend (state.sees (.symbolic id)) (bindings.map (·.1)) depth slot) :
      CompilerState.sees { state with
        compiler := state.compiler.putEach id (symbolicPendings bindings) } (.symbolic id) depth
        slot := by
    rcases seen with ⟨rfl, mem⟩ | seen
    · obtain ⟨binding, bound, rfl⟩ := List.mem_map.mp mem
      rw [CompilerState.sees]
      exact CompilerState.filled_putEach state found nonempty (List.mem_map_of_mem bound)
        (roomy binding bound)
    · exact grows.sees depth slot seen
  have fitsLater {part : Expr}
      (sees : part.Scoped (Visibility.extend (state.sees (.symbolic id)) (bindings.map (·.1))))
      (included : ∀ slot ∈ part.letSlots, slot ∈ (Expr.letIn location bindings body).letSlots) :
      CompilerState.Fits { state with
        compiler := state.compiler.putEach id (symbolicPendings bindings) } id part :=
    ⟨sees.mono extended, _, Compiler.frame?_putEach_self found, fun slot mem => by
      simpa using inside slot (included slot mem)⟩
  obtain ⟨parts, rest⟩ : (∀ binding ∈ bindings, binding.2.Scoped
        (Visibility.extend (state.sees (.symbolic id)) (bindings.map (·.1)))) ∧
      body.Scoped (Visibility.extend (state.sees (.symbolic id)) (bindings.map (·.1))) := by
    cases fits.sees with
    | letIn parts rest => exact ⟨parts, rest⟩
  refine ⟨⟨grows, fun _ mem => mem, course.stage, course.sound.putEach _ nonempty
    fun content mem expr pending => ?_⟩, fitsLater rest fun slot mem => ?_⟩
  · obtain ⟨binding, bound, rfl⟩ := List.mem_map.mp mem
    obtain rfl := SymbolicSlot.pending.inj pending
    refine fitsLater (parts binding bound) fun slot inner => ?_
    rw [Expr.letSlots_letIn]
    exact List.mem_append_left _
      (List.mem_append_right _ (List.mem_flatMap.mpr ⟨binding, bound, inner⟩))
  · rw [Expr.letSlots_letIn]
    exact List.mem_append_right _ mem

theorem step_keeps (safe : Eval.Safe ev) (world : World start owners entry)
    (safe' : SafeInliner start owners entry base compile) :
    SafeInliner start owners entry base (Compile.step ev held compile) := by
  intro state captured id expr course low fits
  -- A part of the expression, compiled in the same frame later on.
  have part {part : Expr} {later : CompilerState} {captured' : List FrameId}
      (proceeds : Proceeds start owners entry base state captured later captured')
      (sees : part.Scoped (state.sees (.symbolic id)))
      (included : ∀ slot ∈ part.letSlots, slot ∈ expr.letSlots) :
      Keeps start owners entry base (compile id part) later captured' :=
    safe' later captured' id part proceeds.2.2 low
      ((fits_inside fits sees included).mono proceeds.1)
  cases fits.sees with
  | constant => exact (Direct.constant _).keeps course
  | @slot _ _ depth slot seen =>
    refine (course.ancestor low seen).bind ?_
    rintro outer _ ⟨rfl, met⟩
    cases outer with
    | symbolic owner => exact course.force_keeps safe' met.1 met.2
    | captured owner =>
      refine (course.captured_ends safe world met.1 met.2).bind ?_
      rintro value later ⟨grows, frames, stage⟩
      have course' : Course start owners entry base later captured :=
        ⟨stage.subset fun _ mem => List.mem_cons_of_mem _ mem,
          course.sound.of_frames grows frames⟩
      refine ((Direct.constant value).keeps course').mono (fun _ last rest => ?_)
        fun _ _ spoilt => spoilt
      obtain ⟨captured', proceeds⟩ := rest
      exact ⟨captured', .trans ⟨.of_frames grows frames, fun _ mem => mem, course'⟩ proceeds⟩
  | @call _ site function args head rest =>
    refine (course.callee_ends safe world low head).bind fun callee later found => ?_
    obtain ⟨captured', proceeds, callable⟩ := found
    have called : Keeps start owners entry base (do
        let args ← args.mapM (compile id)
        match callee with
        | .lambda lambda outer => Compile.inlineCall compile lambda outer args site
        | .builtin function => Compile.builtin site function args) later captured' := by
      refine (proceeds.2.2.each_keeps safe' low args fun arg mem =>
        (fits_inside fits (rest arg mem) fun slot inside => ?_).mono proceeds.1).bind
          fun args last captured'' proceeds' => ?_
      · rw [Expr.letSlots_call]
        exact List.mem_append_right _ (List.mem_flatMap.mpr ⟨arg, mem, inside⟩)
      · cases callee with
        | lambda lambda outer =>
          exact proceeds'.2.2.inlineCall_keeps safe' (callable.mono proceeds'.1 proceeds'.2.1)
        | builtin function => exact (Direct.builtin function _).keeps proceeds'.2.2
    refine Ends.mono called (fun _ last found => ?_) fun _ _ spoilt => spoilt
    obtain ⟨captured'', proceeds'⟩ := found
    exact ⟨captured'', proceeds.trans proceeds'⟩
  | @list _ _ items parts =>
    refine (course.each_keeps safe' low items fun item mem =>
      fits_inside fits (parts item mem) fun slot inside => ?_).bind
        fun items later captured' proceeds => (Direct.vector _).keeps proceeds.2.2
    rw [Expr.letSlots_list]
    exact List.mem_flatMap.mpr ⟨item, mem, inside⟩
  | record => exact Ends.unsupported (course.spoilt _)
  | «module» => exact Ends.unsupported (course.spoilt _)
  | lambda => exact Ends.unsupported (course.spoilt _)
  | forEach => exact Ends.unsupported (course.spoilt _)
  | @letIn _ _ bindings body =>
    obtain ⟨frame, found, inside⟩ := fits.room
    refine Ends.through (fun _ later => { state with
      compiler := state.compiler.putEach id (symbolicPendings bindings) } = later)
      (.symbolicStorePending found (fun binding mem => inside binding.1 ?_) rfl) ?_
    · rw [Expr.letSlots_letIn, List.append_assoc]
      exact List.mem_append_left _ (List.mem_map_of_mem mem)
    rintro _ _ rfl
    obtain ⟨stored, fits'⟩ := course.stored fits
    refine (safe' _ captured id body stored.2.2 low fits').mono (fun term later found => ?_)
      fun _ _ spoilt => spoilt
    obtain ⟨captured', proceeds⟩ := found
    exact ⟨captured', stored.trans proceeds⟩
  | unary operand =>
    exact (part course.refl operand fun slot mem => by simpa using mem).bind
      fun x later captured' proceeds => (Direct.unary _ _).keeps proceeds.2.2
  | binary first second =>
    exact (part course.refl first fun slot mem => by simp [mem]).bind
      fun a later captured' proceeds =>
        (part proceeds second fun slot mem => by simp [mem]).bind
          fun b last captured'' proceeds' => (Direct.binary _ _ _).keeps proceeds'.2.2
  | conditional first second third =>
    refine (part course.refl first fun slot mem => by simp [mem]).bind
      fun c after captured₁ proceeds => proceeds.2.2.unless fun _ => ?_
    refine (part proceeds second fun slot mem => by simp [mem]).bind
      fun a after captured₂ proceeds' => ?_
    refine (part (proceeds.trans proceeds') third fun slot mem => by simp [mem]).bind
      fun b after captured₃ proceeds'' => proceeds''.2.2.unless fun _ => ?_
    exact (Direct.select _ _ _).keeps proceeds''.2.2
  | dot base =>
    exact (part course.refl base fun slot mem => by simpa using mem).bind
      fun v later captured' proceeds => (Direct.field _ _).keeps proceeds.2.2
  | index first second =>
    refine (part course.refl first fun slot mem => by simp [mem]).bind
      fun v later captured' proceeds => ?_
    split
    · exact Ends.unsupported (proceeds.2.2.spoilt _)
    · refine (part proceeds second fun slot mem => by simp [mem]).bind
        fun i last captured'' proceeds' => proceeds'.2.2.unless fun _ => ?_
      split
      · split
        · exact (Direct.emit (by simp)).keeps proceeds'.2.2
        · exact Ends.refuse (proceeds'.2.2.spoilt _)
      · exact (Direct.emit (by simp)).keeps proceeds'.2.2

/-- Compilation meets no defect, with any amount of fuel. -/
theorem upTo_keeps (safe : Eval.Safe ev) (world : World start owners entry) (fuel : Nat) :
    SafeInliner start owners entry base (Compile.upTo ev held fuel) := by
  induction fuel with
  | zero =>
    intro state captured id expr course low fits
    exact Ends.throw ⟨.outOfFuel, course.stage.subset (by simp)⟩
  | succ fuel ih => exact step_keeps safe world ih

/-- A compilation starts beside the symbolic frames that are there already. -/
theorem Course.initial (heap : Heap) (env : FrameId) (compiler : Compiler) :
    Course heap [] [holder env] compiler.frames.size ⟨heap, compiler⟩ [env] := by
  refine ⟨.refl heap [] [holder env], Nat.le_refl _, fun id frame outer low found => ?_,
    fun id frame outer low found => ?_, fun id frame slot expr low found => ?_⟩
  all_goals exact absurd (Array.getElem?_eq_some_iff.mp found).1 (Nat.not_lt.mpr low)

/-- A closure, from the frame that it captured. -/
theorem callable_captured {heap : Heap} {lambda : Lambda} {env : FrameId} {compiler : Compiler}
    (sees : Expr.Scoped (heap.visible env) (.lambda lambda.location lambda.paramCount
      lambda.slotCount lambda.body)) :
    Callable compiler.frames.size [env] ⟨heap, compiler⟩ (.lambda lambda (.captured env)) := by
  refine ⟨(fun _ same => by cases same), fun _ same => by simp [Outer.captured.inj same],
    sees.mono fun depth slot seen => ?_⟩
  rwa [CompilerState.sees]

end Step

end Compile

end Shader

end ShapeLang
