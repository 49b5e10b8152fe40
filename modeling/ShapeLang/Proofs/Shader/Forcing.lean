import ShapeLang.Proofs.Eval.Forcing
import ShapeLang.Proofs.Shader.Direct

/-! # What compilation leaves in the slots

As in evaluation, a definition is marked while it is compiled, and the mark is taken away when the
compilation of the definition has ended, whatever it was that ended it. Symbolic frames and captured
frames are left without marks alike.
-/

namespace ShapeLang

namespace Shader

namespace CompilerState

variable {state before middle after : CompilerState} {id other slot place : Nat}
  {content : SymbolicSlot}

/-- What is in a slot of a symbolic frame. -/
def slot? (state : CompilerState) (id slot : Nat) : Option SymbolicSlot :=
  state.compiler.frames[id]?.bind (·.slots[slot]?)

/-- The state with something in a slot of a symbolic frame. -/
abbrev put (state : CompilerState) (id slot : Nat) (content : SymbolicSlot) : CompilerState :=
  { state with compiler := state.compiler.put id slot content }

theorem slot?_of_frame? {frame : SymbolicFrame} (found : state.compiler.frames[id]? = some frame) :
    state.slot? id slot = frame.slots[slot]? := by
  rw [slot?, found, Option.bind_some]

theorem slot?_of_frames (frames : after.compiler.frames = before.compiler.frames) :
    after.slot? id slot = before.slot? id slot := by
  rw [slot?, frames, slot?]

theorem slot?_put_self {frame : SymbolicFrame} (found : state.compiler.frames[id]? = some frame)
    (inside : slot < frame.slots.length) : (state.put id slot content).slot? id slot =
      some content := by
  rw [slot?_of_frame? (Compiler.frame?_put_self found)]
  exact List.getElem?_set_self inside

theorem slot?_put_ne (different : ¬ (other = id ∧ place = slot)) :
    (state.put id slot content).slot? other place = state.slot? other place := by
  by_cases same : id = other
  · subst same
    cases found : state.compiler.frames[id]? with
    | none => simp [slot?, Compiler.put, Array.getElem?_modify, found]
    | some frame =>
      rw [slot?_of_frame? (Compiler.frame?_put_self found), slot?_of_frame? found]
      exact List.getElem?_set_ne fun here => different ⟨rfl, here.symm⟩
  · rw [slot?, Compiler.frame?_put_ne same, slot?]

theorem slot?_put_cases {holds : SymbolicSlot}
    (there : (state.put id slot content).slot? other place = some holds) :
    holds = content ∨ ¬ (other = id ∧ place = slot) ∧ state.slot? other place = some holds := by
  by_cases here : other = id ∧ place = slot
  · obtain ⟨rfl, rfl⟩ := here
    cases found : state.compiler.frames[other]? with
    | none => simp [slot?, Compiler.put, Array.getElem?_modify, found] at there
    | some frame =>
      rw [slot?_of_frame? (Compiler.frame?_put_self found)] at there
      have inside := (List.getElem?_eq_some_iff.mp there).1
      rw [List.getElem?_set_self (by simpa using inside)] at there
      exact .inl (Option.some.inj there).symm
  · rw [slot?_put_ne here] at there
    exact .inr ⟨here, there⟩

/-- A new symbolic frame. -/
abbrev alloc (state : CompilerState) (slotCount : Nat) (outer : Outer) : CompilerState :=
  { state with compiler := state.compiler.alloc slotCount outer }

theorem slot?_alloc_cases {slotCount : Nat} {outer : Outer} {holds : SymbolicSlot}
    (there : (state.alloc slotCount outer).slot? id slot = some holds) :
    holds = .empty ∨ state.slot? id slot = some holds := by
  by_cases new : id = state.compiler.frames.size
  · subst new
    rw [slot?_of_frame? (Compiler.frame?_alloc_self slotCount outer)] at there
    exact .inl (List.eq_of_mem_replicate (List.mem_of_getElem? there))
  · rw [slot?, Compiler.frame?_alloc_ne new] at there
    exact .inr there

/-- Every slot that is marked now was marked before, in symbolic frames and in captured ones; and
all symbolic frames are still there. -/
structure Unmarked (before after : CompilerState) : Prop where
  heap : before.heap.Unmarked after.heap
  symbolic : ∀ id slot, after.slot? id slot = some .busy → before.slot? id slot = some .busy
  kept : ∀ (id : Nat) frame, before.compiler.frames[id]? = some frame →
    ∃ later, after.compiler.frames[id]? = some later ∧ later.slots.length = frame.slots.length

namespace Unmarked

theorem refl (state : CompilerState) : Unmarked state state :=
  ⟨fun _ _ marked => marked, fun _ _ marked => marked, fun _ frame found => ⟨frame, found, rfl⟩⟩

theorem trans (first : Unmarked before middle) (second : Unmarked middle after) :
    Unmarked before after := by
  refine ⟨first.heap.trans second.heap, fun id slot marked =>
    first.symbolic id slot (second.symbolic id slot marked), fun id frame found => ?_⟩
  obtain ⟨between, found', size⟩ := first.kept id frame found
  obtain ⟨later, found'', size'⟩ := second.kept id between found'
  exact ⟨later, found'', size'.trans size⟩

/-- Changes that leave the symbolic frames alone. -/
theorem of_frames (heap : before.heap.Unmarked after.heap)
    (frames : after.compiler.frames = before.compiler.frames) : Unmarked before after :=
  ⟨heap, fun _ _ marked => slot?_of_frames frames ▸ marked, fun _ frame found =>
    ⟨frame, frames ▸ found, rfl⟩⟩

private theorem kept_put (id slot : Nat) (content : SymbolicSlot) (frame : SymbolicFrame)
    (found : state.compiler.frames[other]? = some frame) :
    ∃ later, (state.put id slot content).compiler.frames[other]? = some later ∧
      later.slots.length = frame.slots.length := by
  by_cases same : id = other
  · subst same
    exact ⟨_, Compiler.frame?_put_self found, by simp⟩
  · exact ⟨frame, (Compiler.frame?_put_ne same).trans found, rfl⟩

theorem put (notBusy : content ≠ .busy) : Unmarked state (state.put id slot content) := by
  refine ⟨fun _ _ marked => marked, fun other place marked => ?_, fun other => kept_put id slot content⟩
  rcases slot?_put_cases marked with same | ⟨-, same⟩
  · exact (notBusy same.symm).elim
  · exact same

/-- A mark that is taken away again was never there. -/
theorem finish (unmarked : Unmarked (state.put id slot .busy) after) (notBusy : content ≠ .busy) :
    Unmarked state (after.put id slot content) := by
  refine ⟨unmarked.heap, fun other place marked => ?_, fun other frame found => ?_⟩
  · rcases slot?_put_cases marked with same | ⟨elsewhere, same⟩
    · exact (notBusy same.symm).elim
    · rw [← slot?_put_ne elsewhere]
      exact unmarked.symbolic other place same
  · obtain ⟨between, found', size⟩ :=
      kept_put id slot .busy frame found
    obtain ⟨later, found'', size'⟩ := unmarked.kept other between found'
    obtain ⟨last, found''', size''⟩ :=
      kept_put id slot content later found''
    exact ⟨last, found''', size''.trans (size'.trans size)⟩

theorem alloc (slotCount : Nat) (outer : Outer) : Unmarked state (state.alloc slotCount outer) := by
  refine ⟨fun _ _ marked => marked, fun other place marked => ?_, fun other frame found => ?_⟩
  · rcases slot?_alloc_cases marked with same | same
    · cases same
    · exact same
  · have old := Nat.ne_of_lt (Array.getElem?_eq_some_iff.mp found).1
    exact ⟨frame, (Compiler.frame?_alloc_ne old).trans found, rfl⟩

end Unmarked

end CompilerState

open CompilerState (Unmarked)

/-- A computation that leaves no marks, whether it fails or not. -/
def Cleans {α : Type} (action : Compile α) : Prop :=
  ∀ state, Ends action state (fun _ later => Unmarked state later)
    fun _ later => Unmarked state later

namespace Cleans

variable {α β : Type} {action : Compile α}

theorem of_direct {kind : Operation → Prop} (direct : Direct kind action) : Cleans action := by
  induction direct with
  | pure => exact fun state => .refl state
  | raise => exact fun state => .refl state
  | define => exact fun state => .define (.of_frames (fun _ _ marked => marked) rfl)
  | bind _ _ first second =>
    intro state
    apply (first state).bind
    intro a later unmarked
    exact (second a later).mono (fun _ _ => unmarked.trans) fun _ _ => unmarked.trans

theorem raise (location : Location) (kind : ErrorKind) :
    Cleans (Compile.raise location kind : Compile α) := fun state => .refl state

theorem bind {next : α → Compile β} (first : Cleans action) (second : ∀ a, Cleans (next a)) :
    Cleans (action >>= next) := by
  intro state
  apply (first state).bind
  intro a later unmarked
  exact (second a later).mono (fun _ _ => unmarked.trans) fun _ _ => unmarked.trans

theorem pure (a : α) : Cleans (pure a : Compile α) := fun state => .refl state

theorem map {f : α → β} (cleans : Cleans action) : Cleans (f <$> action) := by
  rw [map_eq_pure_bind]
  exact cleans.bind fun a => .pure (f a)

/-- What follows a check that refuses some code. -/
theorem checked {check : Prop} [Decidable check] {location : Location} {kind : ErrorKind}
    {next : Compile α} (cleans : Cleans next) :
    Cleans (do
      if check then Compile.raise location kind
      next) := by
  by_cases refused : check
  · simp only [refused, ↓reduceIte]
    exact fun state => .refl state
  · simp only [refused, ↓reduceIte]
    exact cleans

theorem evaluating {action : Eval α}
    (unmarked : ∀ heap, Ends action heap (fun _ later => heap.Unmarked later)
      fun _ later => heap.Unmarked later) : Cleans (Compile.evaluating action) := by
  intro state
  apply Ends.evaluating
  exact (unmarked state.heap).mono (fun _ _ unmarked => .of_frames unmarked rfl)
    fun _ _ unmarked => .of_frames unmarked rfl

theorem frame (id : Nat) : Cleans (Compile.frame id) :=
  fun state => .symbolicFrame (fun _ _ => .refl state) fun _ => .refl state

theorem ancestor (id depth : Nat) : Cleans (Compile.ancestor id depth) := by
  induction depth generalizing id with
  | zero => exact .pure _
  | succ depth ih =>
    apply (frame id).bind
    intro frame
    cases frame.outer with
    | symbolic outer => exact ih outer
    | captured outer =>
      apply map
      apply evaluating
      exact fun heap => .ancestor (fun _ _ _ _ marked => marked) fun _ _ _ marked => marked

theorem store (id slot : Nat) {content : SymbolicSlot} (notBusy : content ≠ .busy) :
    Cleans (Compile.store id slot content) :=
  fun state => .symbolicStore (fun _ _ _ => .put notBusy) (fun _ _ _ => .refl state)
    fun _ => .refl state

theorem storeAll (id slot : Nat) (terms : List Term) : Cleans (Compile.storeAll id slot terms) := by
  induction terms generalizing slot with
  | nil => exact .pure ()
  | cons term terms ih => exact (store id slot (by simp)).bind fun _ => ih (slot + 1)

theorem storePending (id : Nat) (definitions : List (Nat × Expr)) :
    Cleans (Compile.storePending id definitions) := by
  induction definitions with
  | nil => exact .pure ()
  | cons definition definitions ih => exact (store id definition.1 (by simp)).bind fun _ => ih

theorem alloc (slotCount : Nat) (outer : Outer) : Cleans (Compile.alloc slotCount outer) :=
  fun _ => .symbolicAlloc (.alloc slotCount outer)

theorem inlining {action : Compile α} {function : Location} (cleans : Cleans action) :
    Cleans (Compile.inlining function action) := by
  intro state
  have entering : Unmarked state (state.entering function) := .of_frames (fun _ _ marked => marked) rfl
  have leaving (later : CompilerState) : Unmarked later later.leaving :=
    .of_frames (fun _ _ marked => marked) rfl
  apply Ends.inlining
  exact (cleans (state.entering function)).mono
    (fun _ later unmarked => (entering.trans unmarked).trans (leaving later))
    fun _ later unmarked => (entering.trans unmarked).trans (leaving later)

end Cleans

section Step

variable {m : Machine} {evaluations : Nat} {held : List Held} {compile : Inliner} {id : Nat}

theorem cleans_captured (location : Location) (owner slot : Nat) :
    Cleans (Compile.captured (Eval.upTo m evaluations) held location owner slot) :=
  .evaluating fun heap =>
    (Eval.forced_force m evaluations held owner slot _ heap).mono
      (fun _ _ forced => forced.unmarked) fun _ _ forced => forced.unmarked

theorem cleans_callee (function : Expr) :
    Cleans (Compile.callee (Eval.upTo m evaluations) held id function) := by
  unfold Compile.callee
  dsimp only
  split
  · exact .pure _
  · exact .pure _
  · apply (Cleans.ancestor _ _).bind
    intro outer
    cases outer with
    | symbolic owner =>
      apply (Cleans.frame owner).bind
      intro frame
      split
      · exact .pure _
      · exact .raise _ _
    | captured owner =>
      apply (cleans_captured _ owner _).bind
      intro value
      split
      · exact .pure _
      · exact .raise _ _
  · exact .raise _ _

variable (cleans : ∀ id expr, Cleans (compile id expr))
include cleans

theorem cleans_force (location : Location) (slot : Nat) :
    Cleans (Compile.force compile location id slot) := by
  intro state
  apply Ends.symbolicForce
  · exact fun _ _ _ _ => .refl state
  · intro frame definition _ _
    exact (cleans id definition _).mono (fun _ _ unmarked => unmarked.finish (by simp))
      fun _ _ unmarked => unmarked.finish (by simp)
  · exact fun _ _ _ => .refl state
  · exact fun _ _ _ => .refl state
  · exact fun _ _ _ => .refl state
  · exact fun _ => .refl state

theorem cleans_each (exprs : List Expr) : Cleans (exprs.mapM (compile id)) := by
  induction exprs with
  | nil => exact .pure []
  | cons expr exprs ih =>
    rw [List.mapM_cons]
    exact (cleans id expr).bind fun _ => ih.bind fun _ => .pure _

theorem cleans_inlineCall (lambda : Lambda) (outer : Outer) (args : List Term)
    (location : Location) : Cleans (Compile.inlineCall compile lambda outer args location) := by
  unfold Compile.inlineCall
  apply Cleans.checked
  apply Cleans.bind (fun state => .compiler (.refl state))
  intro compiler
  apply Cleans.checked
  apply (Cleans.alloc _ _).bind
  intro callee
  exact (Cleans.storeAll callee 0 args).bind fun _ => (cleans callee lambda.body).inlining

theorem step_cleans (id : Nat) (expr : Expr) :
    Cleans (Compile.step (Eval.upTo m evaluations) held compile id expr) := by
  cases expr with
  | constant => exact .of_direct (Direct.constant _)
  | slot location depth slot =>
    apply (Cleans.ancestor id depth).bind
    intro outer
    cases outer with
    | symbolic owner => exact cleans_force cleans location slot
    | captured owner =>
      exact (cleans_captured _ owner slot).bind fun value => .of_direct (Direct.constant value)
  | call location function args =>
    apply (cleans_callee function).bind
    intro callee
    apply (cleans_each cleans args).bind
    intro args
    cases callee with
    | lambda lambda outer => exact cleans_inlineCall cleans lambda outer args location
    | builtin function => exact .of_direct (Direct.builtin function args)
  | list location items =>
    exact (cleans_each cleans items).bind fun items => .of_direct (Direct.vector items)
  | record => exact .raise _ _
  | «module» => exact .raise _ _
  | lambda => exact .raise _ _
  | forEach => exact .raise _ _
  | letIn location bindings body =>
    exact (Cleans.storePending id bindings).bind fun _ => cleans id body
  | unary location op operand =>
    exact (cleans id operand).bind fun x => .of_direct (Direct.unary op x)
  | binary location op left right =>
    exact (cleans id left).bind fun a => (cleans id right).bind fun b =>
      .of_direct (Direct.binary op a b)
  | conditional location condition whenTrue whenFalse =>
    apply (cleans id condition).bind
    intro c
    apply Cleans.checked
    apply (cleans id whenTrue).bind
    intro a
    apply (cleans id whenFalse).bind
    intro b
    exact .checked (.of_direct (Direct.select c a b))
  | dot location base name =>
    exact (cleans id base).bind fun v => .of_direct (Direct.field name v)
  | index location base index =>
    apply (cleans id base).bind
    intro v
    dsimp only
    split
    · exact .raise _ _
    · apply (cleans id index).bind
      intro i
      apply Cleans.checked
      split
      · split
        · exact .of_direct (Direct.emit (by simp))
        · exact .raise _ _
      · exact .of_direct (Direct.emit (by simp))

omit cleans in
/-- Compilation leaves no marks, with any amount of fuel. -/
theorem upTo_cleans (fuel id : Nat) (expr : Expr) :
    Cleans (Compile.upTo (Eval.upTo m evaluations) held fuel id expr) := by
  induction fuel generalizing id expr with
  | zero => exact fun state => .refl state
  | succ fuel ih => exact step_cleans ih id expr

end Step

/-- What forcing a symbolic slot has done. -/
structure Forced (before : CompilerState) (id slot : Nat) (result : Except Fault Term)
    (after : CompilerState) : Prop where
  /-- No slot of any symbolic or captured frame is marked that was not marked before. -/
  unmarked : before.Unmarked after
  failed : ∀ fault, result = .error fault → after.slot? id slot = before.slot? id slot
  returned : ∀ term, result = .ok term → after.slot? id slot = some (.ready term)

variable {state : CompilerState} {id slot : Nat}

theorem frame_run {frame : SymbolicFrame} (found : state.compiler.frames[id]? = some frame) :
    Compile.frame id state = (.ok frame, state) := by
  apply Ends.exact
  apply Ends.symbolicFrame
  · exact fun other found' => ⟨Option.some.inj (found'.symm.trans found), rfl⟩
  · intro missing
    rw [found] at missing
    cases missing

/-- Forcing a symbolic slot, whatever the frames hold. -/
theorem forced_force (m : Machine) (evaluations fuel : Nat) (held : List Held) (location : Location)
    (id slot : Nat) (state : CompilerState) :
    Ends (Compile.force (Compile.upTo (Eval.upTo m evaluations) held fuel) location id slot) state
      (fun term after => Forced state id slot (.ok term) after)
      fun fault after => Forced state id slot (.error fault) after := by
  have untouched (fault : Fault) : Forced state id slot (.error fault) state :=
    ⟨.refl state, fun _ _ => rfl, fun _ same => by cases same⟩
  apply Ends.symbolicForce
  · intro frame term found ready
    refine ⟨.refl state, fun _ same => (by cases same), fun other same => ?_⟩
    cases same
    rw [CompilerState.slot?_of_frame? found, ready]
  · intro frame definition found pending
    have before : state.slot? id slot = some (.pending definition) := by
      rw [CompilerState.slot?_of_frame? found, pending]
    have written {after : CompilerState} (unmarked : (state.put id slot .busy).Unmarked after)
        (content : SymbolicSlot) : (after.put id slot content).slot? id slot = some content := by
      obtain ⟨later, found', size⟩ := unmarked.kept id _ (Compiler.frame?_put_self found)
      apply CompilerState.slot?_put_self found'
      rw [size, List.length_set]
      exact (List.getElem?_eq_some_iff.mp pending).1
    apply (upTo_cleans fuel id definition (state.put id slot .busy)).mono
    · intro term after unmarked
      refine ⟨unmarked.finish (by simp), fun _ same => (by cases same), fun other same => ?_⟩
      cases same
      exact written unmarked _
    · intro fault after unmarked
      exact ⟨unmarked.finish (by simp), fun _ _ => (written unmarked _).trans before.symm,
        fun _ same => by cases same⟩
  · exact fun _ _ _ => untouched _
  · exact fun _ _ _ => untouched _
  · exact fun _ _ _ => untouched _
  · exact fun _ => untouched _

/-- A term that is there is read without compiling anything. -/
theorem force_ready {term : Term} (holds : state.slot? id slot = some (.ready term))
    (compile : Inliner) (location : Location) :
    Compile.force compile location id slot state = (.ok term, state) := by
  obtain ⟨frame, found, ready⟩ := Option.bind_eq_some_iff.mp holds
  unfold Compile.force
  rw [bind_run, frame_run found]
  simp only [ready]
  rfl

/-- A definition that waits is compiled, with a mark in its slot. -/
theorem force_pending {definition : Expr} (holds : state.slot? id slot = some (.pending definition))
    (compile : Inliner) (location : Location) :
    Compile.force compile location id slot state =
      Compile.settling id slot definition (compile id definition) (state.put id slot .busy) := by
  obtain ⟨frame, found, pending⟩ := Option.bind_eq_some_iff.mp holds
  have stored : Compile.store id slot .busy state = (.ok (), state.put id slot .busy) := by
    apply Ends.exact
    exact .symbolicStore_found found (List.getElem?_eq_some_iff.mp pending).1 ⟨rfl, rfl⟩
  unfold Compile.force
  rw [bind_run, frame_run found]
  simp only [pending]
  rw [bind_run, stored]

/-- If no definition waits, nothing is compiled. -/
theorem force_idle (idle : ∀ definition, state.slot? id slot ≠ some (.pending definition))
    (compile compile' : Inliner) (location : Location) :
    Compile.force compile location id slot state =
      Compile.force compile' location id slot state := by
  have looked : Ends (Compile.frame id) state
      (fun frame after => state.compiler.frames[id]? = some frame ∧ after = state)
      fun _ _ => True :=
    .symbolicFrame (fun _ found => ⟨found, rfl⟩) fun _ => trivial
  unfold Compile.force
  rw [bind_run, bind_run]
  rcases ran : Compile.frame id state with ⟨fault | frame, after⟩
  · rfl
  · obtain ⟨found, rfl⟩ := looked.returned ran
    dsimp only
    cases there : frame.slots[slot]? with
    | none => rfl
    | some content =>
      cases content with
      | pending definition =>
        exact (idle definition ((CompilerState.slot?_of_frame? found).trans there)).elim
      | empty | busy | ready => rfl

end Shader

end ShapeLang
