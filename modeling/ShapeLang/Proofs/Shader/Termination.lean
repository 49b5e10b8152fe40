import ShapeLang.Proofs.Eval.Termination
import ShapeLang.Proofs.Shader.Direct
import ShapeLang.Proofs.Shader.Safety
import ShapeLang.Proofs.Shader.Work

/-! # Compilation to shader code ends

Inlining a function ends with some amount of fuel, whatever is in the frames that it captured and
whatever the compiler has done before. A definition is compiled in the frame that it belongs to, which
has at least the rank of the frame that needs it; a function that is inlined gets a frame of less rank,
since its literal was not being inlined.
-/

namespace ShapeLang

open Multiset Shader

namespace Terminates

variable {σ α : Type} {action : Nat → ExceptT Fault (StateM σ) α} {s : σ} {returns : α → σ → Prop}

/-- More fuel from the beginning. -/
theorem offset (ends : Terminates action s returns) (more : Nat) :
    Terminates (fun fuel => action (fuel + more)) s returns := by
  obtain ⟨enough, result, after, settled, rest⟩ := ends
  exact ⟨enough, result, after, fun fuel le => settled _ (Nat.le_trans le (Nat.le_add_right ..)), rest⟩

/-- What holds of every return holds of the one in the end. -/
theorem and_ends {returns' : α → σ → Prop} {fails : Fault → σ → Prop}
    (terminates : Terminates action s returns)
    (ends : ∀ fuel, Ends (action fuel) s returns' fails) :
    Terminates action s fun a after => returns a after ∧ returns' a after := by
  obtain ⟨enough, result, after, settled, fueled, ok⟩ := terminates
  refine ⟨enough, result, after, settled, fueled, fun a same => ⟨ok a same, ?_⟩⟩
  exact (ends enough).returned (same ▸ settled enough (Nat.le_refl _))

section Compile

variable {state : CompilerState}

/-- Reading captured frames. -/
theorem evaluating {α : Type} {action : Nat → Eval α} {returns : α → Heap → Prop}
    (ends : Terminates action state.heap returns) :
    Terminates (fun fuel => Compile.evaluating (action fuel)) state fun a after =>
      after.compiler = state.compiler ∧ returns a after.heap := by
  obtain ⟨enough, result, after, settled, fueled, ok⟩ := ends
  refine ⟨enough, result, { state with heap := after }, fun fuel le => ?_, fueled, fun a same =>
    ⟨rfl, ok a same⟩⟩
  simp only [Compile.evaluating, settled fuel le]

theorem symbolicSettling {id slot : Nat} {definition : Expr} {action : Nat → Compile Term}
    {returns : Term → CompilerState → Prop}
    (ends : Terminates action state fun term after =>
      returns term { after with compiler := after.compiler.put id slot (.ready term) }) :
    Terminates (fun fuel => Compile.settling id slot definition (action fuel)) state returns := by
  obtain ⟨enough, result, after, settled, fueled, ok⟩ := ends
  cases result with
  | error fault =>
    refine ⟨enough, .error fault,
      { after with compiler := after.compiler.put id slot (.pending definition) },
      fun fuel le => ?_, fueled, fun _ same => by cases same⟩
    simp only [Compile.settling, settled fuel le]
  | ok term =>
    refine ⟨enough, .ok term,
      { after with compiler := after.compiler.put id slot (.ready term) },
      fun fuel le => ?_, fueled, fun other same => ?_⟩
    · simp only [Compile.settling, settled fuel le]
    · exact Except.ok.inj same ▸ ok term rfl

theorem inlining {function : Location} {action : Nat → Compile Term}
    {returns : Term → CompilerState → Prop}
    (ends : Terminates action (state.entering function) fun term after =>
      returns term after.leaving) :
    Terminates (fun fuel => Compile.inlining function (action fuel)) state returns := by
  obtain ⟨enough, result, after, settled, fueled, ok⟩ := ends
  refine ⟨enough, result, after.leaving, fun fuel le => ?_, fueled, ok⟩
  have run : Compile.inlining function (action fuel) state =
      ((action fuel (state.entering function)).1,
        (action fuel (state.entering function)).2.leaving) := rfl
  dsimp only
  rw [run, settled fuel le]

end Compile

end Terminates

namespace Shader

variable {known : Finset Location} {base : Nat}

/-- The frames that a compilation makes, from `base` on: around each lie frames of at least its
rank, and all functions come from known literals. -/
structure Ranked (known : Finset Location) (base : Nat) (ranks : Ranks) (state : CompilerState) :
    Prop where
  heap : state.heap.Within known
  pending : ∀ (id : Nat) frame (slot : Nat) expr, base ≤ id →
    state.compiler.frames[id]? = some frame → frame.slots[slot]? = some (.pending expr) →
    expr.Within known
  outer : ∀ (id : Nat) frame outer, base ≤ id → state.compiler.frames[id]? = some frame →
    frame.outer = .symbolic outer →
    base ≤ outer ∧ outer < state.compiler.frames.size ∧ ranks id ≤ ranks outer

namespace Ranked

variable {ranks ranks' : Ranks} {state later : CompilerState}

/-- Changes that leave the symbolic frames alone. -/
theorem of_frames (ranked : Ranked known base ranks state) (heap : later.heap.Within known)
    (frames : later.compiler.frames = state.compiler.frames) : Ranked known base ranks later := by
  obtain ⟨-, pending, outer⟩ := ranked
  rw [← frames] at pending outer
  exact ⟨heap, pending, outer⟩

theorem put (ranked : Ranked known base ranks state) {id slot : Nat} {content : SymbolicSlot}
    (within : ∀ expr, content = .pending expr → expr.Within known) :
    Ranked known base ranks { state with compiler := state.compiler.put id slot content } := by
  have origin {other : Nat} {later : SymbolicFrame}
      (found : (state.compiler.put id slot content).frames[other]? = some later) :
      ∃ frame, state.compiler.frames[other]? = some frame ∧ later.outer = frame.outer ∧
        ∀ (place : Nat) old, later.slots[place]? = some old →
          frame.slots[place]? = some old ∨ old = content := by
    by_cases same : id = other
    · subst same
      cases found' : state.compiler.frames[id]? with
      | none => simp [Compiler.put, Array.getElem?_modify, found'] at found
      | some frame =>
        rw [Compiler.frame?_put_self found'] at found
        cases found
        refine ⟨frame, rfl, rfl, fun place old holds => ?_⟩
        by_cases here : slot = place
        · subst here
          obtain ⟨inside, is⟩ := List.getElem?_eq_some_iff.mp holds
          exact .inr (by simpa using is.symm)
        · rw [List.getElem?_set_ne here] at holds
          exact .inl holds
    · rw [Compiler.frame?_put_ne same] at found
      exact ⟨later, found, rfl, fun _ _ holds => .inl holds⟩
  refine ⟨ranked.heap, fun other later place expr low found holds => ?_,
    fun other later outer low found same => ?_⟩
  · obtain ⟨frame, found', -, slots⟩ := origin found
    rcases slots place _ holds with old | new
    · exact ranked.pending other frame place expr low found' old
    · exact within expr new.symm
  · obtain ⟨frame, found', is, -⟩ := origin found
    rw [Compiler.size_put]
    exact ranked.outer other frame outer low found' (is ▸ same)

theorem alloc (ranked : Ranked known base ranks state)
    (agree : ∀ id < state.compiler.frames.size, ranks' id = ranks id) {slotCount : Nat}
    {outer : Outer} (around : ∀ id, outer = .symbolic id → base ≤ id ∧
      id < state.compiler.frames.size ∧ ranks' state.compiler.frames.size ≤ ranks' id) :
    Ranked known base ranks'
      { state with compiler := state.compiler.alloc slotCount outer } := by
  have size : (state.compiler.alloc slotCount outer).frames.size =
      state.compiler.frames.size + 1 := by
    simp [Compiler.alloc]
  refine ⟨ranked.heap, fun id frame slot expr low found holds => ?_,
    fun id frame other low found same => ?_⟩
  · by_cases new : id = state.compiler.frames.size
    · subst new
      rw [Compiler.frame?_alloc_self] at found
      cases found
      simp [List.getElem?_replicate] at holds
    · rw [Compiler.frame?_alloc_ne new] at found
      exact ranked.pending id frame slot expr low found holds
  · rw [size]
    by_cases new : id = state.compiler.frames.size
    · subst new
      rw [Compiler.frame?_alloc_self] at found
      cases found
      obtain ⟨low', old, le⟩ := around other same
      exact ⟨low', Nat.lt_succ_of_lt old, le⟩
    · rw [Compiler.frame?_alloc_ne new] at found
      obtain ⟨low', old, le⟩ := ranked.outer id frame other low found same
      refine ⟨low', Nat.lt_succ_of_lt old, ?_⟩
      rwa [agree id (Array.getElem?_eq_some_iff.mp found).1, agree other old]

end Ranked

/-- The compilation goes on and reaches `later`: what was there keeps its rank, and all functions
that were being inlined still are. -/
structure Leads (known : Finset Location) (base : Nat) (ranks : Ranks) (state : CompilerState)
    (ranks' : Ranks) (later : CompilerState) : Prop where
  ranked : Ranked known base ranks' later
  inlining : later.compiler.inlining = state.compiler.inlining
  size_le : state.compiler.frames.size ≤ later.compiler.frames.size
  agree : ∀ id < state.compiler.frames.size, ranks' id = ranks id

theorem Leads.trans {ranks middle ranks' : Ranks} {state between later : CompilerState}
    (first : Leads known base ranks state middle between)
    (second : Leads known base middle between ranks' later) :
    Leads known base ranks state ranks' later :=
  ⟨second.ranked, second.inlining.trans first.inlining, Nat.le_trans first.size_le second.size_le,
    fun id old => (second.agree id (Nat.lt_of_lt_of_le old first.size_le)).trans (first.agree id old)⟩

/-- Where a compilation can start: the frame is one of its own, and has at least the rank of what is
still to be inlined. -/
structure Ready (known : Finset Location) (base : Nat) (ranks : Ranks) (state : CompilerState)
    (id : Nat) : Prop where
  low : base ≤ id
  old : id < state.compiler.frames.size
  rank : outside known state.compiler.inlining ≤ ranks id

/-- Whatever has less work left than the limit ends. -/
def EndsBelow (known : Finset Location) (base : Nat) (compile : Nat → Inliner)
    (limit : Multiset Task) : Prop :=
  ∀ state ranks id (expr : Expr), Ranked known base ranks state → Ready known base ranks state id →
    expr.Within known →
    IsDershowitzMannaLT (state.compiler.work ranks + {toLex (ranks id, sizeOf expr)}) limit →
    Terminates (fun fuel => compile fuel id expr) state fun _ after => ∃ ranks',
      Leads known base ranks state ranks' after ∧
        IsDershowitzMannaLT (after.compiler.work ranks')
          (state.compiler.work ranks + {toLex (ranks id, sizeOf expr)})

/-- A state that a compilation below the bound has reached from `start`. -/
structure Progress (known : Finset Location) (base : Nat) (ranks : Ranks) (start : CompilerState)
    (bound : Task) (ranks' : Ranks) (state : CompilerState) : Prop where
  leads : Leads known base ranks start ranks' state
  left : Task.Left (start.compiler.work ranks) bound (state.compiler.work ranks')

variable {ranks ranks' : Ranks} {start state later : CompilerState} {bound : Task}

namespace Progress

theorem refl (ranked : Ranked known base ranks start) :
    Progress known base ranks start bound ranks start :=
  ⟨⟨ranked, rfl, Nat.le_refl _, fun _ _ => rfl⟩, .refl _ _⟩

/-- What leaves the symbolic frames alone. -/
theorem of_frames (progress : Progress known base ranks start bound ranks' state)
    (heap : later.heap.Within known) (frames : later.compiler.frames = state.compiler.frames)
    (inlining : later.compiler.inlining = state.compiler.inlining) :
    Progress known base ranks start bound ranks' later := by
  obtain ⟨⟨ranked, same, size, agree⟩, left⟩ := progress
  refine ⟨⟨ranked.of_frames heap frames, inlining.trans same, frames ▸ size, agree⟩, ?_⟩
  have work : later.compiler.work ranks' = state.compiler.work ranks' := by
    rw [Compiler.work, frames, Compiler.work]
  rwa [work]

theorem put (progress : Progress known base ranks start bound ranks' state) {id slot : Nat}
    {content : SymbolicSlot} (within : ∀ expr, content = .pending expr → expr.Within known)
    (below : ∀ task ∈ content.work (ranks' id), task < bound) :
    Progress known base ranks start bound ranks'
      { state with compiler := state.compiler.put id slot content } := by
  obtain ⟨⟨ranked, same, size, agree⟩, left⟩ := progress
  exact ⟨⟨ranked.put within, same, by rwa [Compiler.size_put], agree⟩,
    left.next _ below (.of_le (Compiler.work_put_le content))⟩

theorem put_ready (progress : Progress known base ranks start bound ranks' state) {id slot : Nat}
    {term : Term} :
    Progress known base ranks start bound ranks'
      { state with compiler := state.compiler.put id slot (.ready term) } :=
  progress.put (fun _ same => by cases same) (by simp [SymbolicSlot.work])

/-- The frame that the compilation started in is still one to work in. -/
theorem ready (progress : Progress known base ranks start bound ranks' state) {id : Nat}
    (ready : Ready known base ranks start id) : Ready known base ranks' state id :=
  ⟨ready.low, Nat.lt_of_lt_of_le ready.old progress.leads.size_le, by
    rw [progress.leads.inlining, progress.leads.agree id ready.old]
    exact ready.rank⟩

/-- A part that does nothing but emit code. -/
theorem direct {α : Type} {kind : Operation → Prop} {action : Compile α}
    (progress : Progress known base ranks start bound ranks' state)
    (direct : Direct kind action) :
    Terminates (fun _ => action) state fun _ after =>
      ∃ ranks'', Progress known base ranks start bound ranks'' after := by
  apply Terminates.of_ends
  apply (direct.ends state).mono
  · rintro a after ⟨heap, frames, inlining⟩
    exact ⟨ranks', progress.of_frames (heap ▸ progress.leads.ranked.heap) frames inlining⟩
  · rintro fault after ⟨-, e, rfl⟩ impossible
    cases impossible

end Progress

section Step

variable {compile : Nat → Inliner} {evaluate : Nat → Evaluator} {held : List Held} {id : Nat}
  {location : Location}
  (below : EndsBelow known base compile (start.compiler.work ranks + {bound}))

include below

/-- A part of the expression, in the frame that the compilation started in. -/
theorem EndsBelow.part (progress : Progress known base ranks start bound ranks' state)
    (ready : Ready known base ranks start id) {part : Expr} (within : part.Within known)
    (smaller : toLex (ranks id, sizeOf part) < bound) :
    Terminates (fun fuel => compile fuel id part) state fun _ after =>
      ∃ ranks'', Progress known base ranks start bound ranks'' after := by
  rw [← progress.leads.agree id ready.old] at smaller
  apply (below state ranks' id part progress.leads.ranked (progress.ready ready) within
    (progress.left.add_lt smaller)).mono
  rintro _ after ⟨ranks'', leads, less⟩
  exact ⟨ranks'', progress.leads.trans leads,
    progress.left.next _ (by simpa using smaller) (.inr less)⟩

/-- Reading a slot of a symbolic frame that is around the frame to work in. -/
theorem EndsBelow.force (progress : Progress known base ranks start bound ranks' state) {slot : Nat}
    (ready : Ready known base ranks' state id) :
    Terminates (fun fuel => Compile.force (compile fuel) location id slot) state fun _ after =>
      ∃ ranks'', Progress known base ranks start bound ranks'' after := by
  refine Terminates.through (fun frame after =>
    state.compiler.frames[id]? = some frame ∧ state = after)
    (.of_ends (.symbolicFrame (fun frame found => ⟨found, rfl⟩) (by simp))) ?_
  rintro frame _ ⟨found, rfl⟩
  dsimp only
  cases content : frame.slots[slot]? with
  | none => exact .of_ends (.throw (by simp))
  | some content' =>
    cases content' with
    | empty => exact .of_ends (.throw (by simp))
    | busy => exact .of_ends (.refuse (by simp))
    | ready term => exact .of_ends (.pure ⟨ranks', progress⟩)
    | pending definition =>
      have inside : slot < frame.slots.length := (List.getElem?_eq_some_iff.mp content).1
      have within := progress.leads.ranked.pending id frame slot definition ready.low found content
      refine Terminates.through (fun _ after =>
        { state with compiler := state.compiler.put id slot .busy } = after)
        (.of_ends (.symbolicStore_found found inside rfl)) ?_
      rintro _ _ rfl
      have busy : Progress known base ranks start bound ranks'
          { state with compiler := state.compiler.put id slot .busy } :=
        progress.put (fun _ same => by cases same) (by simp [SymbolicSlot.work])
      -- The pending slot is the task that is now compiled.
      have same : (state.compiler.put id slot .busy).work ranks' +
          {toLex (ranks' id, sizeOf definition)} = state.compiler.work ranks' := by
        have sum : _ = state.compiler.work ranks' + _ := Compiler.work_put .busy found content
        simpa [SymbolicSlot.work] using sum
      apply Terminates.symbolicSettling
      apply (below _ ranks' id definition busy.leads.ranked
        ⟨ready.low, by rw [Compiler.size_put]; exact ready.old, ready.rank⟩ within ?_).mono
      · rintro term after ⟨ranks'', leads, less⟩
        rw [same] at less
        have reached : Progress known base ranks start bound ranks'' after :=
          ⟨busy.leads.trans leads, progress.left.of_atMost (.inr less)⟩
        exact ⟨ranks'', reached.put_ready⟩
      · rw [same]
        exact progress.left.lt

/-- Compiling several parts, one after the other. -/
theorem EndsBelow.each (progress : Progress known base ranks start bound ranks' state)
    (ready : Ready known base ranks start id) (exprs : List Expr)
    (within : ∀ expr ∈ exprs, expr.Within known)
    (smaller : ∀ expr ∈ exprs, toLex (ranks id, sizeOf expr) < bound) :
    Terminates (fun fuel => exprs.mapM (compile fuel id)) state fun _ after =>
      ∃ later, Progress known base ranks start bound later after := by
  induction exprs generalizing state ranks' with
  | nil => exact .of_ends (.pure ⟨ranks', progress⟩)
  | cons expr exprs ih =>
    simp only [List.mapM_cons]
    obtain ⟨first, others⟩ := List.forall_mem_cons.mp within
    obtain ⟨less, rest⟩ := List.forall_mem_cons.mp smaller
    apply (below.part progress ready first less).bind
    rintro term after ⟨middle, progress⟩
    apply (ih progress others rest).bind
    rintro terms last ⟨final, progress⟩
    exact .of_ends (.pure ⟨final, progress⟩)

omit below in
theorem ends_storePending (progress : Progress known base ranks start bound ranks' state)
    (ready : Ready known base ranks start id) (definitions : List (Nat × Expr))
    (within : ∀ definition ∈ definitions, definition.2.Within known)
    (smaller : ∀ definition ∈ definitions, toLex (ranks id, sizeOf definition.2) < bound) :
    Ends (Compile.storePending id definitions) state
      (fun _ after => Progress known base ranks start bound ranks' after)
      fun fault _ => fault ≠ .outOfFuel := by
  induction definitions generalizing state with
  | nil => exact .pure progress
  | cons definition definitions ih =>
    obtain ⟨first, others⟩ := List.forall_mem_cons.mp within
    obtain ⟨less, rest⟩ := List.forall_mem_cons.mp smaller
    rw [← progress.leads.agree id ready.old] at less
    refine Ends.through (fun _ after =>
      { state with compiler := state.compiler.put id definition.1 (.pending definition.2) } = after)
      (.symbolicStore (fun _ _ _ => rfl) (by simp) (by simp)) ?_
    rintro _ _ rfl
    refine ih (progress.put (fun expr same => ?_) ?_) others rest
    · obtain rfl := SymbolicSlot.pending.inj same
      exact first
    · simpa [SymbolicSlot.work] using less

omit below in
theorem ends_storeAll {slot : Nat} (terms : List Term)
    (progress : Progress known base ranks start bound ranks' state) :
    Ends (Compile.storeAll id slot terms) state
      (fun _ after => Progress known base ranks start bound ranks' after ∧
        after.compiler.frames.size = state.compiler.frames.size)
      fun fault _ => fault ≠ .outOfFuel := by
  induction terms generalizing state slot with
  | nil => exact .pure ⟨progress, rfl⟩
  | cons term terms ih =>
    refine Ends.through (fun _ after =>
      { state with compiler := state.compiler.put id slot (.ready term) } = after)
      (.symbolicStore (fun _ _ _ => rfl) (by simp) (by simp)) ?_
    rintro _ _ rfl
    apply (ih progress.put_ready).mono
    · rintro _ after ⟨progress, size⟩
      exact ⟨progress, size.trans Compiler.size_put⟩
    · exact fun _ _ fueled => fueled

omit below in
/-- The function was inlined. -/
theorem Leads.leaving {function : Location}
    (leads : Leads known base ranks (state.entering function) ranks' later) :
    Leads known base ranks state ranks' later.leaving := by
  obtain ⟨ranked, inlining, size, agree⟩ := leads
  refine ⟨ranked.of_frames ranked.heap rfl, ?_, size, agree⟩
  change later.compiler.inlining.drop 1 = _
  rw [inlining]
  rfl

/-- Inlining a function, whose frame has less rank than what was still to be inlined. -/
theorem EndsBelow.inlineCall (progress : Progress known base ranks start bound ranks' state)
    (low : base ≤ start.compiler.frames.size)
    (lower : ∀ rank size, rank < outside known start.compiler.inlining → toLex (rank, size) < bound)
    {lambda : Lambda}
    (within : lambda.Within known) {outer : Outer}
    (around : ∀ owner, outer = .symbolic owner → Ready known base ranks start owner)
    (args : List Term) :
    Terminates (fun fuel => Compile.inlineCall (compile fuel) lambda outer args location) state
      fun _ after => ∃ later, Progress known base ranks start bound later after := by
  unfold Compile.inlineCall
  by_cases count : args.length = lambda.paramCount
  · simp only [count, ne_eq, not_true_eq_false, ↓reduceIte]
    refine Terminates.through (fun found after => state.compiler = found ∧ state = after)
      (.of_ends (.compiler ⟨rfl, rfl⟩)) ?_
    rintro _ _ ⟨rfl, rfl⟩
    by_cases recursive : lambda.location ∈ state.compiler.inlining
    · simp only [recursive, ↓reduceIte]
      exact .stop (.of_ends (.unsupported (by simp)))
    · simp only [recursive, ↓reduceIte]
      -- The rank of the new frame.
      obtain ⟨rank, is⟩ : ∃ rank, outside known (lambda.location :: state.compiler.inlining) = rank :=
        ⟨_, rfl⟩
      have less : rank < outside known state.compiler.inlining := is ▸ outside_cons within.1 recursive
      let middle : Ranks := Function.update ranks' state.compiler.frames.size rank
      have agree (other : Nat) (old : other < state.compiler.frames.size) :
          middle other = ranks' other := Function.update_of_ne (Nat.ne_of_lt old) _ _
      have new : middle state.compiler.frames.size = rank := Function.update_self ..
      have allocated : Progress known base ranks start bound middle
          { state with compiler := state.compiler.alloc lambda.slotCount outer } := by
        refine ⟨⟨progress.leads.ranked.alloc agree fun owner same => ?_, progress.leads.inlining,
          ?_, fun other old => ?_⟩, ?_⟩
        · have known := progress.ready (around owner same)
          refine ⟨known.low, known.old, ?_⟩
          rw [new, agree owner known.old]
          exact Nat.le_trans (Nat.le_of_lt less) known.rank
        · have := progress.leads.size_le
          simp [Compiler.alloc]
          omega
        · rw [agree other (Nat.lt_of_lt_of_le old progress.leads.size_le)]
          exact progress.leads.agree other old
        · rw [Compiler.work_alloc agree]
          exact progress.left
      refine Terminates.through (fun found after => state.compiler.frames.size = found ∧
        { state with compiler := state.compiler.alloc lambda.slotCount outer } = after)
        (.of_ends (.symbolicAlloc ⟨rfl, rfl⟩)) ?_
      rintro _ _ ⟨rfl, rfl⟩
      apply (Terminates.of_ends (ends_storeAll args allocated)).bind
      rintro _ after ⟨stored, size⟩
      have inlining : after.compiler.inlining = state.compiler.inlining :=
        stored.leads.inlining.trans progress.leads.inlining.symm
      have inside : Ready known base middle (after.entering lambda.location)
          state.compiler.frames.size := by
        refine ⟨Nat.le_trans low progress.leads.size_le, ?_, ?_⟩
        · change state.compiler.frames.size < after.compiler.frames.size
          rw [size]
          simp [Compiler.alloc]
        · change outside known (lambda.location :: after.compiler.inlining) ≤ _
          rw [inlining, is, new]
      have smaller : toLex (middle state.compiler.frames.size, sizeOf lambda.body) < bound := by
        rw [new]
        apply lower
        rwa [← progress.leads.inlining]
      have ranked : Ranked known base middle (after.entering lambda.location) :=
        stored.leads.ranked.of_frames stored.leads.ranked.heap rfl
      apply Terminates.inlining
      apply (below _ middle _ lambda.body ranked inside within.2 (stored.left.add_lt smaller)).mono
      rintro term last ⟨final, leads, less⟩
      exact ⟨final, stored.leads.trans leads.leaving,
        stored.left.next _ (by simpa using smaller) (.inr less)⟩
  · simp only [count, ne_eq, not_false_eq_true, ↓reduceIte]
    exact .stop (.of_ends (.refuse (by simp)))

omit below in
/-- The frame around, if it is a symbolic one, can be worked in. -/
theorem Ranked.ancestor (ranked : Ranked known base ranks state)
    (ready : Ready known base ranks state id) (depth : Nat) :
    Ends (Compile.ancestor id depth) state
      (fun outer after => state = after ∧
        ∀ owner, outer = .symbolic owner → Ready known base ranks state owner)
      fun fault _ => fault ≠ .outOfFuel := by
  induction depth generalizing id with
  | zero =>
    refine .pure ⟨rfl, fun owner same => ?_⟩
    exact Outer.symbolic.inj same ▸ ready
  | succ depth ih =>
    rw [Compile.ancestor]
    refine Ends.through (fun frame after =>
      state.compiler.frames[id]? = some frame ∧ state = after)
      (.symbolicFrame (fun frame found => ⟨found, rfl⟩) (by simp)) ?_
    rintro frame _ ⟨found, rfl⟩
    cases around : frame.outer with
    | symbolic outer =>
      obtain ⟨low, old, le⟩ := ranked.outer id frame outer ready.low found around
      exact ih ⟨low, old, Nat.le_trans ready.rank le⟩
    | captured outer =>
      exact .map (.evaluating (.ancestor (fun _ _ => ⟨rfl, fun _ same => by cases same⟩) (by simp)))

/-- Reading a slot of a captured frame ends, with a value whose functions come from known
literals. -/
def Reads (known : Finset Location) (evaluate : Nat → Evaluator) (held : List Held) : Prop :=
  ∀ (heap : Heap) (owner : FrameId) (slot : Nat) (context : Context), heap.Within known →
    Terminates (fun fuel => Eval.force (evaluate fuel) held owner slot context) heap
      fun value after => after.Within known ∧ value.Within known

/-- A function that is called: its literal is known, and the frame around it can be worked in. -/
def Inlinable (known : Finset Location) (base : Nat) (ranks : Ranks) (state : CompilerState) :
    Compile.Callee → Prop
  | .lambda lambda outer => lambda.Within known ∧
      ∀ owner, outer = .symbolic owner → Ready known base ranks state owner
  | .builtin _ => True

variable (reads : Reads known evaluate held)

omit below in
include reads in
theorem Progress.captured (progress : Progress known base ranks start bound ranks' state)
    (owner : FrameId) (slot : Nat) :
    Terminates (fun fuel => Compile.captured (evaluate fuel) held location owner slot) state
      fun value after => after.compiler = state.compiler ∧ value.Within known ∧
        Progress known base ranks start bound ranks' after := by
  apply (Terminates.evaluating
    (reads state.heap owner slot (.place location none) progress.leads.ranked.heap)).mono
  rintro value after ⟨same, heap, within⟩
  exact ⟨same, within, progress.of_frames heap (by rw [same]) (by rw [same])⟩

omit below in
include reads in
/-- Finding the function that is called. -/
theorem Ranked.callee (ranked : Ranked known base ranks start)
    (ready : Ready known base ranks start id) {function : Expr}
    (within : function.Within known) :
    Terminates (fun fuel => Compile.callee (evaluate fuel) held id function) start
      fun callee after => Inlinable known base ranks start callee ∧
        Progress known base ranks start bound ranks after := by
  have progress : Progress known base ranks start bound ranks start := .refl ranked
  unfold Compile.callee
  dsimp only
  split
  · exact .of_ends (.pure ⟨trivial, progress⟩)
  · obtain ⟨mem, body⟩ := Expr.within_lambda.mp within
    exact .of_ends (.pure ⟨⟨⟨mem, body⟩, fun _ same => Outer.symbolic.inj same ▸ ready⟩, progress⟩)
  · apply (Terminates.of_ends (ranked.ancestor ready _)).bind
    rintro outer _ ⟨rfl, around⟩
    cases outer with
    | symbolic owner =>
      have inside := around owner rfl
      refine Terminates.through (fun frame after =>
        start.compiler.frames[owner]? = some frame ∧ start = after)
        (.of_ends (.symbolicFrame (fun frame found => ⟨found, rfl⟩) (by simp))) ?_
      rintro frame _ ⟨found, rfl⟩
      split
      · rename_i pending
        obtain ⟨mem, body⟩ := Expr.within_lambda.mp
          (ranked.pending owner frame _ _ inside.low found pending)
        exact .of_ends (.pure
          ⟨⟨⟨mem, body⟩, fun _ same => Outer.symbolic.inj same ▸ inside⟩, progress⟩)
      · exact .of_ends (.unsupported (by simp))
    | captured owner =>
      apply (progress.captured reads owner _).bind
      rintro value after ⟨-, inner, progress⟩
      cases value with
      | closure serial lambda env =>
        cases inner with
        | closure within =>
          exact .of_ends (.pure ⟨⟨within, fun _ same => by cases same⟩, progress⟩)
      | builtin function => exact .of_ends (.pure ⟨trivial, progress⟩)
      | _ => exact .of_ends (.unsupported (by simp))
  · exact .of_ends (.unsupported (by simp))

omit below in
include reads in
/-- One step of compilation, if what has less work left ends. -/
theorem step_terminates {expr : Expr} (ranked : Ranked known base ranks start)
    (ready : Ready known base ranks start id) (within : expr.Within known)
    (below : EndsBelow known base compile
      (start.compiler.work ranks + {toLex (ranks id, sizeOf expr)})) :
    Terminates (fun fuel => Compile.step (evaluate fuel) held (compile fuel) id expr) start
      fun _ after => ∃ later,
        Progress known base ranks start (toLex (ranks id, sizeOf expr)) later after := by
  have refl : Progress known base ranks start (toLex (ranks id, sizeOf expr)) ranks start :=
    .refl ranked
  have smaller {part : Expr} (less : sizeOf part < sizeOf expr) :
      toLex (ranks id, sizeOf part) < toLex (ranks id, sizeOf expr) :=
    Prod.Lex.toLex_lt_toLex.mpr (.inr ⟨rfl, less⟩)
  unfold Compile.step
  cases expr with
  | constant location value => exact refl.direct (.constant _)
  | slot location depth slot =>
    apply (Terminates.of_ends (ranked.ancestor ready depth)).bind
    rintro outer _ ⟨rfl, around⟩
    cases outer with
    | symbolic owner => exact below.force refl (around owner rfl)
    | captured owner =>
      apply (refl.captured reads owner slot).bind
      rintro value after ⟨-, -, progress⟩
      exact progress.direct (.constant value)
  | call location function args =>
    obtain ⟨head, rest⟩ := Expr.within_call.mp within
    apply (ranked.callee reads ready head).bind
    rintro callee after ⟨inlinable, progress⟩
    apply (below.each progress ready args rest ?_).bind
    · rintro args last ⟨_, progress⟩
      cases callee with
      | lambda lambda outer =>
        apply below.inlineCall progress (Nat.le_trans ready.low (Nat.le_of_lt ready.old)) ?_
          inlinable.1 inlinable.2 args
        intro rank size less
        exact Prod.Lex.toLex_lt_toLex.mpr (.inl (Nat.lt_of_lt_of_le less ready.rank))
      | builtin function => exact progress.direct (.builtin function args)
    · intro arg mem
      have := List.sizeOf_lt_of_mem mem
      exact smaller (by rw [Expr.call.sizeOf_spec]; omega)
  | list location items =>
    apply (below.each refl ready items (Expr.within_list.mp within) ?_).bind
    · rintro items last ⟨_, progress⟩
      exact progress.direct (.vector items)
    · intro item mem
      have := List.sizeOf_lt_of_mem mem
      exact smaller (by rw [Expr.list.sizeOf_spec]; omega)
  | record => exact .of_ends (.unsupported (by simp))
  | «module» => exact .of_ends (.unsupported (by simp))
  | lambda => exact .of_ends (.unsupported (by simp))
  | forEach => exact .of_ends (.unsupported (by simp))
  | letIn location bindings body =>
    obtain ⟨parts, rest⟩ := Expr.within_letIn.mp within
    apply (Terminates.of_ends (ends_storePending refl ready bindings parts ?_)).bind
    · intro _ after progress
      exact below.part progress ready rest (smaller (by rw [Expr.letIn.sizeOf_spec]; omega))
    · rintro ⟨slot, definition⟩ mem
      have := List.sizeOf_lt_of_mem mem
      exact smaller (by simp at this ⊢; omega)
  | unary location op operand =>
    apply (below.part refl ready (Expr.within_unary.mp within)
      (smaller (by rw [Expr.unary.sizeOf_spec]; omega))).bind
    rintro x after ⟨_, progress⟩
    exact progress.direct (.unary op x)
  | binary location op left right =>
    obtain ⟨first, second⟩ := Expr.within_binary.mp within
    apply (below.part refl ready first (smaller (by rw [Expr.binary.sizeOf_spec]; omega))).bind
    rintro a after ⟨_, progress⟩
    apply (below.part progress ready second
      (smaller (by rw [Expr.binary.sizeOf_spec]; omega))).bind
    rintro b last ⟨_, progress⟩
    exact progress.direct (.binary op a b)
  | conditional location condition whenTrue whenFalse =>
    obtain ⟨first, second, third⟩ := Expr.within_conditional.mp within
    apply (below.part refl ready first
      (smaller (by rw [Expr.conditional.sizeOf_spec]; omega))).bind
    rintro c after ⟨_, progress⟩
    by_cases bool : c.type = .bool
    · simp only [bool, ne_eq, not_true_eq_false, ↓reduceIte]
      apply (below.part progress ready second
        (smaller (by rw [Expr.conditional.sizeOf_spec]; omega))).bind
      rintro a middle ⟨_, progress⟩
      apply (below.part progress ready third
        (smaller (by rw [Expr.conditional.sizeOf_spec]; omega))).bind
      rintro b last ⟨_, progress⟩
      exact progress.direct (.checked fun _ => .select c a b)
    · simp only [bool, ne_eq, not_false_eq_true, ↓reduceIte]
      exact .stop (.of_ends (.unsupported (by simp)))
  | dot location base name =>
    apply (below.part refl ready (Expr.within_dot.mp within)
      (smaller (by rw [Expr.dot.sizeOf_spec]; omega))).bind
    rintro v after ⟨_, progress⟩
    exact progress.direct (.field name v)
  | index location base index =>
    obtain ⟨first, second⟩ := Expr.within_index.mp within
    apply (below.part refl ready first (smaller (by rw [Expr.index.sizeOf_spec]; omega))).bind
    rintro v after ⟨_, progress⟩
    dsimp only
    split
    · exact .of_ends (.unsupported (by simp))
    · apply (below.part progress ready second
        (smaller (by rw [Expr.index.sizeOf_spec]; omega))).bind
      rintro i last ⟨_, progress⟩
      refine progress.direct (.checked fun _ => ?_ : Direct Operation.Sparing _)
      split
      · split
        · exact .emit (by simp)
        · exact .raise _ _
      · exact .emit (by simp)

end Step

/-- Compilation ends if reading captured frames does, and what it leaves to be done is less than
what it was asked for. -/
theorem upTo_terminates {evaluate : Nat → Evaluator} {held : List Held}
    (reads : Reads known evaluate held) (more : Nat) (limit : Multiset Task) :
    EndsBelow known base (fun fuel => Compile.upTo (evaluate (fuel + more)) held fuel) limit := by
  induction limit using (@wellFounded_isDershowitzMannaLT Task _ _).induction generalizing more with
  | _ limit ih =>
    intro state ranks id expr ranked ready within less
    -- Evaluation of captured frames is granted one more unit of fuel than its part of compilation.
    have below : EndsBelow known base
        (fun fuel => Compile.upTo (evaluate (fuel + 1 + more)) held fuel)
        (state.compiler.work ranks + {toLex (ranks id, sizeOf expr)}) := by
      simpa only [Nat.add_right_comm _ 1 more, Nat.add_assoc _ more 1] using ih _ less (more + 1)
    have reads' : Reads known (fun fuel => evaluate (fuel + 1 + more)) held :=
      fun heap owner slot context inside =>
        ((reads heap owner slot context inside).offset more).offset 1
    apply Terminates.of_succ
    apply (step_terminates reads' ranked ready within below).mono
    rintro term after ⟨later, progress⟩
    exact ⟨later, progress.leads, progress.left.lt⟩

/-- Reading captured frames ends. -/
theorem reads_upTo (known : Finset Location) (m : Machine) (held : List Held) :
    Reads known (Eval.upTo m) held := by
  intro heap owner slot context within
  apply ((Eval.force_terminates m heap held owner slot context).and_ends fun fuel =>
    Eval.confined_force (Eval.upTo_confined m fuel) heap within).mono
  exact fun value after both => both.2

/-- Inlining a function ends, whatever it captured, with any arguments, and whatever the compiler
did before. -/
theorem inlineCall_terminates (m : Machine) (held : List Held) (lambda : Lambda) (env : FrameId)
    (args : List Term) (location : Location) (state : CompilerState) :
    Terminates (fun fuel => Compile.inlineCall (Compile.upTo (Eval.upTo m fuel) held fuel) lambda
      (.captured env) args location) state fun _ _ => True := by
  obtain ⟨inFrames, heap⟩ := state.heap.exists_within
  obtain ⟨inFunction, within⟩ := lambda.exists_within
  let known := inFrames ∪ inFunction
  -- The frames that are there already are none of this compilation.
  let base := state.compiler.frames.size
  have ranked : Ranked known base (fun _ => 0) state := by
    refine ⟨heap.mono Finset.subset_union_left, fun id frame slot expr low found => ?_,
      fun id frame outer low found => ?_⟩
    all_goals exact absurd (Array.getElem?_eq_some_iff.mp found).1 (Nat.not_lt.mpr low)
  have start : Progress known base (fun _ => 0) state
      (toLex (outside known state.compiler.inlining, 0)) (fun _ => 0) state := .refl ranked
  have below : EndsBelow known base (fun fuel => Compile.upTo (Eval.upTo m fuel) held fuel)
      (state.compiler.work (fun _ => 0) + {toLex (outside known state.compiler.inlining, 0)}) :=
    upTo_terminates (reads_upTo known m held) 0 _
  have inside : lambda.Within known :=
    ⟨Finset.mem_union_right _ within.1, within.2.mono Finset.subset_union_right⟩
  apply (below.inlineCall start (Nat.le_refl _) (fun rank size less =>
    Prod.Lex.toLex_lt_toLex.mpr (.inl less)) inside (fun _ same => by cases same) args).mono
  exact fun _ _ _ => trivial

end Shader

end ShapeLang
