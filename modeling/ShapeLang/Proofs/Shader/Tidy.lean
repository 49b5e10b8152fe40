import ShapeLang.Proofs.Eval.Neat
import ShapeLang.Proofs.Shader.Forcing
import ShapeLang.Proofs.Shader.Safety
import ShapeLang.Proofs.Shader.SingleAssignment

/-! # Definitions are compiled once

Symbolic frames are kept as orderly as frames are by evaluation that does not fail: in the
compilation of one function every `let` finds its slots empty, and a term that was put into a slot
stays there until the end. To say so of the whole compilation there is another one, which is told
what terms there will be, and which gives an alarm when it meets anything else. It never does.
-/

namespace ShapeLang

namespace Shader

/-- What is in a symbolic slot, without the term. -/
def SymbolicSlot.outline : SymbolicSlot → Slot
  | .empty => .empty
  | .pending expr => .pending expr
  | .busy => .busy
  | .ready _ => .ready (.bool true)

/-- Something that stays in its slot: a term, or a mark as long as the definition is compiled. -/
inductive SymbolicSlot.Taken : SymbolicSlot → Prop
  | busy : Taken .busy
  | ready (term : Term) : Taken (.ready term)

namespace CompilerState

variable {state before middle after : CompilerState} {id other slot : Nat}
  {content : SymbolicSlot} {term : Term}

/-- The symbolic frames as frames, without the terms and without what lies around each frame. -/
def outline (state : CompilerState) : Heap where
  frames := state.compiler.frames.map fun frame =>
    ⟨frame.slots.map SymbolicSlot.outline, some 0, some 0, none, 0⟩
  closures := 0

theorem frame?_outline {frame : SymbolicFrame} (found : state.compiler.frames[id]? = some frame) :
    state.outline.frame? id =
      some ⟨frame.slots.map SymbolicSlot.outline, some 0, some 0, none, 0⟩ := by
  simp [Heap.frame?, outline, found]

theorem frame?_of_outline {frame : Frame} (found : state.outline.frame? id = some frame) :
    ∃ symbolic, state.compiler.frames[id]? = some symbolic ∧
      frame.slots = symbolic.slots.map SymbolicSlot.outline := by
  simp only [Heap.frame?, outline, Array.getElem?_map, Option.map_eq_some_iff] at found
  obtain ⟨symbolic, found, rfl⟩ := found
  exact ⟨symbolic, found, rfl⟩

theorem pending_outline {slots : List SymbolicSlot} {definition : Expr}
    (pending : slots[slot]? = some (.pending definition)) :
    (slots.map SymbolicSlot.outline)[slot]? = some (.pending definition) := by
  rw [List.getElem?_map, pending]
  rfl

theorem slot?_of_free (free : state.outline.FreeAt id slot) :
    state.slot? id slot = some .empty := by
  obtain ⟨frame, found, free⟩ := free
  obtain ⟨symbolic, found', slots⟩ := frame?_of_outline found
  have empty := free.1
  rw [slots, List.getElem?_map, Option.map_eq_some_iff] at empty
  obtain ⟨content, holds, same⟩ := empty
  rw [slot?_of_frame? found', holds]
  cases content with
  | empty => rfl
  | pending | busy | ready => cases same

theorem size_outline : state.outline.frames.size = state.compiler.frames.size := by
  simp [outline]

theorem outline_of_frames (frames : after.compiler.frames = before.compiler.frames) :
    after.outline = before.outline := by
  rw [outline, frames, outline]

theorem outline_put : (state.put id slot content).outline =
    state.outline.put id slot content.outline := by
  simp only [outline, Compiler.put, Heap.put, Heap.mapSlots, Heap.mk.injEq, and_true]
  apply Array.ext_getElem?
  intro other
  simp only [Array.getElem?_map, Array.getElem?_modify]
  split <;> cases state.compiler.frames[other]? <;> simp

theorem outline_putEach (contents : List (Nat × SymbolicSlot)) :
    outline { state with compiler := state.compiler.putEach id contents } =
      state.outline.putEach id (contents.map fun content => (content.1, content.2.outline)) := by
  induction contents generalizing state with
  | nil => rfl
  | cons first rest ih =>
    rw [List.map_cons, Heap.putEach, ← outline_put]
    exact @ih (state.put id first.1 first.2)

theorem outline_alloc (slotCount : Nat) (outer : Outer) : (state.alloc slotCount outer).outline =
    (state.outline.alloc slotCount (some 0) (some 0) none 0).2 := by
  simp [outline, Compiler.alloc, Heap.alloc, SymbolicSlot.outline]

theorem outline_enter (slotCount : Nat) (outer : Outer) (contents : List (Nat × SymbolicSlot)) :
    (state.enter slotCount outer contents).outline = state.outline.enter slotCount 0 0 none 0
      (contents.map fun content => (content.1, content.2.outline)) := by
  rw [Heap.enter, ← outline_alloc, size_outline]
  exact @outline_putEach (state.alloc slotCount outer) _ contents

/-- Terms and marks stay where they are. -/
def Kept (before after : CompilerState) : Prop :=
  ∀ id slot content, SymbolicSlot.Taken content → before.slot? id slot = some content →
    after.slot? id slot = some content

namespace Kept

theorem refl (state : CompilerState) : Kept state state := fun _ _ _ _ holds => holds

theorem trans (first : Kept before middle) (second : Kept middle after) : Kept before after :=
  fun id slot content taken holds =>
    second id slot content taken (first id slot content taken holds)

theorem of_frames (frames : after.compiler.frames = before.compiler.frames) : Kept before after :=
  fun _ _ _ _ holds => (slot?_of_frames frames).trans holds

theorem put (free : ∀ content, SymbolicSlot.Taken content → state.slot? id slot ≠ some content) :
    Kept state (state.put id slot content) := by
  intro other place content taken holds
  rw [slot?_put_ne, holds]
  rintro ⟨rfl, rfl⟩
  exact free content taken holds

theorem putEach {contents : List (Nat × SymbolicSlot)}
    (free : ∀ content ∈ contents, ∀ old, SymbolicSlot.Taken old →
      state.slot? id content.1 ≠ some old)
    (waits : ∀ content ∈ contents, ¬ SymbolicSlot.Taken content.2) :
    Kept state { state with compiler := state.compiler.putEach id contents } := by
  induction contents generalizing state with
  | nil => exact .refl state
  | cons first rest ih =>
    refine (put (free first (by simp))).trans (ih (fun content mem old taken holds => ?_)
      fun content mem => waits content (by simp [mem]))
    rcases slot?_put_cases holds with rfl | ⟨-, holds⟩
    · exact waits first (by simp) taken
    · exact free content (by simp [mem]) old taken holds

theorem enter (state : CompilerState) (slotCount : Nat) (outer : Outer)
    (contents : List (Nat × SymbolicSlot)) : Kept state (state.enter slotCount outer contents) := by
  intro other place content _ holds
  obtain ⟨frame, found, -⟩ := Option.bind_eq_some_iff.mp holds
  have old := Nat.ne_of_lt (Array.getElem?_eq_some_iff.mp found).1
  rw [slot?, CompilerState.enter, Compiler.frame?_putEach_ne old.symm, Compiler.frame?_alloc_ne old]
  exact holds

/-- The compilation of the definition in a slot has ended. -/
theorem finish {definition : Expr} (pending : state.slot? id slot = some (.pending definition))
    (kept : Kept (state.put id slot .busy) after) : Kept state (after.put id slot content) := by
  have started : Kept state (state.put id slot .busy) := put fun old taken holds => by
    rw [pending] at holds
    cases holds
    cases taken
  intro other place old taken holds
  rw [slot?_put_ne]
  · exact kept other place old taken (started other place old taken holds)
  · rintro ⟨rfl, rfl⟩
    rw [pending] at holds
    cases holds
    cases taken

end Kept

/-- The text of the term in a symbolic slot. -/
def text? (state : CompilerState) (id slot : Nat) : Option String :=
  match state.slot? id slot with
  | some (.ready term) => some term.text
  | _ => none

/-- What is expected of the slots is right as far as there are terms in them. -/
def Shows (state : CompilerState) (texts : Nat → Nat → Option String) : Prop :=
  ∀ id slot term, state.slot? id slot = some (.ready term) → texts id slot = some term.text

theorem shows_text? (state : CompilerState) : state.Shows state.text? := by
  intro id slot term ready
  rw [text?, ready]

theorem Shows.earlier {texts : Nat → Nat → Option String} (shown : after.Shows texts)
    (kept : Kept before after) : before.Shows texts :=
  fun id slot term ready => shown id slot term (kept id slot _ (.ready term) ready)

/-- While a definition is compiled, its slot does not count. -/
theorem Shows.unsettled {texts : Nat → Nat → Option String}
    (shown : (after.put id slot content).Shows texts) (busy : after.slot? id slot = some .busy) :
    after.Shows texts := by
  intro other place term ready
  apply shown other place term
  rw [slot?_put_ne, ready]
  rintro ⟨rfl, rfl⟩
  rw [busy] at ready
  cases ready

end CompilerState

namespace Compile

/-- Whether nothing was put into any of the slots yet. -/
def vacant (id : Nat) (slots : List Nat) : Compile Bool := do
  let frame ← frame id
  pure (slots.all fun slot => match frame.slots[slot]? with
    | some .empty => true
    | _ => false)

/-- Compiles as `upTo` does, but gives an alarm when a `let` finds something in one of its slots, so
that a definition might be compiled again, and when a use of a symbolic slot gets another text than
the expected one. -/
def checked (evaluate : Evaluator) (held : List Held) (alarm : Fault)
    (texts : Nat → Nat → Option String) : Nat → Inliner
  | 0 => fun _ _ => throw .outOfFuel
  | fuel + 1 => fun id expr =>
    let plain := step evaluate held (checked evaluate held alarm texts fuel) id expr
    match expr with
    | .slot _ depth slot => do
      let outer ← ancestor id depth
      let term ← plain
      match outer with
      | .symbolic owner => if texts owner slot = some term.text then pure term else throw alarm
      | .captured _ => pure term
    | .letIn _ bindings _ => do
      if ← vacant id (bindings.map (·.1)) then plain else throw alarm
    | _ => plain

end Compile

open Eval (World Tidied)

section Tidies

variable (start : Heap) (owners : List FrameId) (entry : List Value) (base : Nat)

/-- A computation in the frame `id` that keeps terms where they are, and that among the slots that
were free fills only those at `places`. A computation that watches it, and is told the terms, finds
nothing to be alarmed at. -/
structure Tidies {α : Type} (action : Compile α)
    (watched : (Nat → Nat → Option String) → Compile α) (state : CompilerState)
    (captured : List FrameId) (id : Nat) (places : List Nat) : Prop where
  ends : Ends action state
    (fun _ later => state.Kept later ∧ Tidied base state.outline id places later.outline ∧
      ∃ captured', Proceeds start owners entry base state captured later captured')
    fun fault later => state.Kept later ∧ Spoilt start owners entry fault later
  unnoticed : ∀ texts, (action state).2.Shows texts → watched texts state = action state

/-- An inliner that keeps symbolic frames orderly. -/
def TidyInliner (compile : Inliner) (watched : (Nat → Nat → Option String) → Inliner) : Prop :=
  ∀ state captured id expr, Course start owners entry base state captured → base ≤ id →
    state.Fits id expr → state.outline.OrderlyFrom base →
    state.outline.SpareAt id expr.letSlots →
    Tidies start owners entry base (compile id expr) (fun texts => watched texts id expr) state
      captured id expr.letSlots

variable {start owners entry base} {α β : Type} {action : Compile α}
  {watched : (Nat → Nat → Option String) → Compile α} {state later : CompilerState}
  {captured captured' : List FrameId} {id other : Nat} {places more : List Nat}

namespace Tidies

/-- What is not watched does not watch itself. -/
theorem of_ends (ends : Ends action state
      (fun _ later => state.Kept later ∧ Tidied base state.outline id places later.outline ∧
        ∃ captured', Proceeds start owners entry base state captured later captured')
      fun fault later => state.Kept later ∧ Spoilt start owners entry fault later) :
    Tidies start owners entry base action (fun _ => action) state captured id places :=
  ⟨ends, fun _ _ => rfl⟩

theorem of_direct (direct : Direct Operation.Sparing action)
    (course : Course start owners entry base state captured)
    (orderly : state.outline.OrderlyFrom base) :
    Tidies start owners entry base action (fun _ => action) state captured id [] := by
  apply of_ends
  have still : Ends action state (fun _ later => later.compiler.frames = state.compiler.frames)
      fun _ later => later.compiler.frames = state.compiler.frames := direct.frames state
  apply (still.and (direct.keeps course)).mono
  · rintro _ later ⟨frames, proceeds⟩
    rw [CompilerState.outline_of_frames frames]
    exact ⟨.of_frames frames, .refl orderly, proceeds⟩
  · rintro _ later ⟨frames, spoilt⟩
    exact ⟨.of_frames frames, spoilt⟩

theorem widen (tidies : Tidies start owners entry base action watched state captured id places)
    (included : ∀ place ∈ places, place ∈ more) :
    Tidies start owners entry base action watched state captured id more := by
  refine ⟨tidies.ends.mono ?_ fun _ _ both => both, tidies.unnoticed⟩
  rintro _ later ⟨kept, tidied, proceeds⟩
  exact ⟨kept, tidied.widen included, proceeds⟩

theorem anywhere (tidies : Tidies start owners entry base action watched state captured id [])
    (other : Nat) : Tidies start owners entry base action watched state captured other [] := by
  refine ⟨tidies.ends.mono ?_ fun _ _ both => both, tidies.unnoticed⟩
  rintro _ later ⟨kept, tidied, proceeds⟩
  exact ⟨kept, tidied.anywhere other, proceeds⟩

/-- Only what the computations do in this state counts. -/
theorem congr {action' : Compile α} {watched' : (Nat → Nat → Option String) → Compile α}
    (tidies : Tidies start owners entry base action' watched' state captured id places)
    (same : action state = action' state) (same' : ∀ texts, watched texts state = watched' texts state) :
    Tidies start owners entry base action watched state captured id places := by
  refine ⟨tidies.ends.congr same, fun texts shown => ?_⟩
  rw [same', same]
  exact tidies.unnoticed texts (same ▸ shown)

theorem sequence {next : α → Compile β} {watched' : (Nat → Nat → Option String) → α → Compile β}
    {middle : α → CompilerState → Prop}
    (same : ∀ texts, (action state).2.Shows texts → watched texts state = action state)
    (first : Ends action state middle
      fun fault later => state.Kept later ∧ Spoilt start owners entry fault later)
    (second : ∀ a later, middle a later → ∃ captured', state.Kept later ∧
      Tidied base state.outline id places later.outline ∧
      Proceeds start owners entry base state captured later captured' ∧
      Tidies start owners entry base (next a) (fun texts => watched' texts a) later captured' id
        more) :
    Tidies start owners entry base (action >>= next)
      (fun texts => watched texts >>= watched' texts) state captured id (places ++ more) := by
  refine ⟨first.bind fun a later reached => ?_, fun texts shown => ?_⟩
  · obtain ⟨captured', kept, tidied, proceeds, rest⟩ := second a later reached
    apply rest.ends.mono
    · rintro _ last ⟨kept', tidied', _, proceeds'⟩
      exact ⟨kept.trans kept', tidied.andThen tidied', _, proceeds.trans proceeds'⟩
    · rintro _ last ⟨kept', spoilt⟩
      exact ⟨kept.trans kept', spoilt⟩
  · have same := same texts
    rw [bind_run] at shown
    rw [bind_run, bind_run]
    rcases ran : action state with ⟨fault | a, later⟩
    · simp only [ran] at shown same
      rw [same shown]
    · obtain ⟨captured', -, -, -, rest⟩ := second a later (first.returned ran)
      simp only [ran] at shown same
      -- What is shown at the end was there in between, so that the first part can be told it too.
      have kept : later.Kept (next a later).2 := by
        rcases ran' : next a later with ⟨fault | b, last⟩
        · exact (rest.ends.failed ran').1
        · exact (rest.ends.returned ran').1
      rw [same (shown.earlier kept)]
      exact rest.unnoticed texts shown

theorem bind {next : α → Compile β} {watched' : (Nat → Nat → Option String) → α → Compile β}
    (first : Tidies start owners entry base action watched state captured id places)
    (second : ∀ a later captured', Proceeds start owners entry base state captured later captured' →
      Tidied base state.outline id places later.outline →
      Tidies start owners entry base (next a) (fun texts => watched' texts a) later captured' id
        more) :
    Tidies start owners entry base (action >>= next)
      (fun texts => watched texts >>= watched' texts) state captured id (places ++ more) := by
  apply sequence first.unnoticed first.ends
  rintro a later ⟨kept, tidied, captured', proceeds⟩
  exact ⟨captured', kept, tidied, proceeds, second a later captured' proceeds tidied⟩

/-- What follows a part that leaves the symbolic frames alone. -/
theorem after {next : α → Compile β} {watched' : (Nat → Nat → Option String) → α → Compile β}
    {holds : α → Prop} {middle : α → CompilerState → List FrameId → Prop}
    (orderly : state.outline.OrderlyFrom base) (quiet : Quiet holds action state)
    (first : Ends action state
      (fun a later => ∃ captured', Proceeds start owners entry base state captured later captured' ∧
        middle a later captured')
      (Spoilt start owners entry))
    (second : ∀ a later captured', Proceeds start owners entry base state captured later captured' →
      later.outline = state.outline → middle a later captured' →
      Tidies start owners entry base (next a) (fun texts => watched' texts a) later captured' id
        places) :
    Tidies start owners entry base (action >>= next) (fun texts => action >>= watched' texts) state
      captured id places := by
  have both := quiet.and first
  have whole : Tidies start owners entry base (action >>= next)
      (fun texts => action >>= watched' texts) state captured id ([] ++ places) := by
    refine sequence (fun _ _ => rfl) (both.mono (fun _ _ both => both) ?_) ?_
    · rintro fault later ⟨same, spoilt⟩
      exact ⟨.of_frames (congrArg Compiler.frames same), spoilt⟩
    · rintro a later ⟨⟨same, -⟩, captured', proceeds, reached⟩
      have frames := congrArg Compiler.frames same
      have outlines := CompilerState.outline_of_frames frames
      refine ⟨captured', .of_frames frames, ?_, proceeds,
        second a later captured' proceeds outlines reached⟩
      rw [outlines]
      exact .refl orderly
  exact whole

theorem then_direct {next : α → Compile β}
    (first : Tidies start owners entry base action watched state captured id places)
    (direct : ∀ a, Direct Operation.Sparing (next a)) :
    Tidies start owners entry base (action >>= next) (fun texts => watched texts >>= next) state
      captured id places := by
  rw [← List.append_nil places]
  apply first.bind
  intro a later captured' proceeds tidied
  exact of_direct (direct a) proceeds.2.2 tidied.orderly

/-- What follows a check that refuses some code. -/
theorem checked {check : Prop} [Decidable check] {location : Location} {kind : ErrorKind}
    (course : Course start owners entry base state captured)
    (orderly : state.outline.OrderlyFrom base)
    (tidies : ¬ check → Tidies start owners entry base action watched state captured id places) :
    Tidies start owners entry base
      (do
        if check then Compile.raise location kind
        action)
      (fun texts => do
        if check then Compile.raise location kind
        watched texts) state captured id places := by
  by_cases refused : check
  · simp only [refused, ↓reduceIte]
    have raised : Tidies start owners entry base (Compile.raise location kind : Compile α)
        (fun _ => Compile.raise location kind) state captured id [] :=
      of_direct (.raise location kind) course orderly
    exact raised.widen (by simp)
  · simp only [refused, ↓reduceIte]
    exact tidies refused

end Tidies

section Parts

variable {compile : Inliner} {watch : (Nat → Nat → Option String) → Inliner} {slot : Nat}

theorem fits_of_spare {expr : Expr} (sees : expr.Scoped (state.sees (.symbolic id)))
    (spare : state.outline.SpareAt id expr.letSlots) : state.Fits id expr := by
  obtain ⟨frame, found, spare⟩ := spare
  obtain ⟨symbolic, found', slots⟩ := CompilerState.frame?_of_outline found
  refine ⟨sees, symbolic, found', fun slot mem => ?_⟩
  have empty := (spare.free slot mem).1
  rw [slots] at empty
  simpa using (List.getElem?_eq_some_iff.mp empty).1

/-- Reading a slot of a symbolic frame fills no slot that was free. -/
theorem tidies_force (safe : SafeInliner start owners entry base compile)
    (tidy : TidyInliner start owners entry base compile watch)
    (course : Course start owners entry base state captured)
    (orderly : state.outline.OrderlyFrom base) (low : base ≤ id) (filled : state.Filled id slot)
    (location : Location) :
    Tidies start owners entry base (Compile.force compile location id slot)
      (fun texts => Compile.force (watch texts) location id slot) state captured id [] := by
  -- The compilation of a definition that waits in the slot.
  have inner {frame : SymbolicFrame} {definition : Expr}
      (found : state.compiler.frames[id]? = some frame)
      (pending : frame.slots[slot]? = some (.pending definition)) :
      Tidies start owners entry base (compile id definition)
        (fun texts => watch texts id definition) (state.put id slot .busy) captured id
        definition.letSlots := by
    obtain ⟨begun, fits⟩ := course.begun low found pending
    obtain ⟨orderly', spare⟩ := Eval.orderlyFrom_busy orderly low
      (CompilerState.frame?_outline found) (CompilerState.pending_outline pending)
    have outline : (state.put id slot .busy).outline = state.outline.put id slot .busy :=
      CompilerState.outline_put
    exact tidy _ captured id definition begun.2.2 low fits (outline ▸ orderly') (outline ▸ spare)
  refine ⟨?_, fun texts shown => ?_⟩
  · have tidied : Ends (Compile.force compile location id slot) state
        (fun _ later => state.Kept later ∧ Tidied base state.outline id [] later.outline)
        fun _ later => state.Kept later := by
      refine .symbolicForce (fun _ _ _ _ => ⟨.refl state, .refl orderly⟩)
        (fun frame definition found pending => ?_) (fun _ _ _ => .refl state)
        (fun _ _ _ => .refl state) (fun _ _ _ => .refl state) fun _ => .refl state
      have holds := (CompilerState.slot?_of_frame? found).trans pending
      apply (inner found pending).ends.mono
      · rintro term later ⟨kept, tidied, -⟩
        refine ⟨kept.finish holds, ?_⟩
        rw [CompilerState.outline_put] at tidied ⊢
        exact tidied.finish (CompilerState.frame?_outline found)
          (CompilerState.pending_outline pending)
      · rintro fault later ⟨kept, -⟩
        exact kept.finish holds
    apply (tidied.and (course.force_keeps safe low filled)).mono
    · exact fun _ _ ⟨⟨kept, tidied⟩, proceeds⟩ => ⟨kept, tidied, proceeds⟩
    · exact fun _ _ both => both
  · by_cases pending : ∃ definition, state.slot? id slot = some (.pending definition)
    · obtain ⟨definition, holds⟩ := pending
      obtain ⟨frame, found, pending⟩ := Option.bind_eq_some_iff.mp holds
      have busy : (state.put id slot .busy).slot? id slot = some .busy :=
        CompilerState.slot?_put_self found (List.getElem?_eq_some_iff.mp pending).1
      rw [force_pending holds] at shown
      rw [force_pending holds, force_pending holds]
      have unnoticed := (inner found pending).unnoticed texts
      unfold Compile.settling at shown ⊢
      rcases ran : compile id definition (state.put id slot .busy) with ⟨fault | term, later⟩
      · have kept := ((inner found pending).ends.failed ran).1
        simp only [ran] at shown unnoticed ⊢
        rw [unnoticed (shown.unsettled (kept id slot .busy .busy busy))]
      · have kept := ((inner found pending).ends.returned ran).1
        simp only [ran] at shown unnoticed ⊢
        rw [unnoticed (shown.unsettled (kept id slot .busy .busy busy))]
    · exact force_idle (not_exists.mp pending) ..

theorem tidies_part {expr : Expr} (tidy : TidyInliner start owners entry base compile watch)
    (course : Course start owners entry base state captured)
    (orderly : state.outline.OrderlyFrom base) (low : base ≤ id)
    (sees : expr.Scoped (state.sees (.symbolic id)))
    (spare : state.outline.SpareAt id expr.letSlots) :
    Tidies start owners entry base (compile id expr) (fun texts => watch texts id expr) state
      captured id expr.letSlots :=
  tidy state captured id expr course low (fits_of_spare sees spare) orderly spare

/-- Several parts, each with its own slots. -/
theorem tidies_each (tidy : TidyInliner start owners entry base compile watch)
    (course : Course start owners entry base state captured)
    (orderly : state.outline.OrderlyFrom base) (low : base ≤ id) (exprs : List Expr)
    (sees : ∀ expr ∈ exprs, expr.Scoped (state.sees (.symbolic id)))
    (spare : state.outline.SpareAt id (exprs.flatMap Expr.letSlots)) :
    Tidies start owners entry base (exprs.mapM (compile id))
      (fun texts => exprs.mapM (watch texts id)) state captured id
      (exprs.flatMap Expr.letSlots) := by
  induction exprs generalizing state captured with
  | nil =>
    simp only [List.mapM_nil, List.flatMap_nil]
    exact .of_direct (.pure []) course orderly
  | cons expr exprs ih =>
    simp only [List.mapM_cons, List.flatMap_cons] at spare ⊢
    apply (tidies_part tidy course orderly low (sees expr (by simp)) spare.left).bind
    intro term later captured' proceeds tidied
    have rest := ih proceeds.2.2 tidied.orderly
      (fun other mem => (sees other (by simp [mem])).mono proceeds.1.sees)
      (tidied.spareAt spare.right fun _ mem mem' => spare.disjoint mem' mem)
    exact rest.then_direct fun terms => .pure _

theorem outline_symbolicReadies (slot : Nat) (terms : List Term) :
    (symbolicReadies slot terms).map (fun content => (content.1, content.2.outline)) =
      readies slot (terms.map fun _ => .bool true) := by
  induction terms generalizing slot with
  | nil => rfl
  | cons term terms ih =>
    rw [symbolicReadies, List.map_cons, ih, List.map_cons, readies]
    rfl

theorem outline_symbolicPendings (definitions : List (Nat × Expr)) :
    (symbolicPendings definitions).map (fun content => (content.1, content.2.outline)) =
      pendings definitions := by
  simp [symbolicPendings, pendings, SymbolicSlot.outline]

/-- A call whose arguments fit compiles the body in a new symbolic frame. -/
theorem inlineCall_run {lambda : Lambda} {outer : Outer} {args : List Term}
    (count : args.length = lambda.paramCount) (fresh : lambda.location ∉ state.compiler.inlining)
    (room : lambda.paramCount ≤ lambda.slotCount) (compile : Inliner) (location : Location) :
    Compile.inlineCall compile lambda outer args location state =
      Compile.inlining lambda.location (compile state.compiler.frames.size lambda.body)
        (state.enter lambda.slotCount outer (symbolicReadies 0 args)) := by
  have stored : Compile.storeAll state.compiler.frames.size 0 args
      (state.alloc lambda.slotCount outer) =
        (.ok (), state.enter lambda.slotCount outer (symbolicReadies 0 args)) := by
    apply Ends.exact
    apply Ends.symbolicStoreAll (Compiler.frame?_alloc_self lambda.slotCount outer) _ ⟨rfl, rfl⟩
    rw [List.length_replicate, Nat.zero_add, count]
    exact room
  have asked : Compile.compiler state = (.ok state.compiler, state) := rfl
  have allocated : Compile.alloc lambda.slotCount outer state =
      (.ok state.compiler.frames.size, state.alloc lambda.slotCount outer) := rfl
  unfold Compile.inlineCall
  simp only [count, ne_eq, not_true_eq_false, ↓reduceIte]
  rw [bind_run, asked]
  simp only [fresh, ↓reduceIte]
  rw [bind_run, allocated]
  dsimp only
  rw [bind_run, stored]

theorem inlineCall_recursive {lambda : Lambda} {outer : Outer} {args : List Term}
    (count : args.length = lambda.paramCount) (recursive : lambda.location ∈ state.compiler.inlining)
    (compile : Inliner) (location : Location) :
    Compile.inlineCall compile lambda outer args location state =
      Compile.unsupported location "recursion" state := by
  have asked : Compile.compiler state = (.ok state.compiler, state) := rfl
  unfold Compile.inlineCall
  simp only [count, ne_eq, not_true_eq_false, ↓reduceIte]
  rw [bind_run, asked]
  simp only [recursive, ↓reduceIte]
  rfl

/-- In the new frame of a function that is inlined there are its arguments, and spare slots for the
`let`s of its body. -/
theorem tidied_entered {lambda : Lambda} {args : List Term}
    (orderly : state.outline.OrderlyFrom base) (outer : Outer)
    (room : Room lambda.slotCount (List.range lambda.paramCount ++ lambda.body.letSlots))
    (count : args.length = lambda.paramCount) (id : Nat) :
    Tidied base state.outline id []
        (state.enter lambda.slotCount outer (symbolicReadies 0 args)).outline ∧
      (state.enter lambda.slotCount outer (symbolicReadies 0 args)).outline.SpareAt
        state.compiler.frames.size lambda.body.letSlots := by
  rw [CompilerState.outline_enter, outline_symbolicReadies]
  refine ⟨.enter orderly id lambda.slotCount 0 0 none 0 _ readies_nonempty
    (.of_idle Eval.idle_setEach_readies), ?_⟩
  rw [← CompilerState.size_outline]
  refine ⟨_, Heap.frame?_enter_self, Eval.spare_setEach_readies ?_⟩
  rwa [List.length_map, count]

theorem tidies_inlineCall (tidy : TidyInliner start owners entry base compile watch)
    (course : Course start owners entry base state captured)
    (orderly : state.outline.OrderlyFrom base) {lambda : Lambda} {outer : Outer}
    (callable : Callable base captured state (.lambda lambda outer)) (args : List Term)
    (location : Location) (id : Nat) :
    Tidies start owners entry base (Compile.inlineCall compile lambda outer args location)
      (fun texts => Compile.inlineCall (watch texts) lambda outer args location) state captured id
      [] := by
  by_cases count : args.length = lambda.paramCount
  · by_cases recursive : lambda.location ∈ state.compiler.inlining
    · exact (Tidies.of_direct (.unsupported _) course orderly).congr
        (inlineCall_recursive count recursive compile location) fun texts =>
          inlineCall_recursive count recursive (watch texts) location
    · obtain ⟨room, entered, fits⟩ := course.entered callable count
      obtain ⟨begun, spare⟩ := tidied_entered orderly outer room count id
      have kept := CompilerState.Kept.enter state lambda.slotCount outer (symbolicReadies 0 args)
      have inner := tidy _ captured _ lambda.body entered.2.2 course.sound.base_le fits
        begun.orderly spare
      have run (compile : Inliner) :
          Compile.inlineCall compile lambda outer args location state = _ :=
        inlineCall_run count recursive room.length_le compile location
      refine ⟨Ends.congr (run compile) (.inlining (inner.ends.mono ?_ ?_)), fun texts shown => ?_⟩
      · rintro term later ⟨kept', tidied, captured', proceeds⟩
        refine ⟨kept.trans kept', ?_, captured',
          entered.trans (proceeds.trans (proceeds.2.2.emit later.leaving rfl rfl))⟩
        refine begun.elsewhere tidied fun place _ free => ?_
        exact Nat.lt_irrefl _ (CompilerState.size_outline ▸ free.lt_size)
      · rintro fault later ⟨kept', spoilt⟩
        exact ⟨kept.trans kept', spoilt⟩
      · rw [run, inlining_run] at shown
        rw [run, run, inlining_run, inlining_run, inner.unnoticed texts shown]
  · unfold Compile.inlineCall
    exact .checked course orderly fun accepted => (accepted count).elim

variable {ev : Evaluator} {held : List Held}

/-- Looking for a symbolic frame further out changes nothing. -/
theorem after_ancestor {depth : Nat} {next : Outer → Compile β}
    {watched' : (Nat → Nat → Option String) → Outer → Compile β}
    (course : Course start owners entry base state captured)
    (orderly : state.outline.OrderlyFrom base) (low : base ≤ id)
    (seen : state.sees (.symbolic id) depth slot)
    (second : ∀ outer, Met start owners base captured state slot outer →
      Tidies start owners entry base (next outer) (fun texts => watched' texts outer) state captured
        other places) :
    Tidies start owners entry base (Compile.ancestor id depth >>= next)
      (fun texts => Compile.ancestor id depth >>= watched' texts) state captured other places := by
  have found : Ends (Compile.ancestor id depth) state
      (fun outer later => ∃ captured',
        Proceeds start owners entry base state captured later captured' ∧
        later = state ∧ captured' = captured ∧ Met start owners base captured state slot outer)
      (Spoilt start owners entry) := by
    apply (course.ancestor low seen).mono
    · rintro outer _ ⟨rfl, met⟩
      exact ⟨captured, course.refl, rfl, rfl, met⟩
    · exact fun _ _ spoilt => spoilt
  apply Tidies.after orderly quiet_ancestor found
  rintro outer _ _ - - ⟨rfl, rfl, met⟩
  exact second outer met

theorem tidies_slot (safe : Eval.Safe ev) (world : World start owners entry)
    (safe' : SafeInliner start owners entry base compile)
    (tidy : TidyInliner start owners entry base compile watch)
    (course : Course start owners entry base state captured)
    (orderly : state.outline.OrderlyFrom base) (low : base ≤ id) {depth : Nat}
    (seen : state.sees (.symbolic id) depth slot) (location : Location) :
    Tidies start owners entry base
      (Compile.step ev held compile id (.slot location depth slot))
      (fun texts => Compile.step ev held (watch texts) id (.slot location depth slot)) state captured
      id [] := by
  refine after_ancestor course orderly low seen fun outer met => ?_
  cases outer with
  | symbolic owner => exact (tidies_force safe' tidy course orderly met.1 met.2 location).anywhere id
  | captured owner =>
    have read : Ends (Compile.captured ev held location owner slot) state
        (fun _ later => ∃ captured',
          Proceeds start owners entry base state captured later captured' ∧ True)
        (Spoilt start owners entry) := by
      apply (course.captured_ends safe world met.1 met.2).mono
      · rintro value later ⟨grows, frames, stage⟩
        exact ⟨captured, ⟨.of_frames grows frames, fun _ mem => mem,
          stage.subset fun _ mem => List.mem_cons_of_mem _ mem,
          course.sound.of_frames grows frames⟩, trivial⟩
      · exact fun _ _ spoilt => spoilt
    apply Tidies.after orderly quiet_captured read
    intro value later captured' proceeds outline _
    exact .of_direct (Direct.constant value) proceeds.2.2 (outline ▸ orderly)

/-- The rules of compilation keep symbolic frames orderly. -/
theorem step_tidies (safe : Eval.Safe ev) (world : World start owners entry)
    (safe' : SafeInliner start owners entry base compile)
    (tidy : TidyInliner start owners entry base compile watch) :
    TidyInliner start owners entry base (Compile.step ev held compile)
      (fun texts => Compile.step ev held (watch texts)) := by
  intro state captured id expr course low fits orderly spare
  -- A part of the expression, compiled in the same frame later on.
  have part {part : Expr} {later : CompilerState} {captured' : List FrameId} {places : List Nat}
      (proceeds : Proceeds start owners entry base state captured later captured')
      (tidied : Tidied base state.outline id places later.outline)
      (sees : part.Scoped (state.sees (.symbolic id)))
      (spare : state.outline.SpareAt id (places ++ part.letSlots)) :
      Tidies start owners entry base (compile id part) (fun texts => watch texts id part) later
        captured' id part.letSlots :=
    tidies_part tidy proceeds.2.2 tidied.orderly low (sees.mono proceeds.1.sees)
      (tidied.spareAt spare.right fun _ mem mem' => spare.disjoint mem' mem)
  have begun : Tidied base state.outline id [] state.outline := .refl orderly
  have refused {location : Location} {what : String} : Tidies start owners entry base
      (Compile.unsupported location what : Compile Term)
      (fun _ => Compile.unsupported location what) state captured id [] :=
    .of_direct (.unsupported what) course orderly
  cases fits.sees with
  | constant => exact .of_direct (Direct.constant _) course orderly
  | slot seen => exact tidies_slot safe world safe' tidy course orderly low seen _
  | @call _ site function args head rest =>
    rw [Expr.letSlots_call] at spare ⊢
    refine Tidies.widen ?_ fun place (mem : place ∈ args.flatMap Expr.letSlots) =>
      List.mem_append_right function.letSlots mem
    refine .after orderly quiet_callee (course.callee_ends safe world low head) ?_
    intro callee later captured' proceeds outline callable
    have each := tidies_each tidy proceeds.2.2 (outline ▸ orderly) low args
      (fun arg mem => (rest arg mem).mono proceeds.1.sees) (outline ▸ spare.right)
    rw [← List.append_nil (args.flatMap Expr.letSlots)]
    apply each.bind
    intro args last captured'' proceeds' tidied
    cases callee with
    | lambda lambda outer =>
      exact tidies_inlineCall tidy proceeds'.2.2 tidied.orderly
        (callable.mono proceeds'.1 proceeds'.2.1) args site id
    | builtin function =>
      exact .of_direct (Direct.builtin function args) proceeds'.2.2 tidied.orderly
  | @list _ _ items parts =>
    rw [Expr.letSlots_list] at spare ⊢
    exact (tidies_each tidy course orderly low items parts spare).then_direct fun items =>
      Direct.vector items
  | record => exact refused.widen (by simp)
  | «module» => exact refused.widen (by simp)
  | lambda => exact refused.widen (by simp)
  | forEach => exact refused.widen (by simp)
  | @letIn _ _ bindings body =>
    obtain ⟨frame, found, inside⟩ := fits.room
    obtain ⟨stored, fits'⟩ := course.stored fits
    have tidied := Tidied.storeLet orderly spare
    rw [← outline_symbolicPendings, ← CompilerState.outline_putEach] at tidied
    rw [Expr.letSlots_letIn] at inside spare ⊢
    have unused (binding : Nat × Expr) (mem : binding ∈ bindings) :
        binding.1 ∈ bindings.map (·.1) ++ bindings.flatMap (·.2.letSlots) ++ body.letSlots := by
      rw [List.append_assoc]
      exact List.mem_append_left _ (List.mem_map_of_mem mem)
    have kept : state.Kept
        { state with compiler := state.compiler.putEach id (symbolicPendings bindings) } := by
      refine .putEach (fun content mem old taken holds => ?_) fun content mem taken => ?_
      · obtain ⟨binding, bound, rfl⟩ := List.mem_map.mp mem
        rw [CompilerState.slot?_of_free (spare.free (unused binding bound))] at holds
        cases holds
        cases taken
      · obtain ⟨binding, -, rfl⟩ := List.mem_map.mp mem
        cases taken
    have stores : Ends (Compile.storePending id bindings) state
        (fun _ later => { state with
          compiler := state.compiler.putEach id (symbolicPendings bindings) } = later)
        fun fault later => state.Kept later ∧ Spoilt start owners entry fault later :=
      .symbolicStorePending found (fun binding mem => inside binding.1 (unused binding mem)) rfl
    refine .sequence (fun _ _ => rfl) stores ?_
    rintro _ _ rfl
    exact ⟨captured, kept, tidied, stored, tidies_part tidy stored.2.2 tidied.orderly low fits'.sees
      (tidied.spareAt spare.right fun _ mem mem' => spare.disjoint mem' mem)⟩
  | unary operand =>
    rw [Expr.letSlots_unary] at spare ⊢
    exact (part course.refl begun operand spare).then_direct fun x => Direct.unary _ x
  | binary first second =>
    rw [Expr.letSlots_binary] at spare ⊢
    apply (part course.refl begun first spare.left).bind
    intro a later captured' proceeds tidied
    exact (part proceeds tidied second spare).then_direct fun b => Direct.binary _ a b
  | @conditional _ _ condition whenTrue whenFalse first second third =>
    rw [Expr.letSlots_conditional] at spare
    rw [Expr.letSlots_conditional, List.append_assoc]
    apply (part course.refl begun first spare.left.left).bind
    intro c after₁ captured₁ proceeds₁ tidied₁
    refine .checked proceeds₁.2.2 tidied₁.orderly fun _ => ?_
    apply (part proceeds₁ tidied₁ second spare.left).bind
    intro a after₂ captured₂ proceeds₂ tidied₂
    rw [← List.append_nil whenFalse.letSlots]
    apply (part (proceeds₁.trans proceeds₂) (tidied₁.andThen tidied₂) third spare).bind
    intro b after₃ captured₃ proceeds₃ tidied₃
    refine .checked proceeds₃.2.2 tidied₃.orderly fun _ => ?_
    exact .of_direct (Direct.select c a b) proceeds₃.2.2 tidied₃.orderly
  | dot base =>
    rw [Expr.letSlots_dot] at spare ⊢
    exact (part course.refl begun base spare).then_direct fun v => Direct.field _ v
  | index first second =>
    rw [Expr.letSlots_index] at spare ⊢
    apply (part course.refl begun first spare.left).bind
    intro v later captured' proceeds tidied
    cases counted : v.type.count?.filter fun _ => v.type.isVector with
    | none =>
      exact Tidies.widen (.of_direct (.unsupported _) proceeds.2.2
        tidied.orderly) (by simp)
    | some count =>
      dsimp only
      refine (part proceeds tidied second spare).then_direct fun i =>
        Direct.checked fun _ => ?_
      split
      · split
        · exact Direct.emit (by simp)
        · exact .raise _ _
      · exact Direct.emit (by simp)

end Parts

section Checked

variable {m : Machine} {evaluations fuel slot depth : Nat} {held : List Held} {alarm : Fault}
  {location : Location}

/-- A use of a slot gets the text of the term that the slot keeps. -/
theorem checked_slot (course : Course start owners entry base state captured) (low : base ≤ id)
    (seen : state.sees (.symbolic id) depth slot)
    (tidies : Tidies start owners entry base
      (Compile.upTo (Eval.upTo m evaluations) held (fuel + 1) id (.slot location depth slot))
      (fun texts => Compile.step (Eval.upTo m evaluations) held
        (Compile.checked (Eval.upTo m evaluations) held alarm texts fuel) id
        (.slot location depth slot)) state captured id places) :
    Tidies start owners entry base
      (Compile.upTo (Eval.upTo m evaluations) held (fuel + 1) id (.slot location depth slot))
      (fun texts => Compile.checked (Eval.upTo m evaluations) held alarm texts (fuel + 1) id
        (.slot location depth slot)) state captured id places := by
  refine ⟨tidies.ends, fun texts shown => ?_⟩
  have same := tidies.unnoticed texts shown
  have plain : Compile.upTo (Eval.upTo m evaluations) held (fuel + 1) id (.slot location depth slot)
      state = _ := bind_run (Compile.ancestor id depth) _ state
  unfold Compile.checked
  dsimp only
  rw [bind_run]
  rcases found : Compile.ancestor id depth state with ⟨fault | outer, after⟩
  · rw [plain, found]
  · obtain ⟨rfl, -⟩ := (course.ancestor low seen).returned found
    rw [found] at plain
    dsimp only
    rw [bind_run, same]
    rcases ran : Compile.upTo (Eval.upTo m evaluations) held (fuel + 1) id
      (.slot location depth slot) state with ⟨fault | term, after⟩
    · rfl
    · cases outer with
      | captured => rfl
      | symbolic owner =>
        rw [ran] at plain shown
        have forced := (forced_force m evaluations fuel held location owner slot state).returned
          plain.symm
        have expected := shown owner slot term (forced.returned term rfl)
        simp only [expected, ↓reduceIte]
        rfl

theorem vacant_run {slots : List Nat} (free : ∀ slot ∈ slots, state.outline.FreeAt id slot)
    (found : ∃ frame, state.compiler.frames[id]? = some frame) :
    Compile.vacant id slots state = (.ok true, state) := by
  obtain ⟨frame, found⟩ := found
  unfold Compile.vacant
  rw [bind_run, frame_run found]
  have empty : slots.all (fun slot => match frame.slots[slot]? with
      | some .empty => true
      | _ => false) = true := by
    rw [List.all_eq_true]
    intro slot mem
    have holds := CompilerState.slot?_of_free (free slot mem)
    rw [CompilerState.slot?_of_frame? found] at holds
    rw [holds]
  simp only [empty]
  rfl

/-- In the compilation of trusted functions there is nothing to be alarmed at. -/
theorem checked_tidies (m : Machine) (evaluations fuel : Nat) (held : List Held) (alarm : Fault)
    (world : World start owners entry) :
    TidyInliner start owners entry base (Compile.upTo (Eval.upTo m evaluations) held fuel)
      (fun texts => Compile.checked (Eval.upTo m evaluations) held alarm texts fuel) := by
  induction fuel with
  | zero =>
    intro state captured id expr course low fits orderly spare
    exact ⟨⟨.refl state, .outOfFuel, course.stage.subset (by simp)⟩, fun _ _ => rfl⟩
  | succ fuel ih =>
    intro state captured id expr course low fits orderly spare
    have safe := Eval.upTo_safe m evaluations
    have steps : TidyInliner start owners entry base
        (Compile.upTo (Eval.upTo m evaluations) held (fuel + 1))
        fun texts => Compile.step (Eval.upTo m evaluations) held
          (Compile.checked (Eval.upTo m evaluations) held alarm texts fuel) :=
      step_tidies safe world (upTo_keeps safe world fuel) ih
    have tidies := steps state captured id expr course low fits orderly spare
    cases expr with
    | slot location depth slot =>
      cases fits.sees with
      | slot seen => exact checked_slot course low seen tidies
    | letIn location bindings body =>
      refine ⟨tidies.ends, fun texts shown => ?_⟩
      obtain ⟨frame, found, -⟩ := fits.room
      rw [Expr.letSlots_letIn] at spare
      have vacant : Compile.vacant id (bindings.map (·.1)) state = (.ok true, state) :=
        vacant_run (fun slot mem => spare.left.left.free mem) ⟨frame, found⟩
      unfold Compile.checked
      dsimp only
      rw [bind_run, vacant]
      exact tidies.unnoticed texts shown
    | _ => exact tidies

end Checked

end Tidies

end Shader

end ShapeLang
