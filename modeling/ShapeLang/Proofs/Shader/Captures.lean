import ShapeLang.Proofs.Alongside
import ShapeLang.Proofs.Expr.Twin
import ShapeLang.Proofs.Shader.Operations

/-! # Two compilations side by side

Twin code can be compiled twice, with other frames captured each time. What is known about the
captured frames is only that their slots can be read, and that both compilations learn the same from
them. The symbolic frames are laid out differently, and otherwise hold the same.
-/

namespace ShapeLang

open Value (OneToOne)

section Slots

variable {α : Type} {same : Nat → Nat → Prop} {alike : α → α → Prop} {slots slots' : List α}

/-- Two lists hold the same at places that belong together, and still do after contents were put
there, in any order. -/
theorem getElem?_setEach_partners (oneToOne : OneToOne same)
    (before : ∀ slot slot', same slot slot' → ∃ content content',
      slots[slot]? = some content ∧ slots'[slot']? = some content' ∧ alike content content')
    (contents : List ((Nat × α) × (Nat × α))) {others : List (Nat × α)}
    (order : (contents.map (·.2)).Perm others) (distinct : (contents.map (·.1.1)).Nodup)
    (together : ∀ content ∈ contents, same content.1.1 content.2.1)
    (each : ∀ content ∈ contents, alike content.1.2 content.2.2) (slot slot' : Nat)
    (belong : same slot slot') : ∃ content content',
      (setEach slots (contents.map (·.1)))[slot]? = some content ∧
      (setEach slots' others)[slot']? = some content' ∧ alike content content' := by
  obtain ⟨old, old', holds, holds', kept⟩ := before slot slot' belong
  have partner (content : (Nat × α) × (Nat × α)) (mem : content ∈ contents) :
      content.1.1 = slot ↔ content.2.1 = slot' :=
    oneToOne _ _ _ _ (together content mem) belong
  have distinct' : (others.map (·.1)).Nodup := by
    refine ((order.map (·.1)).nodup_iff).mp ?_
    rw [List.map_map]
    refine (List.nodup_map_iff_inj_on (List.Nodup.of_map _ distinct)).mpr ?_
    intro content mem content' mem' same
    refine List.inj_on_of_nodup_map distinct mem mem' ?_
    exact (oneToOne _ _ _ _ (together content mem) (together content' mem')).mpr same
  by_cases written : slot ∈ contents.map (·.1.1)
  · obtain ⟨content, mem, rfl⟩ := List.mem_map.mp written
    have written' : (slot', content.2.2) ∈ others := by
      refine order.subset ?_
      have same := (partner content mem).mp rfl
      exact same ▸ List.mem_map_of_mem mem
    refine ⟨content.1.2, content.2.2, ?_, ?_, each content mem⟩
    · refine getElem?_setEach_of_mem ?_ (List.mem_map_of_mem (f := (·.1)) mem) ?_
      · simpa [Function.comp_def] using distinct
      · exact (List.getElem?_eq_some_iff.mp holds).1
    · exact getElem?_setEach_of_mem distinct' written' (List.getElem?_eq_some_iff.mp holds').1
  · refine ⟨old, old', ?_, ?_, kept⟩
    · rw [← holds]
      refine getElem?_setEach_of_not_mem ?_
      simpa [Function.comp_def] using written
    · rw [← holds']
      refine getElem?_setEach_of_not_mem fun written' => written ?_
      obtain ⟨other, mem', rfl⟩ := List.mem_map.mp written'
      obtain ⟨content, mem, rfl⟩ := List.mem_map.mp (order.symm.subset mem')
      exact List.mem_map.mpr ⟨content, mem, (partner content mem).mpr rfl⟩

end Slots

/-- A function literal as an expression. -/
def Lambda.expr (lambda : Lambda) : Expr :=
  .lambda lambda.location lambda.paramCount lambda.slotCount lambda.body

theorem Expr.Twin.paramCount_eq {literals : Location → Location → Prop} {pairs : Pairing}
    {lambda lambda' : Lambda} (twin : Expr.Twin literals pairs lambda.expr lambda'.expr) :
    lambda.paramCount = lambda'.paramCount := by
  obtain ⟨_, paramCount, _, _⟩ := lambda
  obtain ⟨_, paramCount', _, _⟩ := lambda'
  cases twin with
  | lambda => rfl

/-- Faults of corresponding kinds. -/
inductive Fault.Like (kinds : ErrorKind → ErrorKind → Prop) : Fault → Fault → Prop
  | exception {e e' : Exception} (same : kinds e.kind e'.kind) :
    Like kinds (.exception e) (.exception e')
  | defect (d d' : Defect) : Like kinds (.defect d) (.defect d')
  | outOfFuel : Like kinds .outOfFuel .outOfFuel

theorem Fault.Like.refl {kinds : ErrorKind → ErrorKind → Prop} (alike : ∀ kind, kinds kind kind)
    (fault : Fault) : fault.Like kinds fault := by
  cases fault with
  | exception e => exact .exception (alike e.kind)
  | defect d => exact .defect d d
  | outOfFuel => exact .outOfFuel

/-- Values from which shader code is made alike. `sees` says what code in two captured frames
reads. -/
inductive Value.Shows (literals : Location → Location → Prop)
    (sees : FrameId → FrameId → Pairing) : Value → Value → Prop
  | bool (value : Bool) : Shows literals sees (.bool value) (.bool value)
  | num (value : Float) : Shows literals sees (.num value) (.num value)
  | text (content content' : String) : Shows literals sees (.text content) (.text content')
  | list {items items' : List Value} {held held' : FrameSet}
      (same : (Value.list items held).numbers? = (Value.list items' held').numbers?) :
      Shows literals sees (.list items held) (.list items' held')
  | record (fields fields' : List (String × Value)) (held held' : FrameSet) :
      Shows literals sees (.record fields held) (.record fields' held')
  | module (id id' : FrameId) (fields fields' : List (String × Nat)) :
      Shows literals sees (.module id fields) (.module id' fields')
  | closure {serial serial' : Nat} {lambda lambda' : Lambda} {env env' : FrameId}
      (code : Expr.Twin literals (sees env env') lambda.expr lambda'.expr) :
      Shows literals sees (.closure serial lambda env) (.closure serial' lambda' env')
  | builtin (function : Builtin) : Shows literals sees (.builtin function) (.builtin function)

namespace Shader

/-- Captured frames of two compilations, from which both learn the same. -/
structure Captures (evaluate evaluate' : Nat → Evaluator) (held held' : List Held) where
  /-- What is known about the captured frames. -/
  World : Type
  /-- What was known before is known later. -/
  later : World → World → Prop
  heaps : World → Heap → Heap → Prop
  /-- Which slots code in two captured frames reads for the same purpose. -/
  sees : World → FrameId → FrameId → Pairing
  kinds : ErrorKind → ErrorKind → Prop
  literals : Location → Location → Prop
  refl : ∀ world, later world world
  trans : ∀ {world between last}, later world between → later between last → later world last
  kept : ∀ {world wider id id' depth slot slot'}, later world wider →
    sees world id id' depth slot slot' → sees wider id id' depth slot slot'
  alike : ∀ kind, kinds kind kind
  distinct : ∀ place place' other other', literals place place' → literals other other' →
    (place = other ↔ place' = other')
  reading : ∀ {world heap heap' id id' depth slot slot'}, heaps world heap heap' →
    sees world id id' depth slot slot' →
      ∃ owner owner', heap.ancestor? id depth = some owner ∧
        heap'.ancestor? id' depth = some owner' ∧ ∀ context context' : Context, Alongside
          (fun fuel => Eval.force (evaluate fuel) held owner slot context)
          (fun fuel => Eval.force (evaluate' fuel) held' owner' slot' context') heap heap'
          (fun value after value' after' => ∃ wider, later world wider ∧
            heaps wider after after' ∧ value.Shows literals (sees wider) value')
          fun fault after fault' after' => fault.Like kinds fault' ∧
            ∃ wider, later world wider ∧ heaps wider after after'

/-- The frames around two symbolic frames. -/
inductive OuterPair where
  | captured (id id' : FrameId)
  | symbolic (id : Nat)

/-- Two symbolic frames: their slots that belong together, and what is around them. -/
structure FramePair where
  slots : Nat → Nat → Prop
  outer : OuterPair

variable {evaluate evaluate' : Nat → Evaluator} {held held' : List Held}

/-- What is known about two compilations. The symbolic frames have the same numbers in both. -/
structure Setting (captures : Captures evaluate evaluate' held held') where
  world : captures.World
  frames : List FramePair

variable {captures : Captures evaluate evaluate' held held'}

namespace Setting

/-- Which slots code in a symbolic frame reads for the same purpose. -/
def sees (setting : Setting captures) (id : Nat) : Pairing
  | 0, slot, slot' => ∃ pair, setting.frames[id]? = some pair ∧ pair.slots slot slot'
  | depth + 1, slot, slot' => ∃ pair, setting.frames[id]? = some pair ∧
    match pair.outer with
    | .captured outer outer' => captures.sees setting.world outer outer' depth slot slot'
    | .symbolic outer => setting.sees outer depth slot slot'

/-- Which slots code inside a frame reads further out for the same purpose. -/
def around (setting : Setting captures) : OuterPair → Pairing
  | .captured outer outer' => captures.sees setting.world outer outer'
  | .symbolic outer => setting.sees outer

/-- What is known later. -/
structure Later (setting wider : Setting captures) : Prop where
  world : captures.later setting.world wider.world
  frames : setting.frames <+: wider.frames

variable {setting between wider : Setting captures}

theorem Later.refl (setting : Setting captures) : setting.Later setting :=
  ⟨captures.refl _, List.prefix_rfl⟩

theorem Later.trans (first : setting.Later between) (second : between.Later wider) :
    setting.Later wider :=
  ⟨captures.trans first.world second.world, first.frames.trans second.frames⟩

theorem Later.frame (later : setting.Later wider) {id : Nat} {pair : FramePair}
    (there : setting.frames[id]? = some pair) : wider.frames[id]? = some pair := by
  obtain ⟨more, same⟩ := later.frames
  rw [← same, List.getElem?_append_left (List.getElem?_eq_some_iff.mp there).1]
  exact there

theorem Later.sees (later : setting.Later wider) {id : Nat} (depth slot slot' : Nat)
    (seen : setting.sees id depth slot slot') : wider.sees id depth slot slot' := by
  induction depth generalizing id with
  | zero =>
    obtain ⟨pair, there, together⟩ := seen
    exact ⟨pair, later.frame there, together⟩
  | succ depth ih =>
    obtain ⟨pair, there, seen⟩ := seen
    refine ⟨pair, later.frame there, ?_⟩
    cases around : pair.outer with
    | captured outer outer' =>
      rw [around] at seen
      exact captures.kept later.world seen
    | symbolic outer =>
      rw [around] at seen
      exact ih seen

theorem Later.around (later : setting.Later wider) {outer : OuterPair} (depth slot slot' : Nat)
    (seen : setting.around outer depth slot slot') : wider.around outer depth slot slot' := by
  cases outer with
  | captured => exact captures.kept later.world seen
  | symbolic => exact later.sees depth slot slot' seen

/-- What is known with one more frame. -/
def add (setting : Setting captures) (pair : FramePair) : Setting captures :=
  ⟨setting.world, setting.frames ++ [pair]⟩

theorem Later.add (setting : Setting captures) (pair : FramePair) :
    setting.Later (setting.add pair) :=
  ⟨captures.refl _, List.prefix_append _ _⟩

theorem frame_add (setting : Setting captures) (pair : FramePair) :
    (setting.add pair).frames[setting.frames.length]? = some pair := by
  simp [Setting.add]

/-- What code in a new frame reads. -/
theorem sees_add {slots : Nat → Nat → Prop} {outer : OuterPair} (depth slot slot' : Nat)
    (seen : (setting.around outer).enter slots depth slot slot') :
    (setting.add ⟨slots, outer⟩).sees setting.frames.length depth slot slot' := by
  cases depth with
  | zero => exact ⟨_, setting.frame_add _, seen⟩
  | succ depth =>
    have further := (Later.add setting ⟨slots, outer⟩).around depth slot slot' seen
    refine ⟨_, setting.frame_add _, ?_⟩
    cases outer with
    | captured => exact further
    | symbolic => exact further

end Setting

/-- What two slots that belong together hold. -/
inductive SlotTwin (setting : Setting captures) (id : Nat) : SymbolicSlot → SymbolicSlot → Prop
  | empty : SlotTwin setting id .empty .empty
  | busy : SlotTwin setting id .busy .busy
  | ready (term : Term) : SlotTwin setting id (.ready term) (.ready term)
  | pending {expr expr' : Expr} (twin : Expr.Twin captures.literals (setting.sees id) expr expr') :
      SlotTwin setting id (.pending expr) (.pending expr')

inductive OuterTwin : OuterPair → Outer → Outer → Prop
  | captured (id id' : FrameId) : OuterTwin (.captured id id') (.captured id) (.captured id')
  | symbolic (id : Nat) : OuterTwin (.symbolic id) (.symbolic id) (.symbolic id)

/-- Two symbolic frames hold the same. -/
structure FrameTwin (setting : Setting captures) (id : Nat) (pair : FramePair)
    (frame frame' : SymbolicFrame) : Prop where
  outer : OuterTwin pair.outer frame.outer frame'.outer
  oneToOne : OneToOne pair.slots
  slots : ∀ slot slot', pair.slots slot slot' → ∃ content content',
    frame.slots[slot]? = some content ∧ frame'.slots[slot']? = some content' ∧
      SlotTwin setting id content content'

/-- Two compilations have come equally far. -/
structure Joined (setting : Setting captures) (state state' : CompilerState) : Prop where
  heaps : captures.heaps setting.world state.heap state'.heap
  statements : state.compiler.statements = state'.compiler.statements
  nextId : state.compiler.nextId = state'.compiler.nextId
  inlining : List.Forall₂ captures.literals state.compiler.inlining state'.compiler.inlining
  size : state.compiler.frames.size = setting.frames.length
  size' : state'.compiler.frames.size = setting.frames.length
  frames : ∀ (id : Nat) pair, setting.frames[id]? = some pair →
    ∃ frame frame', state.compiler.frames[id]? = some frame ∧
      state'.compiler.frames[id]? = some frame' ∧ FrameTwin setting id pair frame frame'

variable {setting wider : Setting captures} {state state' : CompilerState} {id : Nat}

theorem SlotTwin.later {content content' : SymbolicSlot} (twin : SlotTwin setting id content content')
    (later : setting.Later wider) : SlotTwin wider id content content' := by
  cases twin with
  | empty => exact .empty
  | busy => exact .busy
  | ready term => exact .ready term
  | pending twin => exact .pending (twin.mono later.sees)

theorem FrameTwin.later {pair : FramePair} {frame frame' : SymbolicFrame}
    (twin : FrameTwin setting id pair frame frame') (later : setting.Later wider) :
    FrameTwin wider id pair frame frame' := by
  refine ⟨twin.outer, twin.oneToOne, fun slot slot' together => ?_⟩
  obtain ⟨content, content', holds, holds', alike⟩ := twin.slots slot slot' together
  exact ⟨content, content', holds, holds', alike.later later⟩

namespace Joined

/-- The captured frames are evaluated further. -/
theorem advance (joined : Joined setting state state') {world : captures.World} {heap heap' : Heap}
    (later : captures.later setting.world world) (heaps : captures.heaps world heap heap') :
    Joined (⟨world, setting.frames⟩ : Setting captures) { state with heap } { state' with heap := heap' } := by
  have wider : setting.Later ⟨world, setting.frames⟩ := ⟨later, List.prefix_rfl⟩
  refine ⟨heaps, joined.statements, joined.nextId, joined.inlining, joined.size, joined.size',
    fun id pair there => ?_⟩
  obtain ⟨frame, frame', found, found', twin⟩ := joined.frames id pair there
  exact ⟨frame, frame', found, found', twin.later wider⟩

/-- Both put something into slots of one frame, in any order. -/
theorem putEach (joined : Joined setting state state') {pair : FramePair}
    (there : setting.frames[id]? = some pair)
    (contents : List ((Nat × SymbolicSlot) × (Nat × SymbolicSlot)))
    {others : List (Nat × SymbolicSlot)} (order : (contents.map (·.2)).Perm others)
    (distinct : (contents.map (·.1.1)).Nodup)
    (together : ∀ content ∈ contents, pair.slots content.1.1 content.2.1)
    (alike : ∀ content ∈ contents, SlotTwin setting id content.1.2 content.2.2) :
    Joined setting
      { state with compiler := state.compiler.putEach id (contents.map (·.1)) }
      { state' with compiler := state'.compiler.putEach id others } := by
  obtain ⟨statements, nextId, inlining⟩ :=
    @Compiler.putEach_rest state.compiler id (contents.map (·.1))
  obtain ⟨statements', nextId', inlining'⟩ :=
    @Compiler.putEach_rest state'.compiler id others
  refine ⟨joined.heaps, ?_, ?_, ?_, ?_, ?_, fun other pair' there' => ?_⟩
  · exact (statements.trans joined.statements).trans statements'.symm
  · exact (nextId.trans joined.nextId).trans nextId'.symm
  · exact inlining ▸ inlining' ▸ joined.inlining
  · exact Compiler.size_putEach.trans joined.size
  · exact Compiler.size_putEach.trans joined.size'
  · obtain ⟨frame, frame', found, found', twin⟩ := joined.frames other pair' there'
    by_cases same : id = other
    · subst same
      obtain rfl := Option.some.inj (there.symm.trans there')
      refine ⟨_, _, Compiler.frame?_putEach_self found, Compiler.frame?_putEach_self found',
        twin.outer, twin.oneToOne, fun slot slot' belong => ?_⟩
      exact getElem?_setEach_partners twin.oneToOne twin.slots contents order distinct together alike
        slot slot' belong
    · refine ⟨frame, frame', ?_, ?_, twin⟩
      · exact (Compiler.frame?_putEach_ne same).trans found
      · exact (Compiler.frame?_putEach_ne same).trans found'

/-- Both put something into one slot. -/
theorem put (joined : Joined setting state state') {pair : FramePair}
    (there : setting.frames[id]? = some pair) {slot slot' : Nat} (together : pair.slots slot slot')
    {content content' : SymbolicSlot} (alike : SlotTwin setting id content content') :
    Joined setting { state with compiler := state.compiler.put id slot content }
      { state' with compiler := state'.compiler.put id slot' content' } :=
  joined.putEach there [((slot, content), (slot', content'))] (.refl _) (by simp)
    (by simpa using together) (by simpa using alike)

/-- Both make a frame. -/
theorem alloc (joined : Joined setting state state') {slotCount slotCount' : Nat}
    {slots : Nat → Nat → Prop} (layout : Matching slotCount slotCount' slots) {around : OuterPair}
    {outer outer' : Outer} (twin : OuterTwin around outer outer') :
    Joined (setting.add ⟨slots, around⟩)
      { state with compiler := state.compiler.alloc slotCount outer }
      { state' with compiler := state'.compiler.alloc slotCount' outer' } := by
  have later := Setting.Later.add setting ⟨slots, around⟩
  refine ⟨joined.heaps, joined.statements, joined.nextId, joined.inlining, ?_, ?_,
    fun id pair there => ?_⟩
  · simp [Compiler.alloc, Setting.add, joined.size]
  · simp [Compiler.alloc, Setting.add, joined.size']
  · by_cases old : id < setting.frames.length
    · rw [Setting.add, List.getElem?_append_left old] at there
      obtain ⟨frame, frame', found, found', alike⟩ := joined.frames id pair there
      refine ⟨frame, frame', ?_, ?_, alike.later later⟩
      · exact (Compiler.frame?_alloc_ne (by rw [joined.size]; omega)).trans found
      · exact (Compiler.frame?_alloc_ne (by rw [joined.size']; omega)).trans found'
    · obtain rfl : id = setting.frames.length := by
        have := (List.getElem?_eq_some_iff.mp there).1
        simp only [Setting.add, List.length_append, List.length_cons, List.length_nil] at this
        omega
      obtain rfl := Option.some.inj ((setting.frame_add ⟨slots, around⟩).symm.trans there)
      refine ⟨_, _, joined.size ▸ Compiler.frame?_alloc_self slotCount outer,
        joined.size' ▸ Compiler.frame?_alloc_self slotCount' outer', twin, layout.oneToOne, ?_⟩
      intro slot slot' together
      obtain ⟨inside, inside'⟩ := layout.inside slot slot' together
      exact ⟨.empty, .empty, by simp [inside], by simp [inside'], .empty⟩

/-- Both begin to inline the same function. -/
theorem entering (joined : Joined setting state state') {place place' : Location}
    (same : captures.literals place place') :
    Joined setting (state.entering place) (state'.entering place') :=
  ⟨joined.heaps, joined.statements, joined.nextId, .cons same joined.inlining, joined.size,
    joined.size', joined.frames⟩

theorem leaving (joined : Joined setting state state') :
    Joined setting state.leaving state'.leaving :=
  ⟨joined.heaps, joined.statements, joined.nextId, List.forall₂_drop 1 joined.inlining,
    joined.size, joined.size', joined.frames⟩

/-- Both emit the same. -/
theorem emitted (joined : Joined setting state state') {later later' : CompilerState}
    (heap : later.heap = state.heap) (heap' : later'.heap = state'.heap)
    (frames : later.compiler.frames = state.compiler.frames)
    (frames' : later'.compiler.frames = state'.compiler.frames)
    (inlining : later.compiler.inlining = state.compiler.inlining)
    (inlining' : later'.compiler.inlining = state'.compiler.inlining)
    (statements : later.compiler.statements = later'.compiler.statements)
    (nextId : later.compiler.nextId = later'.compiler.nextId) : Joined setting later later' :=
  ⟨heap ▸ heap' ▸ joined.heaps, statements, nextId, inlining ▸ inlining' ▸ joined.inlining,
    frames ▸ joined.size, frames' ▸ joined.size', frames ▸ frames' ▸ joined.frames⟩

end Joined

end Shader

end ShapeLang
