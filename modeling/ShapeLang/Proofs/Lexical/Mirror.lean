import ShapeLang.Proofs.Lexical.Placement

/-! # Frames and scopes change together

Binding a name anew is writing its slot. A new scope takes slots that hold nothing yet, in a new
frame or in the frame of the scope around it.
-/

namespace ShapeLang.Lexical

variable {names : Namespace} {base : Nat} {placement placement' : Placement} {heap heap' : Heap}
  {store : Store} {ribs : Ribs} {slots slots' : List Slot} {fields : List (String × Nat)}
  {cells : List (String × Cell)}

theorem Content.nonempty {slot : Slot} {cell : Cell}
    (content : Content names base placement heap ribs slot cell) : slot ≠ .empty := by
  cases content <;> simp

/-- The slots of a scope are filled. -/
theorem Filling.nonempty (filling : Filling names base placement heap ribs slots fields cells)
    {slot : Nat} (mem : slot ∈ fields.map (·.2)) :
    ∃ content, slots[slot]? = some content ∧ content ≠ .empty := by
  induction filling with
  | nil => simp at mem
  | cons same _ ih =>
    rcases List.mem_cons.mp mem with rfl | mem
    · obtain ⟨-, content, holds, related⟩ := same
      exact ⟨content, holds, related.nonempty⟩
    · exact ih mem

/-- Slots keep what is in them, while frames and scopes are added. -/
theorem Filling.mono (filling : Filling names base placement heap ribs slots fields cells)
    (placed : placement <+: placement') (extension : heap.Extends heap')
    (kept : ∀ slot ∈ fields.map (·.2), ∀ content, slots[slot]? = some content →
      content ≠ .empty → slots'[slot]? = some content) :
    Filling names base placement' heap' ribs slots' fields cells := by
  induction filling with
  | nil => exact .nil
  | cons same _ ih =>
    obtain ⟨named, content, holds, related⟩ := same
    refine .cons ⟨named, content, kept _ (by simp) content holds related.nonempty,
      related.mono placed extension⟩ (ih fun slot mem => kept slot (by simp [mem]))

/-- A name is bound anew, and its slot is written. -/
theorem Filling.write {name : String} {slot : Nat} {content : Slot} {cell : Cell}
    (filling : Filling names base placement heap ribs slots fields cells)
    (distinct : (fields.map (·.2)).Nodup) (bound : fields.lookup name = some slot)
    (related : Content names base placement heap ribs content cell) :
    Filling names base placement heap ribs (slots.set slot content) fields
      (rebind name cell cells) := by
  induction filling with
  | nil => cases bound
  | @cons field old fields cells same rest ih =>
    obtain ⟨first, place⟩ := field
    obtain ⟨second, cell'⟩ := old
    obtain ⟨rfl, content', holds, related'⟩ := same
    rw [List.map_cons, List.nodup_cons] at distinct
    rw [List.lookup_cons] at bound
    rw [rebind]
    by_cases here : name = first
    · subst here
      simp only [BEq.rfl, Option.some.injEq] at bound
      subst bound
      rw [if_pos (by simp)]
      refine .cons ⟨rfl, content, List.getElem?_set_self (List.getElem?_eq_some_iff.mp holds).1,
        related⟩ (Filling.mono rest (List.prefix_refl _) (.refl heap)
          fun other mem content' holds' _ => ?_)
      rwa [List.getElem?_set_ne]
      rintro rfl
      exact distinct.1 mem
    · have other : (name == first) = false := by simpa using here
      simp only [other] at bound
      rw [if_neg (by simpa using here)]
      refine .cons ⟨rfl, content', ?_, related'⟩ (ih distinct.2 bound)
      rwa [List.getElem?_set_ne]
      rintro rfl
      exact distinct.1 (Ribs.mem_of_lookup bound)

theorem Occupies.mono {id : FrameId} {rib : Rib} {number : ScopeId} {scope : Scope}
    {frame : Frame} (occupies : Occupies names base placement heap id rib number scope frame ribs)
    (placed : placement <+: placement') (extension : heap.Extends heap') {later : Frame}
    (found : heap'.frame? id = some later)
    (kept : ∀ slot ∈ rib.slots.map (·.2), ∀ content, frame.slots[slot]? = some content →
      content ≠ .empty → later.slots[slot]? = some content) :
    Occupies names base placement' heap' id rib number scope later ribs := by
  obtain ⟨later', found', -, depth, -⟩ := extension.kept id frame occupies.found
  obtain rfl := Option.some.inj (found.symm.trans found')
  exact ⟨found, depth.trans occupies.depth, occupies.lies.mono placed extension,
    occupies.filling.mono placed extension kept⟩

namespace Mirrors

variable {id : FrameId} {rib : Rib} {number : ScopeId}

/-- A name is bound anew, and its slot is written. -/
theorem write (mirrors : Mirrors names base placement heap store)
    (placed : placement[number]? = some (id, rib)) {name : String} {slot : Nat}
    (bound : rib.slots.lookup name = some slot) {content : Slot} {cell : Cell}
    (related : ∀ ribs,
      Content names base placement (heap.put id slot content) ribs content cell) :
    Mirrors names base placement (heap.put id slot content) (store.set number name cell) := by
  have extension := Heap.Extends.put heap id slot content
  refine ⟨by simpa [Store.set] using mirrors.size, mirrors.closures,
    fun other id' rib' placed' => ?_, mirrors.distinct, mirrors.apart⟩
  obtain ⟨scope, frame, ribs, found, occupies⟩ := mirrors.occupies other id' rib' placed'
  by_cases same : number = other
  · subst same
    obtain ⟨rfl, rfl⟩ := Prod.mk.inj (Option.some.inj (placed.symm.trans placed'))
    have kept := occupies.filling.mono (List.prefix_refl _) extension
      fun _ _ _ holds _ => holds
    exact ⟨{ scope with cells := rebind name cell scope.cells }, _, ribs,
      by rw [Store.set, Array.getElem?_modify, if_pos rfl, found]; rfl,
      Heap.frame?_put_self occupies.found, occupies.depth,
      occupies.lies.mono (List.prefix_refl _) extension,
      kept.write (mirrors.distinct _ _ _ placed) bound (related _)⟩
  · have found' : (store.set number name cell).scopes[other]? = some scope := by
      rw [Store.set, Array.getElem?_modify, if_neg same, found]
    by_cases here : id = id'
    · subst here
      refine ⟨scope, _, ribs, found', occupies.mono (List.prefix_refl _) extension
        (Heap.frame?_put_self occupies.found) fun place mem content' holds _ => ?_⟩
      rwa [List.getElem?_set_ne]
      rintro rfl
      exact (mirrors.apart number other id rib rib' placed placed' same).1
        (Ribs.mem_of_lookup bound) mem
    · exact ⟨scope, frame, ribs, found', occupies.mono (List.prefix_refl _) extension
        ((Heap.frame?_put_ne here).trans occupies.found) fun _ _ _ holds _ => holds⟩

/-- Filled slots are kept. -/
theorem later (mirrors : Mirrors names base placement heap store) (extension : heap.Extends heap')
    (kept : ∀ id (frame : Frame) (slot : Nat) content, heap.frame? id = some frame →
      frame.slots[slot]? = some content → content ≠ .empty →
      ∃ later, heap'.frame? id = some later ∧ later.slots[slot]? = some content) :
    Mirrors names base placement heap' { store with closures := heap'.closures } := by
  refine ⟨mirrors.size, rfl, fun number id rib placed => ?_, mirrors.distinct, mirrors.apart⟩
  obtain ⟨scope, frame, ribs, found, occupies⟩ := mirrors.occupies number id rib placed
  obtain ⟨after, found', -⟩ := extension.kept id frame occupies.found
  refine ⟨scope, after, ribs, found, occupies.mono (List.prefix_refl _) extension found'
    fun slot _ content holds nonempty => ?_⟩
  obtain ⟨after', found'', holds'⟩ := kept id frame slot content occupies.found holds nonempty
  exact Option.some.inj (found'.symm.trans found'') ▸ holds'

/-- No scope has slots that are not filled. -/
theorem disjoint (mirrors : Mirrors names base placement heap store) {rib' : Rib}
    (unfilled : ∀ slot ∈ rib.slots.map (·.2), ¬ heap.Filled id slot)
    (placed : placement[number]? = some (id, rib')) :
    (rib.slots.map (·.2)).Disjoint (rib'.slots.map (·.2)) := by
  intro slot mem mem'
  obtain ⟨scope, frame, ribs, -, occupies⟩ := mirrors.occupies number id rib' placed
  obtain ⟨content, holds, nonempty⟩ := occupies.filling.nonempty mem'
  exact unfilled slot mem ⟨frame, content, occupies.found, holds, nonempty⟩

/-- One more scope. -/
theorem push (mirrors : Mirrors names base placement heap store) {env : Env} {frame : Frame}
    (distinct : (rib.slots.map (·.2)).Nodup)
    (apart : ∀ (number : ScopeId) rib', placement[number]? = some (id, rib') →
      (rib.slots.map (·.2)).Disjoint (rib'.slots.map (·.2)) ∧ rib.opensFrame = false)
    (found : heap.frame? id = some frame) (depth : frame.depth = env.depth)
    (lies : Lies base (placement ++ [(id, rib)]) heap (store.scopes.size :: env.scopes) id
      (rib :: ribs))
    (filling : Filling names base (placement ++ [(id, rib)]) heap (rib :: ribs) frame.slots
      rib.slots cells) :
    Mirrors names base (placement ++ [(id, rib)]) heap (store.push cells env) := by
  have split {number : ScopeId} {entry : FrameId × Rib}
      (placed : (placement ++ [(id, rib)])[number]? = some entry) :
      placement[number]? = some entry ∨ number = placement.length ∧ entry = (id, rib) := by
    rw [List.getElem?_append] at placed
    split at placed
    · exact .inl placed
    · rename_i late
      rw [List.getElem?_singleton] at placed
      split at placed
      · rename_i first
        exact .inr ⟨Nat.le_antisymm (Nat.sub_eq_zero_iff_le.mp first) (Nat.le_of_not_lt late),
          (Option.some.inj placed).symm⟩
      · cases placed
  refine ⟨by simp [Store.push, mirrors.size], mirrors.closures, fun number id' rib' placed => ?_,
    fun number id' rib' placed => ?_, fun number other id' rib₁ rib₂ placed placed' different => ?_⟩
  · rcases split placed with old | ⟨rfl, same⟩
    · obtain ⟨scope, frame', ribs', found', occupies⟩ := mirrors.occupies number id' rib' old
      refine ⟨scope, frame', ribs', ?_, occupies.mono (List.prefix_append _ _) (.refl heap)
        occupies.found fun _ _ _ holds _ => holds⟩
      rw [Store.push, Array.getElem?_push, if_neg, found']
      rintro rfl
      have := (Array.getElem?_eq_some_iff.mp found').1
      omega
    · obtain ⟨rfl, rfl⟩ := Prod.mk.inj same
      refine ⟨⟨cells, env.scopes, env.depth⟩, frame, ribs, ?_, found, depth, mirrors.size ▸ lies,
        filling⟩
      rw [← mirrors.size, Store.push, Array.getElem?_push, if_pos rfl]
  · rcases split placed with old | ⟨rfl, same⟩
    · exact mirrors.distinct number id' rib' old
    · obtain ⟨rfl, rfl⟩ := Prod.mk.inj same
      exact distinct
  · rcases split placed with old | ⟨rfl, same⟩
    · rcases split placed' with old' | ⟨rfl, same'⟩
      · exact mirrors.apart number other id' rib₁ rib₂ old old' different
      · obtain ⟨rfl, rfl⟩ := Prod.mk.inj same'
        exact ⟨fun _ mem mem' => (apart number rib₁ old).1 mem' mem,
          fun _ => (apart number rib₁ old).2⟩
    · obtain ⟨rfl, rfl⟩ := Prod.mk.inj same
      rcases split placed' with old' | ⟨rfl, same'⟩
      · obtain ⟨disjoint, shares⟩ := apart other rib₂ old'
        exact ⟨disjoint, fun opens => by simp [shares] at opens⟩
      · exact (different rfl).elim

end Mirrors

section Fillings

/-- The names of a group of definitions, none of which was needed yet. -/
def waitings (definitions : List (String × Phrase)) : List (String × Cell) :=
  definitions.map fun definition => (definition.1, .waiting definition.2)

/-- Definitions that wait in their slots. -/
theorem Filling.of_group {group : List Linked} (distinct : (group.map Linked.slot).Nodup)
    (inside : ∀ slot ∈ group.map Linked.slot, slot < slots.length)
    (parts : ∀ definition ∈ group, Resolves names ribs definition.body definition.expr) :
    Filling names base placement heap ribs
      (setEach slots (pendings (group.map Linked.binding))) (group.map Linked.field)
      (waitings (group.map Linked.source)) := by
  rw [Filling, waitings, List.map_map, List.forall₂_map_left_iff, List.forall₂_map_right_iff,
    List.forall₂_same]
  intro definition mem
  refine ⟨rfl, .pending definition.expr, getElem?_setEach_of_mem ?_ ?_ ?_,
    .waiting (parts definition mem)⟩
  · simpa [pendings, Linked.binding, Function.comp_def] using distinct
  · exact List.mem_map_of_mem (List.mem_map_of_mem mem)
  · exact inside definition.slot (List.mem_map_of_mem mem)

/-- Parameters with the values of the arguments. -/
theorem Filling.of_args {params : List String} {args : List (ShapeLang.Value × Value)}
    (count : args.length = params.length) (room : params.length ≤ slots.length)
    (same : ∀ arg ∈ args, Corresponds names base placement heap arg.1 arg.2) :
    Filling names base placement heap ribs
      (setEach slots (readies 0 (args.map (·.1)))) (Rib.ofParameters params).slots
      (params.zip ((args.map (·.2)).map .done)) := by
  refine List.forall₂_iff_get.mpr ⟨by simp [Rib.ofParameters, count], fun i low high => ?_⟩
  have low' : i < args.length := by simpa [Rib.ofParameters, count] using low
  have stored : (setEach slots (readies 0 (args.map (·.1))))[i]? = some (.ready args[i].1) := by
    refine getElem?_setEach_of_mem ?_ ?_ (by omega)
    · rw [map_readies]
      exact List.nodup_range'
    · have mem := mem_readies_of_getElem? 0 (args.map (·.1)) i args[i].1 (by simp [low'])
      rwa [Nat.zero_add] at mem
  refine ⟨by simp [Rib.ofParameters], .ready args[i].1, ?_, ?_⟩
  · simpa [Rib.ofParameters] using stored
  · simpa using Content.done (same args[i] (List.getElem_mem _))

end Fillings

section Opening

variable {env : Env} {id envFrame : FrameId} {rib : Rib}

/-- A scope of `let` takes spare slots of the frame around it. -/
theorem Mirrors.openLet (mirrors : Mirrors names base placement heap store) {frame : Frame}
    (lies : Lies base placement heap env.scopes id ribs) (found : heap.frame? id = some frame)
    (depth : frame.depth = env.depth) {group : List Linked}
    (spare : Spare frame.slots (group.map Linked.slot))
    (parts : ∀ definition ∈ group,
      Resolves names (⟨group.map Linked.field, false⟩ :: ribs) definition.body definition.expr) :
    Mirrors names base (placement ++ [(id, ⟨group.map Linked.field, false⟩)])
        (heap.putEach id (pendings (group.map Linked.binding)))
        (store.push (waitings (group.map Linked.source)) env) ∧
      Lies base (placement ++ [(id, ⟨group.map Linked.field, false⟩)])
        (heap.putEach id (pendings (group.map Linked.binding)))
        (store.scopes.size :: env.scopes) id (⟨group.map Linked.field, false⟩ :: ribs) := by
  have slotsOf : (group.map Linked.field).map (·.2) = group.map Linked.slot := by
    simp [Linked.field, Function.comp_def]
  have nonempty : ∀ content ∈ pendings (group.map Linked.binding), content.2 ≠ .empty :=
    pendings_nonempty
  have extension := (Heap.Grows.putEach heap id nonempty).extension
  have unfilled (slot : Nat) (mem : slot ∈ (group.map Linked.field).map (·.2)) :
      ¬ heap.Filled id slot := by
    rintro ⟨frame', content, found', holds, nonempty⟩
    obtain rfl := Option.some.inj (found.symm.trans found')
    rw [(spare.free slot (slotsOf ▸ mem)).1] at holds
    exact nonempty (Option.some.inj holds).symm
  have lies' : Lies base (placement ++ [(id, ⟨group.map Linked.field, false⟩)])
      (heap.putEach id (pendings (group.map Linked.binding)))
      (store.scopes.size :: env.scopes) id (⟨group.map Linked.field, false⟩ :: ribs) :=
    .shared (by rw [mirrors.size]; exact List.getElem?_concat_length) rfl
      (lies.mono (List.prefix_append _ _) extension)
  have kept := mirrors.later extension fun other frame' slot content found' holds nonempty => by
    by_cases here : id = other
    · subst here
      obtain rfl := Option.some.inj (found.symm.trans found')
      refine ⟨_, Heap.frame?_putEach_self found, ?_⟩
      rw [getElem?_setEach_of_not_mem, holds]
      intro mem
      refine unfilled slot ?_ ⟨frame, content, found, holds, nonempty⟩
      simpa [pendings, Linked.binding, Linked.field, Function.comp_def] using mem
    · exact ⟨frame', (Heap.frame?_putEach_ne here).trans found', holds⟩
  rw [Heap.closures_putEach, ← mirrors.closures] at kept
  refine ⟨kept.push ?_ (fun number rib' placed => ⟨?_, rfl⟩) (Heap.frame?_putEach_self found) depth
    lies' (.of_group spare.nodup (fun slot mem => ?_) parts), lies'⟩
  · exact slotsOf ▸ spare.nodup
  · exact mirrors.disjoint unfilled placed
  · exact (List.getElem?_eq_some_iff.mp (spare.free slot mem).1).1

/-- A scope of a module, of parameters or of the item of a loop takes a new frame. -/
theorem Mirrors.openFrame (mirrors : Mirrors names base placement heap store)
    (lies : Lies base placement heap env.scopes envFrame ribs) (slotCount : Nat)
    (caller : FrameId) (callSite : Option Location) {contents : List (Nat × Slot)}
    (nonempty : ∀ content ∈ contents, content.2 ≠ .empty) (opens : rib.opensFrame = true)
    (distinct : (rib.slots.map (·.2)).Nodup)
    (filling : Filling names base placement heap (rib :: ribs)
      (setEach (List.replicate slotCount .empty) contents) rib.slots cells) :
    Mirrors names base (placement ++ [(heap.frames.size, rib)])
        (heap.enter slotCount envFrame caller callSite env.depth contents)
        (store.push cells env) ∧
      Lies base (placement ++ [(heap.frames.size, rib)])
        (heap.enter slotCount envFrame caller callSite env.depth contents)
        (store.scopes.size :: env.scopes) heap.frames.size (rib :: ribs) := by
  have grows := Heap.Grows.enter heap slotCount envFrame caller callSite env.depth nonempty
  have inside := lies.since
  have lies' : Lies base (placement ++ [(heap.frames.size, rib)])
      (heap.enter slotCount envFrame caller callSite env.depth contents)
      (store.scopes.size :: env.scopes) heap.frames.size (rib :: ribs) := by
    refine .opened (by rw [mirrors.size]; exact List.getElem?_concat_length) opens
      ⟨Nat.le_trans inside.1 (Nat.le_of_lt inside.2), ?_⟩ Heap.frame?_enter_self rfl
      (lies.mono (List.prefix_append _ _) grows.extension)
    rw [Heap.size_enter]
    exact Nat.lt_succ_self _
  have old {other : FrameId} {frame : Frame} (found : heap.frame? other = some frame) :
      (heap.enter slotCount envFrame caller callSite env.depth contents).frame? other =
        some frame := by
    have different := Nat.ne_of_lt (Heap.lt_size_of_frame? found)
    exact (Heap.frame?_putEach_ne (Ne.symm different)).trans
      ((Heap.frame?_alloc_ne heap _ _ _ _ _ different).trans found)
  have kept := mirrors.later grows.extension fun other frame slot content found holds _ =>
    ⟨frame, old found, holds⟩
  have closures : (heap.enter slotCount envFrame caller callSite env.depth contents).closures =
      heap.closures := Heap.closures_putEach
  rw [closures, ← mirrors.closures] at kept
  refine ⟨kept.push distinct (fun number rib' placed => ?_) Heap.frame?_enter_self rfl lies'
    (filling.mono (List.prefix_append _ _) grows.extension fun _ _ _ holds _ => holds), lies'⟩
  obtain ⟨_, frame, _, -, occupies⟩ := mirrors.occupies number _ rib' placed
  exact (Nat.lt_irrefl _ (Heap.lt_size_of_frame? occupies.found)).elim

end Opening

end ShapeLang.Lexical
