import ShapeLang.Proofs.Frame.Batch
import ShapeLang.Proofs.Shader.Captures
import ShapeLang.Proofs.Value.Rearranged

/-! # Frames that are laid out differently

Two evaluations of twin code make the same frames one after the other. What differs is which slot a
definition has in its frame. For each pair of frames it is known which slots belong together; such
slots hold the same, up to the layout of further frames.
-/

namespace ShapeLang.Reordering

open Value (OneToOne)

variable {literals : Location → Location → Prop}

/-- The slots that belong together in a frame of both evaluations, and the frame around it. -/
structure Layout where
  slots : Nat → Nat → Prop
  parent : Option FrameId

/-- What is known of the frames, by their numbers. Nothing is known of frames that neither of the
evaluations reads from. -/
abbrev Layouts := List (Option Layout)

namespace Layouts

/-- Which slots code in a frame reads for the same purpose. -/
def sees (layouts : Layouts) (id : FrameId) : Pairing
  | 0, slot, slot' => ∃ layout, layouts[id]? = some (some layout) ∧ layout.slots slot slot'
  | depth + 1, slot, slot' => ∃ layout parent, layouts[id]? = some (some layout) ∧
    layout.parent = some parent ∧ layouts.sees parent depth slot slot'

variable {layouts wider : Layouts} {id : FrameId} {layout : Layout}

/-- What is known of a frame is known later. -/
theorem kept (later : layouts <+: wider) (there : layouts[id]? = some (some layout)) :
    wider[id]? = some (some layout) := by
  obtain ⟨more, rfl⟩ := later
  rw [List.getElem?_append_left (List.getElem?_eq_some_iff.mp there).1]
  exact there

theorem sees_later (later : layouts <+: wider) (depth slot slot' : Nat)
    (seen : layouts.sees id depth slot slot') : wider.sees id depth slot slot' := by
  induction depth generalizing id with
  | zero =>
    obtain ⟨layout, there, together⟩ := seen
    exact ⟨layout, kept later there, together⟩
  | succ depth ih =>
    obtain ⟨layout, parent, there, atParent, seen⟩ := seen
    exact ⟨layout, parent, kept later there, atParent, ih seen⟩

/-- What is known with one more frame. -/
def add (layouts : Layouts) (layout : Layout) : Layouts := layouts ++ [some layout]

theorem later_add (layouts : Layouts) (layout : Layout) : layouts <+: layouts.add layout :=
  List.prefix_append _ _

theorem getElem?_add (layouts : Layouts) (layout : Layout) :
    (layouts.add layout)[layouts.length]? = some (some layout) := by
  simp [add]

/-- What code in a new frame reads. -/
theorem sees_add {slots : Nat → Nat → Prop} {parent : FrameId} (depth slot slot' : Nat)
    (seen : (layouts.sees parent).enter slots depth slot slot') :
    (layouts.add ⟨slots, some parent⟩).sees layouts.length depth slot slot' := by
  cases depth with
  | zero => exact ⟨_, getElem?_add _ _, seen⟩
  | succ depth =>
    exact ⟨_, parent, getElem?_add _ _, rfl, sees_later (later_add _ _) depth slot slot' seen⟩

end Layouts

/-- Values of two evaluations that serve the same purpose: modules over the same frame, of which
each name leads to slots that belong together, and functions that were made at the same time from
twin literals. -/
inductive Partner (literals : Location → Location → Prop) (layouts : Layouts) : Value → Value → Prop
  | bool (value : Bool) : Partner literals layouts (.bool value) (.bool value)
  | num (value : Float) : Partner literals layouts (.num value) (.num value)
  | text (content : String) : Partner literals layouts (.text content) (.text content)
  | list (items : List (Value × Value)) {frames frames' : FrameSet}
      (parts : ∀ item ∈ items, Partner literals layouts item.1 item.2) :
      Partner literals layouts (.list (items.map (·.1)) frames) (.list (items.map (·.2)) frames')
  | record (fields : List (String × Value × Value)) {frames frames' : FrameSet}
      (parts : ∀ field ∈ fields, Partner literals layouts field.2.1 field.2.2) :
      Partner literals layouts (.record (fields.map fun field => (field.1, field.2.1)) frames)
        (.record (fields.map fun field => (field.1, field.2.2)) frames')
  | module {frame : FrameId} {fields fields' : List (String × Nat)}
      (names : (fields.map (·.1)).Perm (fields'.map (·.1)))
      (named : ∀ name, Option.Rel (layouts.sees frame 0) (fields.lookup name)
        (fields'.lookup name)) :
      Partner literals layouts (.module frame fields) (.module frame fields')
  | closure {serial : Nat} {lambda lambda' : Lambda} {env : FrameId}
      (code : Expr.Twin literals (layouts.sees env) lambda.expr lambda'.expr) :
      Partner literals layouts (.closure serial lambda env) (.closure serial lambda' env)
  | builtin (function : Builtin) :
      Partner literals layouts (.builtin function) (.builtin function)

namespace Partner

variable {layouts wider : Layouts} {value value' : Value}

theorem later (partner : Partner literals layouts value value') (later : layouts <+: wider) :
    Partner literals wider value value' := by
  induction partner with
  | bool value => exact .bool value
  | num value => exact .num value
  | text content => exact .text content
  | list items _ parts => exact .list items parts
  | record fields _ parts => exact .record fields parts
  | «module» names named =>
    exact .module names fun name => rel_mono (Layouts.sees_later later 0) (named name)
  | closure code => exact .closure (code.mono (Layouts.sees_later later))
  | builtin function => exact .builtin function

/-- Operators cannot tell them apart, and they show the same up to the order of names. -/
theorem rearranged (partner : Partner literals layouts value value') : value.Rearranged value' := by
  induction partner with
  | bool value => exact .bool value
  | num value => exact .num value
  | text content => exact .text content
  | list items _ parts => exact .list items parts
  | record fields _ parts => exact .record fields parts
  | «module» names _ => exact .module rfl names
  | closure code => exact .closure rfl code.paramCount_eq
  | builtin function => exact .builtin function

/-- Plain values are their own partners. -/
theorem of_plain (plain : value.Plain) : Partner literals layouts value value := by
  induction plain with
  | bool value => exact .bool value
  | num value => exact .num value
  | text content => exact .text content
  | @list items frames _ parts =>
    have partner : Partner literals layouts (.list ((items.map fun item => (item, item)).map (·.1)) frames)
        (.list ((items.map fun item => (item, item)).map (·.2)) frames) :=
      .list _ (List.forall_mem_map.mpr parts)
    simpa [Function.comp_def] using partner
  | @record fields frames _ parts =>
    let doubled := fields.map fun field => (field.1, field.2, field.2)
    have partner : Partner literals layouts
        (.record (doubled.map fun field => (field.1, field.2.1)) frames)
        (.record (doubled.map fun field => (field.1, field.2.2)) frames) :=
      .record _ (List.forall_mem_map.mpr parts)
    simpa [doubled, Function.comp_def] using partner
  | «module» impossible => exact impossible.elim
  | closure impossible => exact impossible.elim
  | builtin function => exact .builtin function

end Partner

/-- What two slots that belong together hold. -/
inductive SlotPartner (literals : Location → Location → Prop) (layouts : Layouts) (id : FrameId) :
    Slot → Slot → Prop
  | empty : SlotPartner literals layouts id .empty .empty
  | busy : SlotPartner literals layouts id .busy .busy
  | ready {value value' : Value} (partner : Partner literals layouts value value') :
      SlotPartner literals layouts id (.ready value) (.ready value')
  | pending {expr expr' : Expr} (twin : Expr.Twin literals (layouts.sees id) expr expr') :
      SlotPartner literals layouts id (.pending expr) (.pending expr')

/-- Two frames that hold the same, as far as their slots belong together. -/
structure FramePartner (literals : Location → Location → Prop) (layouts : Layouts) (id : FrameId)
    (layout : Layout) (frame frame' : Frame) : Prop where
  parent : frame.parent = layout.parent
  parent' : frame'.parent = layout.parent
  oneToOne : OneToOne layout.slots
  slots : ∀ slot slot', layout.slots slot slot' → ∃ content content',
    frame.slots[slot]? = some content ∧ frame'.slots[slot']? = some content' ∧
      SlotPartner literals layouts id content content'

/-- Two evaluations have come equally far. -/
structure Paired (literals : Location → Location → Prop) (layouts : Layouts) (heap heap' : Heap) :
    Prop where
  size : heap.frames.size = layouts.length
  size' : heap'.frames.size = layouts.length
  closures : heap.closures = heap'.closures
  depth : ∀ id : FrameId, (heap.frame? id).map (·.depth) = (heap'.frame? id).map (·.depth)
  frames : ∀ (id : FrameId) layout, layouts[id]? = some (some layout) → ∃ frame frame',
    heap.frame? id = some frame ∧ heap'.frame? id = some frame' ∧
      FramePartner literals layouts id layout frame frame'

variable {layouts wider : Layouts} {heap heap' : Heap} {id owner : FrameId} {layout : Layout}
  {slot slot' depth : Nat}

theorem SlotPartner.later {content content' : Slot}
    (partner : SlotPartner literals layouts id content content') (later : layouts <+: wider) :
    SlotPartner literals wider id content content' := by
  cases partner with
  | empty => exact .empty
  | busy => exact .busy
  | ready partner => exact .ready (partner.later later)
  | pending twin => exact .pending (twin.mono (Layouts.sees_later later))

theorem FramePartner.later {frame frame' : Frame}
    (partner : FramePartner literals layouts id layout frame frame') (later : layouts <+: wider) :
    FramePartner literals wider id layout frame frame' := by
  refine ⟨partner.parent, partner.parent', partner.oneToOne, fun slot slot' together => ?_⟩
  obtain ⟨content, content', holds, holds', alike⟩ := partner.slots slot slot' together
  exact ⟨content, content', holds, holds', alike.later later⟩

namespace Paired

/-- A heap is like itself if nothing is known of its frames. -/
theorem refl (heap : Heap) :
    Paired literals (List.replicate heap.frames.size none) heap heap := by
  refine ⟨by simp, by simp, rfl, fun _ => rfl, fun id layout there => ?_⟩
  rw [List.getElem?_replicate] at there
  split at there <;> cases there

/-- A frame that one evaluation has is one that the other evaluation has. -/
theorem frame? (paired : Paired literals layouts heap heap') (id : FrameId) :
    heap.frame? id = none ∧ heap'.frame? id = none ∨ ∃ frame frame',
      heap.frame? id = some frame ∧ heap'.frame? id = some frame' ∧ frame.depth = frame'.depth := by
  have same := paired.depth id
  cases found : heap.frame? id with
  | none =>
    rw [found, Option.map_none, eq_comm, Option.map_eq_none_iff] at same
    exact .inl ⟨rfl, same⟩
  | some frame =>
    rw [found, Option.map_some, eq_comm, Option.map_eq_some_iff] at same
    obtain ⟨frame', found', equal⟩ := same
    exact .inr ⟨frame, frame', rfl, found', equal.symm⟩

/-- The frame where something is read that belongs together. -/
theorem ancestor? (paired : Paired literals layouts heap heap')
    (seen : layouts.sees id depth slot slot') : ∃ owner layout,
      heap.ancestor? id depth = some owner ∧ heap'.ancestor? id depth = some owner ∧
      layouts[owner]? = some (some layout) ∧ layout.slots slot slot' := by
  induction depth generalizing id with
  | zero =>
    obtain ⟨layout, there, together⟩ := seen
    exact ⟨id, layout, rfl, rfl, there, together⟩
  | succ depth ih =>
    obtain ⟨layout, parent, there, atParent, seen⟩ := seen
    obtain ⟨frame, frame', found, found', partner⟩ := paired.frames id layout there
    obtain ⟨owner, layout', reached, reached', there', together⟩ := ih seen
    exact ⟨owner, layout',
      Heap.ancestor?_succ_eq_some_iff.mpr
        ⟨frame, parent, found, partner.parent.trans atParent, reached⟩,
      Heap.ancestor?_succ_eq_some_iff.mpr
        ⟨frame', parent, found', partner.parent'.trans atParent, reached'⟩, there', together⟩

/-- Both change the slots of one frame. -/
theorem change (paired : Paired literals layouts heap heap')
    (there : layouts[id]? = some (some layout)) {after after' : Heap} (f f' : List Slot → List Slot)
    (size : after.frames.size = heap.frames.size) (size' : after'.frames.size = heap'.frames.size)
    (closures : after.closures = heap.closures) (closures' : after'.closures = heap'.closures)
    (own : ∀ frame, heap.frame? id = some frame →
      after.frame? id = some { frame with slots := f frame.slots })
    (own' : ∀ frame, heap'.frame? id = some frame →
      after'.frame? id = some { frame with slots := f' frame.slots })
    (others : ∀ other, id ≠ other → after.frame? other = heap.frame? other)
    (others' : ∀ other, id ≠ other → after'.frame? other = heap'.frame? other)
    (slots : ∀ frame frame', FramePartner literals layouts id layout frame frame' →
      ∀ slot slot', layout.slots slot slot' → ∃ content content',
        (f frame.slots)[slot]? = some content ∧ (f' frame'.slots)[slot']? = some content' ∧
          SlotPartner literals layouts id content content') :
    Paired literals layouts after after' := by
  obtain ⟨frame, frame', found, found', partner⟩ := paired.frames id layout there
  refine ⟨size.trans paired.size, size'.trans paired.size',
    closures.trans (paired.closures.trans closures'.symm), fun other => ?_,
    fun other layout' there' => ?_⟩
  · by_cases same : id = other
    · subst same
      have depth := paired.depth id
      rw [found, found'] at depth
      rw [own frame found, own' frame' found']
      exact depth
    · rw [others other same, others' other same, paired.depth other]
  · by_cases same : id = other
    · subst same
      obtain rfl := Option.some.inj (Option.some.inj (there.symm.trans there'))
      exact ⟨_, _, own frame found, own' frame' found', partner.parent, partner.parent',
        partner.oneToOne, slots frame frame' partner⟩
    · rw [others other same, others' other same]
      exact paired.frames other layout' there'

/-- Both put something into slots of one frame, in any order. -/
theorem putEach (paired : Paired literals layouts heap heap')
    (there : layouts[id]? = some (some layout)) (contents : List ((Nat × Slot) × (Nat × Slot)))
    {others : List (Nat × Slot)} (order : (contents.map (·.2)).Perm others)
    (distinct : (contents.map (·.1.1)).Nodup)
    (together : ∀ content ∈ contents, layout.slots content.1.1 content.2.1)
    (alike : ∀ content ∈ contents, SlotPartner literals layouts id content.1.2 content.2.2) :
    Paired literals layouts (heap.putEach id (contents.map (·.1))) (heap'.putEach id others) :=
  paired.change there (setEach · (contents.map (·.1))) (setEach · others) Heap.size_putEach
    Heap.size_putEach Heap.closures_putEach Heap.closures_putEach
    (fun _ => Heap.frame?_putEach_self) (fun _ => Heap.frame?_putEach_self)
    (fun _ => Heap.frame?_putEach_ne) (fun _ => Heap.frame?_putEach_ne)
    fun _ _ partner => getElem?_setEach_partners partner.oneToOne partner.slots contents order
      distinct together alike

/-- Both put something into one slot. -/
theorem put (paired : Paired literals layouts heap heap')
    (there : layouts[id]? = some (some layout)) (together : layout.slots slot slot')
    {content content' : Slot} (alike : SlotPartner literals layouts id content content') :
    Paired literals layouts (heap.put id slot content) (heap'.put id slot' content') :=
  paired.putEach there [((slot, content), (slot', content'))] (.refl _) (by simp)
    (by simpa using together) (by simpa using alike)

/-- Both empty a frame. -/
theorem clear (paired : Paired literals layouts heap heap')
    (there : layouts[id]? = some (some layout)) :
    Paired literals layouts (heap.mapSlots id (·.map fun _ => .empty))
      (heap'.mapSlots id (·.map fun _ => .empty)) := by
  refine paired.change there (·.map fun _ => .empty) (·.map fun _ => .empty)
    (Heap.size_mapSlots ..) (Heap.size_mapSlots ..) rfl rfl
    (fun _ => Heap.frame?_mapSlots_self) (fun _ => Heap.frame?_mapSlots_self)
    (fun _ => Heap.frame?_mapSlots_ne) (fun _ => Heap.frame?_mapSlots_ne)
    fun frame frame' partner slot slot' together => ?_
  obtain ⟨content, content', holds, holds', -⟩ := partner.slots slot slot' together
  exact ⟨.empty, .empty, by rw [List.getElem?_map, holds, Option.map_some],
    by rw [List.getElem?_map, holds', Option.map_some], .empty⟩

/-- Both make a frame with empty slots. -/
theorem alloc (paired : Paired literals layouts heap heap') {slotCount slotCount' : Nat}
    {slots : Nat → Nat → Prop} (matching : Matching slotCount slotCount' slots)
    (parent caller caller' : Option FrameId) (site site' : Option Location) (callDepth : Nat) :
    Paired literals (layouts.add ⟨slots, parent⟩)
      (heap.alloc slotCount parent caller site callDepth).2
      (heap'.alloc slotCount' parent caller' site' callDepth).2 := by
  have here : heap.frames.size = heap'.frames.size := paired.size.trans paired.size'.symm
  refine ⟨?_, ?_, paired.closures, fun other => ?_, fun other layout there => ?_⟩
  · simp [Heap.size_alloc, Layouts.add, paired.size]
  · simp [Heap.size_alloc, Layouts.add, paired.size']
  · by_cases new : other = heap.frames.size
    · subst new
      rw [Heap.frame?_alloc_self, here, Heap.frame?_alloc_self]
      rfl
    · rw [Heap.frame?_alloc_ne _ _ _ _ _ _ new, Heap.frame?_alloc_ne _ _ _ _ _ _ (here ▸ new),
        paired.depth]
  · by_cases old : other < layouts.length
    · rw [Layouts.add, List.getElem?_append_left old] at there
      obtain ⟨frame, frame', found, found', partner⟩ := paired.frames other layout there
      exact ⟨frame, frame', Heap.frame?_alloc_of_some _ _ _ _ _ _ found,
        Heap.frame?_alloc_of_some _ _ _ _ _ _ found', partner.later (Layouts.later_add _ _)⟩
    · obtain rfl : other = layouts.length := by
        have low : other < layouts.length + 1 := by
          simpa [Layouts.add] using (List.getElem?_eq_some_iff.mp there).1
        exact Nat.le_antisymm (Nat.le_of_lt_succ low) (Nat.le_of_not_lt old)
      obtain rfl := Option.some.inj
        (Option.some.inj ((Layouts.getElem?_add layouts ⟨slots, parent⟩).symm.trans there))
      refine ⟨_, _, paired.size ▸ Heap.frame?_alloc_self .., paired.size' ▸ Heap.frame?_alloc_self ..,
        rfl, rfl, matching.oneToOne, fun slot slot' together => ?_⟩
      obtain ⟨inside, inside'⟩ := matching.inside slot slot' together
      exact ⟨.empty, .empty, by simp [Heap.fresh, inside], by simp [Heap.fresh, inside'], .empty⟩

/-- Both make a function. -/
theorem close (paired : Paired literals layouts heap heap') :
    Paired literals layouts { heap with closures := heap.closures + 1 }
      { heap' with closures := heap'.closures + 1 } :=
  ⟨paired.size, paired.size', congrArg (· + 1) paired.closures, paired.depth, paired.frames⟩

end Paired

end ShapeLang.Reordering
