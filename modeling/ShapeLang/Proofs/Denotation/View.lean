import ShapeLang.Proofs.Denotation.Rules
import ShapeLang.Proofs.Frame.Heap

/-! # Frames that reflect denotations

A view says which environment a frame stands for, at which place a closure was made, and which
slots hold definitions. Frames reflect denotations through a view if every definition waits in its
slot, is being evaluated, or has left what it denotes there. This says nothing about the order in
which definitions were needed.

What an unfinished definition has made is not known outside of it, so that it can be forgotten if
the definition fails.
-/

namespace ShapeLang

/-- What is in a slot of a frame. -/
def Heap.slot? (heap : Heap) (id : FrameId) (slot : Nat) : Option Slot :=
  (heap.frame? id).bind (·.slots[slot]?)

/-- A definition waits in a slot. -/
def Heap.Asleep (heap : Heap) (id : FrameId) (slot : Nat) : Prop :=
  ∃ expr, heap.slot? id slot = some (.pending expr)

namespace Denotation

/-- What frames and closures stand for. -/
structure View where
  /-- The environment that a frame stands for. -/
  env : FrameId → Option Env
  /-- The place where a closure was made. -/
  origin : Nat → Option Place
  /-- The slots into which the definitions of an evaluation under way or finished were put. -/
  live : FrameId → Nat → Prop

/-- A definition that is being evaluated. -/
structure Task where
  env : Env
  definition : Definition

/-- What is at a place `x` can be known at a place `w`: every unfinished definition that has made
it is still being evaluated at `w`. -/
def Seen (busy : List Task) (w x : Place) : Prop :=
  ∀ task ∈ busy, task.definition.inner <:+ x → task.definition.inner <:+ w

namespace Seen

variable {busy : List Task} {w w' x : Place}

theorem of_suffix (le : x <:+ w) : Seen busy w x := fun _ _ inside => inside.trans le

theorem refl (w : Place) : Seen busy w w := of_suffix List.suffix_rfl

theorem trans (first : Seen busy w w') (second : Seen busy w' x) : Seen busy w x :=
  fun task mem inside => first task mem (second task mem inside)

/-- Only the expression of a definition is inside the definition and its place is not. -/
theorem cons {step : Step} (other : step ≠ .body) : Seen busy w (step :: w) := by
  intro task _ inside
  rcases List.suffix_cons_iff.mp inside with same | inside
  · exact (other (List.cons.inj same).1.symm).elim
  · exact inside

theorem nil (w x : Place) : Seen [] w x := by
  intro task mem
  cases mem

end Seen

namespace View

/-- A frame stands for an environment, and one of its definitions was put into its slot. -/
structure Defines (view : View) (id : FrameId) (env : Env) (d : Definition) : Prop where
  known : view.env id = some env
  live : view.live id d.slot
  mem : d ∈ env.definitions

/-- A place that something of the view was made at. -/
inductive Taken (view : View) : Place → Prop
  | frame {id : FrameId} {env : Env} (known : view.env id = some env) : Taken view env.name
  | closure {serial : Nat} {x : Place} (known : view.origin serial = some x) : Taken view x
  | definition {id : FrameId} {env : Env} {d : Definition} (defines : view.Defines id env d) :
    Taken view d.place

/-- The slots that code at a place can read, with frames for the environments around it. -/
def visible (view : View) (busy : List Task) (env : Env) (w : Place) : Visibility :=
  fun depth slot => ∃ id owner, view.env id = some owner ∧ env.ancestor? depth = some owner ∧
    (slot < owner.args.length ∧ Seen busy w owner.name ∨
      ∃ d, d.slot = slot ∧ view.Defines id owner d ∧ Seen busy w d.place)

/-- A place is not inside a definition that waits for its evaluation. -/
def Awake (view : View) (heap : Heap) (w : Place) : Prop :=
  ∀ id env d, view.Defines id env d → d.inner <:+ w → ¬ heap.Asleep id d.slot

end View

/-- A value and a denotation have the same form; modules and functions stand for the environments
and places there, and what they refer to is known. -/
inductive Means (busy : List Task) (view : View) (w : Place) : Value → Den → Prop
  | bool (value : Bool) : Means busy view w (.bool value) (.bool value)
  | num (value : Float) : Means busy view w (.num value) (.num value)
  | text (content : String) : Means busy view w (.text content) (.text content)
  | list (items : List (Value × Den)) {frames : FrameSet}
      (parts : ∀ item ∈ items, Means busy view w item.1 item.2) :
      Means busy view w (.list (items.map (·.1)) frames) (.list (items.map (·.2)))
  | record (fields : List (String × Value × Den)) {frames : FrameSet}
      (parts : ∀ field ∈ fields, Means busy view w field.2.1 field.2.2) :
      Means busy view w (.record (fields.map fun field => (field.1, field.2.1)) frames)
        (.record (fields.map fun field => (field.1, field.2.2)))
  | module {id : FrameId} {env : Env} {fields : List (String × Nat)}
      (known : view.env id = some env) (seen : Seen busy w env.name)
      (named : ∀ field ∈ fields, ∃ d, d.slot = field.2 ∧ view.Defines id env d ∧
        d.place = .slot d.slot :: env.name) :
      Means busy view w (.module id fields) (.module env fields)
  | closure {serial : Nat} {x : Place} {lambda : Lambda} {id : FrameId} {env : Env}
      (made : view.origin serial = some x) (known : view.env id = some env)
      (seen : Seen busy w x) (around : Seen busy x env.name)
      (layout : Room lambda.slotCount (List.range lambda.paramCount ++ lambda.body.letSlots))
      (inner : lambda.body.Scoped
        ((view.visible busy env x).enter (List.range lambda.paramCount))) :
      Means busy view w (.closure serial lambda id) (.closure x lambda env)
  | builtin (function : Builtin) : Means busy view w (.builtin function) (.builtin function)

/-- The definitions of an environment have slots of their own, behind those of the arguments. -/
structure Env.Laid (env : Env) : Prop where
  distinct : (env.definitions.map (·.slot)).Nodup
  apart : ∀ d ∈ env.definitions, env.args.length ≤ d.slot
  nested : Nested env.name env.definitions

section Reflects

variable (m : Machine) (busy : List Task) (view : View) (heap : Heap)

/-- A frame has the form of an environment. -/
structure Stands (id : FrameId) (env : Env) : Prop where
  laid : env.Laid
  frame : ∃ frame, heap.frame? id = some frame ∧ frame.depth = env.depth ∧
    (∀ d ∈ env.definitions, d.slot < frame.slots.length) ∧
    ∀ outer, env.parent = some outer →
      ∃ parent, frame.parent = some parent ∧ view.env parent = some outer
  around : ∀ outer, env.parent = some outer → Seen busy env.name outer.name
  args : ∀ (slot : Nat) value', env.args[slot]? = some value' →
    ∃ value, heap.slot? id slot = some (.ready value) ∧ Means busy view env.name value value'

/-- What the slot of a definition can hold. -/
inductive Filling (env : Env) (d : Definition) : Slot → Prop
  | asleep : Filling env d (.pending d.expr)
  | busy (mem : ⟨env, d⟩ ∈ busy) : Filling env d .busy
  | done {value : Value} {value' : Den}
      (settles : Settles (fun n => upTo m n env d.inner d.expr) (.ok value'))
      (means : Means busy view d.place value value') : Filling env d (.ready value)

/-- A definition reads what it can see, and its slot holds it or what it denotes. -/
structure Waits (id : FrameId) (env : Env) (d : Definition) : Prop where
  sees : d.expr.Scoped (view.visible busy env d.place)
  content : ∃ content, heap.slot? id d.slot = some content ∧ Filling m busy view env d content

/-- Frames hold what is denoted, as far as it was found. Nothing was made inside a definition that
still waits. -/
structure Reflects : Prop where
  frames : ∀ id other env env', view.env id = some env → view.env other = some env' →
    env.name = env'.name → id = other
  origins : ∀ serial serial' x, view.origin serial = some x → view.origin serial' = some x →
    serial = serial'
  places : ∀ id id' env env' d d', view.Defines id env d → view.Defines id' env' d' →
    d.place = d'.place → id = id' ∧ d.slot = d'.slot
  closures : ∀ serial x, view.origin serial = some x → serial < heap.closures
  stands : ∀ id env, view.env id = some env → Stands busy view heap id env
  waits : ∀ id env d, view.Defines id env d → Waits m busy view heap id env d
  awake : ∀ x, view.Taken x → view.Awake heap x
  owned : ∀ id slot, view.live id slot → ∃ env d, d.slot = slot ∧ view.Defines id env d
  underWay : ∀ task ∈ busy, ∃ id, view.Defines id task.env task.definition ∧
    heap.slot? id task.definition.slot = some .busy

end Reflects

/-- Whatever is kept in going from one view to another is seen only together with what is kept. -/
structure Passes (busy busy' : List Task) (view view' : View) (keep : Place → Prop) : Prop where
  seen : ∀ w x, keep w → view.Taken x → Seen busy w x → keep x ∧ Seen busy' w x
  env : ∀ id env, view.env id = some env → keep env.name → view'.env id = some env
  origin : ∀ serial x, view.origin serial = some x → keep x → view'.origin serial = some x
  defines : ∀ id env d, view.Defines id env d → keep d.place → view'.Defines id env d

namespace Passes

variable {m : Machine} {busy busy' : List Task} {view view' : View} {heap heap' : Heap}
  {keep : Place → Prop} {w : Place} {id : FrameId} {env : Env}

theorem visible (passes : Passes busy busy' view view' keep) (kept : keep w) (depth slot : Nat)
    (sees : view.visible busy env w depth slot) : view'.visible busy' env w depth slot := by
  obtain ⟨id, owner, known, reached, seen⟩ := sees
  rcases seen with ⟨low, seen⟩ | ⟨d, same, defines, seen⟩
  · obtain ⟨keeps, seen'⟩ := passes.seen w owner.name kept (.frame known) seen
    exact ⟨id, owner, passes.env id owner known keeps, reached, .inl ⟨low, seen'⟩⟩
  · obtain ⟨keeps, seen'⟩ := passes.seen w d.place kept (.definition defines) seen
    have defines' := passes.defines id owner d defines keeps
    exact ⟨id, owner, defines'.known, reached, .inr ⟨d, same, defines', seen'⟩⟩

/-- What is known at one place is known at another one if all that it refers to is. -/
theorem means_at (passes : Passes busy busy' view view' keep) {w' : Place}
    (known : ∀ x, view.Taken x → Seen busy w x → keep x ∧ Seen busy' w' x) {value : Value}
    {value' : Den} (means : Means busy view w value value') :
    Means busy' view' w' value value' := by
  induction means with
  | bool value => exact .bool value
  | num value => exact .num value
  | text content => exact .text content
  | list items _ parts => exact .list items parts
  | record fields _ parts => exact .record fields parts
  | @«module» id env fields isKnown seen named =>
    obtain ⟨keeps, seen'⟩ := known env.name (.frame isKnown) seen
    refine .module (passes.env id env isKnown keeps) seen' fun field mem => ?_
    obtain ⟨d, same, defines, place⟩ := named field mem
    have seen : Seen busy w d.place := by
      rw [place]
      exact seen.trans (.cons (by simp))
    have keeps := (known d.place (.definition defines) seen).1
    exact ⟨d, same, passes.defines id env d defines keeps, place⟩
  | @closure serial x lambda id env made isKnown seen around layout inner =>
    obtain ⟨keeps, seen'⟩ := known x (.closure made) seen
    obtain ⟨keeps', around'⟩ := passes.seen x env.name keeps (.frame isKnown) around
    exact .closure (passes.origin serial x made keeps) (passes.env id env isKnown keeps') seen'
      around' layout (inner.mono (Visibility.enter_mono (passes.visible keeps)))
  | builtin function => exact .builtin function

theorem means (passes : Passes busy busy' view view' keep) (kept : keep w) {value : Value}
    {value' : Den} (means : Means busy view w value value') : Means busy' view' w value value' :=
  passes.means_at (passes.seen w · kept) means

theorem stands (passes : Passes busy busy' view view' keep) (kept : keep env.name)
    (extension : heap.Extends heap')
    (same : ∀ slot, slot < env.args.length → heap'.slot? id slot = heap.slot? id slot)
    (stands : Stands busy view heap id env) : Stands busy' view' heap' id env := by
  obtain ⟨frame, found, depth, room, parents⟩ := stands.frame
  have outer (outer : Env) (atParent : env.parent = some outer) :
      ∃ parent, frame.parent = some parent ∧ view.env parent = some outer ∧
        keep outer.name ∧ Seen busy' env.name outer.name := by
    obtain ⟨parent, atFrame, known⟩ := parents outer atParent
    obtain ⟨keeps, seen⟩ :=
      passes.seen env.name outer.name kept (.frame known) (stands.around outer atParent)
    exact ⟨parent, atFrame, known, keeps, seen⟩
  obtain ⟨later, found', parent', depth', size'⟩ := extension.kept id frame found
  refine ⟨stands.laid, ⟨later, found', depth'.trans depth, ?_, ?_⟩, ?_, ?_⟩
  · intro d mem
    rw [size']
    exact room d mem
  · intro other atParent
    obtain ⟨parent, atFrame, known, keeps, -⟩ := outer other atParent
    exact ⟨parent, parent'.trans atFrame, passes.env parent other known keeps⟩
  · intro other atParent
    obtain ⟨-, -, -, -, seen⟩ := outer other atParent
    exact seen
  · intro slot value' there
    obtain ⟨value, holds, means⟩ := stands.args slot value' there
    have low := (List.getElem?_eq_some_iff.mp there).1
    exact ⟨value, (same slot low).trans holds, passes.means kept means⟩

/-- What a definition has left stays as long as the definition is still in the list of those that
are being evaluated, if it was. -/
theorem waits (passes : Passes busy busy' view view' keep) {d : Definition} (kept : keep d.place)
    (same : heap'.slot? id d.slot = heap.slot? id d.slot)
    (tasks : heap.slot? id d.slot = some .busy → ⟨env, d⟩ ∈ busy → ⟨env, d⟩ ∈ busy')
    (waits : Waits m busy view heap id env d) : Waits m busy' view' heap' id env d := by
  obtain ⟨content, holds, filling⟩ := waits.content
  refine ⟨waits.sees.mono (passes.visible kept), content, same.trans holds, ?_⟩
  cases filling with
  | asleep => exact .asleep
  | busy mem => exact .busy (tasks holds mem)
  | done settles means => exact .done settles (passes.means kept means)

end Passes

/-- A place from which a place can be reached by an evaluation at `w`: it is inside `w`, or inside a
definition that waited. -/
def Reach (view : View) (heap : Heap) (w x : Place) : Prop :=
  w <:+ x ∨ ∃ id env d, view.Defines id env d ∧ heap.Asleep id d.slot ∧ d.inner <:+ x

/-- What an evaluation at a place does to the frames and to what they stand for. -/
structure Evolves (w : Place) (heap : Heap) (view : View) (heap' : Heap) (view' : View) : Prop where
  extension : heap.Extends heap'
  env : ∀ id env, view.env id = some env → view'.env id = some env
  origin : ∀ serial x, view.origin serial = some x → view'.origin serial = some x
  live : ∀ id slot, view.live id slot → view'.live id slot
  awake : ∀ id env d, view.Defines id env d → ¬ heap.Asleep id d.slot → ¬ heap'.Asleep id d.slot
  newEnv : ∀ id env, view'.env id = some env →
    view.env id = some env ∨ Reach view heap w env.name
  newOrigin : ∀ serial x, view'.origin serial = some x →
    view.origin serial = some x ∨ Reach view heap w x
  newDefines : ∀ id env d, view'.Defines id env d →
    view.Defines id env d ∨ Reach view heap w d.place

/-- A place where nothing was made yet and where code is evaluated next. -/
structure Open (view : View) (heap : Heap) (w : Place) : Prop where
  fresh : ∀ x, view.Taken x → ¬ w <:+ x
  awake : view.Awake heap w

/-- A place inside which nothing was made yet. -/
structure Bare (view : View) (heap : Heap) (w : Place) : Prop where
  fresh : ∀ step x, view.Taken x → ¬ step :: w <:+ x
  awake : view.Awake heap w

/-- A place whose parts from a number on are open. -/
structure Free (view : View) (heap : Heap) (w : Place) (k : Nat) : Prop where
  awake : view.Awake heap w
  fresh : ∀ i, k ≤ i → ∀ x, view.Taken x → ¬ .part i :: w <:+ x

section Evolves

variable {busy : List Task} {view view₁ view₂ : View} {heap heap₁ heap₂ : Heap} {w w₁ w₂ x : Place}
  {k : Nat}

theorem View.Defines.later {id : FrameId} {env : Env} {d : Definition}
    (defines : view.Defines id env d) (evolves : Evolves w heap view heap₁ view₁) :
    view₁.Defines id env d :=
  ⟨evolves.env id env defines.known, evolves.live id d.slot defines.live, defines.mem⟩

theorem Evolves.passes (evolves : Evolves w heap view heap₁ view₁) :
    Passes busy busy view view₁ fun _ => True :=
  ⟨fun _ _ _ _ seen => ⟨trivial, seen⟩, fun id env known _ => evolves.env id env known,
    fun serial x known _ => evolves.origin serial x known,
    fun _ _ _ defines _ => defines.later evolves⟩

theorem Means.later {value : Value} {value' : Den} (means : Means busy view w value value')
    (evolves : Evolves w₁ heap view heap₁ view₁) : Means busy view₁ w value value' :=
  evolves.passes.means trivial means

theorem Reach.of_inside {y : Place} (reach : Reach view heap w y) (inside : y <:+ x) :
    Reach view heap w x := by
  rcases reach with le | ⟨id, env, d, defines, asleep, le⟩
  · exact .inl (le.trans inside)
  · exact .inr ⟨id, env, d, defines, asleep, le.trans inside⟩

theorem Reach.outer (reach : Reach view heap w₁ x) (le : w <:+ w₁) : Reach view heap w x :=
  reach.imp_left le.trans

theorem Definition.place_suffix (d : Definition) : d.place <:+ d.inner := List.suffix_cons _ _

/-- What is reached later was reached before. -/
theorem Reach.earlier (evolves : Evolves w heap view heap₁ view₁) (reach : Reach view₁ heap₁ w x) :
    Reach view heap w x := by
  rcases reach with le | ⟨id, env, d, defines, asleep, le⟩
  · exact .inl le
  · rcases evolves.newDefines id env d defines with old | reached
    · refine .inr ⟨id, env, d, old, ?_, le⟩
      by_contra awake
      exact evolves.awake id env d old awake asleep
    · exact reached.of_inside (d.place_suffix.trans le)

namespace Evolves

theorem refl : Evolves w heap view heap view :=
  ⟨.refl heap, fun _ _ => id, fun _ _ => id, fun _ _ => id, fun _ _ _ _ => id,
    fun _ _ => .inl, fun _ _ => .inl, fun _ _ _ => .inl⟩

/-- An evaluation inside a place is one at the place. -/
theorem outer (evolves : Evolves w₁ heap view heap₁ view₁) (le : w <:+ w₁) :
    Evolves w heap view heap₁ view₁ where
  extension := evolves.extension
  env := evolves.env
  origin := evolves.origin
  live := evolves.live
  awake := evolves.awake
  newEnv id env known := (evolves.newEnv id env known).imp_right (·.outer le)
  newOrigin serial x known := (evolves.newOrigin serial x known).imp_right (·.outer le)
  newDefines id env d defines := (evolves.newDefines id env d defines).imp_right (·.outer le)

theorem trans (first : Evolves w heap view heap₁ view₁)
    (second : Evolves w heap₁ view₁ heap₂ view₂) : Evolves w heap view heap₂ view₂ where
  extension := first.extension.trans second.extension
  env id env known := second.env id env (first.env id env known)
  origin serial x known := second.origin serial x (first.origin serial x known)
  live id slot live := second.live id slot (first.live id slot live)
  awake id env d defines awake :=
    second.awake id env d (defines.later first) (first.awake id env d defines awake)
  newEnv id env known := (second.newEnv id env known).elim (first.newEnv id env)
    fun reach => .inr (reach.earlier first)
  newOrigin serial x known := (second.newOrigin serial x known).elim (first.newOrigin serial x)
    fun reach => .inr (reach.earlier first)
  newDefines id env d defines := (second.newDefines id env d defines).elim
    (first.newDefines id env d) fun reach => .inr (reach.earlier first)

theorem taken (evolves : Evolves w heap view heap₁ view₁) (taken : view₁.Taken x) :
    view.Taken x ∨ Reach view heap w x := by
  cases taken with
  | frame known => exact (evolves.newEnv _ _ known).imp_left .frame
  | closure known => exact (evolves.newOrigin _ _ known).imp_left .closure
  | definition defines => exact (evolves.newDefines _ _ _ defines).imp_left .definition

end Evolves

/-- Definitions that wait are nowhere near an open place. -/
theorem Open.apart (opened : Open view heap w) {id : FrameId} {env : Env} {d : Definition}
    (defines : view.Defines id env d) (asleep : heap.Asleep id d.slot) (inside : d.inner <:+ x) :
    ¬ w <:+ x := by
  intro inside'
  rcases List.suffix_or_suffix_of_suffix inside' inside with le | le
  · rcases List.suffix_cons_iff.mp le with same | le
    · exact opened.awake id env d defines (same ▸ List.suffix_rfl) asleep
    · exact opened.fresh d.place (.definition defines) le
  · exact opened.awake id env d defines le asleep

theorem Open.bare (opened : Open view heap w) : Bare view heap w :=
  ⟨fun _ x taken le => opened.fresh x taken ((List.suffix_cons _ w).trans le), opened.awake⟩

theorem Bare.free (bare : Bare view heap w) : Free view heap w 0 :=
  ⟨bare.awake, fun i _ => bare.fresh (.part i)⟩

theorem Open.free (opened : Open view heap w) : Free view heap w 0 := opened.bare.free

theorem not_cons_suffix (step : Step) (w : Place) : ¬ step :: w <:+ w := by
  intro le
  have := le.length_le
  simp only [List.length_cons] at this
  omega

namespace Free

theorem opened {i : Nat} (free : Free view heap w k) (le : k ≤ i) :
    Open view heap (.part i :: w) := by
  refine ⟨free.fresh i le, fun id env d defines inside => ?_⟩
  rcases List.suffix_cons_iff.mp inside with same | inside
  · cases (List.cons.inj same).1
  · exact free.awake id env d defines inside

/-- The parts after a part stay open while the part is evaluated. -/
theorem next (free : Free view heap w k) (evolves : Evolves (.part k :: w) heap view heap₁ view₁) :
    Free view₁ heap₁ w (k + 1) := by
  constructor
  · intro id env d defines inside asleep
    rcases evolves.newDefines id env d defines with old | reach
    · exact evolves.awake id env d old (free.awake id env d old inside) asleep
    · rcases reach with le | ⟨id', env', d', defines', asleep', le⟩
      · exact not_cons_suffix _ w ((le.trans d.place_suffix).trans inside)
      · exact free.awake id' env' d' defines' ((le.trans d.place_suffix).trans inside) asleep'
  · intro i le x taken inside
    rcases evolves.taken taken with old | reach
    · exact free.fresh i (by omega) x old inside
    · rcases reach with le' | ⟨id', env', d', defines', asleep', le'⟩
      · have same : Step.part k :: w = .part i :: w :=
          (List.suffix_of_suffix_length_le le' inside (by simp)).eq_of_length (by simp)
        have : k = i := Step.part.inj (List.cons.inj same).1
        omega
      · exact (free.opened (by omega : k ≤ i)).apart defines' asleep' le' inside

end Free

end Evolves

end Denotation

end ShapeLang
