import ShapeLang.Proofs.Denotation.View
import ShapeLang.Proofs.Eval.Stage

/-! # What evaluation changes

Frames go on to reflect denotations when a closure is made, when a frame is entered, and when
definitions are put into their slots.
-/

namespace ShapeLang

namespace Heap

variable {heap heap' : Heap} {id other : FrameId} {slot slot' : Nat} {content old : Slot}
  {frame : Frame}

theorem slot?_eq_some_iff : heap.slot? id slot = some content ↔
    ∃ frame, heap.frame? id = some frame ∧ frame.slots[slot]? = some content :=
  Option.bind_eq_some_iff

theorem slot?_of_frame? (found : heap.frame? id = some frame) :
    heap.slot? id slot = frame.slots[slot]? := by
  rw [slot?, found, Option.bind_some]

theorem slot?_put_self (there : heap.slot? id slot = some old) :
    (heap.put id slot content).slot? id slot = some content := by
  obtain ⟨frame, found, holds⟩ := slot?_eq_some_iff.mp there
  rw [slot?_of_frame? (frame?_put_self found)]
  exact List.getElem?_set_self (List.getElem?_eq_some_iff.mp holds).1

theorem slot?_put_ne (different : id = other → slot ≠ slot') :
    (heap.put id slot content).slot? other slot' = heap.slot? other slot' := by
  by_cases same : id = other
  · subst same
    cases found : heap.frame? id with
    | none => simp [slot?, put, frame?_mapSlots, found]
    | some frame =>
      rw [slot?_of_frame? (frame?_put_self found), slot?_of_frame? found]
      exact List.getElem?_set_ne (different rfl)
  · rw [slot?, frame?_put_ne same, slot?]

section Enter

variable {slotCount : Nat} {env caller : FrameId} {callSite : Option Location} {callDepth : Nat}
  {contents : List (Nat × Slot)}

theorem frame?_enter_ne (old : other ≠ heap.frames.size) :
    (heap.enter slotCount env caller callSite callDepth contents).frame? other =
      heap.frame? other :=
  (frame?_putEach_ne (Ne.symm old)).trans (frame?_alloc_ne heap _ _ _ _ _ old)

theorem extends_enter :
    heap.Extends (heap.enter slotCount env caller callSite callDepth contents) := by
  refine ⟨by rw [size_enter]; omega, fun other frame found => ?_⟩
  have old := Nat.ne_of_lt (lt_size_of_frame? found)
  exact ⟨frame, (frame?_enter_ne old).trans found, rfl, rfl, rfl⟩

theorem slot?_enter_ne (old : other ≠ heap.frames.size) :
    (heap.enter slotCount env caller callSite callDepth contents).slot? other slot =
      heap.slot? other slot := by
  rw [slot?, frame?_enter_ne old, slot?]

theorem closures_enter :
    (heap.enter slotCount env caller callSite callDepth contents).closures = heap.closures :=
  closures_putEach

/-- An argument is in its slot after a frame is entered. -/
theorem slot?_enter_readies {args : List Value} {value : Value} (room : args.length ≤ slotCount)
    (there : args[slot]? = some value) :
    (heap.enter slotCount env caller callSite callDepth (readies 0 args)).slot? heap.frames.size
      slot = some (.ready value) := by
  have low := (List.getElem?_eq_some_iff.mp there).1
  rw [slot?_of_frame? frame?_enter_self]
  refine getElem?_setEach_of_mem ?_ ?_ (by simp; omega)
  · rw [map_readies]
    exact List.nodup_range'
  · simpa using mem_readies_of_getElem? 0 args slot value there

end Enter

section PutEach

variable {bindings : List (Nat × Expr)} {expr : Expr}

theorem slot?_putEach_pendings (found : heap.frame? id = some frame)
    (distinct : (bindings.map (·.1)).Nodup) (mem : (slot, expr) ∈ bindings)
    (inside : slot < frame.slots.length) :
    (heap.putEach id (pendings bindings)).slot? id slot = some (.pending expr) := by
  rw [slot?_of_frame? (frame?_putEach_self found)]
  refine getElem?_setEach_of_mem ?_ (List.mem_map_of_mem mem) inside
  simpa [pendings, Function.comp_def] using distinct

theorem slot?_putEach_pendings_ne (different : id = other → slot ∉ bindings.map (·.1)) :
    (heap.putEach id (pendings bindings)).slot? other slot = heap.slot? other slot := by
  by_cases same : id = other
  · subst same
    cases found : heap.frame? id with
    | none =>
      have absent : (heap.putEach id (pendings bindings)).frame? id = none := by
        rw [frame?_eq_none_iff, size_putEach]
        exact frame?_eq_none_iff.mp found
      rw [slot?, absent, slot?, found]
    | some frame =>
      rw [slot?_of_frame? (frame?_putEach_self found), slot?_of_frame? found]
      refine getElem?_setEach_of_not_mem ?_
      simpa [pendings, Function.comp_def] using different rfl
  · rw [slot?, frame?_putEach_ne same, slot?]

theorem extends_putEach (heap : Heap) (id : FrameId) (bindings : List (Nat × Expr)) :
    heap.Extends (heap.putEach id (pendings bindings)) :=
  (Grows.putEach heap id pendings_nonempty).extension

end PutEach

end Heap

namespace Denotation

namespace View

def addOrigin (view : View) (serial : Nat) (x : Place) : View :=
  { view with origin := fun other => if other = serial then some x else view.origin other }

def addEnv (view : View) (id : FrameId) (env : Env) : View :=
  { view with env := fun other => if other = id then some env else view.env other }

def addLive (view : View) (id : FrameId) (slots : List Nat) : View :=
  { view with live := fun other slot => view.live other slot ∨ other = id ∧ slot ∈ slots }

end View

variable {m : Machine} {busy : List Task} {view view' : View} {heap heap' : Heap} {w x : Place}
  {id : FrameId} {env : Env} {d : Definition}

theorem Evolves.awake_of (evolves : Evolves w heap view heap' view')
    (old : ∀ id env d, view'.Defines id env d → view.Defines id env d)
    (awake : view.Awake heap x) : view'.Awake heap' x :=
  fun id env d defines inside =>
    evolves.awake id env d (old id env d defines) (awake id env d (old id env d defines) inside)

/-- An argument is never in the slot of a definition. -/
theorem Reflects.slot_ne_arg (reflects : Reflects m busy view heap)
    (defines : view.Defines id env d) {slot : Nat} (low : slot < env.args.length) : d.slot ≠ slot := by
  have := (reflects.stands id env defines.known).laid.apart d defines.mem
  omega

/-- The definition of a slot. -/
theorem Reflects.defines_unique (reflects : Reflects m busy view heap) {env' : Env}
    {d' : Definition} (defines : view.Defines id env d) (defines' : view.Defines id env' d')
    (same : d.slot = d'.slot) : env = env' ∧ d = d' := by
  obtain rfl := Option.some.inj (defines.known.symm.trans defines'.known)
  exact ⟨rfl, eq_of_slot_eq (reflects.stands id env defines.known).laid.distinct defines.mem
    defines'.mem same⟩

section Aside

/-- Frames that stand for nothing are made and change. -/
theorem Reflects.aside (reflects : Reflects m busy view heap) (extension : heap.Extends heap')
    (same : ∀ id env, view.env id = some env → ∀ slot, heap'.slot? id slot = heap.slot? id slot)
    (closures : heap.closures ≤ heap'.closures) :
    Evolves w heap view heap' view ∧ Reflects m busy view heap' := by
  have evolves : Evolves w heap view heap' view := by
    refine ⟨extension, fun _ _ => id, fun _ _ => id, fun _ _ => id, ?_, fun _ _ => .inl,
      fun _ _ => .inl, fun _ _ _ => .inl⟩
    rintro id env d defines awake ⟨expr, holds⟩
    rw [same id env defines.known] at holds
    exact awake ⟨expr, holds⟩
  refine ⟨evolves, ?_⟩
  constructor
  case frames => exact reflects.frames
  case origins => exact reflects.origins
  case places => exact reflects.places
  case closures =>
    exact fun serial x known => Nat.lt_of_lt_of_le (reflects.closures serial x known) closures
  case stands =>
    intro id env known
    exact evolves.passes.stands trivial extension (fun slot _ => same id env known slot)
      (reflects.stands id env known)
  case waits =>
    intro id env d defines
    exact evolves.passes.waits trivial (same id env defines.known d.slot) (fun _ mem => mem)
      (reflects.waits id env d defines)
  case awake =>
    exact fun x taken => evolves.awake_of (fun _ _ _ => id) (reflects.awake x taken)
  case owned => exact reflects.owned
  case underWay =>
    intro task mem
    obtain ⟨id, defines, holds⟩ := reflects.underWay task mem
    exact ⟨id, defines, (same id _ defines.known _).trans holds⟩

/-- A frame is made that stands for nothing. -/
theorem Reflects.alloc (reflects : Reflects m busy view heap) (slotCount : Nat)
    (parent caller : Option FrameId) (site : Option Location) (depth : Nat) :
    Evolves w heap view (heap.alloc slotCount parent caller site depth).2 view ∧
      Reflects m busy view (heap.alloc slotCount parent caller site depth).2 := by
  refine reflects.aside (.alloc ..) (fun id env known slot => ?_) (Nat.le_refl _)
  obtain ⟨frame, found, -⟩ := (reflects.stands id env known).frame
  rw [Heap.slot?, Heap.slot?, Heap.frame?_alloc_of_some _ _ _ _ _ _ found, found]

end Aside

section Close

theorem Evolves.close (reflects : Reflects m busy view heap) :
    Evolves w heap view { heap with closures := heap.closures + 1 }
      (view.addOrigin heap.closures w) where
  extension := ⟨Nat.le_refl _, fun _ frame found => ⟨frame, found, rfl, rfl, rfl⟩⟩
  env _ _ known := known
  origin serial x known := by
    have old := Nat.ne_of_lt (reflects.closures serial x known)
    simpa only [View.addOrigin, if_neg old] using known
  live _ _ live := live
  awake _ _ _ _ awake := awake
  newEnv _ _ known := .inl known
  newOrigin serial x known := by
    by_cases new : serial = heap.closures
    · simp only [View.addOrigin, if_pos new, Option.some.injEq] at known
      exact .inr (.inl (known ▸ List.suffix_rfl))
    · simp only [View.addOrigin, if_neg new] at known
      exact .inl known
  newDefines _ _ _ defines := .inl ⟨defines.known, defines.live, defines.mem⟩

/-- A closure is made at an open place. -/
theorem Reflects.close (reflects : Reflects m busy view heap) (opened : Open view heap w) :
    Reflects m busy (view.addOrigin heap.closures w)
      { heap with closures := heap.closures + 1 } := by
  have evolves : Evolves w heap view _ _ := .close reflects
  have old (id : FrameId) (env : Env) (d : Definition)
      (defines : (view.addOrigin heap.closures w).Defines id env d) : view.Defines id env d :=
    ⟨defines.known, defines.live, defines.mem⟩
  have split {serial : Nat} {x : Place}
      (known : (view.addOrigin heap.closures w).origin serial = some x) :
      serial = heap.closures ∧ w = x ∨ view.origin serial = some x := by
    by_cases new : serial = heap.closures
    · simp only [View.addOrigin, if_pos new, Option.some.injEq] at known
      exact .inl ⟨new, known⟩
    · simp only [View.addOrigin, if_neg new] at known
      exact .inr known
  constructor
  case frames => exact reflects.frames
  case origins =>
    intro serial serial' x known known'
    rcases split known with ⟨rfl, rfl⟩ | known <;> rcases split known' with ⟨rfl, same⟩ | known'
    · rfl
    · exact (opened.fresh _ (.closure known') List.suffix_rfl).elim
    · exact (opened.fresh _ (.closure (same ▸ known)) List.suffix_rfl).elim
    · exact reflects.origins serial serial' x known known'
  case places =>
    intro id id' env env' d d' defines defines'
    exact reflects.places id id' env env' d d' (old _ _ _ defines) (old _ _ _ defines')
  case closures =>
    intro serial x known
    rcases split known with ⟨rfl, -⟩ | known
    · exact Nat.lt_succ_self _
    · exact Nat.lt_succ_of_lt (reflects.closures serial x known)
  case stands =>
    intro id env known
    exact evolves.passes.stands trivial evolves.extension (fun _ _ => rfl)
      (reflects.stands id env known)
  case waits =>
    intro id env d defines
    have kept : ({ heap with closures := heap.closures + 1 } : Heap).slot? id d.slot =
      heap.slot? id d.slot := rfl
    exact evolves.passes.waits trivial kept (fun _ mem => mem)
      (reflects.waits id env d (old _ _ _ defines))
  case awake =>
    intro x taken
    cases taken with
    | frame known => exact evolves.awake_of old (reflects.awake _ (.frame known))
    | closure known =>
      rcases split known with ⟨-, rfl⟩ | known
      · exact evolves.awake_of old opened.awake
      · exact evolves.awake_of old (reflects.awake _ (.closure known))
    | definition defines =>
      exact evolves.awake_of old (reflects.awake _ (.definition (old _ _ _ defines)))
  case owned =>
    intro id slot live
    obtain ⟨env, d, same, defines⟩ := reflects.owned id slot live
    exact ⟨env, d, same, defines.later evolves⟩
  case underWay =>
    intro task mem
    obtain ⟨id, defines, holds⟩ := reflects.underWay task mem
    exact ⟨id, defines.later evolves, holds⟩

end Close

section Adopt

variable {frame : Frame} {around adopted : FrameId} {outer : Env} {all : List Definition}
  {args : List (Value × Den)}

/-- A frame that stands for an environment was made before. -/
theorem Reflects.ne_size (reflects : Reflects m busy view heap) (known : view.env id = some env) :
    id ≠ heap.frames.size := by
  obtain ⟨frame, found, -⟩ := (reflects.stands id env known).frame
  exact Nat.ne_of_lt (Heap.lt_size_of_frame? found)

theorem Reflects.env_size (reflects : Reflects m busy view heap) :
    view.env heap.frames.size = none :=
  Option.eq_none_iff_forall_ne_some.mpr fun _ known => reflects.ne_size known rfl

theorem View.addEnv_self (view : View) (id : FrameId) (env : Env) :
    (view.addEnv id env).env id = some env := if_pos rfl

theorem View.addEnv_cases {new : Env} {other : FrameId}
    (known : (view.addEnv id new).env other = some env) :
    other = id ∧ new = env ∨ other ≠ id ∧ view.env other = some env := by
  by_cases here : other = id
  · simp only [addEnv, if_pos here, Option.some.injEq] at known
    exact .inl ⟨here, known⟩
  · simp only [addEnv, if_neg here] at known
    exact .inr ⟨here, known⟩

/-- A frame that begins to stand for something has none of its definitions yet. -/
theorem Reflects.defines_old (reflects : Reflects m busy view heap)
    (unknown : view.env adopted = none) {new : Env}
    (defines : (view.addEnv adopted new).Defines id env d) : view.Defines id env d := by
  rcases View.addEnv_cases defines.known with ⟨rfl, -⟩ | ⟨-, known⟩
  · obtain ⟨env', d', -, defines'⟩ := reflects.owned _ _ defines.live
    cases unknown.symm.trans defines'.known
  · exact ⟨known, defines.live, defines.mem⟩

theorem Evolves.adopt (reflects : Reflects m busy view heap) (unknown : view.env adopted = none)
    {new : Env} (named : new.name = w) :
    Evolves w heap view heap (view.addEnv adopted new) where
  extension := .refl heap
  env id env known := by
    have other : id ≠ adopted := by
      rintro rfl
      cases unknown.symm.trans known
    simpa only [View.addEnv, if_neg other] using known
  origin _ _ known := known
  live _ _ live := live
  awake _ _ _ _ awake := awake
  newEnv id env known := by
    rcases View.addEnv_cases known with ⟨-, rfl⟩ | ⟨-, known⟩
    · exact .inr (.inl (named ▸ List.suffix_rfl))
    · exact .inl known
  newOrigin _ _ known := .inl known
  newDefines _ _ _ defines := .inl (reflects.defines_old unknown defines)

/-- A frame with arguments in its first slots begins to stand for an environment. -/
theorem Reflects.adopt (reflects : Reflects m busy view heap) (opened : Open view heap w)
    (unknown : view.env adopted = none) (found : heap.frame? adopted = some frame)
    (atParent : frame.parent = some around) (known : view.env around = some outer)
    (seen : Seen busy w outer.name)
    (laid : (Env.frame w all frame.depth (args.map (·.2)) (some outer)).Laid)
    (inside : ∀ d ∈ all, d.slot < frame.slots.length)
    (stored : ∀ (slot : Nat) value, (args.map (·.1))[slot]? = some value →
      heap.slot? adopted slot = some (.ready value))
    (means : ∀ arg ∈ args, Means busy view w arg.1 arg.2) :
    Reflects m busy
      (view.addEnv adopted (.frame w all frame.depth (args.map (·.2)) (some outer))) heap := by
  have evolves : Evolves w heap view heap
      (view.addEnv adopted (.frame w all frame.depth (args.map (·.2)) (some outer))) := by
    apply Evolves.adopt reflects unknown
    rfl
  constructor
  case frames =>
    intro id other env env' added added' same
    rcases View.addEnv_cases added with ⟨rfl, rfl⟩ | ⟨-, old⟩ <;>
      rcases View.addEnv_cases added' with ⟨rfl, rfl⟩ | ⟨-, old'⟩
    · rfl
    · exact (opened.fresh _ (.frame old') (same ▸ List.suffix_rfl)).elim
    · exact (opened.fresh _ (.frame old) (same ▸ List.suffix_rfl)).elim
    · exact reflects.frames id other env env' old old' same
  case origins => exact reflects.origins
  case places =>
    intro id id' env env' d d' defines defines'
    exact reflects.places id id' env env' d d' (reflects.defines_old unknown defines)
      (reflects.defines_old unknown defines')
  case closures => exact reflects.closures
  case stands =>
    intro id env known'
    rcases View.addEnv_cases known' with ⟨rfl, rfl⟩ | ⟨-, known'⟩
    · refine ⟨laid, ⟨frame, found, rfl, inside, ?_⟩, ?_, ?_⟩
      · rintro _ ⟨⟩
        exact ⟨around, atParent, evolves.env around outer known⟩
      · rintro _ ⟨⟩
        exact seen
      · intro slot value' there
        simp only [Env.args, List.getElem?_map, Option.map_eq_some_iff] at there
        obtain ⟨arg, there, rfl⟩ := there
        exact ⟨arg.1, stored slot arg.1 (by simp [there]),
          (means arg (List.mem_of_getElem? there)).later evolves⟩
    · exact evolves.passes.stands trivial evolves.extension (fun _ _ => rfl)
        (reflects.stands id env known')
  case waits =>
    intro id env d defines
    exact evolves.passes.waits trivial rfl (fun _ mem => mem)
      (reflects.waits id env d (reflects.defines_old unknown defines))
  case awake =>
    intro x taken
    apply evolves.awake_of fun _ _ _ => reflects.defines_old unknown
    cases taken with
    | frame known =>
      rcases View.addEnv_cases known with ⟨-, rfl⟩ | ⟨-, known⟩
      · exact opened.awake
      · exact reflects.awake _ (.frame known)
    | closure known => exact reflects.awake _ (.closure known)
    | definition defines =>
      exact reflects.awake _ (.definition (reflects.defines_old unknown defines))
  case owned =>
    intro id slot live
    obtain ⟨env, d, same, defines⟩ := reflects.owned id slot live
    exact ⟨env, d, same, defines.later evolves⟩
  case underWay =>
    intro task mem
    obtain ⟨id, defines, holds⟩ := reflects.underWay task mem
    exact ⟨id, defines.later evolves, holds⟩

/-- Nothing is inside a frame at first. -/
theorem Open.bare_adopt (opened : Open view heap w) (reflects : Reflects m busy view heap)
    (unknown : view.env adopted = none) {parent : Option Env} {values : List Den} {depth : Nat} :
    Bare (view.addEnv adopted (.frame w all depth values parent)) heap w := by
  constructor
  · intro step x taken inside
    have outside (taken : view.Taken x) : False :=
      opened.fresh x taken ((List.suffix_cons step w).trans inside)
    cases taken with
    | frame known =>
      rcases View.addEnv_cases known with ⟨-, rfl⟩ | ⟨-, known⟩
      · exact not_cons_suffix step w inside
      · exact outside (.frame known)
    | closure known => exact outside (.closure known)
    | definition defines => exact outside (.definition (reflects.defines_old unknown defines))
  · have evolves : Evolves w heap view heap
        (view.addEnv adopted (.frame w all depth values parent)) := by
      apply Evolves.adopt reflects unknown
      rfl
    exact evolves.awake_of (fun _ _ _ => reflects.defines_old unknown) opened.awake

end Adopt

section Enter

variable {slotCount depth : Nat} {around caller : FrameId} {site : Option Location} {outer : Env}
  {all : List Definition} {args : List (Value × Den)}

/-- A frame is entered, with arguments in its first slots. -/
theorem Reflects.enter (reflects : Reflects m busy view heap) (opened : Open view heap w)
    (known : view.env around = some outer) (seen : Seen busy w outer.name)
    (laid : (Env.frame w all depth (args.map (·.2)) (some outer)).Laid)
    (room : args.length ≤ slotCount) (inside : ∀ d ∈ all, d.slot < slotCount)
    (means : ∀ arg ∈ args, Means busy view w arg.1 arg.2) :
    let new : Env := .frame w all depth (args.map (·.2)) (some outer)
    let entered := heap.enter slotCount around caller site depth (readies 0 (args.map (·.1)))
    Evolves w heap view entered (view.addEnv heap.frames.size new) ∧
      Reflects m busy (view.addEnv heap.frames.size new) entered ∧
        Bare (view.addEnv heap.frames.size new) entered w := by
  intro new entered
  have unknown := reflects.env_size
  obtain ⟨evolves, reflects'⟩ : Evolves w heap view entered view ∧
      Reflects m busy view entered := by
    refine reflects.aside Heap.extends_enter (fun id env known slot => ?_) ?_
    · exact Heap.slot?_enter_ne (reflects.ne_size known)
    · rw [Heap.closures_enter]
  have opened' : Open view entered w :=
    ⟨opened.fresh, evolves.awake_of (fun _ _ _ => id) opened.awake⟩
  refine ⟨evolves.trans (.adopt reflects' unknown rfl), ?_, opened'.bare_adopt reflects' unknown⟩
  refine reflects'.adopt opened' unknown Heap.frame?_enter_self rfl known seen laid
    (by simpa using inside) (fun slot value there => ?_) fun arg mem => (means arg mem).later evolves
  exact Heap.slot?_enter_readies (by simpa using room) there

end Enter

section Group

variable {bindings : List (Nat × Expr)}

theorem map_slot_group (w : Place) (bindings : List (Nat × Expr)) :
    (group w bindings).map (·.slot) = bindings.map (·.1) := by
  simp [group, Function.comp_def]

theorem mem_group {w : Place} (mem : d ∈ group w bindings) :
    (d.slot, d.expr) ∈ bindings ∧ d.place = .slot d.slot :: w := by
  obtain ⟨binding, isBinding, rfl⟩ := List.mem_map.mp mem
  exact ⟨isBinding, rfl⟩

theorem exists_mem_group (w : Place) {slot : Nat} (mem : slot ∈ bindings.map (·.1)) :
    ∃ d ∈ group w bindings, d.slot = slot := by
  rw [← map_slot_group w] at mem
  exact List.mem_map.mp mem

theorem View.defines_addLive (known : view.env id = some env)
    (laid : (group w bindings).Sublist env.definitions) (mem : d ∈ group w bindings) :
    (view.addLive id (bindings.map (·.1))).Defines id env d := by
  refine ⟨known, .inr ⟨rfl, ?_⟩, laid.subset mem⟩
  rw [← map_slot_group w]
  exact List.mem_map_of_mem mem

/-- Only the group is new. -/
theorem Reflects.defines_cases (reflects : Reflects m busy view heap)
    (known : view.env id = some env) (laid : (group w bindings).Sublist env.definitions)
    {other : FrameId} {env' : Env}
    (defines : (view.addLive id (bindings.map (·.1))).Defines other env' d) :
    view.Defines other env' d ∨ other = id ∧ env' = env ∧ d ∈ group w bindings := by
  rcases defines.live with live | ⟨rfl, mem⟩
  · exact .inl ⟨defines.known, live, defines.mem⟩
  · obtain rfl := Option.some.inj (known.symm.trans defines.known)
    obtain ⟨d', mem', same⟩ := exists_mem_group w mem
    have distinct := (reflects.stands _ _ known).laid.distinct
    obtain rfl := eq_of_slot_eq distinct (laid.subset mem') defines.mem same
    exact .inr ⟨rfl, rfl, mem'⟩

/-- A slot of the group had no definition before. -/
theorem Reflects.slot_new (reflects : Reflects m busy view heap) (bare : Bare view heap w)
    (known : view.env id = some env) (laid : (group w bindings).Sublist env.definitions)
    {other : FrameId} {env' : Env} (defines : view.Defines other env' d) (same : id = other) :
    d.slot ∉ bindings.map (·.1) := by
  subst same
  intro mem
  obtain rfl := Option.some.inj (known.symm.trans defines.known)
  obtain ⟨d', mem', same⟩ := exists_mem_group w mem
  have distinct := (reflects.stands _ _ known).laid.distinct
  obtain rfl := eq_of_slot_eq distinct (laid.subset mem') defines.mem same
  refine bare.fresh (.slot d'.slot) d'.place (.definition defines) ?_
  rw [(mem_group mem').2]

/-- What is seen next to a group of definitions and inside it. -/
theorem View.visible_addLive {w' : Place} (known : view.env id = some env)
    (laid : (group w bindings).Sublist env.definitions) (inside : w <:+ w') (depth slot : Nat)
    (sees : (view.visible busy env w).extend (bindings.map (·.1)) depth slot) :
    (view.addLive id (bindings.map (·.1))).visible busy env w' depth slot := by
  have seen : Seen busy w' w := .of_suffix inside
  rcases sees with ⟨rfl, mem⟩ | ⟨other, owner, known', reached, sees⟩
  · obtain ⟨d, mem', same⟩ := exists_mem_group w mem
    refine ⟨id, env, known, rfl, .inr ⟨d, same, View.defines_addLive known laid mem', ?_⟩⟩
    rw [(mem_group mem').2]
    exact seen.trans (.cons (by simp))
  · refine ⟨other, owner, known', reached, ?_⟩
    rcases sees with ⟨low, sees⟩ | ⟨d, same, defines, sees⟩
    · exact .inl ⟨low, seen.trans sees⟩
    · exact .inr ⟨d, same, ⟨defines.known, .inl defines.live, defines.mem⟩, seen.trans sees⟩

theorem Evolves.putGroup (reflects : Reflects m busy view heap) (bare : Bare view heap w)
    (known : view.env id = some env) (laid : (group w bindings).Sublist env.definitions) :
    Evolves w heap view (heap.putEach id (pendings bindings))
      (view.addLive id (bindings.map (·.1))) where
  extension := Heap.extends_putEach heap id bindings
  env _ _ known := known
  origin _ _ known := known
  live _ _ live := .inl live
  awake other env d defines awake asleep := by
    obtain ⟨expr, holds⟩ := asleep
    rw [Heap.slot?_putEach_pendings_ne (reflects.slot_new bare known laid defines)] at holds
    exact awake ⟨expr, holds⟩
  newEnv _ _ known := .inl known
  newOrigin _ _ known := .inl known
  newDefines other env d defines := by
    refine (reflects.defines_cases known laid defines).imp_right fun new => .inl ?_
    rw [(mem_group new.2.2).2]
    exact List.suffix_cons _ w

/-- Code outside of the definitions of a group is awake when they are put into their slots. -/
theorem Evolves.awake_group (evolves : Evolves w heap view (heap.putEach id (pendings bindings))
      (view.addLive id (bindings.map (·.1)))) (reflects : Reflects m busy view heap)
    (known : view.env id = some env) (laid : (group w bindings).Sublist env.definitions)
    (outside : ∀ slot, ¬ .body :: .slot slot :: w <:+ x) (awake : view.Awake heap x) :
    (view.addLive id (bindings.map (·.1))).Awake (heap.putEach id (pendings bindings)) x := by
  intro other env' d defines inside
  rcases reflects.defines_cases known laid defines with old | ⟨-, -, mem⟩
  · exact evolves.awake other env' d old (awake other env' d old inside)
  · rw [Definition.inner, (mem_group mem).2] at inside
    exact (outside d.slot inside).elim

/-- A group of definitions is put into its slots. -/
theorem Reflects.putGroup (reflects : Reflects m busy view heap) (bare : Bare view heap w)
    (known : view.env id = some env) (laid : (group w bindings).Sublist env.definitions)
    (sees : ∀ binding ∈ bindings,
      binding.2.Scoped ((view.visible busy env w).extend (bindings.map (·.1)))) :
    Reflects m busy (view.addLive id (bindings.map (·.1)))
      (heap.putEach id (pendings bindings)) := by
  have evolves := Evolves.putGroup reflects bare known laid
  have distinct : (bindings.map (·.1)).Nodup := by
    rw [← map_slot_group w]
    exact (laid.map _).nodup (reflects.stands id env known).laid.distinct
  have kept {other : FrameId} {env' : Env} {d : Definition} (defines : view.Defines other env' d) :
      (heap.putEach id (pendings bindings)).slot? other d.slot = heap.slot? other d.slot :=
    Heap.slot?_putEach_pendings_ne (reflects.slot_new bare known laid defines)
  have taken {other : FrameId} {env' : Env} {d d' : Definition} (mem : d ∈ group w bindings)
      (defines : view.Defines other env' d') : d.place ≠ d'.place := by
    intro same
    refine bare.fresh (.slot d.slot) d'.place (.definition defines) ?_
    rw [← same, (mem_group mem).2]
  constructor
  case frames => exact reflects.frames
  case origins => exact reflects.origins
  case places =>
    intro id' id'' env' env'' d d' defines defines' same
    rcases reflects.defines_cases known laid defines with old | ⟨rfl, rfl, mem⟩ <;>
      rcases reflects.defines_cases known laid defines' with old' | ⟨rfl, rfl, mem'⟩
    · exact reflects.places _ _ _ _ d d' old old' same
    · exact (taken mem' old same.symm).elim
    · exact (taken mem old' same).elim
    · rw [(mem_group mem).2, (mem_group mem').2] at same
      exact ⟨rfl, Step.slot.inj (List.cons.inj same).1⟩
  case closures =>
    intro serial x made
    rw [Heap.closures_putEach]
    exact reflects.closures serial x made
  case stands =>
    intro other env' known'
    refine evolves.passes.stands trivial evolves.extension (fun slot low => ?_)
      (reflects.stands other env' known')
    refine Heap.slot?_putEach_pendings_ne ?_
    rintro rfl mem
    obtain rfl := Option.some.inj (known.symm.trans known')
    obtain ⟨d, mem', rfl⟩ := exists_mem_group w mem
    have := (reflects.stands _ _ known).laid.apart d (laid.subset mem')
    omega
  case waits =>
    intro other env' d defines
    rcases reflects.defines_cases known laid defines with old | ⟨rfl, rfl, mem⟩
    · exact evolves.passes.waits trivial (kept old) (fun _ mem => mem)
        (reflects.waits other env' d old)
    · obtain ⟨mem', place⟩ := mem_group mem
      obtain ⟨frame, found, -, inside, -⟩ := (reflects.stands _ _ known).frame
      refine ⟨(sees _ mem').mono ?_, .pending d.expr, ?_, .asleep⟩
      · rw [place]
        exact View.visible_addLive known laid (List.suffix_cons _ w)
      · exact Heap.slot?_putEach_pendings found distinct mem' (inside d (laid.subset mem))
  case awake =>
    intro x isTaken
    have old (isTaken : view.Taken x) :
        (view.addLive id (bindings.map (·.1))).Awake (heap.putEach id (pendings bindings)) x :=
      evolves.awake_group reflects known laid
        (fun slot inside => bare.fresh (.slot slot) x isTaken ((List.suffix_cons _ _).trans inside))
        (reflects.awake x isTaken)
    cases isTaken with
    | frame known => exact old (.frame known)
    | closure known => exact old (.closure known)
    | definition defines =>
      rcases reflects.defines_cases known laid defines with isOld | ⟨-, -, mem⟩
      · exact old (.definition isOld)
      · rw [(mem_group mem).2]
        refine evolves.awake_group reflects known laid (fun slot inside => ?_) ?_
        · have := inside.length_le
          simp only [List.length_cons] at this
          omega
        · intro other env' d' defines' inside
          rcases List.suffix_cons_iff.mp inside with impossible | inside
          · cases (List.cons.inj impossible).1
          · exact bare.awake other env' d' defines' inside
  case owned =>
    intro other slot live
    rcases live with live | ⟨rfl, mem⟩
    · obtain ⟨env', d, same, defines⟩ := reflects.owned other slot live
      exact ⟨env', d, same, defines.later evolves⟩
    · obtain ⟨d, mem', same⟩ := exists_mem_group w mem
      exact ⟨env, d, same, View.defines_addLive known laid mem'⟩
  case underWay =>
    intro task mem
    obtain ⟨other, defines, holds⟩ := reflects.underWay task mem
    exact ⟨other, defines.later evolves, (kept defines).trans holds⟩

/-- The parts of code behind a group are still open. -/
theorem Bare.free_putGroup (bare : Bare view heap w) (reflects : Reflects m busy view heap)
    (known : view.env id = some env) (laid : (group w bindings).Sublist env.definitions) :
    Free (view.addLive id (bindings.map (·.1))) (heap.putEach id (pendings bindings)) w 0 := by
  have evolves := Evolves.putGroup reflects bare known laid
  constructor
  · refine evolves.awake_group reflects known laid (fun slot inside => ?_) bare.awake
    exact not_cons_suffix _ w ((List.suffix_cons _ _).trans inside)
  · intro i _ x taken inside
    cases taken with
    | frame known => exact bare.fresh _ _ (.frame known) inside
    | closure known => exact bare.fresh _ _ (.closure known) inside
    | definition defines =>
      rcases reflects.defines_cases known laid defines with old | ⟨-, -, mem⟩
      · exact bare.fresh _ _ (.definition old) inside
      · rw [(mem_group mem).2] at inside
        cases (List.cons.inj (inside.eq_of_length (by simp))).1

end Group

end Denotation

end ShapeLang
