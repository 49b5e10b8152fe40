import ShapeLang.Proofs.Denotation.Changes

/-! # Definitions that are evaluated

Frames go on to reflect denotations when a definition is begun and when it ends. If it ends without
a value, everything inside it is forgotten and it waits again.
-/

namespace ShapeLang.Denotation

variable {m : Machine} {busy : List Task} {view wider : View} {heap later : Heap} {w x : Place}
  {id other : FrameId} {env env' : Env} {d d' : Definition} {content : Slot}

/-- What is left if everything inside a place is forgotten. -/
def View.without (view : View) (u : Place) : View where
  env id := (view.env id).filter fun env => !decide (u <:+ env.name)
  origin serial := (view.origin serial).filter fun x => !decide (u <:+ x)
  live id slot := ∃ env d, d.slot = slot ∧ view.Defines id env d ∧ ¬ u <:+ d.place

/-- Writing the slot of a definition leaves the other definitions as they are. -/
theorem Reflects.put_cases (reflects : Reflects m busy view heap) (defines : view.Defines id env d)
    (defines' : view.Defines other env' d') :
    id = other ∧ env = env' ∧ d = d' ∨ ∀ (heap : Heap) (content : Slot),
      (heap.put id d.slot content).slot? other d'.slot = heap.slot? other d'.slot := by
  by_cases same : id = other ∧ d.slot = d'.slot
  · obtain ⟨rfl, same⟩ := same
    exact .inl ⟨rfl, reflects.defines_unique defines defines' same⟩
  · exact .inr fun _ _ => Heap.slot?_put_ne fun here slots => same ⟨here, slots⟩

theorem Reflects.slot?_arg (reflects : Reflects m busy view heap) (defines : view.Defines id env d)
    (known : view.env other = some env') {slot : Nat} (low : slot < env'.args.length) :
    (heap.put id d.slot content).slot? other slot = heap.slot? other slot := by
  apply Heap.slot?_put_ne
  rintro rfl
  obtain rfl := Option.some.inj (defines.known.symm.trans known)
  exact reflects.slot_ne_arg defines low

/-- Nothing is inside a definition that waits. -/
theorem Reflects.not_inside (reflects : Reflects m busy view heap) (defines : view.Defines id env d)
    (asleep : heap.Asleep id d.slot) (taken : view.Taken x) : ¬ d.inner <:+ x :=
  fun inside => reflects.awake x taken id env d defines inside asleep

theorem not_asleep_busy (there : heap.slot? id d.slot = some content) :
    ¬ (heap.put id d.slot .busy).Asleep id d.slot := by
  rintro ⟨expr, holds⟩
  rw [Heap.slot?_put_self there] at holds
  cases holds

section Begin

variable {expr : Expr} (reflects : Reflects m busy view heap) (defines : view.Defines id env d)
  (waits : heap.slot? id d.slot = some (.pending expr))
include reflects defines waits

/-- A definition that begins keeps nothing of what was known from being known. -/
theorem Reflects.passes_begin : Passes busy (⟨env, d⟩ :: busy) view view fun _ => True := by
  refine ⟨fun w x _ taken seen => ⟨trivial, fun task mem inside => ?_⟩,
    fun _ _ known _ => known, fun _ _ known _ => known, fun _ _ _ defines _ => defines⟩
  rcases List.mem_cons.mp mem with rfl | mem
  · exact (reflects.not_inside defines ⟨expr, waits⟩ taken inside).elim
  · exact seen task mem inside

/-- No definition begins inside of those that are being evaluated already. -/
theorem Reflects.outside_begin (task : Task) (mem : task ∈ busy) :
    ¬ d.inner <:+ task.definition.inner := by
  obtain ⟨other, defines', holds⟩ := reflects.underWay task mem
  intro inside
  rcases List.suffix_cons_iff.mp inside with same | inside
  · obtain ⟨rfl, slots⟩ :=
      reflects.places _ _ _ _ _ _ defines defines' (List.cons.inj same).2
    rw [← slots, waits] at holds
    cases holds
  · exact reflects.not_inside defines ⟨expr, waits⟩ (.definition defines') inside

/-- A definition begins. -/
theorem Reflects.begin :
    Reflects m (⟨env, d⟩ :: busy) view (heap.put id d.slot .busy) := by
  have passes := reflects.passes_begin defines waits
  constructor
  case frames => exact reflects.frames
  case origins => exact reflects.origins
  case places => exact reflects.places
  case closures => exact reflects.closures
  case stands =>
    intro other env' known
    exact passes.stands trivial (.put heap id d.slot .busy)
      (fun slot low => reflects.slot?_arg defines known low) (reflects.stands other env' known)
  case waits =>
    intro other env' d' defines'
    rcases reflects.put_cases defines defines' with ⟨rfl, rfl, rfl⟩ | kept
    · exact ⟨(reflects.waits id env d defines).sees.mono (passes.visible trivial), .busy,
        Heap.slot?_put_self waits, .busy List.mem_cons_self⟩
    · exact passes.waits trivial (kept heap .busy) (fun _ mem => List.mem_cons_of_mem _ mem)
        (reflects.waits other env' d' defines')
  case awake =>
    intro x taken other env' d' defines' inside asleep
    rcases reflects.put_cases defines defines' with ⟨rfl, rfl, rfl⟩ | kept
    · exact not_asleep_busy waits asleep
    · obtain ⟨expr', holds⟩ := asleep
      exact reflects.awake x taken other env' d' defines' inside ⟨expr', (kept _ _) ▸ holds⟩
  case owned => exact reflects.owned
  case underWay =>
    intro task mem
    rcases List.mem_cons.mp mem with rfl | mem
    · exact ⟨id, defines, Heap.slot?_put_self waits⟩
    · obtain ⟨other, defines', holds⟩ := reflects.underWay task mem
      rcases reflects.put_cases defines defines' with ⟨rfl, -, same⟩ | kept
      · rw [← same, waits] at holds
        cases holds
      · exact ⟨other, defines', (kept _ _).trans holds⟩

/-- The expression of a definition that begins is at an open place. -/
theorem Reflects.open_begin : Open view (heap.put id d.slot .busy) d.inner := by
  constructor
  · exact fun x taken => reflects.not_inside defines ⟨expr, waits⟩ taken
  · intro other env' d' defines' inside asleep
    rcases List.suffix_cons_iff.mp inside with same | inside
    · obtain ⟨rfl, slots⟩ :=
        reflects.places _ _ _ _ _ _ defines' defines (List.cons.inj same).2
      exact not_asleep_busy waits (slots ▸ asleep)
    · exact (reflects.begin defines waits).awake d.place (.definition defines) other env' d'
        defines' inside asleep

/-- What is reached from inside a definition that waits can be reached from anywhere. -/
theorem Reflects.reach_begin (reach : Reach view (heap.put id d.slot .busy) d.inner x) :
    Reach view heap w x := by
  rcases reach with inside | ⟨other, env', d', defines', ⟨expr', holds⟩, inside⟩
  · exact .inr ⟨id, env, d, defines, ⟨expr, waits⟩, inside⟩
  · rcases reflects.put_cases defines defines' with ⟨rfl, rfl, rfl⟩ | kept
    · exact (not_asleep_busy waits ⟨expr', holds⟩).elim
    · exact .inr ⟨other, env', d', defines', ⟨expr', (kept _ _) ▸ holds⟩, inside⟩

end Begin

section End

variable {value : Value} {value' : Den}

/-- A definition that ends has no others around it that began later. -/
theorem Seen.finish (outside : ∀ task ∈ busy, ¬ d.inner <:+ task.definition.inner)
    (seen : Seen (⟨env, d⟩ :: busy) d.inner x) : Seen busy d.place x := by
  intro task mem inside
  rcases List.suffix_cons_iff.mp (seen task (List.mem_cons_of_mem _ mem) inside) with same | inside
  · exact (outside task mem (same ▸ List.suffix_rfl)).elim
  · exact inside

/-- Another definition than the one that ends. -/
theorem Reflects.put_task (reflects : Reflects m (⟨env, d⟩ :: busy) view heap)
    (defines : view.Defines id env d)
    (outside : ∀ task ∈ busy, ¬ d.inner <:+ task.definition.inner) {task : Task}
    (mem : task ∈ busy) (defines' : view.Defines other task.env task.definition) :
    (heap.put id d.slot content).slot? other task.definition.slot =
      heap.slot? other task.definition.slot := by
  rcases reflects.put_cases defines defines' with ⟨-, -, same⟩ | kept
  · exact (outside task mem (same ▸ List.suffix_rfl)).elim
  · exact kept heap content

theorem passes_finish : Passes (⟨env, d⟩ :: busy) busy view view fun _ => True :=
  ⟨fun _ _ _ _ seen => ⟨trivial, fun task mem => seen task (List.mem_cons_of_mem _ mem)⟩,
    fun _ _ known _ => known, fun _ _ known _ => known, fun _ _ _ defines _ => defines⟩

/-- The value of a definition is known where the definition is, once it has ended. -/
theorem Means.finish (outside : ∀ task ∈ busy, ¬ d.inner <:+ task.definition.inner)
    (means : Means (⟨env, d⟩ :: busy) view d.inner value value') :
    Means busy view d.place value value' :=
  passes_finish.means_at (fun _ _ seen => ⟨trivial, seen.finish outside⟩) means

/-- A definition that is evaluated is on the list of those that are. -/
theorem Reflects.task_mem (reflects : Reflects m (⟨env, d⟩ :: busy) view heap)
    (defines : view.Defines id env d) (defines' : view.Defines other env' d')
    (other : ¬ (id = other ∧ env = env' ∧ d = d')) (mem : ⟨env', d'⟩ ∈ (⟨env, d⟩ : Task) :: busy) :
    ⟨env', d'⟩ ∈ busy := by
  refine (List.mem_cons.mp mem).resolve_left fun same => other ?_
  obtain ⟨rfl, rfl⟩ := Task.mk.inj same
  exact ⟨reflects.frames _ _ _ _ defines.known defines'.known rfl, rfl, rfl⟩

/-- A definition ends with a value. -/
theorem Reflects.finish (reflects : Reflects m (⟨env, d⟩ :: busy) view heap)
    (defines : view.Defines id env d)
    (outside : ∀ task ∈ busy, ¬ d.inner <:+ task.definition.inner)
    (settles : Settles (fun n => upTo m n env d.inner d.expr) (.ok value'))
    (means : Means busy view d.place value value') :
    Reflects m busy view (heap.put id d.slot (.ready value)) := by
  obtain ⟨old, there, -⟩ := (reflects.waits id env d defines).content
  constructor
  case frames => exact reflects.frames
  case origins => exact reflects.origins
  case places => exact reflects.places
  case closures => exact reflects.closures
  case stands =>
    intro other env' known
    exact passes_finish.stands trivial (.put heap id d.slot _)
      (fun slot low => reflects.slot?_arg defines known low) (reflects.stands other env' known)
  case waits =>
    intro other env' d' defines'
    rcases reflects.put_cases defines defines' with ⟨rfl, rfl, rfl⟩ | kept
    · exact ⟨(reflects.waits id env d defines).sees.mono (passes_finish.visible trivial),
        .ready value, Heap.slot?_put_self there, .done settles means⟩
    · refine passes_finish.waits trivial (kept heap _) (fun holds mem => ?_)
        (reflects.waits other env' d' defines')
      refine reflects.task_mem defines defines' ?_ mem
      rintro ⟨rfl, rfl, rfl⟩
      have written := kept heap .empty
      rw [Heap.slot?_put_self there, holds] at written
      cases written
  case awake =>
    intro x taken other env' d' defines' inside
    rintro ⟨expr', holds⟩
    rcases reflects.put_cases defines defines' with ⟨rfl, rfl, rfl⟩ | kept
    · rw [Heap.slot?_put_self there] at holds
      cases holds
    · exact reflects.awake x taken other env' d' defines' inside ⟨expr', (kept _ _) ▸ holds⟩
  case owned => exact reflects.owned
  case underWay =>
    intro task mem
    obtain ⟨other, defines', holds⟩ := reflects.underWay task (List.mem_cons_of_mem _ mem)
    exact ⟨other, defines', (reflects.put_task defines outside mem defines').trans holds⟩

theorem View.without_env {u : Place} (known : (view.without u).env id = some env) :
    view.env id = some env ∧ ¬ u <:+ env.name := by
  simpa [View.without, Option.filter_eq_some_iff] using known

theorem View.without_origin {u : Place} {serial : Nat}
    (known : (view.without u).origin serial = some x) :
    view.origin serial = some x ∧ ¬ u <:+ x := by
  simpa [View.without, Option.filter_eq_some_iff] using known

theorem Reflects.without_defines (reflects : Reflects m busy view heap) {u : Place}
    (defines : (view.without u).Defines id env d) :
    view.Defines id env d ∧ ¬ u <:+ d.place := by
  obtain ⟨env', d', same, defines', outside⟩ := defines.live
  have known := (View.without_env defines.known).1
  obtain rfl := Option.some.inj (defines'.known.symm.trans known)
  obtain rfl := eq_of_slot_eq (reflects.stands id env' known).laid.distinct defines'.mem
    defines.mem same
  exact ⟨defines', outside⟩

theorem Reflects.without_taken (reflects : Reflects m busy view heap) {u : Place}
    (taken : (view.without u).Taken x) : view.Taken x ∧ ¬ u <:+ x := by
  cases taken with
  | frame known => exact (View.without_env known).imp_left .frame
  | closure known => exact (View.without_origin known).imp_left .closure
  | definition defines => exact (reflects.without_defines defines).imp_left .definition

theorem Reflects.defines_without (reflects : Reflects m busy view heap) {u : Place}
    (defines : view.Defines id env d) (outside : ¬ u <:+ d.place) :
    (view.without u).Defines id env d := by
  refine ⟨?_, ⟨env, d, rfl, defines, outside⟩, defines.mem⟩
  have inside := (reflects.stands id env defines.known).laid.nested.inside d defines.mem
  simpa [View.without, Option.filter_eq_some_iff, defines.known] using
    fun le => outside (List.IsSuffix.trans le inside)

/-- Everything inside a definition that fails is known inside of it only. -/
theorem Reflects.passes_without (reflects : Reflects m (⟨env, d⟩ :: busy) view heap) :
    Passes (⟨env, d⟩ :: busy) busy view (view.without d.inner) fun x => ¬ d.inner <:+ x := by
  constructor
  case seen =>
    exact fun w x kept _ seen => ⟨fun inside => kept (seen ⟨env, d⟩ List.mem_cons_self inside),
      fun task mem => seen task (List.mem_cons_of_mem _ mem)⟩
  case env =>
    intro id env known kept
    simpa [View.without, Option.filter_eq_some_iff, known] using kept
  case origin =>
    intro serial x known kept
    simpa [View.without, Option.filter_eq_some_iff, known] using kept
  case defines => exact fun _ _ _ defines kept => reflects.defines_without defines kept

/-- A definition that fails waits again. -/
theorem Reflects.abandon (reflects : Reflects m (⟨env, d⟩ :: busy) view heap)
    (defines : view.Defines id env d)
    (outside : ∀ task ∈ busy, ¬ d.inner <:+ task.definition.inner) :
    Reflects m busy (view.without d.inner) (heap.put id d.slot (.pending d.expr)) := by
  obtain ⟨old, there, -⟩ := (reflects.waits id env d defines).content
  have passes := reflects.passes_without
  constructor
  case frames =>
    intro id other env env' known known'
    exact reflects.frames _ _ _ _ (View.without_env known).1 (View.without_env known').1
  case origins =>
    intro serial serial' x known known'
    exact reflects.origins _ _ _ (View.without_origin known).1 (View.without_origin known').1
  case places =>
    intro id id' env env' d d' defines defines'
    exact reflects.places _ _ _ _ _ _ (reflects.without_defines defines).1
      (reflects.without_defines defines').1
  case closures =>
    exact fun serial x known => reflects.closures serial x (View.without_origin known).1
  case stands =>
    intro other env' known
    obtain ⟨known, kept⟩ := View.without_env known
    exact passes.stands kept (.put heap id d.slot _)
      (fun slot low => reflects.slot?_arg defines known low) (reflects.stands other env' known)
  case waits =>
    intro other env' d' defines'
    obtain ⟨defines', kept'⟩ := reflects.without_defines defines'
    rcases reflects.put_cases defines defines' with ⟨rfl, rfl, rfl⟩ | kept
    · exact ⟨(reflects.waits id env d defines).sees.mono (passes.visible kept'),
        .pending d.expr, Heap.slot?_put_self there, .asleep⟩
    · refine passes.waits kept' (kept heap _) (fun holds mem => ?_)
        (reflects.waits other env' d' defines')
      refine reflects.task_mem defines defines' ?_ mem
      rintro ⟨rfl, rfl, rfl⟩
      have written := kept heap .empty
      rw [Heap.slot?_put_self there, holds] at written
      cases written
  case awake =>
    intro x taken other env' d' defines' inside
    rintro ⟨expr', holds⟩
    obtain ⟨taken, kept'⟩ := reflects.without_taken taken
    have defines' := (reflects.without_defines defines').1
    rcases reflects.put_cases defines defines' with ⟨rfl, rfl, rfl⟩ | kept
    · exact kept' inside
    · exact reflects.awake x taken other env' d' defines' inside ⟨expr', (kept _ _) ▸ holds⟩
  case owned =>
    rintro other slot ⟨env', d', same, defines', kept⟩
    exact ⟨env', d', same, reflects.defines_without defines' kept⟩
  case underWay =>
    intro task mem
    obtain ⟨other, defines', holds⟩ := reflects.underWay task (List.mem_cons_of_mem _ mem)
    refine ⟨other, reflects.defines_without defines' fun inside => ?_,
      (reflects.put_task defines outside mem defines').trans holds⟩
    exact outside task mem (inside.trans task.definition.place_suffix)

section Forced

variable {expr : Expr} (reflects : Reflects m busy view heap) (defines : view.Defines id env d)
  (waits : heap.slot? id d.slot = some (.pending expr))
  (evolves : Evolves d.inner (heap.put id d.slot .busy) view later wider)
include reflects defines waits evolves

/-- A definition that did not wait does not wait when another one has ended. -/
theorem Reflects.awake_forced (defines' : view.Defines other env' d')
    (awake : ¬ heap.Asleep other d'.slot) :
    ¬ (later.put id d.slot content).Asleep other d'.slot := by
  rcases reflects.put_cases defines defines' with ⟨rfl, rfl, rfl⟩ | kept
  · exact (awake ⟨expr, waits⟩).elim
  · rintro ⟨expr', holds⟩
    refine evolves.awake other env' d' defines' ?_ ⟨expr', (kept _ _) ▸ holds⟩
    rintro ⟨expr'', holds'⟩
    exact awake ⟨expr'', (kept _ _) ▸ holds'⟩

/-- What happens when a definition is evaluated to a value. -/
theorem Evolves.finish : Evolves w heap view (later.put id d.slot content) wider where
  extension := ((Heap.Extends.put ..).trans evolves.extension).trans (.put ..)
  env := evolves.env
  origin := evolves.origin
  live := evolves.live
  awake _ _ _ defines' := reflects.awake_forced defines waits evolves defines'
  newEnv id env known :=
    (evolves.newEnv id env known).imp_right (reflects.reach_begin defines waits)
  newOrigin serial x known :=
    (evolves.newOrigin serial x known).imp_right (reflects.reach_begin defines waits)
  newDefines id env d defines' :=
    (evolves.newDefines id env d defines').imp_right (reflects.reach_begin defines waits)

/-- What happens when a definition fails. -/
theorem Evolves.abandon (ends : Reflects m (⟨env, d⟩ :: busy) wider later) :
    Evolves w heap view (later.put id d.slot content) (wider.without d.inner) where
  extension := ((Heap.Extends.put ..).trans evolves.extension).trans (.put ..)
  env other env' known := by
    have outside := reflects.not_inside defines ⟨expr, waits⟩ (.frame known)
    exact ends.passes_without.env other env' (evolves.env other env' known) outside
  origin serial x known := by
    have outside := reflects.not_inside defines ⟨expr, waits⟩ (.closure known)
    exact ends.passes_without.origin serial x (evolves.origin serial x known) outside
  live other slot live := by
    obtain ⟨env', d', same, defines'⟩ := reflects.owned other slot live
    have outside := reflects.not_inside defines ⟨expr, waits⟩ (.definition defines')
    exact ⟨env', d', same, defines'.later evolves, outside⟩
  awake _ _ _ defines' := reflects.awake_forced defines waits evolves defines'
  newEnv other env' known :=
    (evolves.newEnv other env' (View.without_env known).1).imp_right
      (reflects.reach_begin defines waits)
  newOrigin serial x known :=
    (evolves.newOrigin serial x (View.without_origin known).1).imp_right
      (reflects.reach_begin defines waits)
  newDefines other env' d' defines' :=
    (evolves.newDefines other env' d' (ends.without_defines defines').1).imp_right
      (reflects.reach_begin defines waits)

end Forced

end End

end ShapeLang.Denotation
