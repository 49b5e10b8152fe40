import ShapeLang.Proofs.Rendering.Operators

/-! # Symbolic frames stand for environments

A slot of a symbolic frame holds a definition of the environment that the frame stands for, or a
term for what is read there. A slot of a captured frame denotes what is read from the environment
that the captured frame stands for.
-/

namespace ShapeLang

open Denotation

namespace Shader

namespace Rendering

variable {setup : Setup} {world wider : World} {state : CompilerState} {α : Type}
  {location : Location} {id slot depth : Nat} {known : KnownFrame} {env : Env} {w : Place}

section Filling

/-- Something else is in one slot. -/
theorem Setup.Tracks.put (tracks : setup.Tracks world state)
    (there : world.frames[id]? = some known) {content : SymbolicSlot}
    (holds : setup.Holds world id known.env slot content) :
    setup.Tracks world { state with compiler := state.compiler.put id slot content } where
  sight := tracks.sight
  statements := tracks.statements
  bound := tracks.bound
  size := Compiler.size_put.trans tracks.size
  around := tracks.around
  slots other known' frame' there' found' := by
    by_cases same : id = other
    · subst same
      obtain rfl := Option.some.inj (there.symm.trans there')
      cases found : state.compiler.frames[id]? with
      | none =>
        have missing := tracks.size ▸ Array.getElem?_eq_none_iff.mp found
        have low := (List.getElem?_eq_some_iff.mp there).1
        omega
      | some frame =>
        rw [Compiler.frame?_put_self found] at found'
        obtain rfl := Option.some.inj found'
        obtain ⟨outer, slots⟩ := tracks.slots id known frame there found
        refine ⟨outer, fun at_ content' here => ?_⟩
        rw [List.getElem?_set] at here
        split at here
        · rename_i same
          split at here
          · obtain rfl := Option.some.inj here
            exact same ▸ holds
          · cases here
        · exact slots at_ content' here
    · rw [Compiler.frame?_put_ne same] at found'
      exact tracks.slots other known' frame' there' found'

theorem Setup.Delivers.store (tracks : setup.Tracks world state)
    (there : world.frames[id]? = some known) {content : SymbolicSlot}
    (holds : setup.Holds world id known.env slot content) :
    setup.Delivers world (Compile.store id slot content) state fun _ _ => True :=
  Ends.symbolicStore (fun _ _ _ => ⟨world, .refl world, tracks.put there holds, trivial⟩)
    (fun _ _ _ => trivial) fun _ => trivial

/-- The definitions of a `let` wait in their slots. -/
theorem delivers_storePending (tracks : setup.Tracks world state)
    (there : world.frames[id]? = some known) {bindings : List (Nat × Expr)}
    (defined : ∀ binding ∈ bindings, ∃ d ∈ known.env.definitions,
      d.slot = binding.1 ∧ d.expr = binding.2)
    (sees : ∀ binding ∈ bindings, binding.2.Scoped (world.sees (.symbolic id))) :
    setup.Delivers world (Compile.storePending id bindings) state fun _ _ => True := by
  induction bindings generalizing world state with
  | nil => exact .pure tracks trivial
  | cons binding bindings ih =>
    obtain ⟨d, mem, same, code⟩ := defined binding List.mem_cons_self
    have sees' := sees binding List.mem_cons_self
    rw [← code] at sees'
    refine (Setup.Delivers.store tracks there (code ▸ .pending mem same sees')).bind ?_
    intro _ wider after later tracks' _
    exact ih tracks' (later.frame there)
      (fun other mem => defined other (List.mem_cons_of_mem _ mem))
      fun other mem => (sees other (List.mem_cons_of_mem _ mem)).mono later.sees

/-- Terms for arguments fill the first slots. -/
theorem delivers_storeAll (tracks : setup.Tracks world state)
    (there : world.frames[id]? = some known) {terms : List Term}
    (each : ∀ (i : Nat) term, terms[i]? = some term →
      setup.Holds world id known.env (slot + i) (.ready term)) :
    setup.Delivers world (Compile.storeAll id slot terms) state fun _ _ => True := by
  induction terms generalizing world state slot with
  | nil => exact .pure tracks trivial
  | cons term terms ih =>
    refine (Setup.Delivers.store tracks there (each 0 term rfl)).bind ?_
    intro _ wider after later tracks' _
    refine ih tracks' (later.frame there) fun i other here => ?_
    have holds := each (i + 1) other here
    rw [Nat.add_comm i 1, ← Nat.add_assoc] at holds
    exact later.holds holds

/-- What is known with one more frame. -/
def World.enter (world : World) (frame : KnownFrame) : World :=
  { world with frames := world.frames ++ [frame] }

theorem later_enter (frame : KnownFrame) : setup.Later world (world.enter frame) :=
  ⟨Evolves.refl, List.prefix_append _ _, List.prefix_rfl, Nat.le_refl _, fun _ _ => rfl⟩

theorem frame_enter (frame : KnownFrame) :
    (world.enter frame).frames[world.frames.length]? = some frame := by
  simp [World.enter]

/-- A new frame with empty slots. -/
theorem Setup.Tracks.alloc (tracks : setup.Tracks world state) (laid : env.Laid)
    {outer : Outer} {around : Env} (parent : env.parent = some around)
    (stands : world.Stands outer around) (slotCount : Nat) :
    setup.Tracks (world.enter ⟨env, outer⟩)
      { state with compiler := state.compiler.alloc slotCount outer } := by
  let later : setup.Later world (world.enter ⟨env, outer⟩) := later_enter _
  have split (other : Nat) (known' : KnownFrame)
      (there : (world.enter ⟨env, outer⟩).frames[other]? = some known') :
      world.frames[other]? = some known' ∧ other ≠ state.compiler.frames.size ∨
        other = state.compiler.frames.size ∧ known' = ⟨env, outer⟩ := by
    rw [tracks.size]
    rcases Nat.lt_trichotomy other world.frames.length with low | rfl | high
    · rw [World.enter, List.getElem?_append_left low] at there
      exact .inl ⟨there, Nat.ne_of_lt low⟩
    · rw [frame_enter] at there
      exact .inr ⟨rfl, (Option.some.inj there).symm⟩
    · have low := (List.getElem?_eq_some_iff.mp there).1
      simp only [World.enter, List.length_append, List.length_singleton] at low
      omega
  refine ⟨tracks.sight, tracks.statements, tracks.bound, ?_, ?_, ?_⟩
  · simp [Compiler.alloc, World.enter, tracks.size]
  · intro other known' there
    rcases split other known' there with ⟨old, -⟩ | ⟨rfl, rfl⟩
    · obtain ⟨laid', around', parent', stands'⟩ := tracks.around other known' old
      exact ⟨laid', around', parent', later.stands stands'⟩
    · exact ⟨laid, around, parent, later.stands stands⟩
  · intro other known' frame there found
    rcases split other known' there with ⟨old, different⟩ | ⟨rfl, rfl⟩
    · rw [Compiler.frame?_alloc_ne different] at found
      obtain ⟨same, slots⟩ := tracks.slots other known' frame old found
      exact ⟨same, fun slot content here => later.holds (slots slot content here)⟩
    · rw [Compiler.frame?_alloc_self] at found
      obtain rfl := Option.some.inj found
      refine ⟨rfl, fun slot content here => ?_⟩
      obtain ⟨-, rfl⟩ := List.mem_replicate.mp (List.mem_of_getElem? here)
      exact .empty

theorem delivers_alloc (tracks : setup.Tracks world state) (laid : env.Laid) {outer : Outer}
    {around : Env} (parent : env.parent = some around) (stands : world.Stands outer around)
    (slotCount : Nat) :
    setup.Delivers world (Compile.alloc slotCount outer) state
      fun wider id => wider.frames[id]? = some ⟨env, outer⟩ := by
  refine Ends.symbolicAlloc ⟨_, later_enter _, tracks.alloc laid parent stands slotCount, ?_⟩
  rw [tracks.size]
  exact frame_enter _

/-- Code in a symbolic frame sees the slots of the frame, and what is seen from around it. -/
theorem sees_frame (there : world.frames[id]? = some known) {slots : List Nat} (depth slot : Nat)
    (visible : (world.sees known.outer).enter slots depth slot) :
    world.sees (.symbolic id) depth slot := by
  cases depth with
  | zero => rw [World.sees]; trivial
  | succ depth =>
    rw [World.sees]
    exact ⟨known, there, visible⟩

/-- What a function has seen of a captured frame can be read there. -/
theorem sees_captured {owner : FrameId} {x : Place} (isKnown : world.sight.view.env owner = some env)
    (depth slot : Nat) (visible : world.sight.view.visible [] env x depth slot) :
    world.sees (.captured owner) depth slot := by
  rw [World.sees]
  exact ⟨env, isKnown, View.visible_seen (.nil _ _) depth slot visible⟩

/-- What is compiled while a function is being inlined. -/
theorem Setup.Delivers.inlining {function : Location} {action : Compile α}
    {post : World → α → Prop}
    (delivers : ∀ entered, setup.Tracks world entered → setup.Delivers world action entered post)
    (tracks : setup.Tracks world state) :
    setup.Delivers world (Compile.inlining function action) state post := by
  have entered : setup.Tracks world (state.entering function) :=
    tracks.emitted (.refl world) rfl rfl rfl tracks.statements tracks.bound
  refine Ends.inlining (Ends.mono (delivers _ entered) ?_ fun _ _ _ => trivial)
  rintro a after ⟨wider, later, tracks', ok⟩
  exact ⟨wider, later,
    tracks'.emitted (.refl wider) rfl rfl rfl tracks'.statements tracks'.bound, ok⟩

end Filling

section Reading

/-- The frame where a slot is read: a symbolic one, or one where evaluation agrees with what is
denoted. -/
inductive Setup.Reaches (setup : Setup) (world : World) (env : Env) (depth slot : Nat) :
    Outer → Prop
  | symbolic {owner : Nat} {known : KnownFrame} (there : world.frames[owner]? = some known)
      (reached : env.ancestor? depth = some known.env) :
      Reaches setup world env depth slot (.symbolic owner)
  | captured {owner : FrameId} {at_ : Env} (reached : env.ancestor? depth = some at_)
      (reads : ∀ fuel held context, Agrees setup.machine [] [] world.sight.heap
        world.sight.view (Eval.force (Eval.upTo setup.machine fuel) held owner slot context)
        (fun n => read (upTo setup.machine n) at_ slot)
        fun wider value den => Means [] wider [] value den) :
      Reaches setup world env depth slot (.captured owner)

/-- What waits in a slot is a definition. -/
theorem Setup.Holds.definition {expr : Expr}
    (holds : setup.Holds world id env slot (.pending expr)) :
    ∃ d ∈ env.definitions, d.slot = slot ∧ d.expr = expr ∧
      expr.Scoped (world.sees (.symbolic id)) := by
  generalize same : SymbolicSlot.pending expr = content at holds
  cases holds with
  | @pending d mem there sees =>
    obtain rfl := SymbolicSlot.pending.inj same
    exact ⟨d, mem, there, rfl, sees⟩
  | _ => cases same

/-- Finding the frame where a slot is read. -/
theorem Setup.Tracks.ancestor (tracks : setup.Tracks world state)
    (there : world.frames[id]? = some known) (sees : world.sees (.symbolic id) depth slot) :
    Ends (Compile.ancestor id depth) state
      (fun outer later => later = state ∧ setup.Reaches world known.env depth slot outer)
      fun _ _ => True := by
  induction depth generalizing id known with
  | zero => exact Ends.pure ⟨rfl, .symbolic there rfl⟩
  | succ depth ih =>
    refine Ends.through (fun frame after =>
      state.compiler.frames[id]? = some frame ∧ after = state)
      (.symbolicFrame (fun frame found => ⟨found, rfl⟩) fun _ => trivial) ?_
    rintro frame _ ⟨found, rfl⟩
    obtain ⟨-, around, parent, stands⟩ := tracks.around id known there
    obtain ⟨outer, -⟩ := tracks.slots id known frame there found
    rw [World.sees] at sees
    obtain ⟨_, there', sees⟩ := sees
    obtain rfl := Option.some.inj (there.symm.trans there')
    have step (owner : Env) (reached : around.ancestor? depth = some owner) :
        known.env.ancestor? (depth + 1) = some owner := by
      rw [Env.ancestor?, parent]
      exact reached
    rw [outer]
    cases at_ : known.outer with
    | symbolic owner =>
      rw [at_] at sees stands
      obtain ⟨known', there', rfl⟩ := stands
      refine Ends.mono (ih there' sees) ?_ fun _ _ _ => trivial
      rintro outer later ⟨same, reaches⟩
      refine ⟨same, ?_⟩
      cases reaches with
      | symbolic there reached => exact .symbolic there (step _ reached)
      | captured reached reads => exact .captured (step _ reached) reads
    | captured owner =>
      rw [at_] at sees stands
      rw [World.sees] at sees
      obtain ⟨env, isKnown, visible⟩ := sees
      obtain rfl := Option.some.inj (isKnown.symm.trans stands)
      have reflects : Reflects setup.machine [] world.sight.view world.sight.heap :=
        tracks.sight.here ▸ tracks.sight.reflects
      obtain ⟨owner', at_, found, reached, agrees⟩ :=
        agrees_visible reflects isKnown visible []
      refine Ends.map (Ends.evaluating (Ends.ancestor (fun other found' => ?_) fun _ => trivial))
      rw [tracks.sight.here] at found'
      obtain rfl := Option.some.inj (found.symm.trans found')
      exact ⟨rfl, .captured (step _ reached) agrees⟩

/-- What is known after captured frames were evaluated. -/
def World.advance (world : World) (sight : Sight) : World := { world with sight }

theorem later_advance {sight : Sight} (evolves : Sight.Later [] world.sight sight) :
    setup.Later world (world.advance sight) :=
  ⟨evolves, List.prefix_rfl, List.prefix_rfl, Nat.le_refl _, fun _ _ => rfl⟩

theorem Setup.Tracks.advance (tracks : setup.Tracks world state) {sight : Sight} {heap : Heap}
    (evolves : Sight.Later [] world.sight sight)
    (holds : sight.Holds setup.machine heap) :
    setup.Tracks (world.advance sight) { state with heap } where
  sight := holds
  statements := tracks.statements
  bound := tracks.bound
  size := tracks.size
  around id known there := by
    obtain ⟨laid, outer, parent, stands⟩ := tracks.around id known there
    have later : setup.Later world (world.advance sight) := later_advance evolves
    exact ⟨laid, outer, parent, later.stands stands⟩
  slots id known frame there found := by
    obtain ⟨outer, slots⟩ := tracks.slots id known frame there found
    exact ⟨outer, fun slot content here => (later_advance evolves).holds (slots slot content here)⟩

/-- Reading a slot of a captured frame. -/
theorem delivers_captured (tracks : setup.Tracks world state) {fuel : Nat} {held : List Held}
    {owner : FrameId} {family : Nat → Outcome Den}
    (reads : ∀ context, Agrees setup.machine [] [] world.sight.heap world.sight.view
      (Eval.force (Eval.upTo setup.machine fuel) held owner slot context) family
      fun wider value den => Means [] wider [] value den) :
    setup.Delivers world
      (Compile.captured (Eval.upTo setup.machine fuel) held location owner slot) state
      fun wider value => ∃ den, setup.Gives wider family den ∧
        Means [] wider.sight.view [] value den := by
  refine Ends.evaluating ?_
  have agrees := reads (.place location none)
  rw [← tracks.sight.here] at agrees
  refine Ends.mono agrees ?_ fun _ _ _ => trivial
  rintro value after ⟨view, den, evolves, reflects, settles, means⟩
  rw [tracks.sight.here] at evolves
  exact ⟨world.advance ⟨after, view⟩, later_advance evolves, tracks.advance evolves ⟨rfl, reflects⟩,
    den, .inl settles, means⟩

end Reading

section Compiling

variable (setup) in
/-- Code is compiled to terms that render what it denotes. -/
def Setup.Faithful (compile : Inliner) : Prop :=
  ∀ world state id known w expr, setup.Tracks world state → world.frames[id]? = some known →
    expr.Scoped (world.sees (.symbolic id)) → (definitions w expr).Sublist known.env.definitions →
    setup.Delivers world (compile id expr) state fun wider term =>
      setup.Renders wider term fun n => upTo setup.machine n known.env w expr

variable {compile : Inliner} (faithful : setup.Faithful compile)

include faithful in
/-- Reading a slot of a symbolic frame. -/
theorem delivers_force (tracks : setup.Tracks world state)
    (there : world.frames[id]? = some known) :
    setup.Delivers world (Compile.force compile location id slot) state fun wider term =>
      setup.Renders wider term fun n => read (upTo setup.machine n) known.env slot := by
  refine Ends.symbolicForce ?_ ?_ (fun _ _ _ => trivial) (fun _ _ _ => trivial)
    (fun _ _ _ => trivial) fun _ => trivial
  · intro frame term found content
    obtain ⟨-, slots⟩ := tracks.slots id known frame there found
    cases slots slot _ content with | ready renders =>
    exact ⟨world, .refl world, tracks, renders⟩
  · intro frame definition found content
    obtain ⟨laid, -⟩ := tracks.around id known there
    obtain ⟨-, slots⟩ := tracks.slots id known frame there found
    cases slots slot _ content with | @pending d mem same sees =>
    subst same
    refine Ends.mono (faithful world _ id known d.inner d.expr (tracks.put there .busy) there sees
      (laid.nested.closed d mem)) ?_ fun _ _ _ => trivial
    rintro term after ⟨wider, later, tracks', renders⟩
    simp only [← laid.read_definition mem] at renders
    exact ⟨wider, later, tracks'.put (later.frame there) (.ready renders), renders⟩

end Compiling

section Calls

variable (setup) in
/-- The function that is called, and what it denotes. -/
inductive Setup.Calls (world : World) (family : Nat → Outcome Den) :
    Compile.Callee → Prop
  | builtin {function : Builtin} (gives : setup.Gives world family (.builtin function)) :
      Calls world family (.builtin function)
  | lambda {lambda : Lambda} {outer : Outer} {x : Place} {around : Env}
      (gives : setup.Gives world family (.closure x lambda around))
      (stands : world.Stands outer around)
      (layout : Room lambda.slotCount (List.range lambda.paramCount ++ lambda.body.letSlots))
      (inner : lambda.body.Scoped ((world.sees outer).enter (List.range lambda.paramCount))) :
      Calls world family (.lambda lambda outer)

theorem Setup.Later.calls (later : setup.Later world wider) {family : Nat → Outcome Den}
    {callee : Compile.Callee} (calls : setup.Calls world family callee) :
    setup.Calls wider family callee := by
  cases calls with
  | builtin gives => exact .builtin (later.gives gives)
  | lambda gives stands layout inner =>
    exact .lambda (later.gives gives) (later.stands stands) layout
      (inner.mono (Visibility.enter_mono later.sees))

theorem Setup.Calls.imp {family family' : Nat → Outcome Den} {callee : Compile.Callee}
    (calls : setup.Calls world family callee)
    (imp : ∀ den, setup.Gives world family den → setup.Gives world family' den) :
    setup.Calls world family' callee := by
  cases calls with
  | builtin gives => exact .builtin (imp _ gives)
  | lambda gives stands layout inner => exact .lambda (imp _ gives) stands layout inner

/-- A function literal in a symbolic frame. -/
theorem calls_literal (there : world.frames[id]? = some known) {paramCount slotCount : Nat}
    {body : Expr} (code : (Expr.lambda location paramCount slotCount body).Scoped
      (world.sees (.symbolic id))) :
    setup.Calls world
      (fun n => upTo setup.machine n known.env w (.lambda location paramCount slotCount body))
      (.lambda ⟨location, paramCount, slotCount, body⟩ (.symbolic id)) := by
  cases code with | lambda layout inner =>
  exact .lambda (.of_succ (.pure _) rfl) ⟨known, there, rfl⟩ layout inner

/-- The function that a known value is. -/
theorem calls_value {family : Nat → Outcome Den} {value : Value} {den : Den}
    (gives : setup.Gives world family den)
    (means : Means [] world.sight.view w value den) {callee : Compile.Callee}
    (found : Compile.Callee.ofValue? value = some callee) :
    setup.Calls world family callee := by
  cases means with
  | @closure serial x lambda owner env made isKnown seen around layout inner =>
    obtain rfl := Option.some.inj found
    exact .lambda gives isKnown layout (inner.mono (Visibility.enter_mono (sees_captured isKnown)))
  | builtin function =>
    obtain rfl := Option.some.inj found
    exact .builtin gives
  | _ => cases found

/-- Finding the function that is called. -/
theorem delivers_callee (tracks : setup.Tracks world state)
    (there : world.frames[id]? = some known) {function : Expr} {fuel : Nat} {held : List Held}
    (sees : function.Scoped (world.sees (.symbolic id))) :
    setup.Delivers world (Compile.callee (Eval.upTo setup.machine fuel) held id function) state
      fun wider callee => setup.Calls wider (fun n => upTo setup.machine n known.env w function)
        callee := by
  unfold Compile.callee
  split
  · exact .pure tracks (.builtin (.of_succ (.pure _) rfl))
  · exact .pure tracks (calls_literal there sees)
  · rename_i place depth slot
    cases sees with | slot visible =>
    refine Ends.bind (tracks.ancestor there visible) ?_
    rintro outer after ⟨rfl, reaches⟩
    have reading {owner : Env} {den : Den} (reached : known.env.ancestor? depth = some owner)
        {world : World}
        (gives : setup.Gives world (fun n => read (upTo setup.machine n) owner slot) den) :
        setup.Gives world (fun n => upTo setup.machine n known.env w (.slot place depth slot))
          den := by
      refine .of_succ ?_ rfl
      simpa only [upTo, rule, reached] using gives
    cases reaches with
    | @symbolic owner known' there' reached =>
      refine Ends.through (fun frame last =>
        after.compiler.frames[owner]? = some frame ∧ last = after)
        (.symbolicFrame (fun frame found => ⟨found, rfl⟩) fun _ => trivial) ?_
      rintro frame last ⟨found, rfl⟩
      dsimp only
      split
      · rename_i location paramCount slotCount body content
        obtain ⟨laid, -⟩ := tracks.around owner known' there'
        obtain ⟨-, slots⟩ := tracks.slots owner known' frame there' found
        obtain ⟨d, mem, same, code, sees⟩ := (slots slot _ content).definition
        have literal : setup.Calls world (fun n => upTo setup.machine n known'.env d.inner _) _ :=
          calls_literal there' sees
        rw [← code] at literal
        simp only [← laid.read_definition mem, same] at literal
        exact Setup.Delivers.pure tracks (literal.imp fun den gives => reading reached gives)
      · exact Setup.Delivers.unsupported
    | @captured owner at_ reached reads =>
      refine (delivers_captured tracks (reads fuel held)).bind ?_
      rintro value wider after later tracks' ⟨den, gives, means⟩
      split
      · rename_i callee found
        exact .pure tracks' (calls_value (reading reached gives) means found)
      · exact .unsupported
  · exact .unsupported

variable {compile : Inliner} (faithful : setup.Faithful compile)

include faithful

/-- Compiling several parts in a symbolic frame. -/
theorem delivers_each (tracks : setup.Tracks world state)
    (there : world.frames[id]? = some known) (exprs : List Expr)
    (sees : ∀ expr ∈ exprs, expr.Scoped (world.sees (.symbolic id)))
    (laid : (definitionsAll w exprs).Sublist known.env.definitions) (done : List Den) :
    setup.Delivers world (exprs.mapM (compile id)) state fun wider terms =>
      setup.RendersAll wider done.reverse terms fun n =>
        denoteAll (upTo setup.machine n) known.env w done exprs := by
  induction exprs generalizing world state w done with
  | nil =>
    rw [List.mapM_nil]
    refine .pure tracks ⟨by simp, by simp, ?_⟩
    rw [Setup.values, List.map_nil, List.map_nil, List.append_nil]
    exact .pure _
  | cons expr exprs ih =>
    rw [List.mapM_cons]
    rw [definitionsAll] at laid
    refine (faithful world state id known (.part 0 :: w) expr tracks there
      (sees expr List.mem_cons_self) ((List.sublist_append_left _ _).trans laid)).bind ?_
    intro term wider after later tracks' renders
    refine (ih tracks' (later.frame there)
      (fun other mem => (sees other (List.mem_cons_of_mem _ mem)).mono later.sees)
      ((List.sublist_append_right _ _).trans laid)
      ((term.value (setup.naming wider)).den :: done)).bind ?_
    intro terms widest last later' tracks'' all
    have value := later'.value renders.within
    refine .pure tracks'' ⟨?_, ?_, ?_⟩
    · exact List.forall_mem_cons.mpr ⟨renders.within.mono later'.bound, all.within⟩
    · exact List.forall_mem_cons.mpr ⟨value ▸ renders.is, all.is⟩
    · refine (later'.gives renders.gives).bind ?_
      have gives := all.gives
      rw [List.reverse_cons, List.append_assoc] at gives
      rw [Setup.values, List.map_cons, List.map_cons, value]
      exact gives

/-- The body of a function is compiled in a new frame, which stands for the environment of a call
at any place with any number of calls around it. -/
theorem delivers_inlined (tracks : setup.Tracks world state) {lambda : Lambda} {outer : Outer}
    {around : Env} (stands : world.Stands outer around)
    (layout : Room lambda.slotCount (List.range lambda.paramCount ++ lambda.body.letSlots))
    (inner : lambda.body.Scoped ((world.sees outer).enter (List.range lambda.paramCount)))
    {args : List Term} (within : ∀ arg ∈ args, arg.Within world.bound)
    (typed : ∀ arg ∈ args, (arg.value (setup.naming world)).Is arg.type) (depth : Nat)
    (w : Place) :
    setup.Delivers world (Compile.inlineCall compile lambda outer args location) state
      fun wider term => (setup.values world args).length = lambda.paramCount ∧
        setup.Renders wider term fun n => upTo setup.machine n
          ( Denotation.callee around w depth lambda ((setup.values world args).map ShaderValue.den))
          (.part 0 :: w) lambda.body := by
  let dens := (setup.values world args).map ShaderValue.den
  unfold Compile.inlineCall
  refine .checked trivial fun count => ?_
  rw [not_not] at count
  have count' : (setup.values world args).length = lambda.paramCount :=
    (List.length_map _).trans count
  refine Ends.through (fun compiler after => compiler = state.compiler ∧ after = state)
    (.compiler ⟨rfl, rfl⟩) ?_
  rintro compiler after ⟨rfl, rfl⟩
  refine Setup.Delivers.checked trivial fun _ => ?_
  let entered := Denotation.callee around w depth lambda dens
  have laid : entered.Laid := (laid_body layout ((List.length_map _).trans count')).1
  refine (delivers_alloc tracks laid rfl stands lambda.slotCount).bind ?_
  intro id wider last later tracks' there
  have filled (i : Nat) (term : Term) (here : args[i]? = some term) :
      setup.Holds wider id entered (0 + i) (.ready term) := by
    have mem := List.mem_of_getElem? here
    have value := later.value (within term mem)
    have argument : entered.args[0 + i]? = some (term.value (setup.naming wider)).den := by
      rw [Nat.zero_add, value]
      simp [entered, dens, Denotation.callee, Setup.values, here]
    refine .ready ⟨(within term mem).mono later.bound, value ▸ typed term mem, ?_⟩
    simp only [ Denotation.read, argument]
    exact .pure _
  refine (delivers_storeAll tracks' there filled).bind ?_
  intro _ widest last' later' tracks'' _
  have sees : lambda.body.Scoped (widest.sees (.symbolic id)) :=
    (inner.mono (Visibility.enter_mono (later.trans later').sees)).mono
      (sees_frame (later'.frame there))
  exact Setup.Delivers.mono (Setup.Delivers.inlining (fun state' tracks =>
    faithful widest state' id _ (.part 0 :: w) lambda.body tracks (later'.frame there) sees
      (List.Sublist.refl _)) tracks'') fun _ _ _ renders => ⟨count', renders⟩

/-- An inlined call renders what the call denotes, or the call is one too many. -/
theorem delivers_inlineCall (tracks : setup.Tracks world state) {lambda : Lambda} {outer : Outer}
    {around : Env} (stands : world.Stands outer around)
    (layout : Room lambda.slotCount (List.range lambda.paramCount ++ lambda.body.letSlots))
    (inner : lambda.body.Scoped ((world.sees outer).enter (List.range lambda.paramCount)))
    {args : List Term} (within : ∀ arg ∈ args, arg.Within world.bound)
    (typed : ∀ arg ∈ args, (arg.value (setup.naming world)).Is arg.type) (x : Place) (depth : Nat)
    (w : Place) :
    setup.Delivers world (Compile.inlineCall compile lambda outer args location) state
      fun wider term => setup.Renders wider term fun n =>
        call setup.machine (upTo setup.machine n) (.closure x lambda around)
          ((setup.values world args).map ShaderValue.den) depth w := by
  refine (delivers_inlined faithful tracks stands layout inner within typed (depth + 1) w).mono ?_
  rintro wider term _ ⟨count, renders⟩
  refine renders.of_gives ?_
  simp only [call, List.length_map, count, ne_eq, not_true_eq_false, ↓reduceIte]
  by_cases deep : setup.machine.maxCallDepth < depth + 1
  · simp only [deep, ↓reduceIte]
    exact .inr ⟨_, (Settles.throw _).stop, .deep _⟩
  · simp only [deep, ↓reduceIte]
    exact renders.gives

end Calls

end Rendering

end Shader

end ShapeLang
