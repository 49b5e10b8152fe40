import ShapeLang.Proofs.Rendering.World

/-! # Compilations that keep to what is known

A compilation delivers something if what was known stays known, and the state of the compilation is
still tracked. A statement that is emitted gives a new name a value, and a value that is known is
written as a literal.
-/

namespace ShapeLang

open Denotation

namespace Shader

namespace Rendering

variable {setup : Setup} {world wider : World} {state : CompilerState} {α β γ : Type}
  {location : Location}

variable (setup) in
/-- A compilation that keeps to what is known. -/
def Setup.Delivers (world : World) (action : Compile α) (state : CompilerState)
    (post : World → α → Prop) : Prop :=
  Ends action state (fun a later => ∃ wider, setup.Later world wider ∧ setup.Tracks wider later ∧
    post wider a) fun _ _ => True

namespace Setup.Delivers

variable {action : Compile α} {post : World → α → Prop}

theorem pure (tracks : setup.Tracks world state) {a : α} (ok : post world a) :
    setup.Delivers world (Pure.pure a) state post :=
  ⟨world, .refl world, tracks, ok⟩

theorem throw (fault : Fault) : setup.Delivers world (MonadExcept.throw fault) state post := trivial

theorem unsupported {what : String} :
    setup.Delivers world (Compile.unsupported location what) state post := trivial

theorem refuse {kind : ErrorKind} : setup.Delivers world (Compile.raise location kind) state post :=
  trivial

theorem mono {post' : World → α → Prop} (delivers : setup.Delivers world action state post)
    (weaker : ∀ wider a, setup.Later world wider → post wider a → post' wider a) :
    setup.Delivers world action state post' :=
  Ends.mono delivers (fun a _ ⟨wider, later, tracks, ok⟩ =>
    ⟨wider, later, tracks, weaker wider a later ok⟩) fun _ _ => id

theorem bind {next : α → Compile γ} {post' : World → γ → Prop}
    (first : setup.Delivers world action state post)
    (second : ∀ a wider after, setup.Later world wider → setup.Tracks wider after → post wider a →
      setup.Delivers wider (next a) after post') :
    setup.Delivers world (action >>= next) state post' := by
  refine Ends.bind first ?_
  rintro a after ⟨wider, later, tracks, ok⟩
  refine Ends.mono (second a wider after later tracks ok) ?_ fun _ _ => id
  rintro c last ⟨widest, later', rest⟩
  exact ⟨widest, later.trans later', rest⟩

/-- What is compiled after a check that refuses some code. -/
theorem checked {check : Prop} [Decidable check] {refused : Compile Unit} {next : Compile α}
    (stops : Ends refused state (fun _ _ => False) fun _ _ => True)
    (delivers : ¬ check → setup.Delivers world next state post) :
    setup.Delivers world (do
      if check then refused
      next) state post := by
  by_cases holds : check
  · simp only [holds, ↓reduceIte]
    exact Ends.stop stops
  · simpa only [holds, ↓reduceIte] using delivers holds

/-- What is compiled only if a check allows it. -/
theorem guarded {check : Prop} [Decidable check] {allowed : Compile α} {what : String}
    (delivers : check → setup.Delivers world allowed state post) :
    setup.Delivers world (if check then allowed else Compile.unsupported location what) state
      post := by
  split
  · exact delivers ‹_›
  · exact .unsupported

end Setup.Delivers

section Define

/-- What is known after a statement was emitted. -/
def World.define (world : World) (type : ShaderType) (operation : Operation) : World :=
  { world with
    statements := world.statements ++ [⟨type, world.bound, operation⟩]
    bound := world.bound + 1 }

variable {type : ShaderType} {operation : Operation}

theorem naming_define : setup.naming (world.define type operation) =
    Function.update (setup.naming world) world.bound (operation.value setup.machine.arithmetic
      (setup.stray world.bound) (setup.naming world) type) := by
  rw [Setup.naming, run, World.define, List.foldl_append]
  rfl

theorem later_define : setup.Later world (world.define type operation) := by
  refine ⟨Evolves.refl, List.prefix_rfl, List.prefix_append _ _, Nat.le_succ _, fun id low => ?_⟩
  rw [naming_define, Function.update_of_ne (Nat.ne_of_lt low)]

/-- Only what is not a frame has changed. -/
theorem Setup.Tracks.emitted (tracks : setup.Tracks world state) (later : setup.Later world wider)
    (sight : wider.sight = world.sight) (frames : wider.frames = world.frames)
    {compiler : Compiler} (same : compiler.frames = state.compiler.frames)
    (statements : compiler.statements.toList = wider.statements)
    (bound : compiler.nextId = wider.bound) : setup.Tracks wider { state with compiler } where
  sight := sight ▸ tracks.sight
  statements := statements
  bound := bound
  size := by rw [frames, same, tracks.size]
  around id known there := by
    obtain ⟨laid, outer, parent, stands⟩ := tracks.around id known (frames ▸ there)
    exact ⟨laid, outer, parent, later.stands stands⟩
  slots id known frame there found := by
    obtain ⟨outer, slots⟩ := tracks.slots id known frame (frames ▸ there) (same ▸ found)
    exact ⟨outer, fun slot content here => later.holds (slots slot content here)⟩

/-- A statement gives a name the value of its right side. -/
theorem delivers_define (tracks : setup.Tracks world state) {family : Nat → Outcome Den}
    {v : ShaderValue} (value : operation.value setup.machine.arithmetic (setup.stray world.bound)
      (setup.naming world) type = v) (is : v.Is type)
    (gives : setup.Gives (world.define type operation) family v.den) :
    setup.Delivers world (Compile.define type operation) state
      fun wider term => setup.Renders wider term family := by
  refine Ends.define ⟨world.define type operation, later_define, ?_, ?_⟩
  · refine tracks.emitted later_define rfl rfl rfl ?_ ?_
    · simp [Compiler.define, World.define, tracks.statements, tracks.bound]
    · simp [Compiler.define, World.define, tracks.bound]
  · have named : setup.naming (world.define type operation) state.compiler.nextId = v := by
      rw [naming_define, tracks.bound, Function.update_self, value]
    refine ⟨?_, ?_, ?_⟩
    · simp only [Term.Within, World.define, tracks.bound]
      exact Nat.lt_succ_self _
    · simp only [Term.value, named]
      exact is
    · simp only [Term.value, named]
      exact gives

/-- The statement is none of an element. -/
theorem delivers_defined (tracks : setup.Tracks world state) {family : Nat → Outcome Den}
    {v : ShaderValue} (value : operation.value setup.machine.arithmetic (setup.stray world.bound)
      (setup.naming world) type = v) (is : v.Is type) (gives : setup.Gives world family v.den) :
    setup.Delivers world (Compile.define type operation) state
      fun wider term => setup.Renders wider term family :=
  delivers_define tracks value is (later_define.gives gives)

/-- The statement is made of components. -/
theorem delivers_components (tracks : setup.Tracks world state) (numeric : type.isNumeric)
    (component : Nat → Float) {family : Nat → Outcome Den}
    (value : operation.value setup.machine.arithmetic (setup.stray world.bound)
      (setup.naming world) type = .ofComponents type component)
    (gives : setup.Gives world family (ShaderValue.ofComponents type component).den) :
    setup.Delivers world (Compile.define type operation) state
      fun wider term => setup.Renders wider term family :=
  delivers_defined tracks value (ShaderValue.ofComponents_is numeric component) gives

end Define

section Literals

theorem Setup.Gives.of_pure {b c : β} (gives : setup.Gives world (fun _ => Pure.pure b) c) :
    b = c := by
  rcases gives with settles | ⟨kind, settles, -⟩
  · exact Except.ok.inj ((Settles.pure b).unique settles)
  · cases (Settles.pure b).unique settles

/-- A term for what is known renders whatever gives it. -/
theorem Setup.Renders.known {term : Term} {den : Den} {family : Nat → Outcome Den}
    (renders : setup.Renders world term fun _ => Pure.pure den)
    (gives : setup.Gives world family den) : setup.Renders world term family :=
  renders.of_gives (renders.gives.of_pure ▸ gives)

theorem renders_number (x : Float) :
    setup.Renders world ⟨.number x, .float⟩ fun _ => Pure.pure (.num x) :=
  ⟨trivial, .float x, .pure _⟩

theorem delivers_number (tracks : setup.Tracks world state) (x : Float) :
    setup.Delivers world (Compile.number location x) state
      fun wider term => setup.Renders wider term fun _ => Pure.pure (.num x) := by
  unfold Compile.number Term.ofNumber?
  by_cases finite : x.isFinite
  · simp only [finite, ↓reduceIte]
    exact .pure tracks (renders_number x)
  · simp only [finite]
    exact .unsupported

/-- Whether all numbers have literals is only checked. -/
theorem ends_numbers (xs : List Float) :
    Ends (xs.forM fun x => discard (Compile.number location x)) state
      (fun _ later => later = state) fun _ _ => True := by
  induction xs with
  | nil => exact Ends.pure rfl
  | cons x xs ih =>
    have first : Ends (discard (Compile.number location x)) state (fun _ later => later = state)
        fun _ _ => True := by
      by_cases finite : x.isFinite
      · simp only [Compile.number, Term.ofNumber?, finite, ↓reduceIte]
        exact Ends.map (Ends.pure rfl)
      · simp only [Compile.number, Term.ofNumber?, finite]
        trivial
    refine Ends.bind first ?_
    rintro _ _ rfl
    exact ih

/-- A list of numbers denotes a list of the same numbers. -/
theorem dens_of_numbers {view : View} {w : Place} {items : List (Value × Den)}
    (parts : ∀ item ∈ items, Means [] view w item.1 item.2) {xs : List Float}
    (numbers : (items.map (·.1)).mapM Value.number? = some xs) :
    items.map (·.2) = xs.map .num := by
  induction items generalizing xs with
  | nil =>
    obtain rfl := Option.some.inj numbers
    rfl
  | cons item items ih =>
    obtain ⟨value, den⟩ := item
    rw [List.map_cons, List.mapM_cons] at numbers
    obtain ⟨x, first, more⟩ := Option.bind_eq_some_iff.mp numbers
    obtain ⟨others, rest, made⟩ := Option.bind_eq_some_iff.mp more
    obtain rfl := Option.some.inj made
    have means := parts _ List.mem_cons_self
    cases value with
    | num y =>
      obtain rfl := Option.some.inj first
      cases means
      rw [List.map_cons, List.map_cons,
        ih (fun item mem => parts item (List.mem_cons_of_mem _ mem)) rest]
    | _ => cases first

/-- A value that is known is written as a literal. -/
theorem delivers_constant (tracks : setup.Tracks world state) {view : View} {w : Place}
    {value : Value} {den : Den} (means : Means [] view w value den) :
    setup.Delivers world (Compile.constant location value) state
      fun wider term => setup.Renders wider term fun _ => Pure.pure den := by
  cases means with
  | num x => exact delivers_number tracks x
  | bool b => exact .pure tracks ⟨trivial, .bool b, .pure _⟩
  | list items parts =>
    unfold Compile.constant
    dsimp only
    split
    · exact .unsupported
    · rename_i xs numbers
      split
      · exact .unsupported
      · rename_i type count
        obtain ⟨isVector, size⟩ := vectorWithCount?_eq_some count
        refine Ends.bind (ends_numbers xs) ?_
        rintro _ _ rfl
        rw [dens_of_numbers parts numbers]
        exact Setup.Delivers.pure tracks ⟨trivial, .vector isVector size, .pure _⟩
  | _ => exact .unsupported

end Literals

end Rendering

end Shader

end ShapeLang
