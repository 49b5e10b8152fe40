import ShapeLang.Proofs.Denotation.Exports
import ShapeLang.Proofs.Rendering.Components
import ShapeLang.Proofs.Shader.Operations

/-! # What shader code computes is what is denoted

While code is compiled, the statements so far give values to the names so far, and symbolic frames
stand for environments. A term renders outcomes if its value is what they settle at, unless they
settle at a mistake that shader code does not notice: an index that is none of the vector, or too
many calls inside each other.
-/

namespace ShapeLang

open Denotation

namespace Shader

namespace Rendering

/-- How shader code is run. -/
structure Setup where
  machine : Machine
  multipliesOut : machine.arithmetic.MultipliesOut
  /-- What the statement of a name gives for an index that is none of the vector. -/
  stray : Nat → Float
  /-- The values of names before the first statement. -/
  start : Naming

/-- A symbolic frame: the environment that it stands for, and what is around it. -/
structure KnownFrame where
  env : Env
  outer : Outer

/-- What is known about a compilation under way. -/
structure World where
  sight : Sight
  frames : List KnownFrame
  statements : List Statement
  /-- The number of the next name. -/
  bound : Nat

end Rendering

/-- A term mentions only names before a number. -/
def Term.Within (bound : Nat) (term : Term) : Prop :=
  match term.atom with
  | .name id => id < bound
  | .given _ => False
  | _ => True

section Terms

variable {term : Term} {bound : Nat}

theorem Term.Within.mono {more : Nat} (within : term.Within bound) (le : bound ≤ more) :
    term.Within more := by
  unfold Term.Within at within ⊢
  split
  · rename_i same
    rw [same] at within
    exact Nat.lt_of_lt_of_le within le
  · rename_i same
    rw [same] at within
    exact within
  · trivial

theorem Term.Within.value_congr (within : term.Within bound) {values values' : Naming}
    (same : ∀ id, id < bound → values' id = values id) :
    term.value values' = term.value values := by
  unfold Term.Within at within
  unfold Term.value
  split
  · rename_i id name
    rw [name] at within
    exact same id within
  all_goals rfl

/-- A literal has its number in every place. -/
theorem Term.Within.value_literal (within : term.Within bound) {x : Float}
    (literal : term.literal? = some x) (values : Naming) : term.value values = .float x := by
  unfold Term.literal? at literal
  unfold Term.Within at within
  unfold Term.value
  split at literal
  · split at literal
    · rename_i same
      simp_all
    · rename_i same
      rw [same] at within
      exact within.elim
    · cases literal
  · cases literal

end Terms

namespace Rendering

variable (setup : Setup)

/-- The values of the names so far. -/
def Setup.naming (world : World) : Naming :=
  run setup.machine.arithmetic setup.stray setup.start world.statements

/-- What was known is known later. -/
structure Setup.Later (world wider : World) : Prop where
  sight : Sight.Later [] world.sight wider.sight
  frames : world.frames <+: wider.frames
  statements : world.statements <+: wider.statements
  bound : world.bound ≤ wider.bound
  naming : ∀ id, id < world.bound → setup.naming wider id = setup.naming world id

/-- The mistakes that shader code does not notice. -/
inductive Setup.Unnoticed (world : World) : ErrorKind → Prop
  | deep (limit : Nat) : Unnoticed world (.stackOverflow limit)
  | stray {statement : Statement} {vector index : Term} {x : Float} {count : Nat}
      (mem : statement ∈ world.statements)
      (reads : statement.operation = .element vector index) (unknown : index.literal? = none)
      (within : index.Within world.bound) (value : index.value (setup.naming world) = .float x)
      (size : vector.type.count? = some count) (outside : Eval.position? x count = none) :
      Unnoticed world (.indexOutOfRange (Value.numberText x) count)

/-- Outcomes settle at a result, unless they settle at a mistake that is not noticed. -/
def Setup.Gives {β : Type} (world : World) (family : Nat → Outcome β) (b : β) : Prop :=
  Settles family (.ok b) ∨ ∃ kind, Settles family (.error kind) ∧ setup.Unnoticed world kind

/-- A term has a value of its type, which is what outcomes give. -/
structure Setup.Renders (world : World) (term : Term) (family : Nat → Outcome Den) : Prop where
  within : term.Within world.bound
  is : (term.value (setup.naming world)).Is term.type
  gives : setup.Gives world family (term.value (setup.naming world)).den

variable {setup} {world between wider : World} {α β γ : Type}

namespace Setup.Later

theorem refl (world : World) : setup.Later world world :=
  ⟨Evolves.refl, List.prefix_rfl, List.prefix_rfl, Nat.le_refl _, fun _ _ => rfl⟩

theorem trans (first : setup.Later world between) (second : setup.Later between wider) :
    setup.Later world wider :=
  ⟨Evolves.trans first.sight second.sight, first.frames.trans second.frames,
    first.statements.trans second.statements, Nat.le_trans first.bound second.bound,
    fun id low => (second.naming id (Nat.lt_of_lt_of_le low first.bound)).trans
      (first.naming id low)⟩

theorem frame (later : setup.Later world wider) {id : Nat} {frame : KnownFrame}
    (there : world.frames[id]? = some frame) : wider.frames[id]? = some frame := by
  obtain ⟨more, same⟩ := later.frames
  rw [← same, List.getElem?_append_left (List.getElem?_eq_some_iff.mp there).1, there]

theorem value (later : setup.Later world wider) {term : Term} (within : term.Within world.bound) :
    term.value (setup.naming wider) = term.value (setup.naming world) :=
  within.value_congr later.naming

theorem unnoticed (later : setup.Later world wider) {kind : ErrorKind}
    (unnoticed : setup.Unnoticed world kind) : setup.Unnoticed wider kind := by
  cases unnoticed with
  | deep limit => exact .deep limit
  | stray mem reads unknown within value size outside =>
    exact .stray (later.statements.subset mem) reads unknown (within.mono later.bound)
      ((later.value within).trans value) size outside

theorem gives (later : setup.Later world wider) {family : Nat → Outcome β} {b : β}
    (gives : setup.Gives world family b) : setup.Gives wider family b :=
  gives.imp_right fun ⟨kind, settles, unnoticed⟩ => ⟨kind, settles, later.unnoticed unnoticed⟩

theorem renders (later : setup.Later world wider) {term : Term} {family : Nat → Outcome Den}
    (renders : setup.Renders world term family) : setup.Renders wider term family := by
  have same := later.value renders.within
  exact ⟨renders.within.mono later.bound, same ▸ renders.is, same ▸ later.gives renders.gives⟩

end Setup.Later

namespace Setup.Gives

variable {family : Nat → Outcome β} {b : β}

theorem pure (b : β) : setup.Gives world (fun _ => Pure.pure b) b := .inl (.pure b)

/-- A mistake that is not noticed. -/
theorem throw {kind : ErrorKind} (unnoticed : setup.Unnoticed world kind) :
    setup.Gives world (fun _ => MonadExcept.throw kind) b :=
  .inr ⟨kind, .throw kind, unnoticed⟩

/-- What is made of a result. -/
theorem bind {next : Nat → β → Outcome γ} {c : γ} (first : setup.Gives world family b)
    (second : setup.Gives world (next · b) c) :
    setup.Gives world (fun n => family n >>= next n) c := by
  rcases first with settles | ⟨kind, settles, unnoticed⟩
  · rcases second with settles' | ⟨kind, settles', unnoticed⟩
    · exact .inl (settles.bind settles')
    · exact .inr ⟨kind, settles.bind settles', unnoticed⟩
  · exact .inr ⟨kind, settles.stop, unnoticed⟩

theorem map {f : β → γ} (first : setup.Gives world family b) :
    setup.Gives world (fun n => f <$> family n) (f b) := by
  simp only [map_eq_pure_bind]
  exact first.bind (pure (f b))

theorem of_succ (gives : setup.Gives world (fun n => family (n + 1)) b)
    (zero : (family 0).run = none) : setup.Gives world family b :=
  gives.imp (·.of_succ zero) fun ⟨kind, settles, unnoticed⟩ =>
    ⟨kind, settles.of_succ zero, unnoticed⟩

/-- A test that is passed. -/
theorem expect {result : Except ErrorKind β} (passed : result = .ok b) :
    setup.Gives world (fun _ => Denotation.expect result) b := by
  rw [passed]
  exact pure b

/-- The result of an operator. -/
theorem plain {result : Except ErrorKind Value} {v : ShaderValue} (yields : Yields result v) :
    setup.Gives world (fun _ => Den.ofPlain <$> Denotation.expect result) v.den := by
  obtain ⟨value, made, same⟩ := yields
  exact same ▸ (expect made).map

end Setup.Gives

theorem Setup.Renders.of_succ {term : Term} {family : Nat → Outcome Den}
    (renders : setup.Renders world term fun n => family (n + 1)) (zero : (family 0).run = none) :
    setup.Renders world term family :=
  ⟨renders.within, renders.is, renders.gives.of_succ zero⟩

/-- A term that has a known value. -/
theorem Setup.Renders.of_gives {term : Term} {family family' : Nat → Outcome Den}
    (renders : setup.Renders world term family)
    (gives : setup.Gives world family' (term.value (setup.naming world)).den) :
    setup.Renders world term family' :=
  ⟨renders.within, renders.is, gives⟩

section Slots

/-- What code in a symbolic frame reads. Slots of symbolic frames are looked up while code is
compiled, and those of captured frames have to be visible. -/
def World.sees (world : World) : Outer → Visibility
  | .captured id, depth, slot =>
    ∃ env, world.sight.view.env id = some env ∧ world.sight.view.visible [] env [] depth slot
  | .symbolic _, 0, _ => True
  | .symbolic id, depth + 1, slot =>
    ∃ frame, world.frames[id]? = some frame ∧ world.sees frame.outer depth slot
termination_by _ depth => depth

/-- The environment around a frame. -/
def World.Stands (world : World) : Outer → Env → Prop
  | .captured id, env => world.sight.view.env id = some env
  | .symbolic id, env => ∃ frame, world.frames[id]? = some frame ∧ frame.env = env

variable (setup) in
/-- The slot of a symbolic frame holds a definition of the environment, or a term for it. -/
inductive Setup.Holds (world : World) (id : Nat) (env : Env) (slot : Nat) : SymbolicSlot → Prop
  | empty : Holds world id env slot .empty
  | busy : Holds world id env slot .busy
  | pending {d : Denotation.Definition} (mem : d ∈ env.definitions) (same : d.slot = slot)
      (sees : d.expr.Scoped (world.sees (.symbolic id))) : Holds world id env slot (.pending d.expr)
  | ready {term : Term}
      (renders : setup.Renders world term fun n => read (upTo setup.machine n) env slot) :
      Holds world id env slot (.ready term)

variable (setup) in
/-- The state of a compilation is what is known about it. -/
structure Setup.Tracks (world : World) (state : CompilerState) : Prop where
  sight : world.sight.Holds setup.machine state.heap
  statements : state.compiler.statements.toList = world.statements
  bound : state.compiler.nextId = world.bound
  size : state.compiler.frames.size = world.frames.length
  around : ∀ (id : Nat) known, world.frames[id]? = some known →
    known.env.Laid ∧ ∃ outer, known.env.parent = some outer ∧ world.Stands known.outer outer
  slots : ∀ (id : Nat) known frame, world.frames[id]? = some known →
    state.compiler.frames[id]? = some frame → frame.outer = known.outer ∧
      ∀ (slot : Nat) content, frame.slots[slot]? = some content →
        setup.Holds world id known.env slot content

theorem Setup.Later.sees (later : setup.Later world wider) {outer : Outer} (depth slot : Nat)
    (seen : world.sees outer depth slot) : wider.sees outer depth slot := by
  induction depth generalizing outer with
  | zero =>
    cases outer with
    | captured id =>
      rw [World.sees] at seen ⊢
      obtain ⟨env, known, visible⟩ := seen
      exact ⟨env, later.sight.env id env known, later.sight.passes.visible trivial 0 slot visible⟩
    | symbolic id => rw [World.sees]; trivial
  | succ depth ih =>
    cases outer with
    | captured id =>
      rw [World.sees] at seen ⊢
      obtain ⟨env, known, visible⟩ := seen
      exact ⟨env, later.sight.env id env known, later.sight.passes.visible trivial _ slot visible⟩
    | symbolic id =>
      rw [World.sees] at seen ⊢
      obtain ⟨frame, there, seen⟩ := seen
      exact ⟨frame, later.frame there, ih seen⟩

theorem Setup.Later.stands (later : setup.Later world wider) {outer : Outer} {env : Env}
    (stands : world.Stands outer env) : wider.Stands outer env := by
  cases outer with
  | captured id => exact later.sight.env id env stands
  | symbolic id =>
    obtain ⟨frame, there, same⟩ := stands
    exact ⟨frame, later.frame there, same⟩

theorem Setup.Later.holds (later : setup.Later world wider) {id slot : Nat} {env : Env}
    {content : SymbolicSlot} (holds : setup.Holds world id env slot content) :
    setup.Holds wider id env slot content := by
  cases holds with
  | empty => exact .empty
  | busy => exact .busy
  | pending mem same sees => exact .pending mem same (sees.mono later.sees)
  | ready renders => exact .ready (later.renders renders)

end Slots

end Rendering

end Shader

end ShapeLang
