import ShapeLang.Proofs.Rendering.Frames

/-! # Compilation is a simulation of evaluation

Evaluation fills the frames of calls on demand and takes one branch; compiled code inlines calls and
computes both branches. Each expression is compiled to a term for what it denotes, by induction on
how deep the expressions are nested.
-/

namespace ShapeLang

open Denotation

namespace Shader

namespace Rendering

variable {setup : Setup} {world wider : World} {state : CompilerState} {compile : Inliner}
  {id : Nat} {known : KnownFrame} {w : Place}

theorem upTo_binary (m : Machine) (n : Nat) (env : Env) (w : Place) (location : Location)
    (op : BinaryOp) (left right : Expr) : upTo m (n + 1) env w (.binary location op left right) =
      binaryOutcome m op (upTo m n env (.part 0 :: w) left)
        (upTo m n env (.part 1 :: w) right) := by
  cases op <;> rfl

variable (setup) in
/-- The rule of compilation for an expression follows the rule of evaluation. -/
def Setup.Follows (compile : Inliner) (fuel : Nat) (held : List Held) (world : World)
    (state : CompilerState) (id : Nat) (env : Env) (w : Place) (expr : Expr) : Prop :=
  setup.Delivers world (Compile.step (Eval.upTo setup.machine fuel) held compile id expr) state
    fun wider term => setup.Renders wider term fun n => upTo setup.machine (n + 1) env w expr

section Rules

variable (faithful : setup.Faithful compile) (fuel : Nat) (held : List Held)
  (tracks : setup.Tracks world state) (there : world.frames[id]? = some known)
  {location : Location}

include faithful there in
/-- A part of an expression, compiled in the same frame later on. -/
theorem delivers_part {after : CompilerState} {i : Nat} {part : Expr}
    (later : setup.Later world wider) (tracks : setup.Tracks wider after)
    (sees : part.Scoped (world.sees (.symbolic id)))
    (laid : (definitions (.part i :: w) part).Sublist known.env.definitions) :
    setup.Delivers wider (compile id part) after fun widest term => setup.Renders widest term
      fun n => upTo setup.machine n known.env (.part i :: w) part :=
  faithful wider after id known _ part tracks (later.frame there) (sees.mono later.sees) laid

include faithful tracks there

theorem follows_slot {depth slot : Nat} (visible : world.sees (.symbolic id) depth slot) :
    setup.Follows compile fuel held world state id known.env w (.slot location depth slot) := by
  refine Ends.bind (tracks.ancestor there visible) ?_
  rintro outer after ⟨rfl, reaches⟩
  cases reaches with
  | symbolic there' reached =>
    simp only [upTo, rule, reached]
    exact delivers_force faithful tracks there'
  | captured reached reads =>
    simp only [upTo, rule, reached]
    refine (delivers_captured tracks (reads fuel held)).bind ?_
    rintro value wider last later tracks' ⟨den, gives, means⟩
    exact (delivers_constant tracks' means).mono
      fun widest term later' renders => renders.known (later'.gives gives)

theorem follows_call {function : Expr} {args : List Expr}
    (head : function.Scoped (world.sees (.symbolic id)))
    (rest : ∀ arg ∈ args, arg.Scoped (world.sees (.symbolic id)))
    (laid : (definitions w (.call location function args)).Sublist known.env.definitions) :
    setup.Follows compile fuel held world state id known.env w (.call location function args) := by
  refine (delivers_callee (w := .part 0 :: w) tracks there head).bind ?_
  intro callee wider after later tracks' calls
  refine (delivers_each faithful tracks' (later.frame there) _
    (fun arg mem => (rest arg mem).mono later.sees)
    ((List.sublist_append_right _ _).trans laid) []).bind ?_
  intro terms widest last later' tracks'' all
  have calls := later'.calls calls
  cases calls with
  | builtin gives =>
    refine (delivers_builtin tracks'' all _ (upTo setup.machine) known.env.depth
      (.part 2 :: w)).mono ?_
    intro final term later'' renders
    exact renders.of_gives ((later''.gives gives).bind renders.gives)
  | @lambda _ _ x _ gives stands layout inner =>
    refine (delivers_inlineCall faithful tracks'' stands layout inner all.within all.is x
      known.env.depth (.part 2 :: w)).mono ?_
    intro final term later'' renders
    exact renders.of_gives ((later''.gives gives).bind ((later''.gives all.gives).bind
      renders.gives))

theorem follows_let {bindings : List (Nat × Expr)} {body : Expr}
    (parts : ∀ binding ∈ bindings, binding.2.Scoped
      ((world.sees (.symbolic id)).extend (bindings.map (·.1))))
    (rest : body.Scoped ((world.sees (.symbolic id)).extend (bindings.map (·.1))))
    (laid : (definitions w (.letIn location bindings body)).Sublist known.env.definitions) :
    setup.Follows compile fuel held world state id known.env w
      (.letIn location bindings body) := by
  -- The slots of the bindings are in the frame, and so they are seen from outside, too.
  have own (depth slot : Nat)
      (visible : (world.sees (.symbolic id)).extend (bindings.map (·.1)) depth slot) :
      world.sees (.symbolic id) depth slot := by
    rcases visible with ⟨rfl, -⟩ | visible
    · rw [World.sees]
      trivial
    · exact visible
  refine (delivers_storePending tracks there (fun binding mem => ?_)
    fun binding mem => (parts binding mem).mono own).bind ?_
  · have grouped : (⟨binding.1, .slot binding.1 :: w, binding.2⟩ : Denotation.Definition) ∈
        group w bindings := List.mem_map_of_mem mem
    refine ⟨⟨binding.1, .slot binding.1 :: w, binding.2⟩, laid.subset ?_, rfl, rfl⟩
    exact List.mem_append_left _ (List.mem_append_left _ grouped)
  · intro _ wider after later tracks' _
    exact delivers_part faithful there later tracks' (rest.mono own)
      ((List.sublist_append_right _ _).trans laid)

theorem follows_conditional {condition whenTrue whenFalse : Expr}
    (first : condition.Scoped (world.sees (.symbolic id)))
    (second : whenTrue.Scoped (world.sees (.symbolic id)))
    (third : whenFalse.Scoped (world.sees (.symbolic id)))
    (laid : (definitions w (.conditional location condition whenTrue whenFalse)).Sublist
      known.env.definitions) :
    setup.Follows compile fuel held world state id known.env w
      (.conditional location condition whenTrue whenFalse) := by
  refine (delivers_part faithful there (.refl world) tracks first
    (((List.sublist_append_left _ _).trans (List.sublist_append_left _ _)).trans laid)).bind ?_
  intro c wider₁ after₁ later₁ tracks₁ condition
  refine .checked trivial fun bool => ?_
  refine (delivers_part faithful there later₁ tracks₁ second
    (((List.sublist_append_right _ _).trans (List.sublist_append_left _ _)).trans laid)).bind ?_
  intro a wider₂ after₂ later₂ tracks₂ whenTrue
  refine (delivers_part faithful there (later₁.trans later₂) tracks₂ third
    ((List.sublist_append_right _ _).trans laid)).bind ?_
  intro b wider₃ after₃ later₃ tracks₃ whenFalse
  refine .checked trivial fun same => ?_
  exact delivers_select tracks₃ (later₃.renders (later₂.renders condition))
    (later₃.renders whenTrue) whenFalse (not_not.mp bool) (not_not.mp same)

theorem follows_index {base index : Expr} (first : base.Scoped (world.sees (.symbolic id)))
    (second : index.Scoped (world.sees (.symbolic id)))
    (laid : (definitions w (.index location base index)).Sublist known.env.definitions) :
    setup.Follows compile fuel held world state id known.env w (.index location base index) := by
  refine (delivers_part faithful there (.refl world) tracks first
    ((List.sublist_append_left _ _).trans laid)).bind ?_
  intro v wider after later tracks' renders
  dsimp only
  split
  · exact .unsupported
  · rename_i count size
    obtain ⟨size, isVector⟩ := Option.filter_eq_some_iff.mp size
    refine (delivers_part faithful there later tracks' second
      ((List.sublist_append_right _ _).trans laid)).bind ?_
    intro i widest last later' tracks'' place
    refine .checked trivial fun float => ?_
    split
    · rename_i x literal
      split
      · exact delivers_component tracks'' (later'.renders renders) place isVector size literal ‹_›
      · exact .refuse
    · exact delivers_element tracks'' (later'.renders renders) place isVector size
        (not_not.mp float) ‹_›

theorem follows_binary {op : BinaryOp} {left right : Expr}
    (first : left.Scoped (world.sees (.symbolic id)))
    (second : right.Scoped (world.sees (.symbolic id)))
    (laid : (definitions w (.binary location op left right)).Sublist known.env.definitions) :
    setup.Follows compile fuel held world state id known.env w
      (.binary location op left right) := by
  simp only [Setup.Follows, upTo_binary]
  refine (delivers_part faithful there (.refl world) tracks first
    ((List.sublist_append_left _ _).trans laid)).bind ?_
  intro a wider after later tracks' renders
  refine (delivers_part faithful there later tracks' second
    ((List.sublist_append_right _ _).trans laid)).bind ?_
  intro b widest last later' tracks'' renders'
  exact delivers_binary tracks'' (later'.renders renders) renders' _

/-- The rules of compilation follow those of evaluation. -/
theorem follows {expr : Expr} (sees : expr.Scoped (world.sees (.symbolic id)))
    (laid : (definitions w expr).Sublist known.env.definitions) :
    setup.Follows compile fuel held world state id known.env w expr := by
  cases sees with
  | @constant _ location value =>
    have means : Means [] world.sight.view w value.toValue (.ofPlain value.toValue) :=
      .of_plain value.toValue_plain
    exact delivers_constant tracks means
  | slot visible => exact follows_slot faithful fuel held tracks there visible
  | call head rest => exact follows_call faithful fuel held tracks there head rest laid
  | list parts =>
    refine (delivers_each faithful tracks there _ parts laid []).bind ?_
    intro items wider after later tracks' all
    exact delivers_vector tracks' all
  | record => exact .unsupported
  | «module» => exact .unsupported
  | lambda => exact .unsupported
  | forEach => exact .unsupported
  | letIn parts rest => exact follows_let faithful fuel held tracks there parts rest laid
  | unary operand =>
    refine (delivers_part faithful there (.refl world) tracks operand laid).bind ?_
    intro x wider after later tracks' renders
    exact delivers_unary tracks' renders _
  | binary first second => exact follows_binary faithful fuel held tracks there first second laid
  | conditional first second third =>
    exact follows_conditional faithful fuel held tracks there first second third laid
  | dot operand =>
    refine (delivers_part faithful there (.refl world) tracks operand laid).bind ?_
    intro v wider after later tracks' renders
    exact delivers_field tracks' renders _ _
  | index first second => exact follows_index faithful fuel held tracks there first second laid

end Rules

/-- One more level of nesting is compiled to terms that render what it denotes. -/
theorem faithful_step (faithful : setup.Faithful compile) (fuel : Nat) (held : List Held) :
    setup.Faithful (Compile.step (Eval.upTo setup.machine fuel) held compile) :=
  fun _ _ _ _ _ _ tracks there sees laid =>
    (follows faithful fuel held tracks there sees laid).mono
      fun _ _ _ renders => renders.of_succ rfl

/-- Code is compiled to terms that render what it denotes. -/
theorem faithful_upTo (setup : Setup) (fuel : Nat) (held : List Held) (depth : Nat) :
    setup.Faithful (Compile.upTo (Eval.upTo setup.machine fuel) held depth) := by
  induction depth with
  | zero => exact fun _ _ _ _ _ _ _ _ _ _ => .throw _
  | succ depth ih => exact faithful_step ih fuel held

end Rendering

end Shader

end ShapeLang
