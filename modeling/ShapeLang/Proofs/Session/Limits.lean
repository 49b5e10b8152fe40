import ShapeLang.Proofs.Eval.Limits
import ShapeLang.Shape.Export

/-! # Programs under larger limits

No program can tell how deep its calls may be nested, except by running into the limit. Whatever it
ends with below the limit, a value, shader code or a mistake with all its places, it ends with under
every greater one. Here too nothing is caught that fails because of a limit: what an export wrote
before it failed is dropped together with the frames.
-/

namespace ShapeLang

open Shader

variable {m : Machine} {limit limit' : Nat} {α β : Type}

section Inlining

variable {stops : Fault → Prop}

namespace Unless

theorem evaluating {action other : Eval α} (outlasts : Unless stops action other) :
    Unless stops (Compile.evaluating action) (Compile.evaluating other) := by
  intro state
  unfold Compile.evaluating
  rcases outlasts state.heap with ⟨fault, later, stopped, ran⟩ | same
  · exact .inl ⟨fault, _, stopped, by simp only [ran]; rfl⟩
  · exact .inr (by rw [same])

theorem symbolicSettling {action other : Compile Term} {id slot : Nat} {definition : Expr}
    (outlasts : Unless stops action other) :
    Unless stops (Compile.settling id slot definition action)
      (Compile.settling id slot definition other) := by
  intro state
  unfold Compile.settling
  rcases outlasts state with ⟨fault, later, stopped, ran⟩ | same
  · exact .inl ⟨fault, _, stopped, by simp only [ran]; rfl⟩
  · exact .inr (by rw [same])

theorem inlining {action other : Compile α} {function : Location}
    (outlasts : Unless stops action other) :
    Unless stops (Compile.inlining function action) (Compile.inlining function other) := by
  intro state
  unfold Compile.inlining
  rcases outlasts { state with
      compiler := { state.compiler with inlining := function :: state.compiler.inlining } }
    with ⟨fault, later, stopped, ran⟩ | same
  · exact .inl ⟨fault, _, stopped, by simp only [ran]; rfl⟩
  · exact .inr (by simp only [same])

/-- A compilation whose fault is passed on. -/
theorem runWith {compiler : Compiler} {action other : Compile α}
    {next next' : Except Fault α × Compiler → Eval β} (outlasts : Unless stops action other)
    (passed : ∀ fault compiler, next (.error fault, compiler) = throw fault)
    (second : ∀ result, Unless stops (next result) (next' result)) :
    Unless stops (Compile.runWith compiler action >>= next)
      (Compile.runWith compiler other >>= next') := by
  intro heap
  have run (action : Compile α) : Compile.runWith compiler action heap =
    (.ok ((action ⟨heap, compiler⟩).1, (action ⟨heap, compiler⟩).2.compiler),
      (action ⟨heap, compiler⟩).2.heap) := rfl
  rw [bind_run, bind_run, run, run]
  rcases outlasts ⟨heap, compiler⟩ with ⟨fault, later, stopped, ran⟩ | same
  · exact .inl ⟨fault, later.heap, stopped, by simp only [ran, passed]; rfl⟩
  · rw [same]
    exact second _ _

end Unless

open Compile

variable {ev ev' : Evaluator} {held : List Held}
  (part : ∀ held id expr, Unless stops (ev held id expr) (ev' held id expr))
include part

theorem outlasts_captured {location : Location} {id : FrameId} {slot : Nat} :
    Unless stops (captured ev held location id slot) (captured ev' held location id slot) :=
  (unless_force part).evaluating

theorem outlasts_callee {id : Nat} (function : Expr) :
    Unless stops (callee ev held id function) (callee ev' held id function) := by
  unfold callee
  cases function with
  | slot location depth slot =>
    refine .after (ancestor id depth) fun owner => ?_
    cases owner with
    | symbolic owner => exact .refl _
    | captured owner => exact (outlasts_captured part).before _
  | constant location value => cases value <;> exact .refl _
  | _ => exact .refl _

variable {inline inline' : Inliner}
  (inner : ∀ id expr, Unless stops (inline id expr) (inline' id expr))
include inner

omit part in
theorem outlasts_symbolicForce {location : Location} {id slot : Nat} :
    Unless stops (force inline location id slot) (force inline' location id slot) := by
  refine .after (frame id) fun found => ?_
  dsimp only
  cases found.slots[slot]? with
  | none => exact .refl _
  | some content =>
    cases content with
    | pending definition =>
      exact .after (store id slot .busy) fun _ => (inner id definition).symbolicSettling
    | _ => exact .refl _

omit part in
theorem outlasts_inlineCall {lambda : Lambda} {outer : Outer} {args : List Term}
    {location : Location} :
    Unless stops (inlineCall inline lambda outer args location)
      (inlineCall inline' lambda outer args location) := by
  unfold inlineCall
  split
  · exact .refl _
  · refine .after compiler fun current => ?_
    split
    · exact .refl _
    · refine .after (alloc lambda.slotCount outer) fun id => .after (storeAll id 0 args) fun _ => ?_
      exact (inner id lambda.body).inlining

omit part in
theorem outlasts_inlineEach {id : Nat} (exprs : List Expr) :
    Unless stops (exprs.mapM (inline id)) (exprs.mapM (inline' id)) := by
  induction exprs with
  | nil => exact .refl _
  | cons expr exprs ih =>
    rw [List.mapM_cons, List.mapM_cons]
    exact (inner id expr).bind fun term => ih.before _

theorem inline_step_outlasts (id : Nat) (expr : Expr) :
    Unless stops (step ev held inline id expr) (step ev' held inline' id expr) := by
  cases expr with
  | slot location depth slot =>
    refine .after (ancestor id depth) fun owner => ?_
    cases owner with
    | symbolic owner => exact outlasts_symbolicForce inner
    | captured owner => exact (outlasts_captured part).before _
  | call location function args =>
    refine (outlasts_callee part function).bind fun callee =>
      (outlasts_inlineEach inner args).bind fun args => ?_
    cases callee with
    | lambda lambda outer => exact outlasts_inlineCall inner
    | builtin function => exact .refl _
  | list location items => exact (outlasts_inlineEach inner items).before _
  | letIn location bindings body => exact .after (storePending id bindings) fun _ => inner id body
  | unary location op operand => exact (inner id operand).before _
  | binary location op left right =>
    exact (inner id left).bind fun a => (inner id right).before _
  | conditional location condition whenTrue whenFalse =>
    refine (inner id condition).bind fun c => ?_
    have branches := (inner id whenTrue).bind fun a => (inner id whenFalse).before fun b => do
      if a.type ≠ b.type then
        unsupported location s!"conditional with {a.type.name} and {b.type.name} branches"
      define a.type (.select c a b)
    by_cases test : c.type ≠ .bool
    · simp only [if_pos test]
      exact .after _ fun _ => branches
    · simp only [if_neg test]
      exact branches
  | dot location base name => exact (inner id base).before _
  | index location base index =>
    refine (inner id base).bind fun v => ?_
    split
    · exact .refl _
    · exact (inner id index).before _
  | _ => exact .refl _

omit inner in
theorem inline_upTo_outlasts (starves : stops .outOfFuel) {fuel fuel' : Nat} (more : fuel ≤ fuel')
    (id : Nat) (expr : Expr) :
    Unless stops (upTo ev held fuel id expr) (upTo ev' held fuel' id expr) := by
  induction fuel generalizing fuel' id expr with
  | zero => exact .stopped starves
  | succ fuel ih =>
    obtain ⟨fuel', rfl⟩ : ∃ less, fuel' = less + 1 := ⟨fuel' - 1, by omega⟩
    exact inline_step_outlasts part (fun id expr => ih (by omega) id expr) id expr

end Inlining

namespace Recognizer

variable {ev ev' : Evaluator} {held : List Held}
  (part : ∀ held id expr, Outlasts (ev held id expr) (ev' held id expr))
include part

theorem outlasts_require (r : Recognizer) {value : Value} :
    Outlasts (r.require ev held value) (r.require ev' held value) := by
  refine Unless.before _ ?_
  unfold recognize
  split
  · exact .refl _
  · exact (unless_ofValue? part).before _

variable {fuel fuel' : Nat} (more : fuel ≤ fuel')
include more

theorem outlasts_inline (r : Recognizer) (role : ShapeRole) (param : Term) :
    Outlasts (r.inline ev held fuel role param) (r.inline ev' held fuel' role param) := by
  refine .after _ fun function => .after _ fun frame => ?_
  split
  · exact .refl _
  · have inner (id : Nat) (expr : Expr) : Outlasts (Compile.upTo ev (r.held ++ held) fuel id expr)
        (Compile.upTo ev' (r.held ++ held) fuel' id expr) :=
      inline_upTo_outlasts part trivial more id expr
    dsimp only
    split
    · exact .after _ fun args => outlasts_inlineCall inner
    · refine .after _ fun point => .after _ fun time => .after _ fun args => ?_
      exact outlasts_inlineCall inner

theorem outlasts_shaderFunction (r : Recognizer) (role : ShapeRole) :
    Outlasts (r.shaderFunction ev held fuel role) (r.shaderFunction ev' held fuel' role) :=
  (outlasts_inline part more r role shaderParam).runWith (fun _ _ => rfl) fun _ => .refl _

/-- What is written under smaller limits is written under greater ones, unless it breaks off because
of a limit. -/
theorem writeShader_outlasts (r : Recognizer) (roles : List ShapeRole) (heap : Heap) :
    (∃ text fault later, fault.Starved ∧
      r.writeShader ev held fuel roles heap = (.ok (text, some fault), later)) ∨
    r.writeShader ev' held fuel' roles heap = r.writeShader ev held fuel roles heap := by
  induction roles generalizing heap with
  | nil => exact .inr rfl
  | cons role roles ih =>
    have run (ev : Evaluator) (fuel : Nat) : r.writeShader ev held fuel (role :: roles) heap =
        match r.shaderFunction ev held fuel role heap with
        | (.error fault, later) => (.ok ("", some fault), later)
        | (.ok text, later) =>
          ((fun rest => (text ++ rest.1, rest.2)) <$> r.writeShader ev held fuel roles) later := by
      rw [writeShader, bind_run]
      unfold Eval.attempt
      rcases r.shaderFunction ev held fuel role heap with ⟨fault | text, later⟩ <;> rfl
    rw [run, run]
    rcases outlasts_shaderFunction part more r role heap with ⟨fault, later, starved, ran⟩ | same
    · exact .inl ⟨"", fault, later, starved, by rw [ran]⟩
    rw [same]
    rcases r.shaderFunction ev held fuel role heap with ⟨fault | text, later⟩
    · exact .inr rfl
    dsimp only
    rw [map_eq_pure_bind, map_eq_pure_bind, bind_run, bind_run]
    rcases ih later with ⟨rest, fault, last, starved, ran⟩ | same'
    · exact .inl ⟨text ++ rest, fault, last, starved, by rw [ran]; rfl⟩
    · exact .inr (by rw [same'])

/-- Passing on the fault of an export. -/
theorem outlasts_shader (r : Recognizer) {next : String × Option Fault → Eval α}
    (passed : ∀ text fault, next (text, some fault) = throw fault) :
    Outlasts (r.shader ev held fuel >>= next) (r.shader ev' held fuel' >>= next) := by
  intro heap
  rw [bind_run, bind_run]
  rcases writeShader_outlasts part more r [.dist, .colour] heap with
    ⟨text, fault, later, starved, ran⟩ | same
  · refine .inl ⟨fault, later, starved, ?_⟩
    rw [shader, ran]
    simp only [passed]
    rfl
  · exact .inr (by rw [shader, shader, same])

end Recognizer

namespace Program

/-- A limit has stopped a computation whose exceptions are given as errors. -/
def Stopped : Except Fault (Except (List ProgramError) α) → Prop
  | .error fault => fault.Starved
  | .ok (.error [.exception e]) => ∃ limit, e.kind = .stackOverflow limit
  | .ok _ => False

theorem catching_outlasts {action other : Eval α} (outlasts : Outlasts action other) (heap : Heap) :
    Stopped (catching action heap).1 ∨ catching other heap = catching action heap := by
  rcases outlasts heap with ⟨fault, later, starved, ran⟩ | same
  · refine .inl ?_
    unfold catching
    rw [ran]
    cases fault with
    | exception e => exact starved
    | defect d => exact starved.elim
    | outOfFuel => trivial
  · refine .inr ?_
    unfold catching
    rw [same]

theorem shaderOfSource_outlasts {fuel fuel' : Nat} (le : limit ≤ limit') (more : fuel ≤ fuel')
    (names : Namespace) (source : Source) (heap : Heap) :
    Stopped (shaderOfSource (m.withLimit limit) fuel names source heap).1 ∨
      shaderOfSource (m.withLimit limit') fuel' names source heap =
        shaderOfSource (m.withLimit limit) fuel names source heap := by
  unfold shaderOfSource
  rw [bind_run, bind_run]
  rcases compile names [] none source heap with ⟨fault | errors | p, compiled⟩
  · exact .inr rfl
  · exact .inr rfl
  apply catching_outlasts
  have part (held : List Held) (id : FrameId) (expr : Expr) :
      Outlasts (Eval.upTo (m.withLimit limit) fuel held id expr)
        (Eval.upTo (m.withLimit limit') fuel' held id expr) :=
    upTo_outlasts m le more held id expr
  refine (part (.frame p.frame :: []) p.frame p.expr).bind fun value => ?_
  refine (Recognizer.outlasts_require part _).bind fun r => ?_
  exact Recognizer.outlasts_shader part more r fun _ _ => rfl

/-- Whatever the frames hold, an evaluation that ends with something else than an overflow of the
call depth ends in the same way under every greater limit, with whatever more fuel: with the same
value, or with the same exception at the same places. The same is true of shader code. -/
theorem greater_limit (m : Machine) {limit limit' fuel fuel' : Nat} (le : limit ≤ limit')
    (more : fuel ≤ fuel') :
    (∀ (p : Program) (held : List Held) (heap : Heap) (result : Except Fault Value) (after : Heap),
      p.eval (m.withLimit limit) fuel held heap = (result, after) →
      (∀ fault, result = .error fault → ¬ fault.Starved) →
      p.eval (m.withLimit limit') fuel' held heap = (result, after)) ∧
    ∀ (names : Namespace) (source : Source) (heap : Heap)
      (result : Except Fault (Except (List ProgramError) String)) (after : Heap),
      shaderOfSource (m.withLimit limit) fuel names source heap = (result, after) →
      ¬ Stopped result →
      shaderOfSource (m.withLimit limit') fuel' names source heap = (result, after) := by
  constructor
  · intro p held heap result after ran ended
    rcases upTo_outlasts m le more (.frame p.frame :: held) p.frame p.expr heap with
      ⟨fault, later, starved, ran'⟩ | same
    · have stopped : result = .error fault := (Prod.mk.inj (ran.symm.trans ran')).1
      exact (ended fault stopped starved).elim
    · exact same.trans ran
  · intro names source heap result after ran ended
    rcases shaderOfSource_outlasts (m := m) le more names source heap with stopped | same
    · rw [ran] at stopped
      exact (ended stopped).elim
    · exact same.trans ran

/-- A shape that needs one call to say that it is flat. -/
def flat : Source := ⟨"flat",
  "let f(x) = x in \x7bdist: p -> p.x, colour: p -> [p.x, p.y, p.z], is_2d_shape: f(true)\x7d"⟩

/-- One call is enough for the shape and its shader code, and a second one changes nothing. -/
theorem greater_limit_flat : ∃ p compiled value after code last,
    compile [] [] none flat .empty = (.ok (.ok p), compiled) ∧
    p.eval (Machine.standard.withLimit 1) 9 [] compiled = (.ok value, after) ∧
    p.eval (Machine.standard.withLimit 2) 10 [] compiled = (.ok value, after) ∧
    shaderOfSource (Machine.standard.withLimit 1) 9 [] flat .empty = (.ok (.ok code), last) ∧
    shaderOfSource (Machine.standard.withLimit 2) 10 [] flat .empty = (.ok (.ok code), last) := by
  have run : ((compile [] [] none flat .empty).1.toOption.bind Except.toOption).any fun p =>
      (p.eval (Machine.standard.withLimit 1) 9 []
        (compile [] [] none flat .empty).2).1.toOption.isSome := by decide +kernel
  have exported : (match shaderOfSource (Machine.standard.withLimit 1) 9 [] flat .empty with
      | (.ok (.ok _), _) => true
      | _ => false) = true := by decide +kernel
  rcases accepted : compile [] [] none flat .empty with ⟨fault | errors | p, compiled⟩
  · simp [accepted, Except.toOption] at run
  · simp [accepted, Except.toOption] at run
  rcases ran : p.eval (Machine.standard.withLimit 1) 9 [] compiled with ⟨fault | value, after⟩
  · simp [accepted, ran, Except.toOption] at run
  rcases wrote : shaderOfSource (Machine.standard.withLimit 1) 9 [] flat .empty with
    ⟨fault | errors | code, last⟩
  · simp [wrote] at exported
  · simp [wrote] at exported
  obtain ⟨evaluates, exports⟩ := greater_limit .standard (by decide : 1 ≤ 2) (by decide : 9 ≤ 10)
  exact ⟨p, compiled, value, after, code, last, rfl, ran,
    evaluates p [] compiled _ _ ran (fun _ same => by cases same), rfl,
    exports [] flat .empty _ _ wrote fun stopped => stopped⟩

end Program

end ShapeLang
