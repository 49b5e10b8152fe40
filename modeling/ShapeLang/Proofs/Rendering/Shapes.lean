import ShapeLang.Proofs.Rendering.Simulation
import ShapeLang.Proofs.Session.Shapes

/-! # The shader code of a shape computes its samples

The code of a shape is made once, and run for any point and time. It computes what a sample of the
shape is there, whenever both are asked for, unless the sample fails in one of two ways.
-/

namespace ShapeLang

open Denotation Shader Shader.Rendering

namespace Shader

namespace Rendering

variable {setup : Setup} {world : World} {heap : Heap} {view : View} {compile : Inliner}
  {function : ShapeFunction} {den : Den} {p : Point} {t : Float}

/-- What is known before anything is compiled. -/
def World.initial (sight : Sight) : World := ⟨sight, [], [], 1⟩

theorem tracks_initial (reflects : Reflects setup.machine [] view heap) :
    setup.Tracks (.initial ⟨heap, view⟩) ⟨heap, .new⟩ where
  sight := ⟨rfl, reflects⟩
  statements := rfl
  bound := rfl
  size := rfl
  around id known there := by simp [World.initial] at there
  slots id known frame there := by simp [World.initial] at there

theorem within_shaderParam : Recognizer.shaderParam.Within 1 := Nat.one_pos

/-- The parameter is a vector of the coordinates of a point and a time. -/
theorem value_shaderParam {sight : Sight} (start : setup.start = entry p t) :
    Recognizer.shaderParam.value (setup.naming (.initial sight)) = .vector [p.x, p.y, p.z, t] := by
  change setup.start 0 = _
  rw [start]
  exact Function.update_self ..

/-- The function of a shape is inlined with terms for the point and the time. -/
theorem delivers_shapeCall (faithful : setup.Faithful compile) {lambda : Lambda} {owner : FrameId}
    {sight : Sight} {wider : World} {state : CompilerState} {x : Place} {outer : Env}
    (known : sight.view.env owner = some outer)
    (layout : Room lambda.slotCount (List.range lambda.paramCount ++ lambda.body.letSlots))
    (inner : lambda.body.Scoped ((sight.view.visible [] outer x).enter
      (List.range lambda.paramCount)))
    (later : setup.Later (.initial sight) wider) (tracks : setup.Tracks wider state)
    {args : List Term} (within : ∀ arg ∈ args, arg.Within wider.bound)
    (typed : ∀ arg ∈ args, (arg.value (setup.naming wider)).Is arg.type) {dens : List Den}
    (given : (setup.values wider args).map ShaderValue.den = dens) (depth : Nat) (w : Place) :
    setup.Delivers wider (Compile.inlineCall compile lambda (.captured owner) args
      lambda.body.location) state fun widest term => setup.Renders widest term fun n =>
        upTo setup.machine n ( Denotation.callee outer w depth lambda dens) (.part 0 :: w)
          lambda.body := by
  have stands : World.Stands (.initial sight) (.captured owner) outer := known
  have sees (depth slot : Nat) (visible : sight.view.visible [] outer x depth slot) :
      wider.sees (.captured owner) depth slot :=
    later.sees depth slot (sees_captured known depth slot visible)
  rw [← given]
  exact (delivers_inlined faithful tracks (later.stands stands) layout
    (inner.mono (Visibility.enter_mono sees)) within typed depth w).mono
      fun _ _ _ delivered => delivered.2

/-- The function of a shape is inlined with the components of the parameter as its arguments. -/
theorem delivers_inline (faithful : setup.Faithful compile)
    (reflects : Reflects setup.machine [] view heap) (captured : Captured view heap function den)
    (start : setup.start = entry p t) :
    ∃ x outer, den = .closure x function.lambda outer ∧ ∀ depth w,
      setup.Delivers (.initial ⟨heap, view⟩) (function.inline compile Recognizer.shaderParam)
        ⟨heap, .new⟩ fun wider term => setup.Renders wider term fun n => upTo setup.machine n
          ( Denotation.callee outer w depth function.lambda (pointDens function p t)) (.part 0 :: w)
          function.lambda.body := by
  obtain ⟨frame, serial, env, found, -, atParent, means⟩ := captured
  cases means with | @closure _ x _ _ outer made known seen around layout inner =>
  refine ⟨x, outer, rfl, fun depth w => ?_⟩
  let sight : Sight := ⟨heap, view⟩
  have isKnown : sight.view.env env = some outer := known
  have tracks : setup.Tracks (.initial sight) ⟨heap, .new⟩ := tracks_initial reflects
  have value : Recognizer.shaderParam.value (setup.naming (.initial sight)) =
      .vector [p.x, p.y, p.z, t] := value_shaderParam start
  have is : (Recognizer.shaderParam.value (setup.naming (.initial sight))).Is .vec4 := by
    rw [value]
    exact .vector rfl rfl
  refine Ends.through (fun other after => other = frame ∧ after = ⟨heap, .new⟩)
    (.evaluating (.frame_found found ⟨rfl, rfl⟩)) ?_
  rintro _ _ ⟨rfl, rfl⟩
  simp only [atParent]
  by_cases whole : function.lambda.paramCount = 1
  · simp only [whole, ↓reduceIte]
    refine delivers_shapeCall faithful isKnown layout inner (.refl _) tracks
      (List.forall_mem_singleton.mpr within_shaderParam) (List.forall_mem_singleton.mpr is) ?_ ..
    rw [Setup.values, List.map_singleton, value, pointDens, ShapeFunction.pointArgs, if_pos whole]
    rfl
  · simp only [whole, ↓reduceIte]
    have coordinates : Operation.value setup.machine.arithmetic (setup.stray 1)
        (setup.naming (.initial sight)) .vec3 (.firstThree Recognizer.shaderParam) =
          .vector [p.x, p.y, p.z] := by
      rw [Operation.value, value]
      rfl
    refine (delivers_defined tracks coordinates (.vector rfl rfl) (.pure _)).bind ?_
    intro point wider after later tracks' first
    have last : Operation.value setup.machine.arithmetic (setup.stray wider.bound)
        (setup.naming wider) .float (.component Recognizer.shaderParam 3) = .float t := by
      rw [Operation.value, later.value within_shaderParam, value]
      rfl
    refine (delivers_defined tracks' last (.float _) (.pure _)).bind ?_
    intro time widest final later' tracks'' second
    have first := later'.renders first
    refine delivers_shapeCall faithful isKnown layout inner (later.trans later')
      tracks'' ?_ ?_ ?_ ..
    · exact List.forall_mem_cons.mpr ⟨first.within, List.forall_mem_singleton.mpr second.within⟩
    · exact List.forall_mem_cons.mpr ⟨first.is, List.forall_mem_singleton.mpr second.is⟩
    · rw [Setup.values, List.map_cons, List.map_singleton, List.map_cons, List.map_singleton,
        ← first.gives.of_pure, ← second.gives.of_pure, pointDens, ShapeFunction.pointArgs,
        if_neg whole]
      rfl

variable {code : ShaderCode} {family : Nat → Outcome Den} {type : ShaderType} {α : Type}
  {result : Value → Except ErrorKind α} {shown : α → ShaderValue} {last : Except Fault α}

end Rendering

end Shader

section Writing

variable {evaluate : Evaluator} {held : List Held} {fuel : Nat} {r : Recognizer} {role : ShapeRole}
  {heap after : Heap} {text : String}

/-- The code of a role is what its function is compiled to. -/
structure Recognizer.Writes (evaluate : Evaluator) (held : List Held) (fuel : Nat) (r : Recognizer)
    (role : ShapeRole) (heap : Heap) (code : ShaderCode) (after : Heap) : Prop where
  type : code.result.type = role.resultType
  compiled : ∃ state, r.inline evaluate held fuel role Recognizer.shaderParam ⟨heap, .new⟩ =
    (.ok code.result, state) ∧ state.compiler.statements.toList = code.statements ∧
      state.heap = after

end Writing

section Sampling

variable {m : Machine} {view view' : View} {heap heap' after : Heap} {fuel depth k : Nat}
  {held : List Held} {r : Recognizer} {shape : Shape} {role : ShapeRole} {code : ShaderCode}
  {den : Den} {values : List Value} {dens : List Den} {α : Type}
  {result : Value → Except ErrorKind α} {shown : α → ShaderValue}

/-- The code of a role renders what a call of the function denotes, at any place. -/
theorem Recognizer.Writes.renders (setup : Setup)
    (writes : r.Writes (Eval.upTo setup.machine fuel) held depth role heap code after)
    (here : r.shape = some shape) (reflects : Reflects setup.machine [] view heap)
    (captured : Captured view heap (shape.function role) den) {p : Point} {t : Float}
    (start : setup.start = entry p t) :
    ∃ x outer, den = .closure x (shape.function role).lambda outer ∧ ∀ calls w, ∃ world,
      Evolves [] heap view after world.sight.view ∧
      Reflects setup.machine [] world.sight.view after ∧ world.statements = code.statements ∧
      setup.Renders world code.result fun n => upTo setup.machine n
        ( Denotation.callee outer w calls (shape.function role).lambda
          (pointDens (shape.function role) p t))
        (.part 0 :: w) (shape.function role).lambda.body := by
  obtain ⟨-, state, compiled, statements, rfl⟩ := writes
  have inlined : (shape.function role).inline (Compile.upTo (Eval.upTo setup.machine fuel)
      (r.held ++ held) depth) Recognizer.shaderParam ⟨heap, .new⟩ = (.ok code.result, state) := by
    rw [Recognizer.inline, Recognizer.function, here] at compiled
    exact compiled
  obtain ⟨x, outer, same, delivers⟩ :=
    delivers_inline (faithful_upTo setup fuel _ depth) reflects captured start
  refine ⟨x, outer, same, fun calls w => ?_⟩
  obtain ⟨world, later, tracks, renders⟩ := (delivers calls w).returned inlined
  refine ⟨world, ?_, tracks.sight.reflects, tracks.statements.symm.trans statements, renders⟩
  rw [tracks.sight.here]
  exact later.sight

end Sampling

namespace Session

variable {m : Machine} {s s' : Session} {r : Recognizer} {shape : Shape} {found : ShapeRole → Den}
  {dens dens' : List Den} {heap heap' after : Heap} {view view' : View} {trust trust' : Trust}
  {k k' fuel depth : Nat} {held : List Held} {text : String}

end Session

namespace Program

end Program

end ShapeLang
