import ShapeLang.Proofs.Shader.Lockstep
import ShapeLang.Shape.Export

/-! # Twin shapes have the same shader code

The functions of a shape are compiled one after the other, each for itself. If two shapes have twin
functions, then the same text is written for both, up to the place where both fail.
-/

namespace ShapeLang

open Shader

section Faults

variable {α β : Type} {action : Nat → Eval α} {action' : Nat → Eval β} {heap heap' : Heap}

/-- Two evaluations whose faults are caught. -/
theorem Alongside.attempt {returns : Except Fault α → Heap → Except Fault β → Heap → Prop}
    {fails : Fault → Heap → Fault → Heap → Prop}
    (alongside : Alongside action action' heap heap'
      (fun a after b after' => returns (.ok a) after (.ok b) after')
      fun fault after fault' after' => returns (.error fault) after (.error fault') after') :
    Alongside (fun fuel => Eval.attempt (action fuel)) (fun fuel => Eval.attempt (action' fuel))
      heap heap' returns fails := by
  obtain ⟨enough, last, last', ran, ran', alike⟩ := alongside
  have caught {γ : Type} {action : Eval γ} {heap : Heap} {last : Except Fault γ × Heap}
      (ran : action heap = last) : Eval.attempt action heap = (.ok last.1, last.2) := by
    rw [Eval.attempt, ran]
  refine ⟨enough, _, _, fun fuel le => caught (ran fuel le), fun fuel le => caught (ran' fuel le), ?_⟩
  cases alike with
  | returned done => exact .returned done
  | failed failure => exact .returned failure

end Faults

namespace Shader

variable {evaluate evaluate' : Nat → Evaluator} {held held' : List Held}
  {captures : Captures evaluate evaluate' held held'} {world : captures.World}
  {setting : Setting captures} {state state' : CompilerState} {heap heap' : Heap}

/-- Two functions of shapes with the same shader code: what they captured is read alike. -/
def FunctionTwin (captures : Captures evaluate evaluate' held held') (world : captures.World)
    (heap heap' : Heap) (function function' : ShapeFunction) : Prop :=
  ∃ frame frame' env env', heap.frame? function.frame = some frame ∧ frame.parent = some env ∧
    heap'.frame? function'.frame = some frame' ∧ frame'.parent = some env' ∧
    Expr.Twin captures.literals (captures.sees world env env') function.lambda.expr
      function'.lambda.expr

/-- A shape function is inlined. -/
theorem Joined.inline (joined : Joined setting state state') {function function' : ShapeFunction}
    (twin : FunctionTwin captures setting.world state.heap state'.heap function function')
    (depth : Nat) (param : Term) :
    Parallel setting
      (fun fuel => function.inline (Compile.upTo (evaluate fuel) held depth) param)
      (fun fuel => function'.inline (Compile.upTo (evaluate' fuel) held' depth) param) state state'
      fun _ term term' => term = term' := by
  obtain ⟨frame, frame', env, env', found, parent, found', parent', code⟩ := twin
  have read {state : CompilerState} {id : FrameId} {frame : Frame}
      (found : state.heap.frame? id = some frame) :
      Compile.evaluating (Eval.frame id) state = (.ok frame, state) :=
    Ends.exact (.evaluating (.frame_found found ⟨rfl, rfl⟩))
  refine Alongside.steps (read found) (read found') ?_
  simp only [parent, parent']
  obtain ⟨⟨place, paramCount, slotCount, body⟩, shown⟩ := function
  obtain ⟨⟨place', paramCount', slotCount', body'⟩, shown'⟩ := function'
  have called {wider : Setting captures} {after after' : CompilerState}
      (later : setting.Later wider) (joined : Joined wider after after') (args : List Term) :
      Parallel wider
        (fun fuel => Compile.inlineCall (Compile.upTo (evaluate fuel) held depth)
          ⟨place, paramCount, slotCount, body⟩ (.captured env) args body.location)
        (fun fuel => Compile.inlineCall (Compile.upTo (evaluate' fuel) held' depth)
          ⟨place', paramCount', slotCount', body'⟩ (.captured env') args body'.location)
        after after' fun _ term term' => term = term' :=
    joined.inlineCall (follows_upTo captures depth) (.captured env env')
      (code.mono fun _ _ _ seen => captures.kept later.world seen) args
  cases code with | lambda slots literal layout params inner =>
  by_cases whole : paramCount = 1
  · simp only [whole, ↓reduceIte]
    rw [whole] at called
    exact called (.refl setting) joined [param]
  · simp only [whole, ↓reduceIte]
    refine (Parallel.of_echoes joined (.define _ _)).andThen ?_
    intro point wider after after' later joined'
    refine (Parallel.of_echoes joined' (.define _ _)).andThen ?_
    intro time widest last last' later' joined''
    exact called (later.trans later') joined'' [point, time]

/-- What two compilations know of the captured frames after they were read. -/
def Known (captures : Captures evaluate evaluate' held held') (world : captures.World)
    (heap heap' : Heap) : Prop :=
  ∃ wider, captures.later world wider ∧ captures.heaps wider heap heap'

end Shader

section Texts

variable {evaluate evaluate' : Nat → Evaluator} {held held' : List Held} {r r' : Recognizer}
  {captures : Captures evaluate evaluate' (r.held ++ held) (r'.held ++ held')}
  {world : captures.World} {heap heap' : Heap}

/-- A compilation that is a part of an evaluation. -/
private theorem alongside_runWith {action action' : Nat → Compile Term}
    (parallel : Parallel (⟨world, []⟩ : Setting captures) action action' ⟨heap, .new⟩ ⟨heap', .new⟩
      fun _ term term' => term = term') :
    Alongside (fun fuel => Compile.runWith .new (action fuel))
      (fun fuel => Compile.runWith .new (action' fuel)) heap heap'
      (fun out after out' after' => Known captures world after after' ∧
        ((∃ term, out.1 = .ok term ∧ out'.1 = .ok term ∧ out.2.body = out'.2.body) ∨
          ∃ fault fault', out.1 = .error fault ∧ out'.1 = .error fault' ∧
            fault.Like captures.kinds fault'))
      fun _ _ _ _ => False := by
  obtain ⟨enough, last, last', ran, ran', alike⟩ := parallel
  have run {action : Compile Term} {heap : Heap} {last : Except Fault Term × CompilerState}
      (ran : action ⟨heap, .new⟩ = last) :
      Compile.runWith .new action heap = (.ok (last.1, last.2.compiler), last.2.heap) := by
    rw [Compile.runWith, ran]
  refine ⟨enough, _, _, fun fuel le => run (ran fuel le), fun fuel le => run (ran' fuel le), ?_⟩
  cases alike with
  | returned done =>
    obtain ⟨wider, later, joined, rfl⟩ := done
    refine .returned ⟨⟨wider.world, later.world, joined.heaps⟩, .inl ⟨_, rfl, rfl, ?_⟩⟩
    rw [Compiler.body, Compiler.body, joined.statements]
  | failed failure =>
    obtain ⟨like, -, known⟩ := failure
    exact .returned ⟨known, .inr ⟨_, _, rfl, rfl, like⟩⟩

/-- The shader functions of a role. -/
theorem shaderFunction_alongside {shape shape' : Shape} (here : r.shape = some shape)
    (here' : r'.shape = some shape') (role : ShapeRole)
    (twins : ∀ wider after after', captures.later world wider → captures.heaps wider after after' →
      FunctionTwin captures wider after after' (shape.function role) (shape'.function role))
    (heaps : captures.heaps world heap heap') (depth : Nat) :
    Alongside (fun fuel => r.shaderFunction (evaluate fuel) held depth role)
      (fun fuel => r'.shaderFunction (evaluate' fuel) held' depth role) heap heap'
      (fun text after text' after' => text = text' ∧ Known captures world after after')
      fun fault after fault' after' => fault.Like captures.kinds fault' ∧
        Known captures world after after' := by
  have joined : Joined (⟨world, []⟩ : Setting captures) ⟨heap, .new⟩ ⟨heap', .new⟩ :=
    ⟨heaps, rfl, rfl, .nil, rfl, rfl, fun id pair there => by simp at there⟩
  have inlined : Parallel (⟨world, []⟩ : Setting captures)
      (fun fuel => r.inline (evaluate fuel) held depth role Recognizer.shaderParam)
      (fun fuel => r'.inline (evaluate' fuel) held' depth role Recognizer.shaderParam)
      ⟨heap, .new⟩ ⟨heap', .new⟩ fun _ term term' => term = term' := by
    have found {r : Recognizer} {shape : Shape} (here : r.shape = some shape) {held : List Held}
        {state : CompilerState} : Compile.evaluating (r.function held role) state =
          (.ok (shape.function role), state) := by
      rw [Recognizer.function, here]
      rfl
    exact Alongside.steps (found here) (found here')
      (joined.inline (twins world heap heap' (captures.refl world) heaps) depth _)
  refine ((alongside_runWith inlined).mono (fun _ _ _ _ ok => ok)
    fun _ _ _ _ impossible => impossible.elim).bind ?_
  rintro ⟨result, compiler⟩ after ⟨result', compiler'⟩ after' ⟨known, ended⟩
  rcases ended with ⟨term, rfl, rfl, body⟩ | ⟨fault, fault', rfl, rfl, like⟩
  · refine Alongside.steps (a := term) (b := term) rfl rfl ?_
    by_cases type : term.type = role.resultType
    · simp only [type, ne_eq, not_true_eq_false, ↓reduceIte]
      exact .pure ⟨by rw [body], known⟩
    · simp only [type, ne_eq, not_false_eq_true, ↓reduceIte, Recognizer.function, here, here']
      refine Alongside.steps (a := shape.function role) (b := shape'.function role) rfl rfl ?_
      have raised (locations locations' : List Location) (kind : ErrorKind) : Alongside
          (fun _ => (throw (.exception ⟨kind, locations⟩) : Eval PUnit))
          (fun _ => (throw (.exception ⟨kind, locations'⟩) : Eval PUnit)) after after'
          (fun _ _ _ _ => False) fun fault last fault' last' =>
            fault.Like captures.kinds fault' ∧ Known captures world last last' :=
        .throw ⟨.exception (captures.alike kind), known⟩
      exact .stop (raised _ _ _)
  · exact .stop (.throw ⟨like, known⟩)

/-- Nothing is written without a shape. -/
theorem Recognizer.shader_missing (r : Recognizer) (here : r.shape = none) (evaluate : Evaluator)
    (held : List Held) (depth : Nat) (heap : Heap) : ∃ e : Exception, e.kind = .notAShape ∧
      r.shader evaluate held depth heap = (.ok ("", some (.exception e)), heap) := by
  have missing : r.function (r.held ++ held) .dist =
      Eval.raise (r.held ++ held) r.context .notAShape := by rw [Recognizer.function, here]
  have inlined : ∃ e : Exception, e.kind = .notAShape ∧
      r.inline evaluate held depth .dist Recognizer.shaderParam ⟨heap, .new⟩ =
        (.error (.exception e), ⟨heap, .new⟩) := by
    rw [Recognizer.inline, missing]
    exact ⟨_, rfl, rfl⟩
  obtain ⟨e, kind, ran⟩ := inlined
  refine ⟨e, kind, ?_⟩
  have run : Eval.attempt (r.shaderFunction evaluate held depth .dist) heap =
      (.ok (.error (.exception e)), heap) := by
    rw [Eval.attempt, Recognizer.shaderFunction, bind_run, Compile.runWith, ran]
    rfl
  rw [Recognizer.shader, Recognizer.writeShader, bind_run, run]
  rfl

/-- Shader functions of twin shapes, one after the other. -/
theorem writeShader_alongside {shape shape' : Shape} (here : r.shape = some shape)
    (here' : r'.shape = some shape')
    (twins : ∀ role wider after after', captures.later world wider →
      captures.heaps wider after after' →
      FunctionTwin captures wider after after' (shape.function role) (shape'.function role))
    (heaps : captures.heaps world heap heap') (depth : Nat) (roles : List ShapeRole) :
    Alongside (fun fuel => r.writeShader (evaluate fuel) held depth roles)
      (fun fuel => r'.writeShader (evaluate' fuel) held' depth roles) heap heap'
      (fun out after out' after' => out.1 = out'.1 ∧
        Option.Rel (Fault.Like captures.kinds) out.2 out'.2 ∧ Known captures world after after')
      fun _ _ _ _ => False := by
  induction roles generalizing world heap heap' with
  | nil => exact .pure ⟨rfl, .none, world, captures.refl world, heaps⟩
  | cons role roles ih =>
    have first : Alongside
        (fun fuel => Eval.attempt (r.shaderFunction (evaluate fuel) held depth role))
        (fun fuel => Eval.attempt (r'.shaderFunction (evaluate' fuel) held' depth role)) heap heap'
        (fun result after result' after' => Known captures world after after' ∧
          ((∃ text, result = .ok text ∧ result' = .ok text) ∨ ∃ fault fault',
            result = .error fault ∧ result' = .error fault' ∧ fault.Like captures.kinds fault'))
        fun _ _ _ _ => False := by
      refine .attempt ((shaderFunction_alongside here here' role (twins role) heaps depth).mono
        ?_ ?_)
      · rintro text after _ after' ⟨rfl, known⟩
        exact ⟨known, .inl ⟨text, rfl, rfl⟩⟩
      · rintro fault after fault' after' ⟨like, known⟩
        exact ⟨known, .inr ⟨fault, fault', rfl, rfl, like⟩⟩
    refine first.bind ?_
    rintro result after result' after' ⟨known, ended⟩
    rcases ended with ⟨text, rfl, rfl⟩ | ⟨fault, fault', rfl, rfl, like⟩
    · obtain ⟨wider, later, heaps'⟩ := known
      refine (ih (fun role widest last last' later' =>
        twins role widest last last' (captures.trans later later')) heaps').bind ?_
      rintro ⟨rest, fault⟩ last ⟨rest', fault'⟩ last' ⟨same, like, widest, later', heaps''⟩
      refine .pure ⟨?_, like, widest, captures.trans later later', heaps''⟩
      obtain rfl := same
      rfl
    · exact .pure ⟨rfl, .some like, known⟩

end Texts

end ShapeLang
