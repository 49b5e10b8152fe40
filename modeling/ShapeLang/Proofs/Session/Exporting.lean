import ShapeLang.Shape.Export
import ShapeLang.Proofs.Session.Careful
import ShapeLang.Proofs.Shader.Safety

/-! # Exporting a shape meets no defect

A function of a shape is inlined in the frame that its closure captured, which is trusted. The host
may have written any code before.
-/

namespace ShapeLang

open Shader

section Exporting

variable {evaluate : Evaluator} {held : List Held} {fuel : Nat} {heap : Heap} {trust : Trust}
  {r : Recognizer} {role : ShapeRole} {param : Term} {compiler : Compiler}

/-- Inlining a function of a shape, beside the symbolic frames that are there already. -/
private theorem inline_keeps {function : ShapeFunction} {frame : Frame} {env : FrameId}
    (safe : Eval.Safe evaluate) (world : Eval.World heap [] [holder env])
    (found : heap.frame? function.frame = some frame) (atParent : frame.parent = some env)
    (sees : Expr.Scoped (heap.visible env) (.lambda function.lambda.location
      function.lambda.paramCount function.lambda.slotCount function.lambda.body)) :
    Keeps heap [] [holder env] compiler.frames.size
      (function.inline (Compile.upTo evaluate held fuel) param) ⟨heap, compiler⟩ [env] := by
  unfold ShapeFunction.inline
  refine Ends.through (fun other later => frame = other ∧ _ = later)
    (.evaluating (.frame_found found ⟨rfl, rfl⟩)) ?_
  rintro _ _ ⟨rfl, rfl⟩
  simp only [atParent]
  have called {args : List Term} {later : CompilerState} {captured : List FrameId}
      (proceeds : Proceeds heap [] [holder env] compiler.frames.size ⟨heap, compiler⟩ [env] later
        captured) :
      Keeps heap [] [holder env] compiler.frames.size (Compile.inlineCall
        (Compile.upTo evaluate held fuel) function.lambda (.captured env) args
        function.lambda.body.location) later captured :=
    proceeds.2.2.inlineCall_keeps (upTo_keeps safe world fuel)
      ((callable_captured sees).mono proceeds.1 proceeds.2.1)
  have course : Course heap [] [holder env] compiler.frames.size ⟨heap, compiler⟩ [env] :=
    .initial heap env compiler
  split
  · exact (Keeps.pure course [param]).bind fun args later captured proceeds => called proceeds
  · exact ((Direct.emit (by simp)).keeps course).bind fun point later captured proceeds =>
      ((Direct.emit (by simp)).keeps proceeds.2.2).bind fun time last captured' proceeds' =>
        (Keeps.pure proceeds'.2.2 [point, time]).bind fun args final captured'' proceeds'' =>
          called ((proceeds.trans proceeds').trans proceeds'')

/-- The code that is written for a function of a shape, or what it fails with. -/
theorem runWith_careful (safe : Eval.Safe evaluate) (sound : heap.Sound trust)
    (settled : r.Settled heap trust) :
    Careful (Compile.runWith compiler (r.inline evaluate held fuel role param)) heap trust
      fun result _ _ => ∀ fault, result.1 = .error fault → fault.Harmless := by
  have inlined : Ends (r.inline evaluate held fuel role param) ⟨heap, compiler⟩
      (fun _ later => ∃ wider, Advance heap trust later.heap wider)
      (fun fault later => fault.Harmless ∧ ∃ wider, Advance heap trust later.heap wider) := by
    unfold Recognizer.inline Recognizer.function
    split
    · rename_i shape same
      obtain ⟨frame, env, found, -, atParent, inside, sees⟩ := (settled shape same role).frame
      have entry : ∀ value ∈ [holder env], heap.Trusts trust value := by
        simpa [trusts_holder] using inside
      refine Ends.through (fun function later => shape.function role = function ∧ _ = later)
        (.evaluating ⟨rfl, rfl⟩) ?_
      rintro _ _ ⟨rfl, rfl⟩
      refine Ends.mono (inline_keeps safe ⟨trust, sound, by simp, entry⟩ found atParent sees)
        (fun term later ok => ?_) fun fault later spoilt => ?_
      · obtain ⟨captured, proceeds⟩ := ok
        exact Advance.of_stage_apart proceeds.2.2.stage sound
      · exact ⟨spoilt.1, Advance.of_stage_apart spoilt.2 sound⟩
    · exact Ends.stop (.evaluating
        (.raise fun _ => ⟨.exception _, trust, .refl sound⟩))
  have run : Compile.runWith compiler (r.inline evaluate held fuel role param) heap =
      (.ok ((r.inline evaluate held fuel role param ⟨heap, compiler⟩).1,
        (r.inline evaluate held fuel role param ⟨heap, compiler⟩).2.compiler),
        (r.inline evaluate held fuel role param ⟨heap, compiler⟩).2.heap) := rfl
  refine Ends.intro run (fun result same => ?_) fun _ same => by cases same
  obtain rfl := Except.ok.inj same
  rcases ran : r.inline evaluate held fuel role param ⟨heap, compiler⟩ with ⟨fault | term, later⟩
  · obtain ⟨harmless, wider, advance⟩ := inlined.failed ran
    exact ⟨wider, advance, fun _ same => Except.error.inj same ▸ harmless⟩
  · obtain ⟨wider, advance⟩ := inlined.returned ran
    exact ⟨wider, advance, fun _ same => by cases same⟩

private theorem attempt_careful {α : Type} {action : Eval α} {returns : α → Heap → Trust → Prop}
    (careful : Careful action heap trust returns) :
    Careful (Eval.attempt action) heap trust fun result _ _ =>
      ∀ fault, result = .error fault → fault.Harmless :=
  .attempt (Ends.mono careful
    (fun _ _ ok => ok.imp fun _ ok => ⟨ok.1, fun _ same => by cases same⟩)
    fun _ _ failed => failed.2.imp fun _ advance =>
      ⟨advance, fun _ same => Except.error.inj same ▸ failed.1⟩)

theorem shaderFunction_careful (safe : Eval.Safe evaluate) (sound : heap.Sound trust)
    (settled : r.Settled heap trust) :
    Careful (r.shaderFunction evaluate held fuel role) heap trust fun _ _ _ => True := by
  refine (runWith_careful safe sound settled).bind ?_
  rintro ⟨result, compiler⟩ later wider advance harmless
  have settled' : r.Settled later wider := fun shape same role =>
    advance.serves (settled shape same role)
  cases result with
  | error fault => exact Ends.throw ⟨harmless fault rfl, wider, .refl advance.sound⟩
  | ok term =>
    refine Careful.through (fun _ _ _ => True) (.pure advance.sound trivial)
      fun term last widest advance' _ => ?_
    dsimp only
    split
    · refine Careful.through (fun _ _ _ => True) ?_ fun function final trust' advance'' _ =>
        Careful.stop (.raise advance''.sound)
      unfold Recognizer.function
      split
      · exact .pure advance'.sound trivial
      · exact .raise advance'.sound
    · exact .pure advance'.sound trivial

theorem writeShader_careful (safe : Eval.Safe evaluate) (sound : heap.Sound trust)
    (settled : r.Settled heap trust) (roles : List ShapeRole) :
    Careful (r.writeShader evaluate held fuel roles) heap trust fun result _ _ =>
      ∀ fault, result.2 = some fault → fault.Harmless := by
  induction roles generalizing heap trust with
  | nil => exact .pure sound fun _ same => by cases same
  | cons role roles ih =>
    refine (attempt_careful (shaderFunction_careful safe sound settled)).bind
      fun result later wider advance harmless => ?_
    cases result with
    | error fault =>
      exact .pure advance.sound fun _ same => Option.some.inj same ▸ harmless fault rfl
    | ok text =>
      have settled' : r.Settled later wider := fun shape same role =>
        advance.serves (settled shape same role)
      refine (ih advance.sound settled').bind ?_
      rintro ⟨rest, fault⟩ last widest advance' harmless'
      exact .pure advance'.sound harmless'

end Exporting

end ShapeLang
