import ShapeLang.Proofs.Session.Termination
import ShapeLang.Proofs.Shader.Termination

/-! # The functions of a program can be inlined or refused

Every function that a session obtains is compiled to a term, or refused with an exception, after
finitely many steps. It does not matter whether functions call themselves or each other, or whether
definitions depend on themselves.
-/

namespace ShapeLang

open Shader

/-- Inlining a trusted function meets no defect, with any amount of fuel, and trusted frames are
still trusted afterwards. -/
theorem inlineCall_careful {evaluate : Evaluator} {heap : Heap} {trust : Trust} {serial : Nat}
    {lambda : Lambda} {env : FrameId} (safe : Eval.Safe evaluate) (sound : heap.Sound trust)
    (trusted : heap.Trusts trust (.closure serial lambda env)) (held : List Held) (fuel : Nat)
    (args : List Term) (location : Location) (compiler : Compiler) :
    Ends (Compile.inlineCall (Compile.upTo evaluate held fuel) lambda (.captured env) args location)
      ⟨heap, compiler⟩ (fun _ later => ∃ wider, Advance heap trust later.heap wider)
      fun fault later => fault.Harmless ∧ ∃ wider, Advance heap trust later.heap wider := by
  cases trusted with
  | closure known =>
    have world : Eval.World heap [] [holder env] :=
      ⟨trust, sound, by simp, by simpa [trusts_holder] using known.1⟩
    apply ((Course.initial heap env compiler).inlineCall_keeps (upTo_keeps safe world fuel)
      (callable_captured known.2)).mono
    · rintro _ later ⟨captured, proceeds⟩
      exact Advance.of_stage_apart proceeds.2.2.stage sound
    · exact fun _ _ spoilt => ⟨spoilt.1, Advance.of_stage_apart spoilt.2 sound⟩

/-- Inlining a trusted function meets no defect, with any amount of fuel. -/
theorem inlineCall_harmless {evaluate : Evaluator} {heap : Heap} {trust : Trust} {serial : Nat}
    {lambda : Lambda} {env : FrameId} (safe : Eval.Safe evaluate) (sound : heap.Sound trust)
    (trusted : heap.Trusts trust (.closure serial lambda env)) (held : List Held) (fuel : Nat)
    (args : List Term) (location : Location) (compiler : Compiler) :
    Ends (Compile.inlineCall (Compile.upTo evaluate held fuel) lambda (.captured env) args location)
      ⟨heap, compiler⟩ (fun _ _ => True) fun fault _ => fault.Harmless :=
  (inlineCall_careful safe sound trusted held fuel args location compiler).mono
    (fun _ _ _ => trivial) fun _ _ failed => failed.1

namespace Program

/-- At any time in a session with a compiled program, inlining a function that the session has
obtained ends, with a term or with an exception, for all arguments and in every compiler. -/
theorem inlining_settles (m : Machine) (names : Namespace) (held : List Held)
    (caller : Option FrameId) (source : Source) (heap : Heap)
    (known : ∀ id, caller = some id → ∃ frame, heap.frame? id = some frame) (p : Program)
    (later : Heap) (compiled : compile names held caller source heap = (.ok (.ok p), later))
    (turns : List Turn) (serial : Nat) (lambda : Lambda) (env : FrameId)
    (obtained : .closure serial lambda env ∈ (Session.play m (.start p, later) turns).1.values)
    (held' : List Held) (args : List Term) (location : Location) (compiler : Compiler) :
    ∃ enough outcome after,
      (∀ fuel, enough ≤ fuel →
        Compile.inlineCall (Compile.upTo (Eval.upTo m fuel) held' fuel) lambda (.captured env) args
          location ⟨(Session.play m (.start p, later) turns).2, compiler⟩ = (outcome, after)) ∧
      ∀ fault, outcome = .error fault → ∃ e, fault = .exception e := by
  obtain ⟨trust, secure⟩ := start_secure known compiled
  obtain ⟨wider, -, secure'⟩ := Session.play_secure m turns secure
  obtain ⟨enough, outcome, after, settled, fueled, -⟩ :=
    inlineCall_terminates m held' lambda env args location
      ⟨(Session.play m (.start p, later) turns).2, compiler⟩
  refine ⟨enough, outcome, after, settled, fun fault same => ?_⟩
  subst same
  have ends := inlineCall_harmless (Eval.upTo_safe m enough) secure'.sound
    (secure'.values _ obtained) held' enough args location compiler
  have harmless := ends.failed (settled enough (Nat.le_refl _))
  cases fault with
  | exception e => exact ⟨e, rfl⟩
  | defect d => exact absurd rfl (harmless d)
  | outOfFuel => exact absurd rfl fueled

/-- Two functions that call each other. -/
def eachOther : Source := ⟨"test", "let f(x) = g(x); g(x) = f(x) in f"⟩

theorem inlining_settles_eachOther : ∃ p later serial lambda env,
    compile [] [] none eachOther .empty = (.ok (.ok p), later) ∧
    .closure serial lambda env ∈
      (Session.play .standard (.start p, later) [⟨.eval 0, 9, []⟩]).1.values ∧
    ∃ enough outcome after,
      (∀ fuel, enough ≤ fuel →
        Compile.inlineCall (Compile.upTo (Eval.upTo .standard fuel) [] fuel) lambda (.captured env)
          [⟨.given "x", .float⟩] lambda.body.location
          ⟨(Session.play .standard (.start p, later) [⟨.eval 0, 9, []⟩]).2, .new⟩ =
            (outcome, after)) ∧
      ∀ fault, outcome = .error fault → ∃ e, fault = .exception e := by
  have run : ((compile [] [] none eachOther .empty).1.toOption.bind Except.toOption).any fun p =>
      (Session.play .standard (.start p, (compile [] [] none eachOther .empty).2)
        [⟨.eval 0, 9, []⟩]).1.values.any fun value => (Shape.closure? value).isSome := by
    decide +kernel
  rcases ran : compile [] [] none eachOther .empty with ⟨fault | errors | p, later⟩
  · simp [ran, Except.toOption] at run
  · simp [ran, Except.toOption] at run
  · rw [ran] at run
    obtain ⟨value, obtained, is⟩ := List.any_eq_true.mp run
    cases value with
    | closure serial lambda env =>
      exact ⟨p, later, serial, lambda, env, rfl, obtained,
        inlining_settles .standard [] [] none eachOther .empty (by simp) p later ran _ serial lambda
          env obtained [] _ _ .new⟩
    | _ => cases is

end Program

end ShapeLang
