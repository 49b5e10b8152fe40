import ShapeLang.Proofs.Session.Safety
import ShapeLang.Proofs.Shader.Tidy

/-! # Definitions are bound once

A definition gets its value when it is needed, and keeps it until it is bound anew. In evaluation
that is when its `let` is evaluated once more in the same frame, as it is by each evaluation of a
program and each sample of a shape. In the compilation of a function it does not happen.
-/

namespace ShapeLang

open Eval (Act Forced guarded)
open Shader

/-- The compilation of a trusted function, by which every definition is bound once and gives all its
uses the same text. -/
theorem checked_inlineCall {heap : Heap} {trust : Trust} {serial : Nat} {lambda : Lambda}
    {env : FrameId} (sound : heap.Sound trust) (trusted : heap.Trusts trust (.closure serial lambda env))
    (m : Machine) (evaluations fuel : Nat) (held : List Held) (alarm : Fault) (args : List Term)
    (location : Location) (compiler : Compiler) :
    Compile.inlineCall (Compile.checked (Eval.upTo m evaluations) held alarm
        (Compile.inlineCall (Compile.upTo (Eval.upTo m evaluations) held fuel) lambda
          (.captured env) args location ⟨heap, compiler⟩).2.text? fuel)
        lambda (.captured env) args location ⟨heap, compiler⟩ =
      Compile.inlineCall (Compile.upTo (Eval.upTo m evaluations) held fuel) lambda (.captured env)
        args location ⟨heap, compiler⟩ := by
  cases trusted with
  | closure known =>
    have world : Eval.World heap [] [holder env] :=
      ⟨trust, sound, by simp, by simpa [trusts_holder] using known.1⟩
    have nothing : (CompilerState.outline ⟨heap, compiler⟩).OrderlyFrom compiler.frames.size := by
      intro id frame low found
      have inside := Heap.lt_size_of_frame? found
      rw [CompilerState.size_outline] at inside
      exact absurd inside (Nat.not_lt.mpr low)
    exact (tidies_inlineCall (checked_tidies m evaluations fuel held alarm world)
      (Course.initial heap env compiler) nothing (callable_captured known.2) args location 0
      ).unnoticed _ (CompilerState.shows_text? _)

namespace Program

/-- Forcing a slot leaves no mark behind, in any frame, and leaves in the slot what it found there
or the value that it gives. A value that is there is given without evaluation. It stays there
whatever is run, unless a `let` is evaluated once more in the frame and puts its definition into the
slot, or the frame is that of a function of a shape and is emptied for the next sample. For symbolic
frames the same holds; and when a function of a session is compiled, no `let` finds anything in its
slots, and all uses of a slot get the text that is there at the end. -/
theorem definitions_bound_once (m : Machine) (names : Namespace) (held : List Held)
    (caller : Option FrameId) (source : Source) (start : Heap)
    (known : ∀ id, caller = some id → ∃ frame, start.frame? id = some frame) (p : Program)
    (later : Heap) (compiled : compile names held caller source start = (.ok (.ok p), later))
    (turns : List Turn) (serial : Nat) (lambda : Lambda) (env : FrameId)
    (obtained : .closure serial lambda env ∈ (Session.play m (.start p, later) turns).1.values) :
    (∀ fuel held id slot context heap,
      Forced heap id slot (Eval.force (Eval.upTo m fuel) held id slot context heap).1
        (Eval.force (Eval.upTo m fuel) held id slot context heap).2) ∧
    (∀ (heap : Heap) id slot value, heap.slot? id slot = some (.ready value) →
      (∀ ev held context, Eval.force ev held id slot context heap = (.ok value, heap)) ∧
      ∀ fuel acts alarm,
        (∃ done act rest, acts = done ++ act :: rest ∧
          (act.Empties id ∨ (act.run m (guarded m alarm id slot fuel)
            (Act.runAll m (Eval.upTo m fuel) done heap)).1 = .error alarm)) ∨
        (Act.runAll m (Eval.upTo m fuel) acts heap).slot? id slot = some (.ready value)) ∧
    (∀ evaluations fuel held location id slot state,
      Shader.Forced state id slot
        (Compile.force (Compile.upTo (Eval.upTo m evaluations) held fuel) location id slot state).1
        (Compile.force (Compile.upTo (Eval.upTo m evaluations) held fuel) location id slot
          state).2) ∧
    (∀ (state : CompilerState) id slot term, state.slot? id slot = some (.ready term) →
      ∀ compile location, Compile.force compile location id slot state = (.ok term, state)) ∧
    ∀ evaluations fuel held args location compiler alarm,
      Compile.inlineCall (Compile.checked (Eval.upTo m evaluations) held alarm
          (Compile.inlineCall (Compile.upTo (Eval.upTo m evaluations) held fuel) lambda
            (.captured env) args location
            ⟨(Session.play m (.start p, later) turns).2, compiler⟩).2.text? fuel)
          lambda (.captured env) args location
          ⟨(Session.play m (.start p, later) turns).2, compiler⟩ =
        Compile.inlineCall (Compile.upTo (Eval.upTo m evaluations) held fuel) lambda
          (.captured env) args location
          ⟨(Session.play m (.start p, later) turns).2, compiler⟩ := by
  obtain ⟨trust, secure⟩ := start_secure known compiled
  obtain ⟨wider, -, secure'⟩ := Session.play_secure m turns secure
  refine ⟨fun fuel held id slot context heap => ?_, fun heap id slot value holds => ⟨?_, ?_⟩,
    fun evaluations fuel held location id slot state => ?_, fun state id slot term holds => ?_, ?_⟩
  · exact Ends.outcome _ (Eval.forced_force m fuel held id slot context heap)
  · exact Eval.force_ready holds
  · exact fun fuel acts alarm => Act.runAll_keeps fuel acts holds
  · exact Ends.outcome _ (forced_force m evaluations fuel held location id slot state)
  · exact force_ready holds
  · intro evaluations fuel held args location compiler alarm
    exact checked_inlineCall secure'.sound (secure'.values _ obtained) m evaluations fuel held alarm
      args location compiler

/-- A definition that is used twice. -/
def doubled : Source := ⟨"test", "x -> let y = x + x in y * y"⟩

theorem definitions_bound_once_doubled : ∃ p later serial lambda env,
    compile [] [] none doubled .empty = (.ok (.ok p), later) ∧
    .closure serial lambda env ∈
      (Session.play .standard (.start p, later) [⟨.eval 0, 9, []⟩]).1.values ∧
    ∀ evaluations fuel alarm,
      let state := ⟨(Session.play .standard (.start p, later) [⟨.eval 0, 9, []⟩]).2, .new⟩
      let args := [⟨.given "x", .float⟩]
      Compile.inlineCall (Compile.checked (Eval.upTo .standard evaluations) [] alarm
          (Compile.inlineCall (Compile.upTo (Eval.upTo .standard evaluations) [] fuel) lambda
            (.captured env) args lambda.body.location state).2.text? fuel)
          lambda (.captured env) args lambda.body.location state =
        Compile.inlineCall (Compile.upTo (Eval.upTo .standard evaluations) [] fuel) lambda
          (.captured env) args lambda.body.location state := by
  have run : ((compile [] [] none doubled .empty).1.toOption.bind Except.toOption).any fun p =>
      (Session.play .standard (.start p, (compile [] [] none doubled .empty).2)
        [⟨.eval 0, 9, []⟩]).1.values.any fun value => (Shape.closure? value).isSome := by
    decide +kernel
  rcases ran : compile [] [] none doubled .empty with ⟨fault | errors | p, later⟩
  · simp [ran, Except.toOption] at run
  · simp [ran, Except.toOption] at run
  · rw [ran] at run
    obtain ⟨value, obtained, is⟩ := List.any_eq_true.mp run
    cases value with
    | closure serial lambda env =>
      have bound := definitions_bound_once .standard [] [] none doubled .empty (by simp) p later ran
        _ serial lambda env obtained
      exact ⟨p, later, serial, lambda, env, rfl, obtained, fun evaluations fuel alarm =>
        bound.2.2.2.2 evaluations fuel [] _ _ .new alarm⟩
    | _ => cases is

/-- A function with a name. -/
def named : Source := ⟨"test", "let f = x -> x in f"⟩

/-- The number of the function that a computation has given. -/
def functionOf? : Except Fault Value → Option Nat
  | .ok (.closure serial _ _) => some serial
  | _ => none

/-- The definition keeps its function only until the program is evaluated again, and then gets
another one. -/
theorem definition_bound_again : ∃ p start, compile [] [] none named .empty = (.ok (.ok p), start) ∧
    let first := (p.eval .standard 9 [] start).2
    let second := (p.eval .standard 9 [] first).2
    functionOf? (Eval.force (Eval.upTo .standard 9) [] p.frame 0 (.place p.nub none) first).1 =
      some 0 ∧
    functionOf? (Eval.force (Eval.upTo .standard 9) [] p.frame 0 (.place p.nub none) second).1 =
      some 1 := by
  have run : ((compile [] [] none named .empty).1.toOption.bind Except.toOption).any fun p =>
      let first := (p.eval .standard 9 [] (compile [] [] none named .empty).2).2
      let second := (p.eval .standard 9 [] first).2
      functionOf? (Eval.force (Eval.upTo .standard 9) [] p.frame 0 (.place p.nub none) first).1 ==
        some 0 &&
      functionOf? (Eval.force (Eval.upTo .standard 9) [] p.frame 0 (.place p.nub none) second).1 ==
        some 1 := by
    decide +kernel
  rcases ran : compile [] [] none named .empty with ⟨fault | errors | p, start⟩
  · simp [ran, Except.toOption] at run
  · simp [ran, Except.toOption] at run
  · simp only [ran, Except.toOption, Option.bind_some, Option.any_some, Bool.and_eq_true,
      beq_iff_eq] at run
    exact ⟨p, start, rfl, run⟩

end Program

end ShapeLang
