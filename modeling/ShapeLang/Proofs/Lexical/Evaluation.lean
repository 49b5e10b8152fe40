import ShapeLang.Program
import ShapeLang.Proofs.Eval.Termination
import ShapeLang.Proofs.Lexical.Simulation
import ShapeLang.Proofs.Scope.Soundness

/-! # Evaluation means what the names say

A phrase that is accepted is resolved to an expression over frames. Evaluating the expression in a
root frame ends as evaluating the phrase by names does: with values of the same form, or with a
mistake of the same kind. Modules and functions among the values belong to frames and scopes that
mirror each other, so that reading fields of them and calling them ends alike, too.
-/

namespace ShapeLang.Lexical

open Eval (Neat)

/-- With any amount of fuel, evaluation over frames and evaluation by names agree. -/
theorem upTo_simulates (m : Machine) (names : Namespace) (base fuel : Nat) :
    Simulates names base (Eval.upTo m fuel) (upTo m names fuel) := by
  induction fuel with
  | zero => exact fun _ _ _ _ _ _ _ _ _ _ _ _ _ _ => .outOfFuel
  | succ fuel ih => exact step_simulates (Eval.upTo_safe m fuel) (Eval.upTo_tidy m base fuel) ih

/-- Values of expressions with values of phrases of the same form. Their modules and functions
belong to frames, from some number on, and to scopes that lie in these frames and hold the same. -/
def Related (names : Namespace) (base : Nat) (pairs : List (ShapeLang.Value × Value)) (heap : Heap)
    (store : Store) : Prop :=
  ∃ placement, Mirrors names base placement heap store ∧ Neat base heap (pairs.map (·.1)) ∧
    ∀ pair ∈ pairs, Corresponds names base placement heap pair.1 pair.2

section Uses

variable {m : Machine} {names : Namespace} {base fuel : Nat} {heap : Heap} {store : Store}
  {pairs : List (ShapeLang.Value × Value)}

private theorem Related.course (related : Related names base pairs heap store) :
    ∃ placement, Course names base heap placement base [] heap store placement pairs := by
  obtain ⟨placement, mirrors, neat, same⟩ := related
  exact ⟨placement, mirrors, List.prefix_refl _, .refl neat.orderly, neat, same⟩

private theorem Course.related {start : Heap} {first placement : Placement} {id : FrameId}
    {places : List Nat}
    (course : Course names base start first id places heap store placement pairs) :
    Related names base pairs heap store :=
  ⟨placement, course.mirrors, course.neat, course.same⟩

/-- What is done with values on one side and with their counterparts on the other ends alike, and
results are counterparts again. -/
structure Interchangeable (m : Machine) (names : Namespace) (base fuel : Nat)
    (pairs : List (ShapeLang.Value × Value)) (heap : Heap) (store : Store) : Prop where
  field : ∀ pair ∈ pairs, ∀ (held : List Held) (name : String) (context : Context),
    Agrees (Eval.field? (Eval.upTo m fuel) held pair.1 name context) heap
      (field? (upTo m names fuel) pair.2 name) store fun found after found' store' =>
        ∃ more : Option (ShapeLang.Value × Value), found = more.map (·.1) ∧
          found' = more.map (·.2) ∧ Related names base (more.toList ++ pairs) after store'
  /-- A call from a frame, and from code with as many calls around it. -/
  call : ∀ pair ∈ pairs, ∀ args : List (ShapeLang.Value × Value), (∀ arg ∈ args, arg ∈ pairs) →
    ∀ (held : List Held) (caller : FrameId) (frame : Frame) (site : Location),
    heap.frame? caller = some frame →
    Agrees (Eval.call m (Eval.upTo m fuel) held pair.1 (args.map (·.1)) caller site) heap
      (call m (upTo m names fuel) pair.2 (args.map (·.2)) frame.depth) store
      fun value after value' store' => Related names base ((value, value') :: pairs) after store'

theorem Related.interchangeable (related : Related names base pairs heap store) :
    Interchangeable m names base fuel pairs heap store := by
  obtain ⟨placement, course⟩ := related.course
  have safe := Eval.upTo_safe m fuel
  have tidy := Eval.upTo_tidy m base fuel
  have simulates := upTo_simulates m names base fuel
  constructor
  · intro pair mem held name context
    apply (agrees_field? safe tidy simulates course mem).mono
    rintro found after found' store' ⟨later, more, rfl, rfl, course'⟩
    exact ⟨more, rfl, rfl, course'.related⟩
  · intro pair mem args given held caller frame site found
    apply (agrees_call safe tidy simulates course found mem given).mono
    rintro value after value' store' ⟨later, course'⟩
    exact course'.related

end Uses

section Programs

variable {names : Namespace}

/-- Evaluates a phrase as a program, in no scope, from code with some calls around it. -/
def run (m : Machine) (names : Namespace) (fuel depth : Nat) (phrase : Phrase) : Walk Value :=
  upTo m names fuel ⟨[], depth⟩ phrase.asProgram

/-- No scopes, after some closures were made. -/
def Store.start (closures : Nat) : Store := ⟨#[], closures⟩

theorem Mirrors.start (names : Namespace) (base : Nat) (heap : Heap) :
    Mirrors names base [] heap (.start heap.closures) :=
  ⟨rfl, rfl, by simp, by simp, by simp⟩

/-- Evaluates what a phrase was resolved to, in a root frame. -/
def evaluate (m : Machine) (fuel : Nat) (held : List Held) (caller : Option FrameId)
    (source : Source) (phrase : Phrase) (resolved : Resolved) : Eval ShapeLang.Value := do
  let root ← Eval.allocRoot resolved.slotCount caller
  Program.eval m fuel held ⟨source, phrase, resolved.expr, root⟩

/-- The number of calls around the frame that asks for a program, if there is one. -/
def depthOf (heap : Heap) (caller : Option FrameId) : Nat :=
  (caller.bind heap.frame?).elim 0 Frame.depth

private theorem ends_allocRoot {heap : Heap} {slotCount : Nat} {caller : Option FrameId}
    {returns : FrameId → Heap → Prop} {fails : Fault → Heap → Prop}
    (known : ∀ id, caller = some id → ∃ frame, heap.frame? id = some frame)
    (ok : returns heap.frames.size
      (heap.alloc slotCount none caller none (depthOf heap caller)).2) :
    Ends (Eval.allocRoot slotCount caller) heap returns fails := by
  unfold Eval.allocRoot
  cases caller with
  | none => exact .alloc ok
  | some id =>
    obtain ⟨frame, found⟩ := known id rfl
    rw [depthOf, Option.bind_some, found, Option.elim_some] at ok
    refine Ends.through (fun callDepth after => callDepth = frame.depth ∧ after = heap)
      (.map (.frame_found found ⟨rfl, rfl⟩)) ?_
    rintro _ _ ⟨rfl, rfl⟩
    exact .alloc ok

/-- Evaluating a resolved phrase over frames ends as evaluating the phrase by names does. -/
theorem agrees_evaluate (m : Machine) {phrase : Phrase} {resolved : Resolved}
    (accepted : phrase.analyze names = .ok resolved) (heap : Heap) (caller : Option FrameId)
    (known : ∀ id, caller = some id → ∃ frame, heap.frame? id = some frame) (held : List Held)
    (source : Source) (fuel : Nat) :
    Agrees (evaluate m fuel held caller source phrase resolved) heap
      (run m names fuel (depthOf heap caller) phrase) (.start heap.closures)
      fun value after value' store =>
        Related names heap.frames.size [(value, value')] after store := by
  obtain ⟨resolves, room⟩ := Phrase.resolves_of_analyze accepted
  apply Agrees.left
  apply ends_allocRoot known
  let root := (heap.alloc resolved.slotCount none caller none (depthOf heap caller)).2
  have neat : Neat heap.frames.size root [] := .root heap _ _ caller
  have found : root.frame? heap.frames.size = some _ := Heap.frame?_alloc_self ..
  have inside : root.Since heap.frames.size heap.frames.size :=
    ⟨Nat.le_refl _, Heap.lt_size_of_frame? found⟩
  have mirrors : Mirrors names heap.frames.size [] root (.start heap.closures) := .start ..
  apply (agrees_run (Eval.upTo_safe m fuel) (Eval.upTo_tidy m _ fuel)
    (upTo_simulates m names _ fuel) mirrors neat ⟨.root inside, _, found, rfl⟩ resolves
    (Eval.spareAt_root heap _ caller room)).mono
  rintro value after value' store ⟨later, course⟩
  exact course.related

/-- Evaluation over frames means what the names of a phrase say. With enough fuel it ends, and it
ends as evaluation by names does: with related values, or with a mistake of the same kind. Reading
fields of related values and calling them ends alike, too. -/
theorem frames_follow_names (m : Machine) {phrase : Phrase} {resolved : Resolved}
    (accepted : phrase.analyze names = .ok resolved) (heap : Heap) (caller : Option FrameId)
    (known : ∀ id, caller = some id → ∃ frame, heap.frame? id = some frame) (held : List Held)
    (source : Source) :
    (∀ fuel, Agrees (evaluate m fuel held caller source phrase resolved) heap
      (run m names fuel (depthOf heap caller) phrase) (.start heap.closures)
      fun value after value' store =>
        Related names heap.frames.size [(value, value')] after store) ∧
    Terminates (fun fuel => evaluate m fuel held caller source phrase resolved) heap
      (fun _ _ => True) ∧
    ∀ fuel pairs after store, Related names heap.frames.size pairs after store →
      Interchangeable m names heap.frames.size fuel pairs after store := by
  refine ⟨agrees_evaluate m accepted heap caller known held source, ?_,
    fun fuel pairs after store related => related.interchangeable⟩
  apply Terminates.through (fun _ _ => True) (.of_ends (ends_allocRoot known trivial))
  intro root between _
  exact (Eval.upTo_terminates m between (.frame root :: held) root resolved.expr).mono
    fun _ _ _ => trivial

/-- The function keeps to the variable around it, which the module has another field of the same
name for. -/
def captured : Source := ⟨"captured", "let x = true; f(y) = x in {x = f(false); g = f}"⟩

theorem frames_follow_names_captured : ∃ phrase resolved, captured.phrase = .ok phrase ∧
    phrase.analyze [] = .ok resolved ∧
    (∀ fuel, Agrees (evaluate .standard fuel [] none captured phrase resolved) .empty
      (run .standard [] fuel 0 phrase) (.start 0)
      fun value after value' store => Related [] 0 [(value, value')] after store) ∧
    Terminates (fun fuel => evaluate .standard fuel [] none captured phrase resolved) .empty
      (fun _ _ => True) ∧
    ∀ fuel pairs after store, Related [] 0 pairs after store →
      Interchangeable .standard [] 0 fuel pairs after store := by
  have analysed : (captured.phrase.toOption.bind fun phrase =>
      (phrase.analyze []).toOption).isSome := by
    decide +kernel
  rcases parsed : captured.phrase with errors | phrase
  · simp [parsed, Except.toOption] at analysed
  rcases accepted : phrase.analyze [] with fault | resolved
  · simp [parsed, accepted, Except.toOption] at analysed
  exact ⟨phrase, resolved, rfl, accepted,
    frames_follow_names .standard accepted .empty none (by simp) [] captured⟩

end Programs

end ShapeLang.Lexical
