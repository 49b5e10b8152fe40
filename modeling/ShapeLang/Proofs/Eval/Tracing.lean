import ShapeLang.Proofs.Compilation
import ShapeLang.Proofs.Eval.Concurrence
import ShapeLang.Proofs.Frame.Callers

/-! # The calls that an error lists

An evaluator that is told by a rule which calls to list when the program calls `error`. With the
rule that reads them off what is under way, it evaluates every program as usual: so these are the
calls that an error lists. With the rule that lists all calls under way it does not.
-/

namespace ShapeLang

namespace Eval

/-- What `error` reports, if it is called with one argument. -/
def reported? : Value → List Value → Option ErrorKind
  | .builtin .error, [.text content] => some (.userError content)
  | .builtin .error, [value] => some (.userError value.shown)
  | _, _ => none

/-- What a call does once the function and the arguments are evaluated. -/
def invoke (m : Machine) (ev : Evaluator) (held : List Held) (id : FrameId) (site : Location)
    (function : Expr) (callee : Value) (args : List Value) : Eval Value :=
  match callee with
  | .closure _ _ _ | .builtin _ => call m ev held callee args id site
  | other =>
    raise (.values args :: .value callee :: held) (.place function.location (some id))
      (wrongType "function" other)

theorem step_call (m : Machine) (ev : Evaluator) (held : List Held) (id : FrameId)
    (site : Location) (function : Expr) (args : List Expr) :
    step m ev held id (.call site function args) = (do
      let callee ← ev held id function
      let args ← evaluateAll ev (.value callee :: held) id [] args
      invoke m ev held id site function callee args) := rfl

/-- The rule by which an error lists calls, from what is under way. -/
abbrev Listing := Heap → List Held → List Location

/-- Evaluates as `upTo` does, but lists the calls by the given rule when `error` is called. -/
def listing (m : Machine) (calls : Listing) : Nat → Evaluator
  | 0 => fun _ _ _ => throw .outOfFuel
  | fuel + 1 => fun held id expr =>
    match expr with
    | .call site function args => do
      let callee ← listing m calls fuel held id function
      let args ← evaluateAll (listing m calls fuel) (.value callee :: held) id [] args
      match reported? callee args with
      | some kind => do
        throw (.exception ⟨kind, calls (← heap) (.values args :: .value callee :: held)⟩)
      | none => invoke m (listing m calls fuel) held id site function callee args
    | other => step m (listing m calls fuel) held id other

/-- Lists the calls that the trace of what is under way leads through. -/
def traced : Listing := fun heap held =>
  heap.trace (heap.liveCounts ((Held.current held).toList ++ held.flatMap Held.frames)) none held

/-- What is kept up for the sake of errors. -/
def tracing (m : Machine) : Discipline m where
  sound := Heap.Linked
  leads := Heap.Links
  allowed held heap id := Held.current held = some id ∧ heap.Recorded held
  refl := .refl
  trans := .trans
  put id slot content linked := ⟨linked.put id slot content, .put _ id slot content⟩
  close linked := ⟨⟨linked.older, linked.inside⟩, ⟨fun _ frame found => ⟨frame, found, rfl, rfl⟩⟩⟩
  child _ linked found := by
    refine ⟨linked.alloc _ _ ?_ fun _ _ around => around, .alloc ..⟩
    intro id same
    cases same
    exact Heap.lt_size_of_frame? found
  enter _ _ _ linked found _ := by
    refine ⟨linked.alloc _ _ ?_ (by simp), .alloc ..⟩
    intro id same
    cases same
    exact Heap.lt_size_of_frame? found
  later allowed links := ⟨allowed.1, allowed.2.later links⟩
  value _ allowed := allowed
  values _ allowed := allowed
  begun other _ allowed := ⟨rfl, allowed.2⟩
  called slotCount env site _ allowed found :=
    ⟨rfl, allowed.2.later (.alloc ..), _, _, Heap.frame?_alloc_self .., rfl, rfl, allowed.1⟩

section Step

variable {m : Machine} {ev ev' : Evaluator} {held : List Held} {heap : Heap} {id : FrameId}

theorem traced_eq (linked : heap.Linked) (allowed : (tracing m).allowed held heap id) :
    traced heap held = heap.callers held id := by
  obtain ⟨worked, recorded⟩ := allowed
  have rooted : ∀ other ∈ held.flatMap Held.frames, other ∈ id :: held.flatMap Held.frames :=
    fun _ mem => List.mem_cons_of_mem _ mem
  have same := (linked.trace_eq recorded rooted).1 id worked
  simpa [traced, worked, Heap.callers] using same

/-- Whenever `error` is called, the calls that it lists are those of the trace. -/
theorem invoke_reported (ev : Evaluator) {callee : Value} {args : List Value} {kind : ErrorKind}
    (reported : reported? callee args = some kind) (linked : heap.Linked)
    (allowed : (tracing m).allowed held heap id) (site : Location) (function : Expr) :
    invoke m ev held id site function callee args heap =
      (.error (.exception ⟨kind, traced heap (.values args :: .value callee :: held)⟩), heap) := by
  have allowed' : (tracing m).allowed (.values args :: .value callee :: held) heap id := allowed
  rw [traced_eq linked allowed']
  unfold reported? at reported
  split at reported
  · cases reported
    rfl
  · rename_i value different
    cases reported
    cases value with
    | text content => exact (different content rfl).elim
    | _ => rfl
  · simp at reported

theorem concurs_invoke (alike : Alike (tracing m) ev ev') (linked : heap.Linked)
    (allowed : (tracing m).allowed held heap id) (site : Location) (function : Expr)
    (callee : Value) (args : List Value) :
    Concurs (tracing m) (invoke m ev held id site function callee args)
      (invoke m ev' held id site function callee args) heap fun _ _ => True := by
  unfold invoke
  split
  · exact concurs_call alike linked allowed
  · exact concurs_call alike linked allowed
  · exact .raise linked

end Step

/-- The calls that an error lists are those of the trace, in every evaluation. -/
theorem listing_alike (m : Machine) (fuel : Nat) :
    Alike (tracing m) (listing m traced fuel) (upTo m fuel) := by
  induction fuel with
  | zero => exact fun held id expr heap linked _ => .throw linked
  | succ fuel ih =>
    intro held id expr heap linked allowed
    unfold listing upTo
    cases expr with
    | call site function args =>
      dsimp only
      rw [step_call]
      apply (ih held id function heap linked allowed).bind
      intro callee later links linked' _
      have still := (tracing m).later allowed links
      apply (concurs_evaluateAll ih linked' ((tracing m).value callee still) args []).bind
      intro args last links' linked'' _
      have now := (tracing m).later still links'
      split
      · rename_i kind reported
        have same := invoke_reported (upTo m fuel) reported linked'' now site function
        exact ⟨same.symm, .refl last, linked''⟩
      · exact concurs_invoke ih linked'' now site function callee args
    | _ => exact step_alike ih held id _ heap linked allowed

end Eval

namespace Program

variable {names : Namespace} {held : List Held} {caller : Option FrameId} {source : Source}
  {heap : Heap}

/-- The frame of a program comes after the frame that asks for the program. -/
theorem linked_allocRoot (linked : heap.Linked) (slotCount : Nat) :
    Ends (Eval.allocRoot slotCount caller) heap (fun _ later => later.Linked)
      fun _ later => later.Linked := by
  unfold Eval.allocRoot
  cases caller with
  | none => exact linked.alloc slotCount 0 (by simp) (by simp)
  | some caller =>
    apply Ends.through (fun _ later => later = heap ∧ caller < heap.frames.size)
    · apply Ends.map
      exact .frame (fun frame found => ⟨rfl, Heap.lt_size_of_frame? found⟩) fun _ => linked
    · rintro depth _ ⟨rfl, known⟩
      exact linked.alloc slotCount depth (fun id same => Option.some.inj same ▸ known) (by simp)

theorem linked_compile (linked : heap.Linked) :
    Ends (compile names held caller source) heap (fun _ later => later.Linked)
      fun _ later => later.Linked :=
  ends_compile linked (linked_allocRoot linked)

/-- Whenever a program calls `error`, the calls that the error lists are those of the trace of what
is under way. While whatever was begun belongs to the call around it, these are all calls that were
entered and have not returned. -/
theorem error_lists_trace (m : Machine) (names : Namespace) (held : List Held)
    (caller : Option FrameId) (source : Source) (heap : Heap) (linked : heap.Linked)
    (p : Program) (compiled : Heap)
    (ran : compile names held caller source heap = (.ok (.ok p), compiled)) :
    compiled.Linked ∧
      ∀ before held, before.Linked → before.Recorded held →
        (∀ fuel, Eval.listing m Eval.traced fuel (.frame p.frame :: held) p.frame p.expr before =
            p.eval m fuel held before ∧
          (p.eval m fuel held before).2.Linked) ∧
        (before.Confined held → Eval.traced before held = Held.sites held) := by
  constructor
  · exact (linked_compile linked).returned ran
  · intro before held linked recorded
    constructor
    · intro fuel
      have allowed : (Eval.tracing m).allowed (.frame p.frame :: held) before p.frame :=
        ⟨rfl, recorded⟩
      have alike := Eval.listing_alike m fuel _ p.frame p.expr before linked allowed
      exact ⟨alike.1, alike.sound_after⟩
    · exact fun confined => (linked.trace_eq_sites confined).1

section Lazy

/-- A definition that fails is needed by a function. -/
def lazily : Source := ⟨"test", "let a = error(\"x\"); f(y) = a in f(1)"⟩

private theorem compiles_lazily :
    ∃ p compiled, compile .standard [] none lazily .empty = (.ok (.ok p), compiled) := by
  have accepted : ((compile .standard [] none lazily .empty).1.toOption.bind
      Except.toOption).isSome := by decide +kernel
  rcases ran : compile .standard [] none lazily .empty with ⟨fault | errors | p, later⟩
  · simp [ran, Except.toOption] at accepted
  · simp [ran, Except.toOption] at accepted
  · exact ⟨p, later, rfl⟩

theorem error_lists_trace_lazily : ∃ p compiled,
    compile .standard [] none lazily .empty = (.ok (.ok p), compiled) ∧
    Eval.listing .standard Eval.traced 9 [.frame p.frame] p.frame p.expr compiled =
      p.eval .standard 9 [] compiled := by
  obtain ⟨p, compiled, ran⟩ := compiles_lazily
  obtain ⟨linked, listed⟩ :=
    error_lists_trace .standard .standard [] none lazily .empty .empty p compiled ran
  exact ⟨p, compiled, ran, ((listed compiled [] linked trivial).1 9).1⟩

/-- The places of the exception that a computation ends with. -/
def placesOf (result : Except Fault Value) : Option (List Location) :=
  match result with
  | .error (.exception e) => some e.locations
  | _ => none

/-- The call that is under way is not listed, since the definition does not belong to it. -/
theorem error_lists_too_few : ∃ p compiled,
    compile .standard [] none lazily .empty = (.ok (.ok p), compiled) ∧
    placesOf (p.eval .standard 9 [] compiled).1 = some [] ∧
    (placesOf (Eval.listing .standard (fun _ held => Held.sites held) 9 [.frame p.frame] p.frame
      p.expr compiled).1).map List.length = some 1 := by
  have run : ((compile .standard [] none lazily .empty).1.toOption.bind Except.toOption).all
      fun p =>
        placesOf (p.eval .standard 9 [] (compile .standard [] none lazily .empty).2).1 = some [] ∧
        (placesOf (Eval.listing .standard (fun _ held => Held.sites held) 9 [.frame p.frame]
          p.frame p.expr (compile .standard [] none lazily .empty).2).1).map List.length =
          some 1 := by decide +kernel
  obtain ⟨p, compiled, ran⟩ := compiles_lazily
  rw [ran] at run
  exact ⟨p, compiled, ran, by simpa [Except.toOption] using run⟩

end Lazy

end Program

end ShapeLang
