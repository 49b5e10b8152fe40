import ShapeLang.Proofs.Session.Inlining
import ShapeLang.Proofs.Session.Limits
import ShapeLang.Proofs.Session.Shapes
import ShapeLang.Proofs.Shader.Renaming

/-! # Inlining does not depend on what was compiled before

Two compilers that have written different code write the same for a function, up to the numbers of
new names. When they do so one after the other, the second one meets the captured definitions as the
first one has left them, evaluated as far as it came. A host may also have read and inlined anything
else in between: what a function is compiled to stays the same.
-/

namespace ShapeLang

open Denotation
open Shader

section Code

/-- Inlines a function that captured a frame, with some amount of fuel. -/
def Shader.Compile.inlineClosure (m : Machine) (fuel : Nat) (held : List Held) (lambda : Lambda)
    (env : FrameId) (args : List Term) (location : Location) : Compile Term :=
  inlineCall (upTo (Eval.upTo m fuel) held fuel) lambda (.captured env) args location

variable {m : Machine} {fuel fuel' depth depth' : Nat} {held : List Held} {lambda : Lambda}
  {env : FrameId} {args : List Term} {location : Location} {first second : Compiler}
  {heap : Heap} {outcome : Except Fault Term} {after : CompilerState}

end Code

namespace Shader

variable {evaluate evaluate' : Nat → Evaluator} {held held' : List Held}
  {captures : Captures evaluate evaluate' held held'} {world : captures.World} {heap heap' : Heap}

/-- Two compilations that begin in one compiler. Nothing is said about the frames that are there
already. -/
theorem Joined.start (heaps : captures.heaps world heap heap') (compiler : Compiler)
    (same : ∀ place ∈ compiler.inlining, captures.literals place place) :
    ∃ frames, Joined (⟨world, frames⟩ : Setting captures) ⟨heap, compiler⟩ ⟨heap', compiler⟩ := by
  let unknown (frame : SymbolicFrame) : FramePair :=
    ⟨fun _ _ => False, match frame.outer with
      | .captured id => .captured id id
      | .symbolic id => .symbolic id⟩
  refine ⟨compiler.frames.toList.map unknown, heaps, rfl, rfl, List.forall₂_same.mpr same, by simp,
    by simp, fun id pair there => ?_⟩
  simp only [List.getElem?_map, Array.getElem?_toList, Option.map_eq_some_iff] at there
  obtain ⟨⟨slots, outer⟩, found, rfl⟩ := there
  refine ⟨_, _, found, found, ?_, ?_, fun _ _ impossible => impossible.elim⟩
  · cases outer with
    | captured id => exact .captured id id
    | symbolic id => exact .symbolic id
  · exact fun _ _ _ _ impossible => impossible.elim

end Shader

/-- What a host does with what it has: it makes a request, or it inlines a function into some
code. -/
inductive Deed where
  | ask (t : Turn)
  | inline (function : Nat) (args : List Term) (location : Location) (compiler : Compiler)
      (fuel : Nat) (held : List Held)

namespace Deed

/-- Requests are for values and shapes. -/
def Allowed : Deed → Prop
  | ask t => t.request.UsesShapes
  | inline _ _ _ _ _ _ => True

/-- What the host has afterwards. -/
def done (m : Machine) (state : Session × Heap) : Deed → Session × Heap
  | ask t => (Session.turn m state t).2
  | inline i args location compiler fuel held =>
    match state.1.values[i]? with
    | some (.closure _ lambda env) =>
      (state.1,
        (Compile.inlineClosure m fuel held lambda env args location ⟨state.2, compiler⟩).2.heap)
    | _ => state

end Deed

namespace Session

variable {m : Machine} {s s' : Session} {dens dens' : List Den} {heap heap' : Heap}
  {view view' : View} {trust trust' : Trust} {k k' : Nat} {value : Value} {den : Den} {serial : Nat}
  {lambda : Lambda} {env : FrameId}

namespace Denoted

/-- What a host has denotes something. -/
theorem means (denoted : Denoted m s dens heap view trust k) (mem : value ∈ s.values) :
    ∃ den, Means [] view [] value den := by
  obtain ⟨i, there⟩ := List.getElem?_of_mem mem
  have known := denoted.knows.means.getElem? i
  generalize dens[i]? = den at known
  rw [there] at known
  cases known with | some means => exact ⟨_, means⟩

/-- Inlining a function leaves frames that reflect denotations. -/
theorem inlines (denoted : Denoted m s dens heap view trust k)
    (mem : .closure serial lambda env ∈ s.values) (fuel : Nat) (held : List Held)
    (args : List Term) (location : Location) (compiler : Compiler) :
    ∃ wider, Evolves [.part k] heap view
        (Compile.inlineClosure m fuel held lambda env args location ⟨heap, compiler⟩).2.heap wider ∧
      Reflects m [] wider
        (Compile.inlineClosure m fuel held lambda env args location ⟨heap, compiler⟩).2.heap := by
  have heaps : (capturesAgain m fuel held k).heaps ⟨heap, view⟩ heap heap :=
    ⟨rfl, rfl, denoted.knows.reflects⟩
  obtain ⟨den, means⟩ := denoted.means mem
  obtain ⟨frames, joined⟩ := Joined.start heaps compiler fun _ _ => rfl
  cases means.shows means with
  | closure code =>
    have parallel : Parallel (⟨⟨heap, view⟩, frames⟩ : Setting (capturesAgain m fuel held k))
        (fun _ => Compile.inlineClosure m fuel held lambda env args location)
        (fun _ => Compile.inlineClosure m fuel held lambda env args location) ⟨heap, compiler⟩
        ⟨heap, compiler⟩ fun _ term term' => term = term' :=
      joined.inlineCall (follows_upTo (capturesAgain m fuel held k) fuel) (.captured env env) code
        args
    have both := parallel.ends
    generalize Compile.inlineClosure m fuel held lambda env args location ⟨heap, compiler⟩ = last
      at both ⊢
    obtain ⟨fault | term, after⟩ := last
    · cases both with
      | failed failure =>
        obtain ⟨-, -, ⟨_, wider⟩, evolves, -, rfl, reflects⟩ := failure
        exact ⟨wider, evolves, reflects⟩
    · cases both with
      | returned ended =>
        obtain ⟨⟨⟨_, wider⟩, _⟩, ⟨evolves, -⟩, joined', -⟩ := ended
        obtain ⟨-, rfl, reflects⟩ := joined'.heaps
        exact ⟨wider, evolves, reflects⟩

/-- What one deed preserves. -/
theorem deed (denoted : Denoted m s dens heap view trust k) (deed : Deed) (allowed : deed.Allowed) :
    ∃ dens' view' trust' k',
      Denoted m (deed.done m (s, heap)).1 dens' (deed.done m (s, heap)).2 view' trust' k' ∧
      Kept s heap view (deed.done m (s, heap)).1 (deed.done m (s, heap)).2 view' := by
  cases deed with
  | ask t => exact denoted.turn t allowed
  | inline i args location compiler fuel held =>
    have idle : ∃ dens' view' trust' k', Denoted m s dens' heap view' trust' k' ∧
        Kept s heap view s heap view' := ⟨dens, view, trust, k, denoted, .refl⟩
    simp only [Deed.done]
    split
    · rename_i serial lambda env there
      have mem := List.mem_of_getElem? there
      obtain ⟨wider, evolves, reflects⟩ := denoted.inlines mem fuel held args location compiler
      have careful := inlineCall_careful (Eval.upTo_safe m fuel) denoted.secure.sound
        (denoted.secure.values _ mem) held fuel args location compiler
      have advance : ∃ trust', Advance heap trust (Compile.inlineClosure m fuel held lambda env args
          location ⟨heap, compiler⟩).2.heap trust' :=
        Ends.outcome (fun _ later => ∃ trust', Advance heap trust later.heap trust')
          (careful.mono (fun _ _ advance => advance) fun _ _ failed => failed.2)
      obtain ⟨trust', advance⟩ := advance
      obtain ⟨view', denoted', kept⟩ := Grown.refl.denoted denoted
        (evolves.outer List.nil_suffix) (denoted.knows.later evolves reflects)
        (denoted.secure.advance advance)
      exact ⟨dens, view', trust', k + 1, denoted', kept⟩
    · exact idle

section Again

variable (denoted : Denoted m s dens heap view trust k)
  (denoted' : Denoted m s' dens' heap' view' trust' k')
  (means : Means [] view [] (.closure serial lambda env) den)
  (means' : Means [] view' [] (.closure serial lambda env) den) {held held' : List Held}
  {args : List Term} {location : Location} {compiler : Compiler}

include denoted denoted' means means'

end Again

end Denoted

end Session

/-- A host that has evaluated a compiled program, at any time, and gone on with what it has got. -/
inductive Hosted (m : Machine) : Session × Heap → Prop
  | evaluated {names : Namespace} {held : List Held} {caller : Option FrameId} {source : Source}
      {heap : Heap} (known : ∀ id, caller = some id → ∃ frame, heap.frame? id = some frame)
      {p : Program} {compiled : Heap}
      (accepted : Program.compile names held caller source heap = (.ok (.ok p), compiled))
      (earlier : List Turn) {fuel : Nat} {held' : List Held} {value : Value} {evaluated : Heap}
      (ran : p.eval m fuel held' (Session.play m (.start p, compiled) earlier).2 =
        (.ok value, evaluated)) :
      Hosted m ((Session.start p).addValue value, evaluated)
  | went_on {state : Session × Heap} (hosted : Hosted m state) (deed : Deed)
      (allowed : deed.Allowed) : Hosted m (deed.done m state)

theorem Hosted.denoted {m : Machine} {state : Session × Heap} (hosted : Hosted m state) :
    ∃ dens view trust k, Session.Denoted m state.1 dens state.2 view trust k := by
  induction hosted with
  | evaluated known accepted earlier ran => exact Program.exists_denoted known accepted ran
  | went_on hosted deed allowed ih =>
    obtain ⟨dens, view, trust, k, denoted⟩ := ih
    obtain ⟨dens', view', trust', k', denoted', -⟩ := denoted.deed deed allowed
    exact ⟨dens', view', trust', k', denoted'⟩

namespace Program

/-- A function that fails, and one with a definition that refers to its own frame. The first one was
made by a call in that frame. -/
def entangled : Source :=
  ⟨"test", "let g(z) = let a = x -> x in [h(1), y -> a]; h(w) = let b = error(w) in v -> b in g(0)"⟩

/-- How many places the exception lists that something ends with. -/
def listed {α : Type} : Except Fault α → Option Nat
  | .error (.exception e) => some e.locations.length
  | _ => none

/-- How many places are listed when the first of two functions is inlined, at once and after the
second one. Nothing is held. -/
def listings (state : Session × Heap) : Option Nat × Option Nat :=
  match state.1.values with
  | [_, .closure _ lambda env, .closure _ _ _] =>
    let args : List Term := [⟨.given "x", .float⟩]
    let place := lambda.body.location
    let later := ((Deed.inline 2 args place .new 20 []).done .standard state).2
    (listed (Compile.inlineClosure .standard 20 [] lambda env args place ⟨state.2, .new⟩).1,
      listed (Compile.inlineClosure .standard 20 [] lambda env args place ⟨later, .new⟩).1)
  | _ => (none, none)

/-- The second function keeps the frame that led to the first one, so that one more call is
listed. -/
theorem inlining_keeps_callers : ∃ state, Hosted .standard state ∧
    listings state = (some 1, some 2) := by
  let first : Deed := .ask ⟨.item 0 0, 0, []⟩
  let second : Deed := .ask ⟨.item 0 1, 0, []⟩
  have run : ((compile .standard [] none entangled .empty).1.toOption.bind
      Except.toOption).any fun p =>
        let ended := p.eval .standard 20 [] (compile .standard [] none entangled .empty).2
        ended.1.toOption.any fun value => listings (second.done .standard (first.done .standard
          ((Session.start p).addValue value, ended.2))) = (some 1, some 2) := by
    decide +kernel
  rcases accepted : compile .standard [] none entangled .empty with ⟨fault | errors | p, compiled⟩
  · simp [accepted, Except.toOption] at run
  · simp [accepted, Except.toOption] at run
  rcases ran : p.eval .standard 20 [] compiled with ⟨fault | value, heap⟩
  · simp [accepted, ran, Except.toOption] at run
  have hosted : Hosted .standard ((Session.start p).addValue value, heap) :=
    .evaluated (by simp) accepted [] ran
  refine ⟨_, (hosted.went_on first trivial).went_on second trivial, ?_⟩
  simpa [accepted, ran, Except.toOption] using run

end Program

end ShapeLang
