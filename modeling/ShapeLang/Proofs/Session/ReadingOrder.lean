import ShapeLang.Proofs.Denotation.Correspondence
import ShapeLang.Proofs.Denotation.Host
import ShapeLang.Proofs.Session.Termination

/-! # The order of requests does not matter

Definitions are evaluated when they are read first, so that each read changes the frames that later
reads meet, and reads that fail change them too. A host cannot tell: whatever it read and called
before, in whatever order, it goes on with values that correspond to each other, and with
exceptions of the same kind.
-/

namespace ShapeLang

open Denotation

/-- Requests that are granted the same fuel. -/
def Request.turns (requests : List Request) (fuel : Nat) (held : List Held) : List Turn :=
  requests.map fun request => ⟨request, fuel, held⟩

namespace Session

/-- Two hosts have the same, as far as they can see: frames and functions have other numbers at
most, and different ones have different numbers. -/
def Corresponds (s s' : Session) : Prop :=
  ∃ frames serials : Nat → Nat → Prop, Value.OneToOne frames ∧ Value.OneToOne serials ∧
    List.Forall₂ (Value.Corresponds frames serials) s.values s'.values

/-- What each of some turns fails with, if it fails. -/
def outcomes (m : Machine) (state : Session × Heap) : List Turn → List (Option Fault)
  | [] => []
  | t :: turns => (turn m state t).1 :: outcomes m (turn m state t).2 turns

/-- Two hosts that take some turns each fail in the same turns and in the same way, and have the
same in the end. -/
structure SameAnswers (m : Machine) (state state' : Session × Heap) (turns turns' : List Turn) :
    Prop where
  outcomes : List.Forall₂ (Option.Rel Fault.SameKind) (outcomes m state turns)
    (outcomes m state' turns')
  values : (play m state turns).1.Corresponds (play m state' turns').1

variable {m : Machine} {view view' wider : View} {heap heap' : Heap} {s s' : Session}
  {values : List Value} {dens : List Den} {k : Nat} {held held' : List Held} {request : Request}

section Turns

/-- What one turn preserves. -/
theorem turn_knows (t : Turn) (uses : t.request.UsesValues)
    (knows : Knows m view heap s.values dens k) :
    ∃ wider dens', Evolves [] heap view (turn m (s, heap) t).2.2 wider ∧
      Knows m wider (turn m (s, heap) t).2.2 (turn m (s, heap) t).2.1.values dens' (k + 1) := by
  obtain ⟨depth, -, agrees⟩ := Knows.agrees_answer t.fuel t.held knows t.request uses
  unfold turn
  rcases ran : s.answer m t.fuel t.held t.request heap with ⟨fault | after, later⟩
  · obtain ⟨⟨wider, evolves, reflects⟩, -⟩ := agrees.failed ran
    exact ⟨wider, dens, evolves.outer List.nil_suffix, knows.later evolves reflects⟩
  · obtain ⟨wider, dens', evolves, reflects, -, means⟩ := agrees.returned ran
    exact ⟨wider, dens', evolves.outer List.nil_suffix, reflects, means, knows.free.next evolves⟩

/-- What any number of turns preserve. -/
theorem play_knows (turns : List Turn) (uses : ∀ t ∈ turns, t.request.UsesValues)
    (knows : Knows m view heap s.values dens k) :
    ∃ wider dens' k', Evolves [] heap view (play m (s, heap) turns).2 wider ∧
      Knows m wider (play m (s, heap) turns).2 (play m (s, heap) turns).1.values dens' k' := by
  induction turns generalizing s heap view dens k with
  | nil => exact ⟨view, dens, k, .refl, knows⟩
  | cons t turns ih =>
    obtain ⟨between, dens₁, evolves, knows₁⟩ := turn_knows t (uses t (by simp)) knows
    obtain ⟨wider, dens₂, k', evolves', knows₂⟩ :=
      ih (fun t mem => uses t (by simp [mem])) knows₁
    exact ⟨wider, dens₂, k', evolves.trans evolves', knows₂⟩

/-- After any number of turns, what the host had before means the same as before. -/
theorem play_knows_before (turns : List Turn) (uses : ∀ t ∈ turns, t.request.UsesValues)
    (knows : Knows m view heap s.values dens k) :
    ∃ wider k', Knows m wider (play m (s, heap) turns).2 s.values dens k' := by
  obtain ⟨wider, _, k', evolves, knows'⟩ := play_knows turns uses knows
  exact ⟨wider, k', knows'.reflects, knows.means.later evolves, knows'.free⟩

end Turns

section Comparison

/-- Every request for a value ends. -/
theorem usesValues_terminates (m : Machine) (s : Session) (held : List Held)
    (uses : request.UsesValues) (heap : Heap) :
    Terminates (fun fuel => s.answer m fuel held request) heap fun _ _ => True := by
  cases request with
  | field i name context => exact answer_terminates m s held (.field i name context) trivial heap
  | call i args caller site =>
    exact answer_terminates m s held (.call i args caller site) trivial heap
  | item i index =>
    apply Terminates.of_ends
    split
    · dsimp only
      split <;> exact .pure trivial
    · exact .pure trivial
  | constant value => exact .of_ends (.pure trivial)
  | list items => exact .of_ends (.pure trivial)
  | record fields => exact .of_ends (.pure trivial)
  | _ => exact uses.elim

theorem turn_ended (knows : Knows m view heap s.values dens k) (uses : request.UsesValues)
    (apart : request.NamesNoFrame) (held : List Held) :
    ∃ enough last, (∀ fuel, enough ≤ fuel → turn m (s, heap) ⟨request, fuel, held⟩ = last) ∧
      Ended m (fun n => Denotation.answer m (upTo m n) dens 0 [.part k] request) dens (k + 1)
        last := by
  obtain ⟨enough, result, later, settled, fueled, -⟩ := usesValues_terminates m s held uses heap
  obtain ⟨depth, outermost, agrees⟩ := Knows.agrees_answer enough held knows request uses
  obtain rfl := outermost apart
  have ran := settled enough (Nat.le_refl enough)
  cases result with
  | error fault =>
    obtain ⟨⟨wider, evolves, reflects⟩, excused⟩ := agrees.failed ran
    refine ⟨enough, (some fault, s, later), fun fuel le => ?_, .failed ?_ excused
      (knows.later evolves reflects)⟩
    · simp only [turn, settled fuel le]
    · exact fun same => fueled (congrArg Except.error same)
  | ok after =>
    obtain ⟨wider, dens', evolves, reflects, settles, means⟩ := agrees.returned ran
    refine ⟨enough, (none, after, later), fun fuel le => ?_, .answered settles
      ⟨reflects, means, knows.free.next evolves⟩⟩
    simp only [turn, settled fuel le]

theorem corresponds_of_knows (knows : Knows m view heap s.values dens k)
    (knows' : Knows m view' heap' s'.values dens k) : s.Corresponds s' :=
  ⟨_, _, knows.reflects.sameEnv knows'.reflects, knows.reflects.samePlace knows'.reflects,
    knows.means.corresponds knows'.means⟩

/-- Two hosts that know the same denotations go on in the same way. -/
theorem sameAnswers_of_knows (requests : List Request)
    (uses : ∀ request ∈ requests, request.UsesValues ∧ request.NamesNoFrame)
    (held held' : List Held) (knows : Knows m view heap s.values dens k)
    (knows' : Knows m view' heap' s'.values dens k) :
    ∃ enough, ∀ fuel fuel', enough ≤ fuel → enough ≤ fuel' →
      SameAnswers m (s, heap) (s', heap') (Request.turns requests fuel held)
        (Request.turns requests fuel' held') := by
  induction requests generalizing s s' heap heap' view view' dens k with
  | nil => exact ⟨0, fun _ _ _ _ => ⟨.nil, corresponds_of_knows knows knows'⟩⟩
  | cons request requests ih =>
    obtain ⟨asks, apart⟩ := uses request (by simp)
    obtain ⟨enough₁, last, reached, ended⟩ := turn_ended knows asks apart held
    obtain ⟨enough₂, last', reached', ended'⟩ := turn_ended knows' asks apart held'
    obtain ⟨same, view₁, view₂, dens₁, knows₁, knows₂⟩ := ended.alike ended'
    obtain ⟨enough₃, rest⟩ := ih (fun other mem => uses other (by simp [mem])) knows₁ knows₂
    refine ⟨max enough₁ (max enough₂ enough₃), fun fuel fuel' le le' => ?_⟩
    obtain ⟨outcomes, values⟩ := rest fuel fuel' (by omega) (by omega)
    have first := reached fuel (by omega)
    have second := reached' fuel' (by omega)
    constructor
    · simp only [Request.turns, List.map_cons, Session.outcomes, first, second]
      exact .cons same outcomes
    · simp only [Request.turns, List.map_cons, play, first, second]
      exact values

end Comparison

end Session

namespace Program

variable {m : Machine} {names : Namespace} {held : List Held} {caller : Option FrameId}
  {source : Source} {heap after : Heap} {p : Program}

/-- A compiled program sees nothing outside of its frame, which has room for its definitions. -/
structure Rooted (p : Program) (heap : Heap) : Prop where
  closed : p.expr.Scoped fun _ _ => False
  frame : ∃ frame, heap.frame? p.frame = some frame ∧ Room frame.slots.length p.expr.letSlots

theorem Rooted.later (rooted : p.Rooted heap) (extension : heap.Extends after) :
    p.Rooted after := by
  obtain ⟨frame, found, room⟩ := rooted.frame
  obtain ⟨frame', found', -, -, size⟩ := extension.kept p.frame frame found
  exact ⟨rooted.closed, frame', found', size ▸ room⟩

private theorem ends_catching_result {α : Type} {action : Eval α}
    {returns : Except (List ProgramError) α → Heap → Prop}
    (ends : Ends action heap (fun a => returns (.ok a)) fun _ _ => True)
    (excepted : ∀ errors after, returns (.error errors) after) :
    Ends (catching action) heap returns fun _ _ => True := by
  unfold Ends catching
  unfold Ends at ends
  rcases ran : action heap with ⟨(e | d | _) | a, after⟩
  · exact excepted _ _
  · trivial
  · trivial
  · simpa only [ran] using ends

theorem rooted_compile (compiled : compile names held caller source heap = (.ok (.ok p), after)) :
    p.Rooted after := by
  have ends : Ends (compile names held caller source) heap
      (fun result after => ∀ p, result = .ok p → p.Rooted after) fun _ _ => True := by
    unfold compile
    split
    · exact .pure fun p same => by cases same
    rename_i phrase _
    refine ends_catching_result ?_ fun _ _ _ same => by cases same
    refine Ends.through (fun resolved _ => phrase.analyze names = .ok resolved) ?_ ?_
    · unfold resolve
      cases analysed : phrase.analyze names with
      | ok resolved => exact .pure rfl
      | error fault =>
        cases fault with
        | exception e =>
          exact Ends.through (fun _ _ => True) (Ends.get trivial) fun _ _ _ => trivial
        | defect d => trivial
        | outOfFuel => trivial
    intro resolved after accepted
    obtain ⟨resolves, room⟩ := Phrase.resolves_of_analyze accepted
    refine Ends.through (fun id after => ∃ frame, after.frame? id = some frame ∧
      frame.slots.length = resolved.slotCount) ?_ ?_
    · unfold Eval.allocRoot
      have allocated (before : Heap) (callDepth : Nat) :
          Ends (Eval.alloc resolved.slotCount none caller none callDepth) before
            (fun id after => ∃ frame, after.frame? id = some frame ∧
              frame.slots.length = resolved.slotCount) fun _ _ => True :=
        .alloc ⟨_, Heap.frame?_alloc_self .., List.length_replicate⟩
      cases caller with
      | none => exact allocated after 0
      | some id =>
        exact Ends.through (fun _ _ => True) (.map (.frame (fun _ _ => trivial) fun _ => trivial))
          fun callDepth before _ => allocated before callDepth
    · rintro id after ⟨frame, found, size⟩
      refine .pure fun p same => ?_
      obtain rfl := Except.ok.inj same
      refine ⟨resolves.scoped.mono fun depth slot seen => ?_, frame, found, size ▸ room⟩
      obtain ⟨name, impossible⟩ := seen
      cases impossible
  exact ends.returned compiled p rfl

/-- A program that is evaluated gives a value that means something. -/
theorem Rooted.knows (rooted : p.Rooted heap) {fuel : Nat} {value : Value}
    (evaluated : p.eval m fuel held heap = (.ok value, after)) :
    ∃ view den, Knows m view after [value] [den] 1 := by
  obtain ⟨frame, found, room⟩ := rooted.frame
  let env : Env := .frame [] (definitions [.part 0] p.expr) frame.depth [] none
  have slots := map_slot_definitions [.part 0] p.expr
  have reflects : Reflects m [] (.root p.frame env) heap := by
    apply Reflects.root found rfl ?_ ?_ rfl rfl
    · exact ⟨slots ▸ room.nodup, fun _ _ => Nat.zero_le _, (nested_definitions _ p.expr).cons⟩
    · exact fun d mem => room.inside d.slot (slots ▸ List.mem_map_of_mem mem)
  have sits : Sits [] (.root p.frame env) p.frame env [.part 0] p.expr :=
    ⟨by simp [View.root], rooted.closed.mono fun _ _ impossible => impossible.elim,
      List.Sublist.refl _, List.nil_suffix⟩
  have free : Denotation.Free (.root p.frame env) heap [] 0 := View.free_root rfl
  obtain ⟨view, den, evolves, reflects', -, means⟩ :=
    (upTo_simulates m fuel [] _ heap (.frame p.frame :: held) p.frame env [.part 0] p.expr reflects
      sits (free.opened (Nat.le_refl 0))).returned evaluated
  exact ⟨view, den, reflects', .cons (means.seen (Knows.seen _ _)) .nil, free.next evolves⟩

/-- A program is evaluated at any time, and the host uses what it gets. Then it makes no difference
to any further requests which requests came before, in which order, and how they ended. -/
theorem order_irrelevant (m : Machine) (names : Namespace) (held : List Held)
    (caller : Option FrameId) (source : Source) (heap : Heap)
    (known : ∀ id, caller = some id → ∃ frame, heap.frame? id = some frame) (p : Program)
    (compiled : Heap) (accepted : compile names held caller source heap = (.ok (.ok p), compiled))
    (earlier : List Turn) (fuel : Nat) (held' : List Held) (value : Value) (evaluated : Heap)
    (ran : p.eval m fuel held' (Session.play m (.start p, compiled) earlier).2 =
      (.ok value, evaluated))
    (before first second : List Turn)
    (uses : ∀ t ∈ before ++ first ++ second, t.request.UsesValues) (s : Session) (heap' : Heap)
    (reached : Session.play m ((Session.start p).addValue value, evaluated) before = (s, heap'))
    (requests : List Request)
    (asks : ∀ request ∈ requests, request.UsesValues ∧ request.NamesNoFrame)
    (held₁ held₂ : List Held) :
    ∃ enough, ∀ fuel₁ fuel₂, enough ≤ fuel₁ → enough ≤ fuel₂ →
      Session.SameAnswers m (s, (Session.play m (s, heap') first).2)
        (s, (Session.play m (s, heap') second).2) (Request.turns requests fuel₁ held₁)
        (Request.turns requests fuel₂ held₂) := by
  simp only [List.mem_append] at uses
  obtain ⟨trust, secure⟩ := start_secure known accepted
  obtain ⟨_, advance, -⟩ := Session.play_secure m earlier secure
  have rooted := (rooted_compile accepted).later advance.extension
  obtain ⟨view, den, knows⟩ := rooted.knows ran
  obtain ⟨view₀, dens, k, -, knows₀⟩ := Session.play_knows (s := (Session.start p).addValue value)
    before (fun t mem => uses t (.inl (.inl mem))) knows
  rw [reached] at knows₀
  obtain ⟨view₁, k₁, knows₁⟩ := Session.play_knows_before first
    (fun t mem => uses t (.inl (.inr mem))) knows₀
  obtain ⟨view₂, k₂, knows₂⟩ := Session.play_knows_before second
    (fun t mem => uses t (.inr mem)) knows₀
  exact Session.sameAnswers_of_knows requests asks held₁ held₂
    (knows₁.mono (Nat.le_max_left k₁ k₂)) (knows₂.mono (Nat.le_max_right k₁ k₂))

/-- Two definitions that need each other, and a function under two names. -/
def cycle : Source := ⟨"cycle", "{a = b; b = [a]; f(x) = x; g = f; both = [f, g]}"⟩

/-- A host that has run into the cycle from one side gets the same afterwards as one that has read
the functions. -/
theorem order_irrelevant_cycle : ∃ p compiled value evaluated,
    compile [] [] none cycle .empty = (.ok (.ok p), compiled) ∧
    p.eval .standard 9 [] compiled = (.ok value, evaluated) ∧
    ∃ enough, ∀ fuel₁ fuel₂, enough ≤ fuel₁ → enough ≤ fuel₂ →
      Session.SameAnswers .standard
        ((Session.start p).addValue value, (Session.play .standard
          ((Session.start p).addValue value, evaluated) [⟨.field 0 "a" .empty, 9, []⟩]).2)
        ((Session.start p).addValue value, (Session.play .standard
          ((Session.start p).addValue value, evaluated) [⟨.field 0 "g" .empty, 9, []⟩]).2)
        (Request.turns [.field 0 "b" .empty, .field 0 "both" .empty] fuel₁ [])
        (Request.turns [.field 0 "b" .empty, .field 0 "both" .empty] fuel₂ []) := by
  have run : ((compile [] [] none cycle .empty).1.toOption.bind Except.toOption).any fun p =>
      (p.eval .standard 9 [] (compile [] [] none cycle .empty).2).1.toOption.isSome := by
    decide +kernel
  rcases accepted : compile [] [] none cycle .empty with ⟨fault | errors | p, compiled⟩
  · simp [accepted, Except.toOption] at run
  · simp [accepted, Except.toOption] at run
  rcases ran : p.eval .standard 9 [] compiled with ⟨fault | value, evaluated⟩
  · simp [accepted, ran, Except.toOption] at run
  refine ⟨p, compiled, value, evaluated, rfl, ran, ?_⟩
  exact order_irrelevant .standard [] [] none cycle .empty (by simp) p compiled accepted [] 9 []
    value evaluated ran [] [⟨.field 0 "a" .empty, 9, []⟩] [⟨.field 0 "g" .empty, 9, []⟩]
    (by simp [Request.UsesValues]) _ _ rfl [.field 0 "b" .empty, .field 0 "both" .empty]
    (by simp [Request.UsesValues, Request.NamesNoFrame]) [] []

end Program

end ShapeLang
