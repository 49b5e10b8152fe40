import ShapeLang.Proofs.Builtin.Complaints
import ShapeLang.Proofs.Eval.Conduct
import ShapeLang.Proofs.Eval.Tracing
import ShapeLang.Proofs.Frame.Depths
import ShapeLang.Shape

/-! # Calls that are refused for their depth

However frames are made, the calls that an error lists from a frame are at most as many as its depth
counts, and exactly as many if none of the callers is gone. So no exception of an evaluation lists
more than one place besides the calls that the limit allows; and the exception for a call that is
refused lists all of them, unless a caller is gone.
-/

namespace ShapeLang

namespace Heap.Made

variable {m : Machine} {heap : Heap} {id : FrameId} {frame : Frame}

theorem put (made : heap.Made m) (id : FrameId) (slot : Nat) (content : Slot) :
    (heap.put id slot content).Made m :=
  made.slots id _

theorem inside (made : heap.Made m) (found : heap.frame? id = some frame) (slotCount : Nat) :
    (heap.alloc slotCount (some id) (some id) none frame.depth).2.Made m := by
  have ran : Eval.allocChild slotCount id heap =
      (.ok heap.frames.size, (heap.alloc slotCount (some id) (some id) none frame.depth).2) := by
    apply Ends.exact
    apply Ends.allocChild
    · intro other found'
      simp [Option.some.inj (found'.symm.trans found)]
    · intro missing
      simp [found] at missing
  exact made.child slotCount id ran

theorem entered (made : heap.Made m) (found : heap.frame? id = some frame)
    (fits : frame.depth + 1 ≤ m.maxCallDepth) (slotCount : Nat) (env : FrameId)
    (site : Location) :
    (heap.alloc slotCount (some env) (some id) (some site) (frame.depth + 1)).2.Made m := by
  have ran : Eval.allocCall m [] slotCount env id site heap = (.ok heap.frames.size,
      (heap.alloc slotCount (some env) (some id) (some site) (frame.depth + 1)).2) := by
    apply Ends.exact
    apply Ends.allocCall
    · intro other found' _
      simp [Option.some.inj (found'.symm.trans found)]
    · intro other _ found' deep
      obtain rfl := Option.some.inj (found'.symm.trans found)
      omega
    · intro missing
      simp [found] at missing
  exact made.call [] slotCount env id site ran

/-- A program is compiled into a frame of its own, if at all. -/
theorem compile (made : heap.Made m) (names : Namespace) (held : List Held)
    (caller : Option FrameId) (source : Source) :
    Ends (Program.compile names held caller source) heap (fun _ later => later.Made m)
      fun _ later => later.Made m := by
  apply Program.ends_compile made
  intro slotCount
  have failing : Ends (Eval.allocRoot slotCount caller) heap (fun _ _ => True)
      fun _ later => later = heap := by
    unfold Eval.allocRoot
    cases caller with
    | none => exact Ends.alloc trivial
    | some caller =>
      apply Ends.through fun _ _ => True
      · exact .map (.frame (fun _ _ => trivial) fun _ => rfl)
      · exact fun _ _ _ => Ends.alloc trivial
  apply (Ends.ran fun fault later ran => failing.failed ran ▸ made).mono
  · exact fun root later ran => made.root slotCount caller ran
  · exact fun _ _ made' => made'

end Heap.Made

/-- An exception lists at most one place besides the calls that the machine allows. -/
def Fault.Brief (m : Machine) (fault : Fault) : Prop :=
  ∀ e, fault = .exception e → e.locations.length ≤ m.maxCallDepth + 1

namespace Eval

variable {m : Machine} {ev ev' : Evaluator} {held : List Held} {heap : Heap} {id : FrameId}

/-- Frames are made as the machine makes them, and exceptions are brief. -/
def briefly (m : Machine) : Conduct m where
  sound := Heap.Made m
  leads _ _ := True
  faulty := Fault.Brief m
  fillable _ _ := True
  refl _ := trivial
  trans _ _ := trivial
  fill made _ _ := ⟨made.put .., trivial⟩
  begin made _ _ := made.put ..
  finish _ _ _ _ made _ := ⟨made.put .., trivial⟩
  close made := ⟨made.closures _, trivial⟩
  child slotCount made found := ⟨made.inside found slotCount, trivial, fun _ => trivial⟩
  enter slotCount env site made found fits :=
    ⟨made.entered found fits slotCount env site, trivial, fun _ => trivial⟩
  raised made held context kind e same := by
    cases same
    exact made.counted.locations_le held context
  broken d e same := by cases same
  starved e same := by cases same

/-- Frames are made as the machine makes them. -/
def making (m : Machine) : Discipline m where
  sound := Heap.Made m
  leads _ _ := True
  allowed _ _ _ := True
  refl _ := trivial
  trans _ _ := trivial
  put id slot content made := ⟨made.put id slot content, trivial⟩
  close made := ⟨made.closures _, trivial⟩
  child slotCount made found := ⟨made.inside found slotCount, trivial⟩
  enter slotCount env site made found fits := ⟨made.entered found fits slotCount env site, trivial⟩
  later _ _ := trivial
  value _ _ := trivial
  values _ _ := trivial
  begun _ _ _ := trivial
  called _ _ _ _ _ _ := trivial

/-- Gives an alarm if a call is refused for its depth, none of the callers is gone, and still the
exception does not list as many calls as the limit allows, and one place besides. -/
def inspected (m : Machine) (alarm : Fault) (held : List Held) (caller : FrameId)
    (action : Eval Value) : Eval Value := fun heap =>
  match action heap with
  | (.error (.exception ⟨.stackOverflow limit, locations⟩), after) =>
    if m.maxCallDepth ≤ heap.depthOf caller ∧ heap.callersKept held caller ∧
        locations.length ≠ m.maxCallDepth + 1 then (.error alarm, after)
    else (.error (.exception ⟨.stackOverflow limit, locations⟩), after)
  | other => other

/-- Evaluates as `upTo` does, but inspects all calls. -/
def overseen (m : Machine) (alarm : Fault) : Nat → Evaluator
  | 0 => fun _ _ _ => throw .outOfFuel
  | fuel + 1 => fun held id expr =>
    match expr with
    | .call site function args => do
      let callee ← overseen m alarm fuel held id function
      let args ← evaluateAll (overseen m alarm fuel) (.value callee :: held) id [] args
      inspected m alarm (.values args :: .value callee :: held) id
        (invoke m (overseen m alarm fuel) held id site function callee args)
    | other => step m (overseen m alarm fuel) held id other

/-- The faults by which a call can be refused for its depth, and what they list. -/
def Overflows (heap : Heap) (held : List Held) (id : FrameId) (fault : Fault) : Prop :=
  ∀ limit locations, fault = .exception ⟨.stackOverflow limit, locations⟩ →
    ∃ site, locations = site :: heap.callers held id

theorem overflows_of_shallow {kind : ErrorKind} (shallow : kind.Shallow)
    (locations : List Location) : Overflows heap held id (.exception ⟨kind, locations⟩) := by
  intro limit places same
  cases same
  exact (shallow limit rfl).elim

/-- From a frame of the greatest depth nothing is called. -/
theorem call_overflows (deep : m.maxCallDepth ≤ heap.depthOf id) {function : Value}
    {args : List Value} {site : Location} :
    Ends (call m ev held function args id site) heap (fun _ _ => True)
      fun fault _ => Overflows heap (.values args :: .value function :: held) id fault := by
  have counting {expected found : Nat} : (ErrorKind.argumentCount expected found).Shallow := by
    intro limit
    simp
  unfold call
  dsimp only
  split
  · rename_i serial lambda env
    split
    · exact Ends.stop (.raise fun _ => overflows_of_shallow counting _)
    · apply Ends.stop
      unfold allocCall
      apply Ends.through fun frame later => heap.frame? id = some frame ∧ heap = later
      · exact .frame (fun frame found => ⟨found, rfl⟩) fun _ _ _ same => by cases same
      · rintro frame _ ⟨found, rfl⟩
        rw [Heap.depthOf_of_frame? found] at deep
        simp only [Nat.lt_succ_of_le deep, ↓reduceIte]
        apply Ends.stop
        intro limit locations same
        cases same
        exact ⟨site, rfl⟩
  · rename_i builtin
    have complains := builtin.apply_shallow m.arithmetic args
    split
    · exact Ends.stop (.raise fun _ => overflows_of_shallow counting _)
    · split
      · exact Ends.pure trivial
      · rename_i kind failed
        exact .raise fun _ => overflows_of_shallow (complains _ failed) _
      · rename_i kind failed
        exact .raise fun _ => overflows_of_shallow (complains _ failed) _
      · exact .defect fun _ _ same => by cases same
  · exact .raise fun _ => overflows_of_shallow (.wrongType _ _) _

theorem invoke_overflows (deep : m.maxCallDepth ≤ heap.depthOf id) {site : Location}
    {function : Expr} {callee : Value} {args : List Value} :
    Ends (invoke m ev held id site function callee args) heap (fun _ _ => True)
      fun fault _ => Overflows heap (.values args :: .value callee :: held) id fault := by
  unfold invoke
  split
  · exact call_overflows deep
  · exact call_overflows deep
  · exact .raise fun _ => overflows_of_shallow (.wrongType _ _) _

/-- As long as nothing else is listed, there is no alarm. -/
theorem inspected_eq (made : heap.Made m) {action : Eval Value} (alarm : Fault)
    (overflows : m.maxCallDepth ≤ heap.depthOf id →
      Ends action heap (fun _ _ => True) fun fault _ => Overflows heap held id fault) :
    inspected m alarm held id action heap = action heap := by
  unfold inspected
  split
  · rename_i limit locations after ran
    rw [ran, if_neg]
    rintro ⟨deep, kept, different⟩
    obtain ⟨site, rfl⟩ := (overflows deep).failed ran limit locations rfl
    have whole : (heap.callers held id).length = heap.depthOf id := by
      by_cases known : id < heap.frames.size
      · exact made.counted.callChain_eq (Nat.lt_succ_of_lt known) kept
      · have missing := Heap.frame?_eq_none_iff.mpr (Nat.le_of_not_lt known)
        simp [Heap.callers, Heap.callChain, Heap.depthOf, missing]
    have limited := made.counted.shallow.depthOf_le id
    exact different (by rw [List.length_cons, whole]; omega)
  · rfl

theorem concurs_inspected (made : heap.Made m) {action other : Eval Value} (alarm : Fault)
    (concurs : Concurs (making m) action other heap fun _ _ => True)
    (overflows : m.maxCallDepth ≤ heap.depthOf id →
      Ends action heap (fun _ _ => True) fun fault _ => Overflows heap held id fault) :
    Concurs (making m) (inspected m alarm held id action) other heap fun _ _ => True :=
  concurs.congr (inspected_eq made alarm overflows)

/-- Whatever is evaluated, inspecting the calls changes nothing. -/
theorem overseen_alike (m : Machine) (alarm : Fault) (fuel : Nat) :
    Alike (making m) (overseen m alarm fuel) (upTo m fuel) := by
  induction fuel with
  | zero => exact fun held id expr heap made _ => .throw made
  | succ fuel ih =>
    intro held id expr heap made allowed
    unfold overseen upTo
    cases expr with
    | call site function args =>
      dsimp only
      rw [step_call]
      apply (ih held id function heap made allowed).bind
      intro callee later _ made' _
      apply (concurs_evaluateAll ih made' allowed args []).bind
      intro args last _ made'' _
      refine concurs_inspected made'' alarm ?_ fun deep => invoke_overflows deep
      unfold invoke
      split
      · exact concurs_call ih made'' allowed
      · exact concurs_call ih made'' allowed
      · exact .raise made''
    | _ => exact step_alike ih held id _ heap made allowed

/-- A computation leaves frames as the machine makes them and fails briefly, and to inspect its
calls makes no difference. -/
def Measured {α : Type} (m : Machine) (action inspecting : Eval α) (heap : Heap) : Prop :=
  action heap = inspecting heap ∧
    Ends action heap (fun _ later => later.Made m) fun fault later =>
      later.Made m ∧ fault.Brief m

namespace Measured

variable {α β : Type} {action inspecting : Eval α} {returns : α → Prop}

theorem of_alike {returns' : α → Heap → Prop} (behaves : Behaves (briefly m) action heap returns)
    (concurs : Concurs (making m) inspecting action heap returns') :
    Measured m action inspecting heap := by
  refine ⟨concurs.1.symm, behaves.mono ?_ ?_⟩
  · exact fun _ _ ⟨_, made, _⟩ => made
  · exact fun _ _ ⟨_, made, brief⟩ => ⟨made, brief⟩

/-- Nothing is called. -/
theorem of_behaves (behaves : Behaves (briefly m) action heap returns) :
    Measured m action action heap := by
  refine ⟨rfl, behaves.mono ?_ ?_⟩
  · exact fun _ _ ⟨_, made, _⟩ => made
  · exact fun _ _ ⟨_, made, brief⟩ => ⟨made, brief⟩

theorem bind {next next' : α → Eval β} (first : Measured m action inspecting heap)
    (second : ∀ a later, later.Made m → Measured m (next a) (next' a) later) :
    Measured m (action >>= next) (inspecting >>= next') heap := by
  obtain ⟨same, ends⟩ := first
  constructor
  · rw [bind_run, bind_run, ← same]
    rcases ran : action heap with ⟨fault | a, later⟩
    · rfl
    · exact (second a later (ends.returned ran)).1
  · exact ends.bind fun a later made => (second a later made).2

theorem upTo (made : heap.Made m) (fuel : Nat) (alarm : Fault) (held : List Held) (id : FrameId)
    (expr : Expr) :
    Measured m (Eval.upTo m fuel held id expr) (overseen m alarm fuel held id expr) heap :=
  of_alike (upTo_conducts (fun _ _ => trivial) fuel held id expr heap made)
    (overseen_alike m alarm fuel held id expr heap made trivial)

theorem field? (made : heap.Made m) (fuel : Nat) (alarm : Fault) (held : List Held)
    (value : Value) (name : String) (context : Context) :
    Measured m (Eval.field? (Eval.upTo m fuel) held value name context)
      (Eval.field? (overseen m alarm fuel) held value name context) heap := by
  have allowed : (making m).allowed held heap 0 := trivial
  exact of_alike (behaves_field? (upTo_conducts (fun _ _ => trivial) fuel) made)
    (concurs_field? (overseen_alike m alarm fuel) made allowed)

theorem call (made : heap.Made m) (fuel : Nat) (alarm : Fault) (held : List Held)
    (function : Value) (args : List Value) (caller : FrameId) (site : Location) :
    Measured m (Eval.call m (Eval.upTo m fuel) held function args caller site)
      (inspected m alarm (.values args :: .value function :: held) caller
        (Eval.call m (overseen m alarm fuel) held function args caller site)) heap :=
  of_alike (behaves_call (upTo_conducts (fun _ _ => trivial) fuel) made)
    (concurs_inspected made alarm (concurs_call (overseen_alike m alarm fuel) made trivial)
      fun deep => call_overflows deep)

/-- A function of a shape is evaluated in a frame of its own, which was emptied and filled. -/
theorem sample (made : heap.Made m) (fuel : Nat) (alarm : Fault) (held : List Held)
    (r : Recognizer) (role : ShapeRole) (result : Value → Except ErrorKind α) (p : Point)
    (t : Float) :
    Measured m (r.sample (Eval.upTo m fuel) held role result p t)
      (r.sample (overseen m alarm fuel) held role result p t) heap := by
  have storing {heap : Heap} (made : heap.Made m) (id slot : Nat) (value : Value) :
      Measured m (Eval.store id slot (.ready value)) (Eval.store id slot (.ready value)) heap :=
    of_behaves (Behaves.store made trivial (by simp))
  unfold Recognizer.sample
  apply bind
  · unfold Recognizer.function
    split
    · exact ⟨rfl, Ends.pure made⟩
    · have refused : Behaves (briefly m)
          (Eval.raise (r.held ++ held) r.context .notAShape : Eval ShapeFunction)
          heap fun _ => True := .raise made
      exact of_behaves refused
  intro function later made'
  apply bind
  · unfold Recognizer.callAt
    have cleared : Measured m (Eval.clear function.frame) (Eval.clear function.frame) later :=
      ⟨rfl, Ends.modify (made'.slots function.frame _)⟩
    apply bind cleared
    intro _ cleared made''
    split
    · exact (storing made'' _ _ _).bind fun _ _ stored => upTo stored fuel alarm _ _ _
    · apply (storing made'' _ _ _).bind
      intro _ _ stored
      exact (storing stored _ _ _).bind fun _ _ stored' => upTo stored' fuel alarm _ _ _
  · exact fun value last made'' => of_behaves (Behaves.blaming made'')

end Measured

/-- For every frame that can be made, and whatever was released since, the calls that are found
along its callers are at most as many as its depth, which is at most the limit, and exactly as many
if no caller is gone. So exceptions list at most one place more than the limit allows calls, and
exactly so many if a call was refused for its depth while no caller was gone. -/
theorem call_chains_match_depths (m : Machine) (heap : Heap) (made : heap.Made m) :
    (∀ id frame live, heap.frame? id = some frame →
      frame.depth ≤ m.maxCallDepth ∧
      (heap.callChain live (heap.frames.size + 1) id).length ≤ frame.depth ∧
      (heap.callersLive live (heap.frames.size + 1) id →
        (heap.callChain live (heap.frames.size + 1) id).length = frame.depth)) ∧
    (∀ names held caller source after result,
      Program.compile names held caller source heap = (result, after) → after.Made m) ∧
    ∀ fuel alarm held,
      (∀ id expr, Measured m (upTo m fuel held id expr) (overseen m alarm fuel held id expr) heap) ∧
      (∀ value name context, Measured m (field? (upTo m fuel) held value name context)
        (field? (overseen m alarm fuel) held value name context) heap) ∧
      (∀ function args caller site, Measured m
        (call m (upTo m fuel) held function args caller site)
        (inspected m alarm (.values args :: .value function :: held) caller
          (call m (overseen m alarm fuel) held function args caller site)) heap) ∧
      ∀ (r : Recognizer) p t,
        Measured m (r.dist (upTo m fuel) held p t) (r.dist (overseen m alarm fuel) held p t) heap ∧
        Measured m (r.colour (upTo m fuel) held p t) (r.colour (overseen m alarm fuel) held p t)
          heap := by
  refine ⟨?_, ?_, ?_⟩
  · intro id frame live found
    have depth := Heap.depthOf_of_frame? found
    refine ⟨made.counted.shallow id frame found, ?_, ?_⟩
    · exact depth ▸ made.counted.callChain_le _ id
    · intro kept
      rw [← depth]
      exact made.counted.callChain_eq (Nat.lt_succ_of_lt (Heap.lt_size_of_frame? found)) kept
  · intro names held caller source after result ran
    have ends := made.compile names held caller source
    cases result with
    | ok a => exact ends.returned ran
    | error fault => exact ends.failed ran
  · intro fuel alarm held
    refine ⟨?_, ?_, ?_, ?_⟩
    · exact fun id expr => .upTo made fuel alarm held id expr
    · exact fun value name context => .field? made fuel alarm held value name context
    · exact fun function args caller site => .call made fuel alarm held function args caller site
    · exact fun r p t => ⟨.sample made fuel alarm held r .dist toNumber p t,
        .sample made fuel alarm held r .colour Recognizer.toColour p t⟩

section Endless

/-- A function that calls itself without end. -/
def endless : Source := ⟨"test", "let f(n) = f(n) in f(true)"⟩

/-- A machine that allows two calls. -/
def twoCalls : Machine := ⟨.binary64, 2⟩

/-- How many places the exception lists that a computation ends with, if a call was refused. -/
def refusedAt (result : Except Fault Value) : Option Nat :=
  match result with
  | .error (.exception ⟨.stackOverflow _, locations⟩) => some locations.length
  | _ => none

/-- The third call is refused. -/
theorem call_chains_match_depths_endless : ∃ p compiled,
    Program.compile [] [] none endless .empty = (.ok (.ok p), compiled) ∧ compiled.Made twoCalls ∧
    refusedAt (p.eval twoCalls 9 [] compiled).1 = some 3 ∧
    ∀ alarm, overseen twoCalls alarm 9 [.frame p.frame] p.frame p.expr compiled =
      p.eval twoCalls 9 [] compiled := by
  have run : ((Program.compile [] [] none endless .empty).1.toOption.bind
      Except.toOption).any fun p => refusedAt (p.eval twoCalls 9 []
        (Program.compile [] [] none endless .empty).2).1 = some 3 := by decide +kernel
  rcases ran : Program.compile [] [] none endless .empty with ⟨fault | errors | p, compiled⟩
  · simp [ran, Except.toOption] at run
  · simp [ran, Except.toOption] at run
  · have made := (call_chains_match_depths twoCalls .empty .empty).2.1 _ _ _ _ _ _ ran
    rw [ran] at run
    refine ⟨p, compiled, rfl, made, by simpa [Except.toOption] using run, fun alarm => ?_⟩
    exact (((call_chains_match_depths twoCalls compiled made).2.2 9 alarm _).1 _ _).1.symm

end Endless

end Eval

end ShapeLang
