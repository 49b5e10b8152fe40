import ShapeLang.Proofs.Shader.Emission
import ShapeLang.Proofs.Shader.Frames
import ShapeLang.Shape.Export

/-! # Shader code is in single assignment and well-typed

Compilation of any expression keeps the statements in single assignment, also when it gives up half
way, and gives a term that stands for a value. It does not matter what evaluation of captured frames
does: it leaves the compiler alone. From this follows what any sequence of requests to one compiler
makes.
-/

namespace ShapeLang

namespace Shader

section Quiet

variable {α : Type} {state : CompilerState} {location : Location} {id slot : Nat}

theorem Quiet.unsupported {holds : α → Prop} {what : String} :
    Quiet holds (Compile.unsupported location what) state :=
  rfl

theorem Quiet.bind {β : Type} {action : Compile α} {next : α → Compile β} {holds : α → Prop}
    {more : β → Prop} (first : Quiet holds action state)
    (second : ∀ a (later : CompilerState), holds a → Quiet more (next a) later) :
    Quiet more (action >>= next) state := by
  apply Ends.bind first
  rintro a later ⟨same, true⟩
  apply (second a later true).mono
  · exact fun _ _ ⟨same', result⟩ => ⟨same'.trans same, result⟩
  · exact fun _ _ same' => same'.trans same

/-- A part that leaves the compiler alone goes before anything. -/
theorem Quiet.before {β : Type} {arguments : List Variable} {action : Compile α}
    {next : α → Compile β} {holds : α → Prop} {more : List Variable → β → Prop}
    (first : Quiet holds action state)
    (second : ∀ a (later : CompilerState), Writes arguments more (next a) later) :
    Writes arguments more (action >>= next) state := by
  have silent : Writes arguments (fun _ a => holds a) action state := first.writes fun _ true => true
  exact silent.bind fun a later _ _ => second a later

theorem quiet_evaluating (action : Eval α) :
    Quiet (fun _ => True) (Compile.evaluating action) state := by
  apply Ends.evaluating
  unfold Ends
  split
  · exact ⟨rfl, trivial⟩
  · rfl

theorem quiet_frame : Quiet (fun _ => True) (Compile.frame id) state :=
  .symbolicFrame (fun _ _ => ⟨rfl, trivial⟩) fun _ => rfl

theorem quiet_ancestor {depth : Nat} :
    Quiet (fun _ => True) (Compile.ancestor id depth) state := by
  induction depth generalizing id state with
  | zero => exact ⟨rfl, trivial⟩
  | succ depth ih =>
    rw [Compile.ancestor]
    apply quiet_frame.bind
    intro frame later _
    split
    · exact ih
    · exact Ends.map (quiet_evaluating _)

theorem quiet_captured {evaluate : Evaluator} {held : List Held} {frame : FrameId} :
    Quiet (fun _ => True) (Compile.captured evaluate held location frame slot) state :=
  quiet_evaluating _

theorem quiet_callee {evaluate : Evaluator} {held : List Held} {function : Expr} :
    Quiet (fun _ => True) (Compile.callee evaluate held id function) state := by
  unfold Compile.callee
  dsimp only
  split
  · exact ⟨rfl, trivial⟩
  · exact ⟨rfl, trivial⟩
  · apply quiet_ancestor.bind
    intro outer later _
    split
    · apply quiet_frame.bind
      intro frame last _
      split
      · exact ⟨rfl, trivial⟩
      · exact .unsupported
    · apply quiet_captured.bind
      intro value last _
      split
      · exact ⟨rfl, trivial⟩
      · exact .unsupported
  · exact .unsupported

end Quiet

section Slots

variable {arguments : List Variable} {state : CompilerState} {location : Location} {id slot : Nat}

/-- What is put into a slot has to stand for a value, unless it waits to be compiled. -/
theorem writes_store {content : SymbolicSlot}
    (stands : ∀ term, content = .ready term →
      Stands (arguments ++ state.compiler.declared) term) :
    Writes arguments (fun _ _ => True) (Compile.store id slot content) state := by
  intro wellFormed
  apply Ends.symbolicStore
  · exact fun _ _ _ => ⟨wellFormed.put id slot stands, fun _ mem => mem, trivial⟩
  · exact fun _ _ _ => wellFormed
  · exact fun _ => wellFormed

theorem writes_storePending {definitions : List (Nat × Expr)} :
    Writes arguments (fun _ _ => True) (Compile.storePending id definitions) state := by
  induction definitions generalizing state with
  | nil => exact .pure trivial
  | cons definition definitions ih =>
    have first : Writes arguments (fun _ _ => True)
        (Compile.store id definition.1 (.pending definition.2)) state :=
      writes_store fun term pending => by cases pending
    exact first.bind fun _ _ _ _ => ih

theorem writes_storeAll {terms : List Term}
    (stands : ∀ term ∈ terms, Stands (arguments ++ state.compiler.declared) term) :
    Writes arguments (fun _ _ => True) (Compile.storeAll id slot terms) state := by
  induction terms generalizing state slot with
  | nil => exact .pure trivial
  | cons term terms ih =>
    obtain ⟨first, others⟩ := List.forall_mem_cons.mp stands
    have stored : Writes arguments (fun _ _ => True)
        (Compile.store id slot (.ready term)) state :=
      writes_store fun other same => SymbolicSlot.ready.inj same ▸ first
    apply stored.bind
    intro _ later precedes _
    exact ih fun other mem => precedes.stands (others other mem)

end Slots

section Inlining

variable {arguments : List Variable} {state : CompilerState} {location : Location} {id slot : Nat}
  {compile : Inliner}

variable (arguments) in
/-- A compiler of expressions that keeps the statements in single assignment. -/
def WritingInliner (compile : Inliner) : Prop :=
  ∀ id expr state, Writes arguments Stands (compile id expr) state

/-- A definition keeps the term that it is compiled to, or waits again. -/
theorem writes_force (writing : WritingInliner arguments compile) :
    Writes arguments Stands (Compile.force compile location id slot) state := by
  intro wellFormed
  apply Ends.symbolicForce
  · intro frame term found ready
    exact ⟨wellFormed, fun _ mem => mem, wellFormed.ready id frame slot term found ready⟩
  · intro frame definition found pending
    have busy : (state.compiler.put id slot .busy).WellFormed arguments :=
      wellFormed.put id slot fun term same => by cases same
    apply (writing id definition _ busy).mono
    · rintro term later ⟨kept, precedes, stands⟩
      refine ⟨kept.put id slot fun other same => ?_, precedes, stands⟩
      exact SymbolicSlot.ready.inj same ▸ stands
    · rintro fault later kept
      exact kept.put id slot fun term same => by cases same
  · exact fun _ _ _ => wellFormed
  · exact fun _ _ _ => wellFormed
  · exact fun _ _ _ => wellFormed
  · exact fun _ => wellFormed

/-- Which functions are being inlined is no matter of the statements. -/
theorem writes_inlining {function : Location} {action : Compile Term}
    (writes : Writes arguments Stands action (state.entering function)) :
    Writes arguments Stands (Compile.inlining function action) state := by
  intro wellFormed
  apply Ends.inlining
  apply (writes (wellFormed.of_frames rfl rfl wellFormed.ready)).mono
  · rintro term later ⟨kept, precedes, stands⟩
    exact ⟨kept.of_frames rfl rfl kept.ready, precedes, stands⟩
  · rintro fault later kept
    exact kept.of_frames rfl rfl kept.ready

theorem writes_alloc {slotCount : Nat} {outer : Outer} :
    Writes arguments (fun _ _ => True) (Compile.alloc slotCount outer) state := by
  intro wellFormed
  apply Ends.symbolicAlloc
  exact ⟨wellFormed.alloc slotCount outer, fun _ mem => mem, trivial⟩

/-- A call, in any surroundings, with arguments that stand for values. -/
theorem writes_inlineCall (writing : WritingInliner arguments compile) {lambda : Lambda}
    {outer : Outer} {args : List Term}
    (stands : ∀ arg ∈ args, Stands (arguments ++ state.compiler.declared) arg) :
    Writes arguments Stands (Compile.inlineCall compile lambda outer args location) state := by
  unfold Compile.inlineCall
  apply Writes.unless fun _ => .raise
  intro _
  have current : Writes arguments (fun _ _ => True) Compile.compiler state :=
    fun wellFormed => ⟨wellFormed, fun _ mem => mem, trivial⟩
  apply current.bind
  intro compiler later precedes _
  apply Writes.unless fun _ => .unsupported
  intro _
  apply writes_alloc.bind
  intro id entered precedes' _
  apply (writes_storeAll fun arg mem => precedes'.stands (precedes.stands (stands arg mem))).bind
  intro _ stored _ _
  exact writes_inlining (writing id lambda.body _)

/-- Compiling several parts. -/
theorem writes_each (writing : WritingInliner arguments compile) (exprs : List Expr) :
    Writes arguments (fun scope terms => ∀ term ∈ terms, Stands scope term)
      (exprs.mapM (compile id)) state := by
  induction exprs generalizing state with
  | nil =>
    apply Writes.pure
    simp
  | cons expr exprs ih =>
    rw [List.mapM_cons]
    apply (writing id expr state).bind
    intro term later _ first
    apply ih.bind
    intro terms last precedes others
    exact .pure (List.forall_mem_cons.mpr ⟨precedes.stands first, others⟩)

theorem position?_lt {x : Float} {count place : Nat} (is : Eval.position? x count = some place) :
    place < count := by
  unfold Eval.position? at is
  split at is
  · split at is
    · cases is
      assumption
    · cases is
  · cases is

theorem step_writes {evaluate : Evaluator} {held : List Held}
    (writing : WritingInliner arguments compile) :
    WritingInliner arguments (Compile.step evaluate held compile) := by
  intro id expr state
  unfold Compile.step
  cases expr with
  | constant => exact writes_constant _
  | slot location depth slot =>
    apply quiet_ancestor.before
    intro outer later
    cases outer with
    | symbolic owner => exact writes_force writing
    | captured owner =>
      exact quiet_captured.before fun value last => writes_constant value
  | call location function args =>
    apply quiet_callee.before
    intro callee later
    apply (writes_each writing args).bind
    intro args last _ stands
    cases callee with
    | lambda lambda outer => exact writes_inlineCall writing stands
    | builtin function => exact writes_builtin stands
  | list location items =>
    apply (writes_each writing items).bind
    exact fun items later _ stands => writes_vector stands
  | record => exact .unsupported
  | «module» => exact .unsupported
  | lambda => exact .unsupported
  | forEach => exact .unsupported
  | letIn location bindings body =>
    apply writes_storePending.bind
    exact fun _ later _ _ => writing id body later
  | unary location op operand =>
    apply (writing id operand state).bind
    exact fun x later _ stands => writes_unary stands
  | binary location op left right =>
    apply (writing id left state).bind
    intro a later _ first
    apply (writing id right later).bind
    exact fun b last precedes second => writes_binary (precedes.stands first) second
  | conditional location condition whenTrue whenFalse =>
    apply (writing id condition state).bind
    intro c later _ first
    apply Writes.unless fun _ => .unsupported
    intro bool
    apply (writing id whenTrue later).bind
    intro a later' precedes second
    apply (writing id whenFalse later').bind
    intro b last precedes' third
    apply Writes.unless fun _ => .unsupported
    intro same
    exact .define (typed_select (precedes'.stands (precedes.stands first)) (precedes'.stands second)
      third (not_not.mp bool) (not_not.mp same))
  | dot location base name =>
    apply (writing id base state).bind
    exact fun v later _ stands => writes_field stands
  | index location base index =>
    apply (writing id base state).bind
    intro v later _ first
    split
    · exact .unsupported
    · rename_i count sized
      obtain ⟨size, vector⟩ := Option.filter_eq_some_iff.mp sized
      apply (writing id index later).bind
      intro i last precedes second
      apply Writes.unless fun _ => .unsupported
      intro float
      split
      · split
        · rename_i place here
          exact .define (typed_component (precedes.stands first) vector size (position?_lt here))
        · exact .raise
      · exact .define (typed_element vector (precedes.stands first) second (not_not.mp float))

/-- Compilation keeps the statements in single assignment, with any amount of fuel. -/
theorem upTo_writes {evaluate : Evaluator} {held : List Held} (fuel : Nat) :
    WritingInliner arguments (Compile.upTo evaluate held fuel) := by
  induction fuel with
  | zero => exact fun _ _ _ => .throw
  | succ fuel ih => exact step_writes ih

end Inlining

/-- What a compiler can be asked for: to inline a function, or a function of a shape at the point
and time that a vector holds. -/
inductive Request where
  | call (lambda : Lambda) (outer : Outer) (args : List Term) (location : Location)
  | shape (recognizer : Recognizer) (role : ShapeRole) (param : Term)

namespace Request

variable {arguments : List Variable} {state : CompilerState}

/-- The compilation that is asked for. -/
def run (evaluate : Evaluator) (held : List Held) (fuel : Nat) : Request → Compile Term
  | call lambda outer args location =>
    Compile.inlineCall (Compile.upTo evaluate held fuel) lambda outer args location
  | shape recognizer role param => recognizer.inline evaluate held fuel role param

/-- The terms that are handed over stand for values, and for a vector where one is needed. -/
def Admissible (scope : List Variable) : Request → Prop
  | call _ _ args _ => ∀ arg ∈ args, Stands scope arg
  | shape _ _ param => Stands scope param ∧ param.type = .vec4

/-- A function of a shape takes a vector as it is, or split into the point and the time. -/
theorem writes_function {compile : Inliner} (writing : WritingInliner arguments compile)
    (function : ShapeFunction) {param : Term}
    (stands : Stands (arguments ++ state.compiler.declared) param) (vector : param.type = .vec4) :
    Writes arguments Stands (function.inline compile param) state := by
  unfold ShapeFunction.inline
  have located : Quiet (fun _ => True) (Compile.evaluating (Eval.frame function.frame)) state :=
    quiet_evaluating _
  have here : Writes arguments (fun scope _ => Stands scope param)
      (Compile.evaluating (Eval.frame function.frame)) state := located.writes fun _ _ => stands
  apply here.bind
  intro frame later _ stands
  split
  · exact .throw
  · rename_i env _
    dsimp only
    split
    · rw [pure_bind]
      exact writes_inlineCall writing (List.forall_mem_singleton.mpr stands)
    · apply (Writes.define (typed_firstThree stands vector)).bind
      intro point middle precedes first
      have component : Typed (arguments ++ middle.compiler.declared) .conditional
          (Operation.component param 3).text (.value .float) :=
        typed_component (precedes.stands stands) (by rw [vector]; rfl) (by rw [vector]; rfl)
          (show 3 < 4 by decide)
      apply (Writes.define component).bind
      intro time last precedes' second
      rw [pure_bind]
      exact writes_inlineCall writing (by simp [precedes'.stands first, second])

theorem writes_run (evaluate : Evaluator) (held : List Held) (fuel : Nat) {request : Request}
    (admissible : request.Admissible (arguments ++ state.compiler.declared)) :
    Writes arguments Stands (request.run evaluate held fuel) state := by
  cases request with
  | call lambda outer args location => exact writes_inlineCall (upTo_writes fuel) admissible
  | shape recognizer role param =>
    have found : Quiet (fun _ => True) (Compile.evaluating
        (recognizer.function (recognizer.held ++ held) role)) state := quiet_evaluating _
    have here : Writes arguments (fun scope _ => Stands scope param) (Compile.evaluating
        (recognizer.function (recognizer.held ++ held) role)) state :=
      found.writes fun _ _ => admissible.1
    unfold run Recognizer.inline
    apply here.bind
    intro function later _ stands
    exact writes_function (upTo_writes fuel) function stands admissible.2

end Request

/-- The compilers that some requests lead to, whether these succeed or fail. What is evaluated on
the way and in between may be anything. -/
inductive Reachable (arguments : List Variable) : Compiler → Prop
  | new : Reachable arguments .new
  | request {compiler : Compiler} (reached : Reachable arguments compiler) (request : Request)
      (admissible : request.Admissible (arguments ++ compiler.declared)) (evaluate : Evaluator)
      (held : List Held) (fuel : Nat) (heap : Heap) :
      Reachable arguments (request.run evaluate held fuel ⟨heap, compiler⟩).2.compiler

/-- Names of arguments differ from each other and from what statements define. -/
def Parameters (arguments : List Variable) : Prop :=
  (arguments.map (·.name)).Nodup ∧ ∀ v ∈ arguments, ∀ n, v.name ≠ (Atom.name (n + 1)).text

/-- The statements define `r1`, `r2` and so on; no name has two meanings; and each right side has
the declared type over the arguments and the names before it. -/
structure Compiler.SingleAssignment (arguments : List Variable) (compiler : Compiler) : Prop where
  names : compiler.declared.map (·.name) =
    (List.range' 1 compiler.statements.size).map fun n => "r" ++ toString n
  distinct : ((arguments ++ compiler.declared).map (·.name)).Nodup
  typed : ∀ before statement after, compiler.statements.toList = before ++ statement :: after →
    statement.WellTyped (arguments ++ before.map Statement.variable)

theorem Compiler.WellFormed.names {arguments : List Variable} {compiler : Compiler}
    (wellFormed : compiler.WellFormed arguments) :
    compiler.declared.map (·.name) =
      (List.range' 1 compiler.statements.size).map fun n => (Atom.name n).text := by
  rw [← wellFormed.ids, declared, List.map_map, List.map_map]
  rfl

theorem Compiler.WellFormed.singleAssignment {arguments : List Variable} {compiler : Compiler}
    (wellFormed : compiler.WellFormed arguments) (parameters : Parameters arguments) :
    compiler.SingleAssignment arguments := by
  constructor
  · rw [wellFormed.names]
    rfl
  · rw [List.map_append]
    apply parameters.1.append wellFormed.nodup
    intro name given defined
    obtain ⟨v, mem, rfl⟩ := List.mem_map.mp given
    rw [wellFormed.names] at defined
    obtain ⟨n, inside, is⟩ := List.mem_map.mp defined
    obtain ⟨m, rfl⟩ : ∃ m, n = m + 1 := ⟨n - 1, by have := (List.mem_range'_1.mp inside).1; omega⟩
    exact parameters.2 v mem m is.symm
  · exact wellFormed.typed

theorem Reachable.wellFormed {arguments : List Variable} {compiler : Compiler}
    (reached : Reachable arguments compiler) : compiler.WellFormed arguments := by
  induction reached with
  | new => exact Compiler.wellFormed_new
  | @request compiler reached request admissible evaluate held fuel heap kept =>
    have state : Writes arguments Stands (request.run evaluate held fuel) ⟨heap, compiler⟩ :=
      Request.writes_run evaluate held fuel admissible
    rcases ran : request.run evaluate held fuel ⟨heap, compiler⟩ with ⟨_ | term, later⟩
    · exact (state kept).failed ran
    · exact ((state kept).returned ran).1

/-- After any requests, successful or not, the statements are in single assignment and well-typed;
and a term that is returned then is a literal, or the name of an argument or of a statement, and has
the type that it carries. -/
theorem Reachable.single_assignment {arguments : List Variable} (parameters : Parameters arguments)
    {compiler : Compiler} (reached : Reachable arguments compiler) :
    compiler.SingleAssignment arguments ∧
      ∀ (request : Request) (evaluate : Evaluator) (held : List Held) (fuel : Nat) (heap : Heap),
        request.Admissible (arguments ++ compiler.declared) →
        ∀ term later, request.run evaluate held fuel ⟨heap, compiler⟩ = (.ok term, later) →
          Stands (arguments ++ later.compiler.declared) term ∧
            Typed (arguments ++ later.compiler.declared) .access term.text (.value term.type) := by
  have wellFormed := reached.wellFormed
  constructor
  · exact wellFormed.singleAssignment parameters
  · intro request evaluate held fuel heap admissible term later ran
    have ends : Writes arguments Stands (request.run evaluate held fuel) ⟨heap, compiler⟩ :=
      Request.writes_run evaluate held fuel admissible
    obtain ⟨-, -, stands⟩ := (ends wellFormed).returned ran
    exact ⟨stands, stands.typed⟩

section Negation

/-- An argument of the name `b`. -/
def truth : Variable := ⟨"b", .bool, ⟨'b', [], rfl, rfl, by simp⟩, by decide⟩

/-- The function `x -> !x`, called with the argument. -/
def negation : Request :=
  let place : Location := ⟨⟨"", ""⟩, 0, 0⟩
  .call ⟨place, 1, 1, .unary place .not (.slot place 0 0)⟩ (.captured 0) [⟨.given "b", .bool⟩] place

/-- What is left after the function was inlined, and the term for its result. -/
def negated : Except Fault Term × CompilerState :=
  negation.run (fun _ _ _ => throw .outOfFuel) [] 2 ⟨.empty, .new⟩

theorem single_assignment_negation : negated.2.compiler.body = "  bool r1 = !b;\n" ∧
    negated.2.compiler.SingleAssignment [truth] ∧
    Typed ([truth] ++ negated.2.compiler.declared) .access "r1" (.value .bool) := by
  have parameters : Parameters [truth] := by
    refine ⟨List.nodup_singleton _, ?_⟩
    intro v mem n same
    rw [List.mem_singleton.mp mem] at same
    have chars := congrArg String.toList same
    rw [toList_name] at chars
    cases chars
  have admissible : negation.Admissible ([truth] ++ Compiler.new.declared) := by
    intro arg mem
    rw [List.mem_singleton.mp mem]
    exact .inl ⟨truth, List.mem_cons_self, rfl, rfl⟩
  have reached : Reachable [truth] negated.2.compiler := .request .new negation admissible _ _ _ _
  have returned := (Reachable.single_assignment parameters .new).2 negation
    (fun _ _ _ => throw .outOfFuel) [] 2 .empty admissible ⟨.name 1, .bool⟩ negated.2 rfl
  exact ⟨by decide, (Reachable.single_assignment parameters reached).1, returned.2⟩

end Negation

end Shader

end ShapeLang
