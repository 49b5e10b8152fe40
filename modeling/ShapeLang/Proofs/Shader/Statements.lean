import Mathlib.Data.List.Nodup
import ShapeLang.Proofs.Shader.Operations
import ShapeLang.Proofs.Shader.Typing

/-! # Statements in single assignment

The statements of a compiler define `r1`, `r2` and so on, and the right side of each has its type
over the arguments and the names before it. `Writes` is what every part of compilation does: it keeps
this, whether it fails or not, and gives a term that stands for a value.
-/

namespace ShapeLang

namespace Shader

section Names

theorem isDecimalDigit_digitChars {n : Nat} {c : Char} (mem : c ∈ Layout.digitChars n) :
    isDecimalDigit c :=
  (Layout.isDigits_digitChars n).2 c mem

theorem toList_name (id : Nat) : (Atom.name id).text.toList = 'r' :: Layout.digitChars id := by
  simp [Atom.text]

theorem isName_name (id : Nat) : IsName (Atom.name id).text := by
  constructor
  · exact ⟨'r', Layout.digitChars id, toList_name id, rfl, fun c mem =>
      .inr (isDecimalDigit_digitChars mem)⟩
  · intro mem
    have none : ∀ word ∈ reserved, word.toList.head? ≠ some 'r' := by decide
    apply none _ mem
    rw [toList_name]
    rfl

theorem name_injective {a b : Nat} (same : (Atom.name a).text = (Atom.name b).text) : a = b := by
  have digits : Nat.toDigits 10 a = Nat.toDigits 10 b := by
    have chars := congrArg String.toList same
    rw [toList_name, toList_name] at chars
    exact (List.cons.inj chars).2
  rw [← Nat.ofDigitChars_ten_toDigits (n := a), digits, Nat.ofDigitChars_ten_toDigits]

end Names

/-- The name that a statement defines. -/
def Statement.variable (statement : Statement) : Variable :=
  ⟨(Atom.name statement.id).text, statement.type, isName_name statement.id⟩

/-- The right side of the statement is an expression of its type. -/
def Statement.WellTyped (scope : List Variable) (statement : Statement) : Prop :=
  Typed scope .conditional statement.operation.text (.value statement.type)

namespace Compiler

/-- The names that are defined so far. -/
def declared (compiler : Compiler) : List Variable :=
  compiler.statements.toList.map Statement.variable

/-- Statements in single assignment, over some arguments. -/
structure WellFormed (arguments : List Variable) (compiler : Compiler) : Prop where
  nextId : compiler.nextId = compiler.statements.size + 1
  ids : compiler.statements.toList.map (·.id) = List.range' 1 compiler.statements.size
  typed : ∀ before statement after, compiler.statements.toList = before ++ statement :: after →
    statement.WellTyped (arguments ++ before.map Statement.variable)
  ready : ∀ (id : Nat) frame (slot : Nat) term, compiler.frames[id]? = some frame →
    frame.slots[slot]? = some (.ready term) → Stands (arguments ++ compiler.declared) term

variable {arguments : List Variable} {compiler : Compiler}

theorem wellFormed_new : WellFormed arguments new := by
  constructor
  · rfl
  · rfl
  · intro before statement after split
    simp [new] at split
  · intro id frame slot term found
    simp [new] at found

/-- The names of the statements are different from each other. -/
theorem WellFormed.nodup (wellFormed : compiler.WellFormed arguments) :
    (compiler.declared.map (·.name)).Nodup := by
  have names : compiler.declared.map (·.name) =
      (compiler.statements.toList.map (·.id)).map fun id => (Atom.name id).text := by
    rw [declared, List.map_map, List.map_map]
    rfl
  rw [names, wellFormed.ids]
  exact (List.nodup_range' 1).map fun _ _ => name_injective

/-- Changes to the frames alone. -/
theorem WellFormed.of_frames {later : Compiler} (wellFormed : compiler.WellFormed arguments)
    (statements : later.statements = compiler.statements) (nextId : later.nextId = compiler.nextId)
    (ready : ∀ (id : Nat) frame (slot : Nat) term, later.frames[id]? = some frame →
      frame.slots[slot]? = some (.ready term) → Stands (arguments ++ compiler.declared) term) :
    later.WellFormed arguments := by
  obtain ⟨next, ids, typed, -⟩ := wellFormed
  constructor
  · rw [nextId, statements, next]
  · rw [statements, ids]
  · rw [statements]
    exact typed
  · rw [declared, statements]
    exact ready

theorem WellFormed.put (wellFormed : compiler.WellFormed arguments) (id slot : Nat)
    {content : SymbolicSlot}
    (stands : ∀ term, content = .ready term → Stands (arguments ++ compiler.declared) term) :
    (compiler.put id slot content).WellFormed arguments := by
  refine wellFormed.of_frames rfl rfl ?_
  intro other later place term found holds
  by_cases same : id = other
  · subst same
    cases found' : compiler.frames[id]? with
    | none => simp [Compiler.put, Array.getElem?_modify, found'] at found
    | some frame =>
      rw [frame?_put_self found'] at found
      cases found
      by_cases here : slot = place
      · subst here
        obtain ⟨inside, is⟩ := List.getElem?_eq_some_iff.mp holds
        exact stands term (by simpa using is)
      · rw [List.getElem?_set_ne here] at holds
        exact wellFormed.ready id frame place term found' holds
  · rw [frame?_put_ne same] at found
    exact wellFormed.ready other later place term found holds

theorem WellFormed.alloc (wellFormed : compiler.WellFormed arguments) (slotCount : Nat)
    (outer : Outer) : (compiler.alloc slotCount outer).WellFormed arguments := by
  refine wellFormed.of_frames rfl rfl ?_
  intro other later place term found holds
  by_cases new : other = compiler.frames.size
  · subst new
    rw [frame?_alloc_self] at found
    cases found
    simp [List.getElem?_replicate] at holds
  · rw [frame?_alloc_ne new] at found
    exact wellFormed.ready other later place term found holds

theorem statements_define (type : ShaderType) (operation : Operation) :
    (compiler.define type operation).2.statements.toList =
      compiler.statements.toList ++ [⟨type, compiler.nextId, operation⟩] := by
  simp [define]

theorem declared_define (type : ShaderType) (operation : Operation) :
    (compiler.define type operation).2.declared =
      compiler.declared ++ [Statement.variable ⟨type, compiler.nextId, operation⟩] := by
  simp [declared, define]

/-- One more statement, whose right side is typed over the names before it. -/
theorem WellFormed.define (wellFormed : compiler.WellFormed arguments) {type : ShaderType}
    {operation : Operation}
    (typed : Typed (arguments ++ compiler.declared) .conditional operation.text (.value type)) :
    (compiler.define type operation).2.WellFormed arguments := by
  constructor
  · simp [Compiler.define, wellFormed.nextId]
  · simp [Compiler.define, wellFormed.ids, wellFormed.nextId, List.range'_concat, Nat.add_comm]
  · intro before statement after split
    rw [statements_define] at split
    rcases List.eq_nil_or_concat' after with rfl | ⟨others, last, rfl⟩
    · obtain ⟨same, last⟩ := List.append_inj' split rfl
      cases last
      rw [← same]
      exact typed
    · rw [← List.cons_append, ← List.append_assoc] at split
      obtain ⟨same, -⟩ := List.append_inj' split rfl
      exact wellFormed.typed before statement others same
  · intro id frame slot term found holds
    apply (wellFormed.ready id frame slot term found holds).mono
    rw [declared_define]
    intro v mem
    rw [← List.append_assoc]
    exact List.mem_append_left _ mem

/-- The names that are defined stay defined. -/
def Precedes (before after : Compiler) : Prop := ∀ v ∈ before.declared, v ∈ after.declared

theorem Precedes.stands {before after : Compiler} (precedes : Precedes before after) {term : Term}
    (stands : Stands (arguments ++ before.declared) term) :
    Stands (arguments ++ after.declared) term := by
  apply stands.mono
  intro v mem
  rcases List.mem_append.mp mem with given | defined
  · exact List.mem_append_left _ given
  · exact List.mem_append_right _ (precedes v defined)

end Compiler

section Writes

variable {α β : Type} {arguments : List Variable} {state : CompilerState}

/-- What compilation does with a well-formed compiler: afterwards it is well-formed again, with all
names that it had, and what is returned holds over the arguments and the names. -/
def Writes (arguments : List Variable) (holds : List Variable → α → Prop) (action : Compile α)
    (state : CompilerState) : Prop :=
  state.compiler.WellFormed arguments → Ends action state
    (fun a later => later.compiler.WellFormed arguments ∧
      state.compiler.Precedes later.compiler ∧ holds (arguments ++ later.compiler.declared) a)
    fun _ later => later.compiler.WellFormed arguments

/-- A computation that leaves the compiler alone. -/
def Quiet (holds : α → Prop) (action : Compile α) (state : CompilerState) : Prop :=
  Ends action state (fun a later => later.compiler = state.compiler ∧ holds a)
    fun _ later => later.compiler = state.compiler

variable {holds : List Variable → α → Prop} {action : Compile α}

theorem Quiet.writes {certain : α → Prop} (quiet : Quiet certain action state)
    (imp : ∀ a, certain a → holds (arguments ++ state.compiler.declared) a) :
    Writes arguments holds action state := by
  intro wellFormed
  apply Ends.mono quiet
  · rintro a later ⟨same, true⟩
    rw [same]
    exact ⟨wellFormed, fun _ mem => mem, imp a true⟩
  · rintro fault later same
    rw [same]
    exact wellFormed

theorem Writes.pure {a : α} (here : holds (arguments ++ state.compiler.declared) a) :
    Writes arguments holds (pure a) state :=
  fun wellFormed => Ends.pure ⟨wellFormed, fun _ mem => mem, here⟩

theorem Writes.throw {fault : Fault} : Writes arguments holds (throw fault : Compile α) state :=
  fun wellFormed => Ends.throw wellFormed

theorem Writes.unsupported {location : Location} {what : String} :
    Writes arguments holds (Compile.unsupported location what) state :=
  Writes.throw

theorem Writes.raise {location : Location} {kind : ErrorKind} :
    Writes arguments holds (Compile.raise location kind) state :=
  Writes.throw

/-- The second part may use what the first one gave, and all names from before. -/
theorem Writes.bind {more : List Variable → β → Prop} {next : α → Compile β}
    (first : Writes arguments holds action state)
    (second : ∀ a (later : CompilerState), state.compiler.Precedes later.compiler →
      holds (arguments ++ later.compiler.declared) a → Writes arguments more (next a) later) :
    Writes arguments more (action >>= next) state := by
  intro wellFormed
  apply (first wellFormed).bind
  rintro a later ⟨kept, precedes, true⟩
  apply (second a later precedes true kept).mono
  · rintro b last ⟨kept', precedes', result⟩
    exact ⟨kept', fun v mem => precedes' v (precedes v mem), result⟩
  · exact fun _ _ kept' => kept'

/-- What is compiled after a check that refuses some code. -/
theorem Writes.unless {check : Prop} [Decidable check] {refused : Compile Unit} {next : Compile α}
    (stops : ∀ state, Writes arguments (fun _ (_ : Unit) => False) refused state)
    (writes : ¬ check → Writes arguments holds next state) :
    Writes arguments holds (do
      if check then refused
      next) state := by
  by_cases true : check
  · simp only [true, ↓reduceIte]
    exact (stops state).bind fun _ _ _ impossible => impossible.elim
  · simp only [true, ↓reduceIte]
    exact writes true

/-- What is compiled only if a check allows it. -/
theorem Writes.guarded {check : Prop} [Decidable check] {allowed : Compile α} {location : Location}
    {what : String} (writes : check → Writes arguments holds allowed state) :
    Writes arguments holds (if check then allowed else Compile.unsupported location what) state := by
  split
  · exact writes ‹_›
  · exact .unsupported

theorem Writes.define {type : ShaderType} {operation : Operation}
    (typed : Typed (arguments ++ state.compiler.declared) .conditional operation.text
      (.value type)) :
    Writes arguments Stands (Compile.define type operation) state := by
  intro wellFormed
  apply Ends.define
  refine ⟨wellFormed.define typed, ?_, .inl ⟨Statement.variable ⟨type, state.compiler.nextId,
    operation⟩, ?_, rfl, rfl⟩⟩
  · intro v mem
    rw [Compiler.declared_define]
    exact List.mem_append_left _ mem
  · rw [Compiler.declared_define]
    simp

end Writes

end Shader

end ShapeLang
