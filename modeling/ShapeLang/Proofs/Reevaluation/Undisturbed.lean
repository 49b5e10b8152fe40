import ShapeLang.Proofs.Reevaluation.Host
import ShapeLang.Proofs.Reordering.Programs
import ShapeLang.Proofs.Session.ReadingOrder

/-! # Evaluating a program again

Every evaluation of a program uses the same root frame, and resets the definitions there that
earlier values still need. What these denote does not change. So a host that evaluates the program
again in between gets what it would have got otherwise, unless a comparison hangs on the identity
of functions or modules: definitions that are evaluated anew make new ones.
-/

namespace ShapeLang

namespace Reevaluation

open Denotation

/-- What a host does next. -/
inductive Act where
  | move (move : Move)
  /-- Evaluates the program once more, and forgets what that gives. -/
  | again

/-- The moves alone, without the evaluations in between. -/
def Act.moves : List Act → List Move
  | [] => []
  | .move first :: acts => first :: moves acts
  | .again :: acts => moves acts

/-- What a host got, and the frames that are left, after it has acted. -/
def act (compare : Comparison) (m : Machine) (evaluate : Evaluator) (held : List Held)
    (p : Program) (state : History × Heap) : List Act → History × Heap
  | [] => state
  | .move move :: acts =>
    let (answer, heap) := perform state.1 compare m evaluate held p move state.2
    act compare m evaluate held p (state.1 ++ [answer], heap) acts
  | .again :: acts =>
    let (_, heap) := perform state.1 compare m evaluate held p .eval state.2
    act compare m evaluate held p (state.1, heap) acts

/-- What a host gets as a program compares values. -/
def answers (m : Machine) (fuel : Nat) (held : List Held) (p : Program) (heap : Heap)
    (acts : List Act) : History :=
  (act .identity m (Eval.upTo m fuel) held p ([], heap) acts).1

/-- What a host gets if every comparison is refused that hangs on the identity of functions or
modules. -/
def carefulAnswers (m : Machine) (fuel : Nat) (held : List Held) (p : Program) (heap : Heap)
    (acts : List Act) : History :=
  (act .content m (Eval.upToComparing .content m fuel) held p ([], heap) acts).1

/-- Answers that differ at most in the identity of functions and modules, and exceptions of the
same kind. -/
inductive SameAnswer : Except Fault (Answer Value) → Except Fault (Answer Value) → Prop
  | value {a b : Value} (same : a.Corresponds (fun _ _ => True) (fun _ _ => True) b) :
      SameAnswer (.ok (.value a)) (.ok (.value b))
  | truth (holds : Bool) : SameAnswer (.ok (.truth holds)) (.ok (.truth holds))
  | text (content : String) : SameAnswer (.ok (.text content)) (.ok (.text content))
  | nothing : SameAnswer (.ok .nothing) (.ok .nothing)
  | failed {e e' : Exception} (same : e.kind = e'.kind) :
      SameAnswer (.error (.exception e)) (.error (.exception e'))

/-- A comparison that hangs on identity was refused on the way to an answer. -/
def Refused (answer : Option (Except Fault (Answer Value))) : Prop :=
  ∃ e, answer = some (.error (.exception e)) ∧ e.kind = Comparison.refusal

section Finds

/-- What outcomes come to: a result, or the complaint about a definition that needs itself. -/
def Finds {α : Type} (family : Nat → Outcome α) (result : Except ErrorKind α) : Prop :=
  Settles family result ∨ result = .error .recursiveDefinition ∧ Diverges family

theorem Finds.unique {α : Type} {family : Nat → Outcome α} {result result' : Except ErrorKind α}
    (finds : Finds family result) (finds' : Finds family result') : result = result' := by
  rcases finds with settles | ⟨recursive, diverges⟩ <;>
    rcases finds' with settles' | ⟨recursive', diverges'⟩
  · exact settles.unique settles'
  · exact (settles.not_diverges diverges').elim
  · exact (settles'.not_diverges diverges).elim
  · exact recursive.trans recursive'.symm

/-- What some moves denote, one after the other. -/
inductive Denoted (m : Machine) (env : Env) (expr : Expr) :
    List (Except ErrorKind (Answer Den)) → List Move → List (Except ErrorKind (Answer Den)) → Prop
  | nil (dens : List (Except ErrorKind (Answer Den))) : Denoted m env expr dens [] dens
  | cons {dens dens' : List (Except ErrorKind (Answer Den))} {move : Move} {moves : List Move}
      {answer : Except ErrorKind (Answer Den)}
      (finds : Finds (fun n => denoteMove dens m (denote m n) env expr move) answer)
      (rest : Denoted m env expr (dens ++ [answer]) moves dens') :
      Denoted m env expr dens (move :: moves) dens'

theorem Denoted.unique {m : Machine} {env : Env} {expr : Expr} {moves : List Move}
    {dens all all' : List (Except ErrorKind (Answer Den))}
    (denoted : Denoted m env expr dens moves all) (denoted' : Denoted m env expr dens moves all') :
    all = all' := by
  induction denoted with
  | nil =>
    cases denoted'
    rfl
  | cons finds _ ih =>
    cases denoted' with | cons finds' rest' =>
    obtain rfl := finds.unique finds'
    exact ih rest'

end Finds

/-- What is known of a host that works with a program. -/
structure Knowing (m : Machine) (lenient : Prop) (p : Program) (env : Env) (history : History)
    (dens : List (Except ErrorKind (Answer Den))) (heap : Heap) (roles : Roles) (trust : Trust) :
    Prop where
  reflects : Reflects m lenient [] roles heap
  entries : Entries lenient roles history dens
  sits : Sits roles p.frame env [.part 0] p.expr
  secured : Secured p history heap trust

section Knowing

variable {m : Machine} {lenient : Prop} {p : Program} {env : Env} {history : History}
  {dens : List (Except ErrorKind (Answer Den))} {heap : Heap} {roles : Roles} {trust : Trust}
  {compare : Comparison}

/-- What one move preserves. -/
theorem Knowing.perform (knowing : Knowing m lenient p env history dens heap roles trust)
    (follows : Comparison.Follows lenient compare) (held : List Held) (move : Move) :
    ∃ enough answer later, (∀ fuel, enough ≤ fuel →
        Reevaluation.perform history compare m (Eval.upToComparing compare m fuel) held p move
          heap = (answer, later)) ∧
      ∃ answer' wider trust', Finds (fun n => denoteMove dens m (denote m n) env p.expr move)
          answer' ∧
        Knowing m lenient p env history dens later wider trust' ∧
        Knowing m lenient p env (history ++ [answer]) (dens ++ [answer']) later wider trust' := by
  obtain ⟨reflects, entries, sits, secured⟩ := knowing
  have terminates : Terminates (fun fuel => Reevaluation.perform history compare m
      (Eval.upToComparing compare m fuel) held p move) heap fun _ _ => True :=
    perform_terminates entries.fair heap move
  obtain ⟨enough, answer, later, settled, fueled, -⟩ := terminates
  have ran := settled enough (Nat.le_refl enough)
  have agrees : Agrees m lenient [] heap roles (Reevaluation.perform history compare m
      (Eval.upToComparing compare m enough) held p move)
      (fun n => denoteMove dens m (denote m n) env p.expr move) MeansAnswer :=
    agrees_perform reflects entries follows (upToComparing_simulates follows m enough) sits move
  have careful : Careful (Reevaluation.perform history compare m
      (Eval.upToComparing compare m enough) held p move) heap trust
      fun answer later wider => ∀ value ∈ answer.value?, later.Trusts wider value :=
    perform_careful entries.fair secured (Eval.upToComparing_safe enough) move
  -- What the move gave joins the history.
  have joined {wider : Roles} {trust' : Trust} {answer' : Except ErrorKind (Answer Den)}
      (within : roles.Within wider) (reflects' : Reflects m lenient [] wider later)
      (advance : Advance heap trust later trust') (entry : Entry lenient wider answer answer')
      (trusted : ∀ given value, answer = .ok given → given.value? = some value →
        later.Trusts trust' value) :
      Knowing m lenient p env history dens later wider trust' ∧
        Knowing m lenient p env (history ++ [answer]) (dens ++ [answer']) later wider trust' := by
    have secured' := secured.advance advance
    refine ⟨⟨reflects', entries.mono within, sits.later within, secured'⟩, reflects',
      (entries.mono within).snoc entry, sits.later within, secured'.sound, secured'.settled, ?_⟩
    intro given value mem same
    rcases List.mem_append.mp mem with mem | mem
    · exact secured'.values given value mem same
    · exact trusted given value (List.mem_singleton.mp mem).symm same
  refine ⟨enough, answer, later, settled, ?_⟩
  cases answer with
  | ok given =>
    obtain ⟨wider, given', within, reflects', yields, means⟩ := agrees.returned ran
    obtain ⟨trust', advance, trusted⟩ := careful.returned ran
    have known (other : Answer Value) (value : Value)
        (same : (Except.ok given : Except Fault (Answer Value)) = .ok other)
        (there : other.value? = some value) : later.Trusts trust' value := by
      obtain rfl := Except.ok.inj same
      exact trusted value there
    rcases yields with settles | ⟨free, refused⟩
    · exact ⟨.ok given', wider, trust', .inl settles,
        joined within reflects' advance (.ok means) known⟩
    · exact ⟨_, wider, trust', .inl refused,
        joined within reflects' advance (.spoiled free means) known⟩
  | error fault =>
    obtain ⟨⟨wider, within, reflects'⟩, excused⟩ := agrees.failed ran
    obtain ⟨harmless, trust', advance⟩ := careful.failed ran
    have known (other : Answer Value) (value : Value)
        (same : (Except.error fault : Except Fault (Answer Value)) = .ok other)
        (_ : other.value? = some value) : later.Trusts trust' value := by cases same
    cases fault with
    | defect d => exact absurd rfl (harmless d)
    | outOfFuel => exact absurd rfl fueled
    | exception e =>
      rcases excused with fails | ⟨recursive, stuck⟩ | ⟨free, refused⟩
      · exact ⟨_, wider, trust', .inl fails,
          joined within reflects' advance (.failed rfl) known⟩
      · exact ⟨_, wider, trust', .inr ⟨rfl, stuck.diverges⟩,
          joined within reflects' advance (.failed recursive) known⟩
      · exact ⟨_, wider, trust', .inl refused,
          joined within reflects' advance (.spoiledFailed free e) known⟩

/-- What a host gets for any number of moves is what they denote, however often it evaluates the
program in between. -/
theorem Knowing.act (acts : List Act)
    (knowing : Knowing m lenient p env history dens heap roles trust)
    (follows : Comparison.Follows lenient compare) (held : List Held) :
    ∃ enough history' dens' wider, (∀ fuel, enough ≤ fuel →
        (Reevaluation.act compare m (Eval.upToComparing compare m fuel) held p (history, heap)
          acts).1 = history') ∧
      Denoted m env p.expr dens (Act.moves acts) dens' ∧ Entries lenient wider history' dens' := by
  induction acts generalizing history dens heap roles trust with
  | nil => exact ⟨0, history, dens, roles, fun _ _ => rfl, .nil dens, knowing.entries⟩
  | cons first acts ih =>
    cases first with
    | move move =>
      obtain ⟨enough, answer, later, settled, answer', wider, trust', finds, -, knowing'⟩ :=
        knowing.perform follows held move
      obtain ⟨enough', history', dens', widest, reached, denoted, entries⟩ := ih knowing'
      refine ⟨max enough enough', history', dens', widest, fun fuel le => ?_, .cons finds denoted,
        entries⟩
      simp only [Reevaluation.act, settled fuel (by omega)]
      exact reached fuel (by omega)
    | again =>
      obtain ⟨enough, answer, later, settled, _, wider, trust', -, knowing', -⟩ :=
        knowing.perform follows held .eval
      obtain ⟨enough', history', dens', widest, reached, denoted, entries⟩ := ih knowing'
      refine ⟨max enough enough', history', dens', widest, fun fuel le => ?_, denoted, entries⟩
      simp only [Reevaluation.act, settled fuel (by omega)]
      exact reached fuel (by omega)

end Knowing

section Same

variable {roles roles' : Roles} {value value' : Value} {den den' : Den}

/-- Values that mean the same differ at most in the identity of functions and modules. -/
theorem Means.corresponds (means : Means roles value den) (means' : Means roles' value' den) :
    value.Corresponds (fun _ _ => True) (fun _ _ => True) value' := by
  generalize same : den = den' at means'
  induction means generalizing value' den' with
  | bool value =>
    subst same
    cases means' with
    | bool => exact .bool value
  | num value =>
    subst same
    cases means' with
    | num => exact .num value
  | text content =>
    subst same
    cases means' with
    | text => exact .text content
  | @list items held _ parts =>
    cases means' with
    | @list items' held' parts' =>
      obtain ⟨both, rfl, rfl, looks⟩ := exists_lookalikes Prod.snd (Den.list.inj same)
      let values := both.map fun pair => (pair.1.1, pair.2.1)
      have whole : (Value.list (values.map (·.1)) held).Corresponds (fun _ _ => True)
          (fun _ _ => True) (.list (values.map (·.2)) held') := by
        refine .list _ fun item mem => ?_
        obtain ⟨pair, mem', rfl⟩ := List.mem_map.mp mem
        exact parts pair.1 (List.mem_map_of_mem mem') _ (looks pair mem')
          (parts' pair.2 (List.mem_map_of_mem mem'))
      simpa [values, Function.comp_def] using whole
    | _ => cases same
  | @record fields held _ parts =>
    cases means' with
    | @record fields' held' parts' =>
      obtain ⟨both, rfl, rfl, looks⟩ :=
        exists_lookalikes (fun field : String × Value × Den => (field.1, field.2.2))
          (Den.record.inj same)
      let names := both.map fun pair => (pair.1.1, pair.1.2.1, pair.2.2.1)
      have whole : (Value.record (names.map fun field => (field.1, field.2.1)) held).Corresponds
          (fun _ _ => True) (fun _ _ => True)
          (.record (names.map fun field => (field.1, field.2.2)) held') := by
        refine .record _ fun field mem => ?_
        obtain ⟨pair, mem', rfl⟩ := List.mem_map.mp mem
        exact parts pair.1 (List.mem_map_of_mem mem') _ (Prod.mk.inj (looks pair mem')).2
          (parts' pair.2 (List.mem_map_of_mem mem'))
      have named : both.map (fun pair => (pair.1.1, pair.2.2.1)) =
          both.map fun pair => (pair.2.1, pair.2.2.1) :=
        List.map_congr_left fun pair mem => by rw [(Prod.mk.inj (looks pair mem)).1]
      simpa [names, Function.comp_def, named] using whole
    | _ => cases same
  | «module» known =>
    subst same
    cases means' with
    | «module» => exact .module trivial
  | closure known layout roomy =>
    subst same
    cases means' with
    | closure => exact .closure trivial trivial
  | builtin function =>
    subst same
    cases means' with
    | builtin => exact .builtin function

theorem MeansAnswer.same {answer answer' : Answer Value} {denoted : Answer Den}
    (means : MeansAnswer roles answer denoted) (means' : MeansAnswer roles' answer' denoted) :
    SameAnswer (.ok answer) (.ok answer') := by
  cases means with
  | value means =>
    cases means' with
    | value means' => exact .value (means.corresponds means')
  | truth holds =>
    cases means'
    exact .truth holds
  | text content =>
    cases means'
    exact .text content
  | nothing =>
    cases means'
    exact .nothing

/-- Hosts whose moves denote the same get the same answers, unless a comparison is refused. -/
theorem same_or_refused {lenient lenient' : Prop} {wider : Roles}
    {dens : List (Except ErrorKind (Answer Den))} {careful history history' : History}
    (refusing : Entries False wider careful dens) (entries : Entries lenient roles history dens)
    (entries' : Entries lenient' roles' history' dens) (i : Nat) :
    Refused careful[i]? ∨ Option.Rel SameAnswer history[i]? history'[i]? := by
  have first := refusing.getElem? i
  have second := entries.getElem? i
  have third := entries'.getElem? i
  generalize dens[i]? = denoted at first second third
  generalize careful[i]? = refused at first ⊢
  generalize history[i]? = answer at second ⊢
  generalize history'[i]? = answer' at third ⊢
  cases first with
  | none =>
    cases second
    cases third
    exact .inr .none
  | some entry =>
    cases second with | some entry' =>
    cases third with | some entry'' =>
    cases entry with
    | ok _ =>
      cases entry' with | ok means =>
      cases entry'' with | ok means' =>
      exact .inr (.some (means.same means'))
    | @failed e kind same =>
      by_cases identity : kind = Comparison.refusal
      · exact .inl ⟨e, rfl, same.trans identity⟩
      · refine .inr (.some ?_)
        cases entry' with
        | failed same' =>
          cases entry'' with
          | failed same'' => exact .failed (same'.trans same''.symm)
          | spoiled => exact (identity rfl).elim
          | spoiledFailed => exact (identity rfl).elim
        | spoiled => exact (identity rfl).elim
        | spoiledFailed => exact (identity rfl).elim
    | spoiled impossible => exact impossible.elim
    | spoiledFailed impossible => exact impossible.elim

end Same

end Reevaluation

namespace Program

open Denotation Reevaluation

variable {names : Namespace} {held : List Held} {caller : Option FrameId} {source : Source}
  {heap compiled : Heap} {p : Program}

/-- A compiled program has a new frame, with nothing in its slots. -/
theorem compiled_frame (known : ∀ id, caller = some id → ∃ frame, heap.frame? id = some frame)
    (accepted : compile names held caller source heap = (.ok (.ok p), compiled)) :
    ∃ slotCount depth, p.frame = heap.frames.size ∧
      compiled = (heap.alloc slotCount none caller none depth).2 := by
  cases read : source.phrase with
  | error errors =>
    rw [compile, read] at accepted
    cases accepted
  | ok phrase =>
    obtain ⟨resolved, analysed⟩ := (compiles_iff names held known read).mp ⟨p, compiled, accepted⟩
    obtain ⟨depth, ran⟩ := compile_ran names held known
    cases (ran source phrase resolved read analysed).symm.trans accepted
    exact ⟨_, depth, rfl, rfl⟩

/-- What a host knows before its first move. -/
theorem knowing_start (m : Machine)
    (known : ∀ id, caller = some id → ∃ frame, heap.frame? id = some frame)
    (accepted : compile names held caller source heap = (.ok (.ok p), compiled)) :
    ∃ env roles trust, ∀ lenient, Knowing m lenient p env [] [] compiled roles trust := by
  obtain ⟨trust, secure⟩ := start_secure known accepted
  have rooted := rooted_compile accepted
  obtain ⟨slotCount, depth, atFrame, rfl⟩ := compiled_frame known accepted
  obtain ⟨frame, found, room⟩ := rooted.frame
  let env : Env := .frame [] (definitions [.part 0] p.expr) depth [] none
  have slots := map_slot_definitions [.part 0] p.expr
  have laid : env.Laid :=
    ⟨slots ▸ room.nodup, fun _ _ => Nat.zero_le _, (nested_definitions _ p.expr).cons⟩
  refine ⟨env, Roles.assign (fun _ => none) heap.frames.size env, trust, fun lenient => ?_⟩
  have nothing : Reflects m lenient [] (fun _ => none) heap :=
    ⟨fun _ _ none => by (cases none), fun _ _ _ _ none => by (cases none)⟩
  have reflects : Reflects m lenient [] (Roles.assign (fun _ => none) heap.frames.size env)
      (heap.alloc slotCount none caller none env.depth).2 :=
    nothing.enter laid (roomy_definitions rooted.closed _) fun _ none => by cases none
  refine ⟨reflects, .nil, ⟨?_, List.Sublist.refl _, rooted.closed.roomy⟩,
    secure.sound, secure.programs p (by simp [Session.start]), by simp⟩
  rw [atFrame]
  exact Roles.assign_self

/-- Evaluating a program once more in between makes no difference to what a host gets, where no
comparison hangs on the identity of functions or modules. -/
theorem reevaluation_undisturbing (m : Machine) (names : Namespace) (held : List Held)
    (caller : Option FrameId) (source : Source) (heap : Heap)
    (known : ∀ id, caller = some id → ∃ frame, heap.frame? id = some frame) (p : Program)
    (compiled : Heap) (accepted : compile names held caller source heap = (.ok (.ok p), compiled))
    (acts : List Act) (held₀ held₁ held₂ : List Held) :
    ∃ enough, ∀ fuel₀ fuel₁ fuel₂, enough ≤ fuel₀ → enough ≤ fuel₁ → enough ≤ fuel₂ → ∀ i : Nat,
      Refused (carefulAnswers m fuel₀ held₀ p compiled ((Act.moves acts).map .move))[i]? ∨
      Option.Rel SameAnswer
        (answers m fuel₁ held₁ p compiled ((Act.moves acts).map .move))[i]?
        (answers m fuel₂ held₂ p compiled acts)[i]? := by
  have alone : Act.moves ((Act.moves acts).map .move) = Act.moves acts := by
    induction acts with
    | nil => rfl
    | cons first acts ih =>
      cases first with
      | move move => simp only [Act.moves, List.map_cons, ih]
      | again => exact ih
  obtain ⟨env, roles, trust, knowing⟩ := knowing_start m known accepted
  obtain ⟨enough₀, careful, dens₀, wider₀, reached₀, denoted₀, entries₀⟩ :=
    (knowing False).act ((Act.moves acts).map .move) Comparison.follows_content held₀
  obtain ⟨enough₁, history₁, dens₁, wider₁, reached₁, denoted₁, entries₁⟩ :=
    (knowing True).act ((Act.moves acts).map .move) Comparison.follows_identity held₁
  obtain ⟨enough₂, history₂, dens₂, wider₂, reached₂, denoted₂, entries₂⟩ :=
    (knowing True).act acts Comparison.follows_identity held₂
  rw [alone] at denoted₀ denoted₁
  obtain rfl := denoted₀.unique denoted₁
  obtain rfl := denoted₀.unique denoted₂
  refine ⟨max enough₀ (max enough₁ enough₂), fun fuel₀ fuel₁ fuel₂ le₀ le₁ le₂ i => ?_⟩
  have gained₀ := reached₀ fuel₀ (by omega)
  have gained₁ := reached₁ fuel₁ (by omega)
  have gained₂ := reached₂ fuel₂ (by omega)
  rw [Eval.upToComparing_identity] at gained₁ gained₂
  simp only [carefulAnswers, answers, gained₀, gained₁, gained₂]
  exact same_or_refused entries₀ entries₁ entries₂ i

/-- A function that gives another function, which is made when it is needed first. -/
def made : Source := ⟨"made", "let f = x -> x in y -> f"⟩

/-- A host that calls the function twice and looks at what it got. -/
def twice : List Move :=
  [.eval, .constant (.bool true), .call 0 [1] ⟨made, 0, 0⟩, .call 0 [1] ⟨made, 0, 0⟩, .shown 3,
    .equal 2 3]

/-- The same host, if it evaluates the program again between the calls. -/
def twiceAgain : List Act := (twice.take 3).map .move ++ .again :: (twice.drop 3).map .move

/-- The second call gives a function as before, and its text is the same. -/
theorem reevaluation_undisturbing_made : ∃ p compiled,
    compile [] [] none made .empty = (.ok (.ok p), compiled) ∧
    ∃ enough, ∀ fuel₀ fuel₁ fuel₂, enough ≤ fuel₀ → enough ≤ fuel₁ → enough ≤ fuel₂ → ∀ i : Nat,
      Refused (carefulAnswers .standard fuel₀ [] p compiled
        ((Act.moves twiceAgain).map .move))[i]? ∨
      Option.Rel SameAnswer
        (answers .standard fuel₁ [] p compiled ((Act.moves twiceAgain).map .move))[i]?
        (answers .standard fuel₂ [] p compiled twiceAgain)[i]? := by
  have run : ((compile [] [] none made .empty).1.toOption.bind Except.toOption).isSome := by
    decide +kernel
  rcases accepted : compile [] [] none made .empty with ⟨fault | errors | p, compiled⟩
  · simp [accepted, Except.toOption] at run
  · simp [accepted, Except.toOption] at run
  · exact ⟨p, compiled, rfl, reevaluation_undisturbing .standard [] [] none made .empty (by simp) p
      compiled accepted twiceAgain [] [] []⟩

/-- What the last move of a host gave, if that is a truth value. -/
def lastTruth (history : History) : Option Bool :=
  match history.getLast? with
  | some (.ok (.truth holds)) => some holds
  | _ => none

/-- The calls give the same function, and two functions if the program is evaluated again in
between: its definition is reset, and makes a function anew. -/
theorem reevaluation_disturbs : ∃ p compiled,
    compile [] [] none made .empty = (.ok (.ok p), compiled) ∧
    lastTruth (answers .standard 9 [] p compiled (twice.map .move)) = some true ∧
    lastTruth (answers .standard 9 [] p compiled twiceAgain) = some false := by
  have run : ((compile [] [] none made .empty).1.toOption.bind Except.toOption).any fun p =>
      let compiled := (compile [] [] none made .empty).2
      lastTruth (answers .standard 9 [] p compiled (twice.map .move)) == some true &&
        lastTruth (answers .standard 9 [] p compiled twiceAgain) == some false := by
    decide +kernel
  rcases accepted : compile [] [] none made .empty with ⟨fault | errors | p, compiled⟩
  · simp [accepted, Except.toOption] at run
  · simp [accepted, Except.toOption] at run
  · simp only [accepted, Except.toOption, Option.bind_some, Option.any_some, Bool.and_eq_true,
      beq_iff_eq] at run
    exact ⟨p, compiled, rfl, run⟩

end Program

end ShapeLang
