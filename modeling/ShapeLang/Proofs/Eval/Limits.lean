import ShapeLang.Proofs.Eval.Operations
import ShapeLang.Shape

/-! # Evaluation under larger limits

What an evaluation fails with is never caught. So two evaluators that differ only in that the first
one is stopped at some moments do the same, step by step, as long as the first one goes on. Evaluation
knows two limits, the largest call depth and the granted fuel. It asks for them in one place each and
then only whether they are reached: to raise them differs in nothing else.
-/

namespace ShapeLang

/-- A call was refused for its depth. -/
def Fault.Overflow : Fault → Prop
  | .exception e => ∃ limit, e.kind = .stackOverflow limit
  | _ => False

/-- A fault that greater limits may avoid. -/
def Fault.Starved : Fault → Prop
  | .exception e => ∃ limit, e.kind = .stackOverflow limit
  | .defect _ => False
  | .outOfFuel => True

/-- The second computation does what the first one does, unless a fault of some kind stops the
first one. -/
def Unless {σ α : Type} (stops : Fault → Prop) (action other : ExceptT Fault (StateM σ) α) : Prop :=
  ∀ s, (∃ fault later, stops fault ∧ action s = (.error fault, later)) ∨ other s = action s

/-- The second computation does what the first one does, unless a limit stops the first one. -/
abbrev Outlasts {σ α : Type} (action other : ExceptT Fault (StateM σ) α) : Prop :=
  Unless Fault.Starved action other

namespace Unless

variable {stops : Fault → Prop} {σ α β : Type} {action other : ExceptT Fault (StateM σ) α}

theorem refl (action : ExceptT Fault (StateM σ) α) : Unless stops action action :=
  fun _ => .inr rfl

/-- Nothing is asked of a computation that is stopped at once. -/
theorem stopped {fault : Fault} (stopped : stops fault) :
    Unless stops (throw fault : ExceptT Fault (StateM σ) α) other :=
  fun s => .inl ⟨fault, s, stopped, rfl⟩

theorem bind {next next' : α → ExceptT Fault (StateM σ) β} (first : Unless stops action other)
    (second : ∀ a, Unless stops (next a) (next' a)) :
    Unless stops (action >>= next) (other >>= next') := by
  intro s
  rcases first s with ⟨fault, later, stopped, ran⟩ | same
  · exact .inl ⟨fault, later, stopped, by rw [bind_run, ran]⟩
  rcases ran : action s with ⟨fault | a, later⟩
  · exact .inr (by rw [bind_run, bind_run, same, ran])
  · rcases second a later with ⟨fault, last, stopped, ran'⟩ | same'
    · exact .inl ⟨fault, last, stopped, by rw [bind_run, ran]; exact ran'⟩
    · exact .inr (by rw [bind_run, bind_run, same, ran]; exact same')

/-- Both computations go on alike. -/
theorem before (next : α → ExceptT Fault (StateM σ) β) (first : Unless stops action other) :
    Unless stops (action >>= next) (other >>= next) :=
  first.bind fun a => .refl (next a)

/-- Both computations begin alike. -/
theorem after (action : ExceptT Fault (StateM σ) α) {next next' : α → ExceptT Fault (StateM σ) β}
    (second : ∀ a, Unless stops (next a) (next' a)) :
    Unless stops (action >>= next) (action >>= next') :=
  (Unless.refl action).bind second

theorem map (f : α → β) (either : Unless stops action other) :
    Unless stops (f <$> action) (f <$> other) := by
  rw [map_eq_pure_bind, map_eq_pure_bind]
  exact either.before _

theorem settling {action other : Eval Value} {id : FrameId} {slot : Nat} {definition : Expr}
    (either : Unless stops action other) :
    Unless stops (Eval.settling id slot definition action)
      (Eval.settling id slot definition other) := by
  intro heap
  unfold Eval.settling
  rcases either heap with ⟨fault, later, stopped, ran⟩ | same
  · exact .inl ⟨fault, _, stopped, by simp only [ran]; rfl⟩
  · exact .inr (by rw [same])

end Unless

/-- The machine with another limit of the call depth. -/
def Machine.withLimit (m : Machine) (limit : Nat) : Machine := { m with maxCallDepth := limit }

open Eval

/-- The second machine does what the first one does, unless a fault of some kind stops the first one
when it enters a call. -/
structure Machine.Unless (stops : Fault → Prop) (m m' : Machine) : Prop where
  arithmetic : m.arithmetic = m'.arithmetic
  enters : ∀ held slotCount env caller site,
    ShapeLang.Unless stops (allocCall m held slotCount env caller site)
      (allocCall m' held slotCount env caller site)

theorem Machine.Unless.refl (stops : Fault → Prop) (m : Machine) : m.Unless stops m :=
  ⟨rfl, fun _ _ _ _ _ => .refl _⟩

variable {m m' : Machine} {limit limit' : Nat} {held : List Held} {id : FrameId}

section Step

variable {stops : Fault → Prop} {ev ev' : Evaluator}
  (part : ∀ held id expr, Unless stops (ev held id expr) (ev' held id expr))
include part

theorem unless_force {slot : Nat} {context : Context} :
    Unless stops (force ev held id slot context) (force ev' held id slot context) := by
  refine .after (frame id) fun found => ?_
  dsimp only
  cases found.slots[slot]? with
  | none => exact .refl _
  | some content =>
    cases content with
    | pending definition =>
      exact .after (store id slot .busy) fun _ => (part (.frame id :: held) id definition).settling
    | ready value => exact .refl _
    | busy => exact .refl _
    | empty => exact .refl _

theorem unless_field? {value : Value} {name : String} {context : Context} :
    Unless stops (field? ev held value name context) (field? ev' held value name context) := by
  unfold field?
  cases value with
  | «module» frame fields =>
    dsimp only
    cases fields.lookup name with
    | some slot => exact (unless_force part).map some
    | none => exact .refl _
  | _ => exact .refl _

theorem unless_evaluateAll (exprs : List Expr) (done : List Value) :
    Unless stops (evaluateAll ev held id done exprs) (evaluateAll ev' held id done exprs) := by
  induction exprs generalizing done with
  | nil => exact .refl _
  | cons expr exprs ih =>
    exact (part (.values done :: held) id expr).bind fun value => ih (value :: done)

theorem unless_evaluateFields (fields : List (String × Expr)) (done : List (String × Value)) :
    Unless stops (evaluateFields ev held id done fields)
      (evaluateFields ev' held id done fields) := by
  induction fields generalizing done with
  | nil => exact .refl _
  | cons field fields ih =>
    exact (part (.values (done.map (·.2)) :: held) id field.2).bind fun value =>
      ih ((field.1, value) :: done)

theorem unless_evaluateEach {slotCount : Nat} {body : Expr} (items done : List Value) :
    Unless stops (evaluateEach ev held id slotCount body done items)
      (evaluateEach ev' held id slotCount body done items) := by
  induction items generalizing done with
  | nil => exact .refl _
  | cons item items ih =>
    refine .after (allocChild slotCount id) fun round => .after (store round 0 (.ready item))
      fun _ => ?_
    exact (part (.frame round :: .values done :: held) round body).bind fun value =>
      ih (value :: done)

theorem unless_call (machines : m.Unless stops m') {function : Value} {args : List Value}
    {site : Location} :
    Unless stops (call m ev held function args id site) (call m' ev' held function args id site) := by
  unfold call
  cases function with
  | closure serial lambda env =>
    dsimp only
    split
    · exact .refl _
    · refine (machines.enters _ _ _ _ _).bind fun callee => ?_
      exact .after (storeAll callee 0 args) fun _ => part _ callee lambda.body
  | builtin builtin =>
    dsimp only
    rw [machines.arithmetic]
    exact .refl _
  | _ => exact .refl _

theorem step_unless (machines : m.Unless stops m') (held : List Held) (id : FrameId)
    (expr : Expr) : Unless stops (step m ev held id expr) (step m' ev' held id expr) := by
  obtain ⟨arithmetic, limit⟩ := m'
  obtain rfl : m.arithmetic = arithmetic := machines.arithmetic
  cases expr with
  | constant location value => exact .refl _
  | slot location depth slot => exact .after (ancestor id depth) fun owner => unless_force part
  | call location function args =>
    refine (part held id function).bind fun callee =>
      (unless_evaluateAll part args []).bind fun args => ?_
    cases callee with
    | closure serial lambda env => exact unless_call part machines
    | builtin function => exact unless_call part machines
    | _ => exact .refl _
  | list location items => exact (unless_evaluateAll part items []).map _
  | record location fields => exact (unless_evaluateFields part fields []).map _
  | «module» location slotCount fields definitions => exact .refl _
  | letIn location bindings body => exact .after (storePending id bindings) fun _ => part held id body
  | lambda location paramCount slotCount body => exact .refl _
  | unary location op operand => exact (part held id operand).before _
  | binary location op left right =>
    have first := part held id left
    have last : Unless stops (do
          let b ← ev held id right
          Value.bool <$> blaming (.value b :: held) (.place right.location (some id)) (toBool b)) (do
          let b ← ev' held id right
          Value.bool <$> blaming (.value b :: held) (.place right.location (some id)) (toBool b)) :=
      (part held id right).before _
    cases op with
    | and =>
      refine first.bind fun a => .after _ fun holds => ?_
      cases holds with
      | true => exact last
      | false => exact .refl _
    | or =>
      refine first.bind fun a => .after _ fun holds => ?_
      cases holds with
      | true => exact .refl _
      | false => exact last
    | _ => exact first.bind fun a => (part (.value a :: held) id right).before _
  | conditional location condition whenTrue whenFalse =>
    refine (part held id condition).bind fun value => .after _ fun holds => ?_
    cases holds with
    | true => exact part held id whenTrue
    | false => exact part held id whenFalse
  | dot location base name =>
    exact (part held id base).bind fun value => (unless_field? part).before _
  | index location base index =>
    refine (part held id base).bind fun value => .after _ fun items => ?_
    exact (part (.value value :: held) id index).before _
  | forEach location slotCount list body =>
    refine (part held id list).bind fun value => .after _ fun items => ?_
    exact (unless_evaluateEach part items []).map _

theorem unless_ofValue? {context : Context} {value : Value} :
    Unless stops (Shape.ofValue? ev held context value)
      (Shape.ofValue? ev' held context value) := by
  unfold Shape.ofValue?
  refine (unless_field? part).bind fun dist => ?_
  dsimp only
  split
  · refine (unless_field? part).bind fun colour => ?_
    split
    · refine (unless_field? part).bind fun flat => (unless_field? part).bind fun solid => ?_
      split
      · split
        · exact (unless_field? part).before _
        · exact .refl _
      · exact .refl _
    · exact .refl _
  · exact .refl _

/-- The frame of a shape function is emptied and filled in any case. -/
theorem unless_callAt {function : ShapeFunction} {p : Point} {t : Float} :
    Unless stops (Recognizer.callAt ev held function p t)
      (Recognizer.callAt ev' held function p t) := by
  have body := part (.frame function.frame :: held) function.frame function.lambda.body
  refine .after (clear function.frame) fun _ => ?_
  split
  · exact .after _ fun _ => body
  · exact .after _ fun _ => .after _ fun _ => body

end Step

/-- A frame that is not too deep for the smaller limit is not too deep for the greater one. -/
theorem withLimit_unless {stops : Fault → Prop} (m : Machine) (le : limit ≤ limit')
    (overflow : ∀ locations, stops (.exception ⟨.stackOverflow limit, locations⟩)) :
    (m.withLimit limit).Unless stops (m.withLimit limit') := by
  refine ⟨rfl, fun held slotCount env caller site => ?_⟩
  refine .after (frame caller) fun found => ?_
  by_cases deep : (m.withLimit limit).maxCallDepth < found.depth + 1
  · rw [if_pos deep]
    exact fun heap => .inl ⟨_, heap, overflow _, rfl⟩
  · have fits : ¬ (m.withLimit limit').maxCallDepth < found.depth + 1 :=
      fun deeper => deep (Nat.lt_of_le_of_lt le deeper)
    rw [if_neg deep, if_neg fits]
    exact .refl _

/-- The same evaluation on two machines, unless the first one stops it when it enters a call. -/
theorem upTo_unless {stops : Fault → Prop} (machines : m.Unless stops m') (fuel : Nat)
    (held : List Held) (id : FrameId) (expr : Expr) :
    Unless stops (upTo m fuel held id expr) (upTo m' fuel held id expr) := by
  induction fuel generalizing held id expr with
  | zero => exact .refl _
  | succ fuel ih => exact step_unless ih machines held id expr

/-- The same evaluation with more fuel, unless the first one runs out of fuel or its machine stops
it. -/
theorem upTo_unless_more {stops : Fault → Prop} (machines : m.Unless stops m')
    (starves : stops .outOfFuel) {fuel fuel' : Nat} (more : fuel ≤ fuel') (held : List Held)
    (id : FrameId) (expr : Expr) :
    Unless stops (upTo m fuel held id expr) (upTo m' fuel' held id expr) := by
  induction fuel generalizing fuel' held id expr with
  | zero => exact .stopped starves
  | succ fuel ih =>
    obtain ⟨fuel', rfl⟩ : ∃ less, fuel' = less + 1 := ⟨fuel' - 1, by omega⟩
    exact step_unless (fun held id expr => ih (by omega) held id expr) machines held id expr

/-- With a greater limit of the call depth and more fuel, evaluation ends as before, unless it was
one of these that stopped it. -/
theorem upTo_outlasts (m : Machine) {fuel fuel' : Nat} (le : limit ≤ limit') (more : fuel ≤ fuel')
    (held : List Held) (id : FrameId) (expr : Expr) :
    Outlasts (upTo (m.withLimit limit) fuel held id expr)
      (upTo (m.withLimit limit') fuel' held id expr) :=
  upTo_unless_more (withLimit_unless m le fun _ => ⟨limit, rfl⟩) trivial more held id expr

end ShapeLang
