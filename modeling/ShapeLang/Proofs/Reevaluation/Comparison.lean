import ShapeLang.Proofs.Eval.Safety
import ShapeLang.Proofs.Eval.Termination
import ShapeLang.Proofs.Value.Alike

/-! # Comparing values by what they contain

Whether two functions or two modules are equal depends on the evaluations that made them. Evaluation
can be made to compare in another way than by identity, for instance so that it complains whenever
a comparison hangs on the identity of functions or modules. However it compares, evaluation ends
and meets no defect.
-/

namespace ShapeLang

namespace Value

/-- Whether two things are so, if a part of that may be unknown. -/
def both : Option Bool → Option Bool → Option Bool
  | some false, _ => some false
  | some true, second => second
  | none, some false => some false
  | none, _ => none

mutual

/-- Whether two values are equal, unless that hangs on the identity of functions or modules. -/
def discern : Value → Value → Option Bool
  | bool a, bool b => some (a == b)
  | num a, num b => some (a == b)
  | text a, text b => some (a == b)
  | list as _, list bs _ => discernItems as bs
  | record as _, record bs _ => both (some (as.length == bs.length)) (discernFields as bs)
  | module _ _, module _ _ => none
  | closure _ _ _, closure _ _ _ => none
  | builtin a, builtin b => some (a == b)
  | _, _ => some false

def discernItems : List Value → List Value → Option Bool
  | [], [] => some true
  | a :: as, b :: bs => both (a.discern b) (discernItems as bs)
  | _, _ => some false

def discernFields : List (String × Value) → List (String × Value) → Option Bool
  | [], _ => some true
  | (name, a) :: as, bs =>
    both (match bs.lookup name with
      | some b => a.discern b
      | none => some false) (discernFields as bs)

end

theorem and_of_both {first second : Option Bool} {same a b : Bool}
    (known : both first second = some same) (atFirst : ∀ holds, first = some holds → a = holds)
    (atSecond : ∀ holds, second = some holds → b = holds) : (a && b) = same := by
  cases first with
  | none =>
    cases second with
    | none => cases known
    | some holds =>
      cases holds with
      | false => simpa [both, atSecond false rfl] using known
      | true => cases known
  | some holds =>
    cases holds with
    | false => simpa [both, atFirst false rfl] using known
    | true => simpa [atFirst true rfl] using atSecond same known

mutual

/-- Where no identity counts, values are told apart as programs do it. -/
theorem equal_of_discern (a b : Value) {same : Bool} (known : a.discern b = some same) :
    a.equal b = same := by
  cases a with
  | list as frames =>
    cases b with
    | list bs frames' => exact equalItems_of_discern as bs known
    | _ => exact Option.some.inj known
  | record as frames =>
    cases b with
    | record bs frames' =>
      exact and_of_both known (fun _ => Option.some.inj) fun _ => equalFields_of_discern as bs
    | _ => exact Option.some.inj known
  | «module» frame fields =>
    cases b with
    | «module» => cases known
    | _ => exact Option.some.inj known
  | closure serial lambda env =>
    cases b with
    | closure => cases known
    | _ => exact Option.some.inj known
  | _ => cases b <;> exact Option.some.inj known

theorem equalItems_of_discern (as bs : List Value) {same : Bool}
    (known : discernItems as bs = some same) : equalItems as bs = same := by
  cases as with
  | nil => cases bs <;> exact Option.some.inj known
  | cons a as =>
    cases bs with
    | nil => exact Option.some.inj known
    | cons b bs =>
      exact and_of_both known (fun _ => equal_of_discern a b) fun _ => equalItems_of_discern as bs

theorem equalFields_of_discern (as bs : List (String × Value)) {same : Bool}
    (known : discernFields as bs = some same) : equalFields as bs = same := by
  cases as with
  | nil => exact Option.some.inj known
  | cons field as =>
    obtain ⟨name, a⟩ := field
    rw [discernFields] at known
    rw [equalFields]
    cases found : bs.lookup name with
    | none =>
      rw [found] at known
      exact Option.some.inj known
    | some b =>
      rw [found] at known
      exact and_of_both known (fun _ => equal_of_discern a b)
        fun _ => equalFields_of_discern as bs

end

namespace Alike

variable {names : List String → List String → Prop} {same : FrameId → FrameId → Prop}
  {twin : Nat → Nat → Prop} {value value' other other' : Value}

private theorem discernItems_eq (items others : List (Value × Value))
    (parts : ∀ item ∈ items, ∀ other ∈ others, item.1.discern other.1 = item.2.discern other.2) :
    discernItems (items.map (·.1)) (others.map (·.1)) =
      discernItems (items.map (·.2)) (others.map (·.2)) := by
  induction items generalizing others with
  | nil => cases others <;> rfl
  | cons item items ih =>
    cases others with
    | nil => rfl
    | cons other others =>
      simp only [List.map_cons, discernItems]
      rw [parts item (by simp) other (by simp), ih others fun item mem other mem' =>
        parts item (by simp [mem]) other (by simp [mem'])]

private theorem discernFields_eq (fields others : List (String × Value × Value))
    (parts : ∀ field ∈ fields, ∀ other ∈ others,
      field.2.1.discern other.2.1 = field.2.2.discern other.2.2) :
    discernFields (fields.map fun field => (field.1, field.2.1))
        (others.map fun field => (field.1, field.2.1)) =
      discernFields (fields.map fun field => (field.1, field.2.2))
        (others.map fun field => (field.1, field.2.2)) := by
  induction fields with
  | nil => rfl
  | cons field fields ih =>
    simp only [List.map_cons, discernFields]
    rw [lookup_map Prod.fst, lookup_map Prod.snd, ih fun more mem => parts more (by simp [mem])]
    cases found : others.lookup field.1 with
    | none => rfl
    | some other =>
      obtain ⟨before, after, rfl, -⟩ := List.lookup_eq_some_iff.mp found
      simp only [Option.map_some, parts field (by simp) (field.1, other) (by simp)]

/-- Values of the same form are told apart in the same way where no identity counts. -/
theorem discern (alike : Alike names same twin value value')
    (alike' : Alike names same twin other other') :
    value.discern other = value'.discern other' := by
  induction alike generalizing other other' with
  | list items _ parts =>
    cases alike' with
    | list others parts' =>
      simp only [Value.discern]
      exact discernItems_eq items others fun item mem other mem' =>
        parts item mem (parts' other mem')
    | _ => rfl
  | record fields _ parts =>
    cases alike' with
    | record others parts' =>
      simp only [Value.discern, List.length_map]
      rw [discernFields_eq fields others fun field mem other mem' =>
        parts field mem (parts' other mem')]
    | _ => rfl
  | _ => cases alike' <;> rfl

/-- Operators that compare nothing cannot tell such values apart. -/
theorem operate_data (a : Arithmetic) {op : BinaryOp} (plain : op ≠ .equal ∧ op ≠ .notEqual)
    (alike : Alike names same twin value value') (alike' : Alike names same twin other other') :
    Eval.operate a op value other = Eval.operate a op value' other' := by
  cases op with
  | add => exact alike.broadcast _ alike'
  | subtract => exact alike.broadcast _ alike'
  | multiply => exact alike.broadcast _ alike'
  | divide => exact alike.broadcast _ alike'
  | power => exact alike.broadcast _ alike'
  | equal => exact (plain.1 rfl).elim
  | notEqual => exact (plain.2 rfl).elim
  | _ => simp only [Eval.operate, alike.wrongType]

end Alike

end Value

/-- A way to say whether two values are equal, or to complain about the question. -/
abbrev Comparison := Value → Value → Except ErrorKind Bool

namespace Comparison

/-- Equality as programs see it. -/
def identity : Comparison := fun a b => .ok (a.equal b)

/-- The complaint about a comparison that hangs on the identity of functions or modules. No
operation of programs makes it. -/
def refusal : ErrorKind := .wrongType "data" "function or module"

/-- Equality of what values contain. -/
def content : Comparison := fun a b =>
  match a.discern b with
  | some same => .ok same
  | none => .error refusal

/-- A comparison goes by content, except that a lenient one may answer where that is refused. -/
def Follows (lenient : Prop) (compare : Comparison) : Prop :=
  ∀ a b, compare a b = content a b ∨
    lenient ∧ content a b = .error refusal ∧ ∃ same, compare a b = .ok same

theorem follows_content : Follows False content := fun _ _ => .inl rfl

theorem follows_identity : Follows True identity := by
  intro a b
  unfold content identity
  cases known : a.discern b with
  | none => exact .inr ⟨trivial, rfl, _, rfl⟩
  | some same => exact .inl (congrArg Except.ok (Value.equal_of_discern a b known))

end Comparison

theorem Value.Alike.content {names : List String → List String → Prop}
    {same : FrameId → FrameId → Prop} {twin : Nat → Nat → Prop} {value value' other other' : Value}
    (alike : Alike names same twin value value') (alike' : Alike names same twin other other') :
    Comparison.content value other = Comparison.content value' other' := by
  unfold Comparison.content
  rw [alike.discern alike']

/-- Operators that ask whether their operands are equal, with true, or whether they are not. -/
def BinaryOp.asksEqual? : BinaryOp → Option Bool
  | .equal => some true
  | .notEqual => some false
  | _ => none

namespace Eval

variable (compare : Comparison) (m : Machine)

/-- Evaluates two expressions and compares them: the result says whether they are equal, or with
`positive` set to false whether they are not. -/
def contrast (evaluate : Evaluator) (positive : Bool) (held : List Held) (frame : FrameId)
    (location : Location) (left right : Expr) : Eval Value := do
  let a ← evaluate held frame left
  let b ← evaluate (.value a :: held) frame right
  blaming (.values [a, b] :: held) (.place location (some frame))
    ((fun same => .bool (same == positive)) <$> compare a b)

/-- Evaluates one expression as `step` does, but compares in the given way. -/
def stepComparing (evaluate : Evaluator) : Evaluator := fun held frame expr =>
  match expr with
  | .binary location op left right =>
    match op.asksEqual? with
    | some positive => contrast compare evaluate positive held frame location left right
    | none => step m evaluate held frame (.binary location op left right)
  | other => step m evaluate held frame other

/-- Evaluation as in `upTo` that compares in the given way. -/
def upToComparing : Nat → Evaluator
  | 0 => fun _ _ _ => throw .outOfFuel
  | fuel + 1 => stepComparing compare m (upToComparing fuel)

theorem stepComparing_identity (evaluate : Evaluator) :
    stepComparing .identity m evaluate = step m evaluate := by
  funext held frame expr
  cases expr with
  | binary location op left right =>
    cases op with
    | equal =>
      simp [stepComparing, BinaryOp.asksEqual?, contrast, step, compare?, operate,
        Comparison.identity, Expr.location, Functor.map, Except.map]
    | notEqual =>
      simp [stepComparing, BinaryOp.asksEqual?, contrast, step, compare?, operate,
        Comparison.identity, Expr.location, Functor.map, Except.map]
    | _ => rfl
  | _ => rfl

theorem upToComparing_identity (fuel : Nat) : upToComparing .identity m fuel = upTo m fuel := by
  induction fuel with
  | zero => rfl
  | succ fuel ih => rw [upToComparing, upTo, ih, stepComparing_identity]

section Ends

variable {compare m} {ev : Nat → Evaluator} {start : Heap} {held : List Held} {id : FrameId}
  {expr : Expr}

theorem stepComparing_terminates (below : EndsBelow m ev start (start.task m id expr)) :
    Terminates (fun fuel => stepComparing compare m (ev fuel) held id expr) start fun _ after =>
      Progress m start (start.task m id expr) after := by
  have usual : Terminates (fun fuel => step m (ev fuel) held id expr) start fun _ after =>
      Progress m start (start.task m id expr) after := step_terminates below
  cases expr with
  | binary location op left right =>
    simp only [stepComparing]
    cases op.asksEqual? with
    | none => exact usual
    | some positive =>
      have part {side : Expr} (smaller : sizeOf side < sizeOf (Expr.binary location op left right))
          {after : Heap} (extension : start.Extends after) :
          after.task m id side < start.task m id (.binary location op left right) :=
        extension.task_lt m smaller
      refine (below.part (.refl start _) (part ?_ (.refl start))).bind fun a after progress => ?_
      · rw [Expr.binary.sizeOf_spec]
        omega
      refine (below.part progress (part ?_ progress.extension)).bind fun b after progress => ?_
      · rw [Expr.binary.sizeOf_spec]
        omega
      exact .of_ends (.blaming (fun _ _ => progress) (by simp))
  | _ => exact usual

private theorem wellFounded_work :
    WellFounded fun less more : Multiset Task => Multiset.IsDershowitzMannaLT less more :=
  Multiset.wellFounded_isDershowitzMannaLT

/-- Evaluation ends, however it compares. -/
theorem upToComparing_terminates (heap : Heap) (held : List Held) (id : FrameId) (expr : Expr) :
    Terminates (fun fuel => upToComparing compare m fuel held id expr) heap fun _ after =>
      heap.Extends after ∧
        Multiset.IsDershowitzMannaLT (after.work m) (heap.work m + {heap.task m id expr}) := by
  induction budget : heap.work m + {heap.task m id expr} using
    wellFounded_work.induction generalizing heap held id expr with
  | _ budget ih =>
    subst budget
    have below : EndsBelow m (upToComparing compare m) heap (heap.task m id expr) :=
      fun heap' held' id' expr' less => ih _ less heap' held' id' expr' rfl
    refine .of_succ ((stepComparing_terminates below).mono fun _ after progress => ?_)
    exact ⟨progress.extension, progress.left.lt⟩

/-- Whatever is evaluated ends, so everything does that has less work than some bound. -/
theorem endsBelow_comparing (start : Heap) (bound : Task) :
    EndsBelow m (upToComparing compare m) start bound :=
  fun heap held id expr _ => upToComparing_terminates heap held id expr

theorem field?_comparing_terminates (heap : Heap) (held : List Held) (value : Value)
    (name : String) (context : Context) :
    Terminates (fun fuel => field? (upToComparing compare m fuel) held value name context) heap
      fun _ _ => True :=
  (EndsBelow.field? (endsBelow_comparing heap (toLex (0, 0))) (.refl ..) value name context).mono
    fun _ _ _ => trivial

theorem call_comparing_terminates (heap : Heap) (held : List Held) (function : Value)
    (args : List Value) (caller : FrameId) (site : Location) :
    Terminates (fun fuel => call m (upToComparing compare m fuel) held function args caller site)
      heap fun _ _ => True := by
  refine (EndsBelow.call (endsBelow_comparing heap (toLex (m.maxCallDepth + 1, 0))) (.refl ..)
    function args site fun after _ room size => ?_).mono fun _ _ _ => trivial
  rw [Prod.Lex.toLex_lt_toLex]
  exact .inl (by dsimp only; omega)

end Ends

section Safe

variable {compare m} {ev : Evaluator}

theorem stepComparing_safe (safe : Safe ev) : Safe (stepComparing compare m ev) := by
  intro start held id expr world fits
  have usual := step_safe (m := m) safe start held id expr world fits
  cases expr with
  | binary location op left right =>
    simp only [stepComparing]
    cases op.asksEqual? with
    | none => exact usual
    | some positive =>
      obtain ⟨sees, frame, found, room⟩ := fits
      cases sees with | binary first second =>
      have member {heap : Heap} {values : List Value} :
          Stage.Secures start [id] heap values (· id) := fun _ _ inside _ _ => inside id (by simp)
      have fitsLeft : start.Fits id left :=
        ⟨first, frame, found, fun slot mem => room slot (by simp [mem])⟩
      have fitsRight : start.Fits id right :=
        ⟨second, frame, found, fun slot mem => room slot (by simp [mem])⟩
      refine (stays_part safe world (.refl start [id] []) member fitsLeft).bind
        fun a heap stage => ?_
      refine (stays_part safe world stage member (fitsRight.mono stage.grows)).bind
        fun b heap stage => ?_
      refine .blaming (fun value made => ?_) fun _ _ _ => stage.broken _
      cases answer : compare a b with
      | error kind =>
        rw [answer] at made
        cases made
      | ok same =>
        rw [answer] at made
        obtain rfl := Except.ok.inj made
        exact (stage.push_plain (.bool (same == positive))).subset (by simp)
  | _ => exact usual

theorem upToComparing_safe (fuel : Nat) : Safe (upToComparing compare m fuel) := by
  induction fuel with
  | zero => exact fun start _ id _ _ _ => Ends.throw ⟨.outOfFuel, .refl start [id] []⟩
  | succ fuel ih => exact stepComparing_safe ih

end Safe

end Eval

end ShapeLang
