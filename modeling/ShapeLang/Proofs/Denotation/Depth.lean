import ShapeLang.Proofs.Denotation.Rules
import ShapeLang.Proofs.Value.Alike

/-! # Calls around code

The calls around code are counted only so that a program stops whose calls are nested too deeply. As
long as none does, code denotes the same wherever it is called from, up to the counts themselves.
-/

namespace ShapeLang.Denotation

mutual

/-- A denotation without the counts in its environments. -/
def Den.flat : Den → Den
  | .bool value => .bool value
  | .num value => .num value
  | .text content => .text content
  | .list items => .list (Den.flats items)
  | .record fields => .record (Den.flatFields fields)
  | .module env fields => .module env.flat fields
  | .closure place lambda env => .closure place lambda env.flat
  | .builtin function => .builtin function

def Den.flats : List Den → List Den
  | [] => []
  | item :: items => item.flat :: Den.flats items

def Den.flatFields : List (String × Den) → List (String × Den)
  | [] => []
  | (name, value) :: fields => (name, value.flat) :: Den.flatFields fields

def Env.flat : Env → Env
  | .frame name definitions _ args parent =>
    .frame name definitions 0 (Den.flats args) (Env.flatOuter parent)

def Env.flatOuter : Option Env → Option Env
  | none => none
  | some env => some env.flat

end

theorem Den.flats_eq (items : List Den) : Den.flats items = items.map Den.flat := by
  induction items with
  | nil => rfl
  | cons item items ih => rw [Den.flats, ih, List.map_cons]

theorem Den.flatFields_eq (fields : List (String × Den)) :
    Den.flatFields fields = fields.map fun field => (field.1, field.2.flat) := by
  induction fields with
  | nil => rfl
  | cons field fields ih =>
    obtain ⟨name, value⟩ := field
    rw [Den.flatFields, ih, List.map_cons]

theorem Env.flatOuter_eq (outer : Option Env) : Env.flatOuter outer = outer.map Env.flat := by
  cases outer <;> rfl

mutual

/-- Operators and builtin functions do not see the counts. -/
theorem Den.outline_flat : (value : Den) → value.flat.outline = value.outline
  | .bool _ => rfl
  | .num _ => rfl
  | .text _ => rfl
  | .list items => by rw [Den.flat, Den.outline, Den.outline, Den.outlines_flats items]
  | .record fields => by
    rw [Den.flat, Den.outline, Den.outline, Den.outlineFields_flatFields fields]
  | .module (.frame _ _ _ _ _) _ => rfl
  | .closure _ _ _ => rfl
  | .builtin _ => rfl

theorem Den.outlines_flats : (items : List Den) →
    Den.outlines (Den.flats items) = Den.outlines items
  | [] => rfl
  | item :: items => by
    rw [Den.flats, Den.outlines, Den.outlines, Den.outline_flat item, Den.outlines_flats items]

theorem Den.outlineFields_flatFields : (fields : List (String × Den)) →
    Den.outlineFields (Den.flatFields fields) = Den.outlineFields fields
  | [] => rfl
  | (name, value) :: fields => by
    rw [Den.flatFields, Den.outlineFields, Den.outlineFields, Den.outline_flat value,
      Den.outlineFields_flatFields fields]

end

section Resembles

variable {α β γ δ : Type} {look : α → β} {outcome outcome' : Outcome α}

/-- Too many calls are nested. -/
def Overflows (outcome : Outcome α) : Prop :=
  ∃ limit, outcome.run = some (.error (.stackOverflow limit))

/-- Two outcomes look the same, unless too many calls are nested in one of them. -/
def Resembles (look : α → β) (outcome outcome' : Outcome α) : Prop :=
  Overflows outcome ∨ Overflows outcome' ∨
    outcome.run.map (Except.map look) = outcome'.run.map (Except.map look)

theorem Overflows.bind {next : α → Outcome γ} (overflows : Overflows outcome) :
    Overflows (outcome >>= next) := by
  obtain ⟨limit, ran⟩ := overflows
  exact ⟨limit, run_bind_error next ran⟩

namespace Resembles

theorem pure {a a' : α} (same : look a = look a') :
    Resembles look (Pure.pure a) (Pure.pure a') := by
  refine .inr (.inr ?_)
  change some (Except.ok (look a)) = some (.ok (look a'))
  rw [same]

theorem refl : Resembles look outcome outcome := .inr (.inr rfl)

theorem bind {look' : γ → δ} {next next' : α → Outcome γ}
    (first : Resembles look outcome outcome')
    (second : ∀ a a', look a = look a' → Resembles look' (next a) (next' a')) :
    Resembles look' (outcome >>= next) (outcome' >>= next') := by
  rcases first with overflows | overflows | same
  · exact .inl overflows.bind
  · exact .inr (.inl overflows.bind)
  · cases ran : outcome.run with
    | none =>
      rw [ran] at same
      have ran' : outcome'.run = none := Option.map_eq_none_iff.mp same.symm
      refine .inr (.inr ?_)
      rw [run_bind_none _ ran, run_bind_none _ ran']
    | some result =>
      rw [ran] at same
      obtain ⟨result', ran', same⟩ := Option.map_eq_some_iff.mp same.symm
      cases result with
      | error kind =>
        cases result' with
        | ok a' => cases same
        | error kind' =>
          obtain rfl := Except.error.inj same
          refine .inr (.inr ?_)
          rw [run_bind_error _ ran, run_bind_error _ ran']
      | ok a =>
        cases result' with
        | error kind' => cases same
        | ok a' =>
          unfold Resembles Overflows
          rw [run_bind_ok _ ran, run_bind_ok _ ran']
          exact second a a' (Except.ok.inj same).symm

theorem map {look' : γ → δ} {f f' : α → γ} (first : Resembles look outcome outcome')
    (second : ∀ a a', look a = look a' → look' (f a) = look' (f' a')) :
    Resembles look' (f <$> outcome) (f' <$> outcome') := by
  simp only [map_eq_pure_bind]
  exact first.bind fun a a' same => .pure (second a a' same)

/-- Outcomes that settle look the same. -/
theorem settles {family family' : Nat → Outcome α} {result result' : Except ErrorKind α}
    (resembles : ∀ n, Resembles look (family n) (family' n)) (settles : Settles family result)
    (settles' : Settles family' result')
    (fits : ∀ limit, result ≠ .error (.stackOverflow limit))
    (fits' : ∀ limit, result' ≠ .error (.stackOverflow limit)) :
    result.map look = result'.map look := by
  obtain ⟨enough, found⟩ := settles.found
  obtain ⟨enough', found'⟩ := settles'.found
  have ran := found (max enough enough') (Nat.le_max_left ..)
  have ran' := found' (max enough enough') (Nat.le_max_right ..)
  rcases resembles (max enough enough') with ⟨limit, deep⟩ | ⟨limit, deep⟩ | same
  · exact (fits limit (Option.some.inj (ran.symm.trans deep))).elim
  · exact (fits' limit (Option.some.inj (ran'.symm.trans deep))).elim
  · rw [ran, ran'] at same
    exact Option.some.inj same

/-- What settles does not resemble what has no outcome. -/
theorem not_diverges {family family' : Nat → Outcome α} {result : Except ErrorKind α}
    (resembles : ∀ n, Resembles look (family n) (family' n)) (settles : Settles family result)
    (fits : ∀ limit, result ≠ .error (.stackOverflow limit)) : ¬ Diverges family' := by
  intro diverges
  obtain ⟨enough, found⟩ := settles.found
  have ran := found enough (Nat.le_refl enough)
  have stuck := diverges enough
  rcases resembles enough with ⟨limit, deep⟩ | ⟨limit, deep⟩ | same
  · exact fits limit (Option.some.inj (ran.symm.trans deep))
  · rw [stuck] at deep
    cases deep
  · rw [ran, stuck] at same
    cases same

theorem symm (resembles : Resembles look outcome outcome') : Resembles look outcome' outcome := by
  rcases resembles with overflows | overflows | same
  · exact .inr (.inl overflows)
  · exact .inl overflows
  · exact .inr (.inr same.symm)

end Resembles

end Resembles

/-- Denotations in environments that only differ in the counts. -/
def Levels (den : Denoter) : Prop :=
  ∀ env env' w expr, env.flat = env'.flat → Resembles Den.flat (den env w expr) (den env' w expr)

section Environments

variable {env env' : Env}

theorem Env.definitions_of_flat (same : env.flat = env'.flat) :
    env.definitions = env'.definitions := by
  cases env
  cases env'
  exact (Env.frame.inj same).2.1

theorem Env.args_of_flat (same : env.flat = env'.flat) :
    env.args.map Den.flat = env'.args.map Den.flat := by
  cases env
  cases env'
  have args := (Env.frame.inj same).2.2.2.1
  rwa [Den.flats_eq, Den.flats_eq] at args

theorem Env.parent_of_flat (same : env.flat = env'.flat) :
    env.parent.map Env.flat = env'.parent.map Env.flat := by
  cases env
  cases env'
  have parents := (Env.frame.inj same).2.2.2.2
  rwa [Env.flatOuter_eq, Env.flatOuter_eq] at parents

theorem Env.ancestor?_of_flat (same : env.flat = env'.flat) (depth : Nat) :
    (env.ancestor? depth).map Env.flat = (env'.ancestor? depth).map Env.flat := by
  induction depth generalizing env env' with
  | zero => exact congrArg some same
  | succ depth ih =>
    have parents := Env.parent_of_flat same
    rw [Env.ancestor?, Env.ancestor?]
    cases atEnv : env.parent with
    | none =>
      rw [atEnv] at parents
      rw [Option.map_eq_none_iff.mp parents.symm]
    | some outer =>
      rw [atEnv] at parents
      obtain ⟨outer', atEnv', same'⟩ := Option.map_eq_some_iff.mp parents.symm
      rw [atEnv']
      exact ih same'.symm

/-- An environment that is entered at a place. -/
theorem Env.flat_frame {w : Place} {all : List Definition} {depth depth' : Nat}
    {args args' : List Den} (around : env.flat = env'.flat)
    (values : args.map Den.flat = args'.map Den.flat) :
    (Env.frame w all depth args (some env)).flat =
      (Env.frame w all depth' args' (some env')).flat := by
  simp only [Env.flat, Env.flatOuter, Den.flats_eq, around, values]

end Environments

section Rules

variable {m : Machine} {den : Denoter} {env env' : Env} {w : Place} {value value' : Den}
  (levels : Levels den)
include levels

theorem resembles_read (same : env.flat = env'.flat) (slot : Nat) :
    Resembles Den.flat (read den env slot) (read den env' slot) := by
  have args : (env.args[slot]?).map Den.flat = (env'.args[slot]?).map Den.flat := by
    rw [← List.getElem?_map, Env.args_of_flat same, List.getElem?_map]
  rw [read, read, Env.definitions_of_flat same]
  cases there : env.args[slot]? with
  | some value =>
    rw [there] at args
    obtain ⟨value', there', same'⟩ := Option.map_eq_some_iff.mp args.symm
    rw [there']
    exact .pure same'.symm
  | none =>
    rw [there] at args
    rw [Option.map_eq_none_iff.mp args.symm]
    dsimp only
    cases definition? env'.definitions slot with
    | none => exact .refl
    | some definition => exact levels env env' _ _ same

theorem resembles_field? (same : value.flat = value'.flat) (name : String) :
    Resembles (Option.map Den.flat) (field? den value name) (field? den value' name) := by
  cases value with
  | record fields =>
    cases value' with
    | record fields' =>
      have fields := Den.record.inj same
      rw [Den.flatFields_eq, Den.flatFields_eq] at fields
      refine .pure ?_
      have found := congrArg (List.lookup name) fields
      rwa [lookup_map, lookup_map] at found
    | _ => cases same
  | «module» env fields =>
    cases value' with
    | «module» env' fields' =>
      obtain ⟨around, rfl⟩ := Den.module.inj same
      simp only [field?]
      cases fields.lookup name with
      | none => exact .refl
      | some slot =>
        exact (resembles_read levels around slot).map fun _ _ same => congrArg some same
    | _ => cases same
  | _ => cases value' <;> first | exact .refl | cases same

theorem resembles_all (same : env.flat = env'.flat) (exprs : List Expr) {done done' : List Den}
    (before : done.map Den.flat = done'.map Den.flat) :
    Resembles (List.map Den.flat) (denoteAll den env w done exprs)
      (denoteAll den env' w done' exprs) := by
  induction exprs generalizing w done done' with
  | nil => exact .pure (by rw [List.map_reverse, before, List.map_reverse])
  | cons expr exprs ih =>
    refine (levels env env' _ expr same).bind fun value value' same' => ih ?_
    rw [List.map_cons, List.map_cons, same', before]

theorem resembles_fields (same : env.flat = env'.flat) (fields : List (String × Expr))
    {done done' : List (String × Den)}
    (before : Den.flatFields done = Den.flatFields done') :
    Resembles Den.flatFields (denoteFields den env w done fields)
      (denoteFields den env' w done' fields) := by
  induction fields generalizing w done done' with
  | nil =>
    rw [Den.flatFields_eq, Den.flatFields_eq] at before
    exact .pure (by
      rw [Den.flatFields_eq, Den.flatFields_eq, List.map_reverse, before, List.map_reverse])
  | cons field fields ih =>
    obtain ⟨name, expr⟩ := field
    refine (levels env env' _ expr same).bind fun value value' same' => ih ?_
    rw [Den.flatFields, Den.flatFields, same', before]

theorem resembles_each (same : env.flat = env'.flat) (body : Expr) {items items' : List Den}
    (given : items.map Den.flat = items'.map Den.flat) {done done' : List Den}
    (before : done.map Den.flat = done'.map Den.flat) :
    Resembles (List.map Den.flat) (denoteEach den env w body done items)
      (denoteEach den env' w body done' items') := by
  induction items generalizing w done done' items' with
  | nil =>
    obtain rfl := List.map_eq_nil_iff.mp given.symm
    exact .pure (by rw [List.map_reverse, before, List.map_reverse])
  | cons item items ih =>
    cases items' with
    | nil => simp at given
    | cons item' items' =>
      obtain ⟨head, rest⟩ := List.cons.inj given
      have rounds : (round env (.part 0 :: w) body item).flat =
          (round env' (.part 0 :: w) body item').flat :=
        Env.flat_frame same (congrArg (fun item => [item]) head)
      refine (levels _ _ _ body rounds).bind fun value value' same' => ih rest ?_
      rw [List.map_cons, List.map_cons, same', before]

theorem resembles_call (same : value.flat = value'.flat) {args args' : List Den}
    (given : args.map Den.flat = args'.map Den.flat) (depth depth' : Nat) :
    Resembles Den.flat (call m den value args depth w) (call m den value' args' depth' w) := by
  have count : args.length = args'.length := by simpa using congrArg List.length given
  cases value with
  | closure place lambda env =>
    cases value' with
    | closure place' lambda' env' =>
      obtain ⟨rfl, rfl, around⟩ := Den.closure.inj same
      simp only [call, count]
      by_cases fits : args'.length = lambda.paramCount
      swap
      · simp only [ne_eq, fits, not_false_eq_true, ↓reduceIte]
        exact .refl
      simp only [ne_eq, fits, not_true_eq_false, ↓reduceIte]
      by_cases deep : m.maxCallDepth < depth + 1
      · refine .inl ⟨m.maxCallDepth, ?_⟩
        simp only [deep, ↓reduceIte]
        rfl
      by_cases deep' : m.maxCallDepth < depth' + 1
      · refine .inr (.inl ⟨m.maxCallDepth, ?_⟩)
        simp only [deep', ↓reduceIte]
        rfl
      simp only [deep, deep', ↓reduceIte]
      exact levels _ _ _ lambda.body (Env.flat_frame around given)
    | _ => cases same
  | builtin function =>
    cases value' with
    | builtin function' =>
      obtain rfl := Den.builtin.inj same
      have outlines : args.map Den.outline = args'.map Den.outline := by
        have flattened (items : List Den) :
            items.map Den.outline = (items.map Den.flat).map Den.outline := by
          rw [List.map_map]
          exact List.map_congr_left fun item _ => (Den.outline_flat item).symm
        rw [flattened, given, ← flattened]
      simp only [call, count, outlines]
      exact .refl
    | _ => cases same
  | _ =>
    have outline := Den.outline_flat value'
    rw [← same] at outline
    cases value' <;> first | (simp only [call, ← outline, Den.outline_flat]; exact .refl) | cases same

omit levels in
/-- Tests look at outlines. -/
theorem outline_of_flat (same : value.flat = value'.flat) : value.outline = value'.outline := by
  rw [← Den.outline_flat value, same, Den.outline_flat]

omit levels in
theorem resembles_toList (same : value.flat = value'.flat) :
    Resembles (List.map Den.flat) (expect (toList value)) (expect (toList value')) := by
  have outline := outline_of_flat same
  cases value with
  | list items =>
    cases value' with
    | list items' =>
      have items := Den.list.inj same
      rw [Den.flats_eq, Den.flats_eq] at items
      exact .pure items
    | _ => cases same
  | _ => cases value' <;> first | (simp only [toList, outline]; exact .refl) | cases same

omit levels in
theorem resembles_component (same : value.flat = value'.flat) (name : String) :
    Resembles Den.flat (component value name) (component value' name) := by
  have outline := outline_of_flat same
  simp only [component, outline]
  cases value'.outline.numbers?.bind fun xs => (componentIndex? name).bind (xs[·]?) with
  | some x => exact .refl
  | none => cases value <;> cases value' <;> first | exact .refl | cases same

omit levels in
theorem resembles_combine {other other' : Den} (op : BinaryOp) (same : value.flat = value'.flat)
    (same' : other.flat = other'.flat) :
    Resembles Den.flat (combine m op value other) (combine m op value' other') := by
  rw [combine, combine, outline_of_flat same, outline_of_flat same']
  exact .refl

/-- A truth value is found in the same way. -/
theorem resembles_truth {expr : Expr} (same : env.flat = env'.flat) (w : Place) :
    Resembles Den.flat (do
        let b ← den env w expr
        Den.bool <$> expect (Eval.toBool b.outline))
      (do
        let b ← den env' w expr
        Den.bool <$> expect (Eval.toBool b.outline)) := by
  refine (levels env env' _ expr same).bind fun b b' same' => ?_
  rw [outline_of_flat same']
  exact .refl

/-- What an expression denotes does not depend on the counts if what its parts denote does not. -/
theorem levels_rule : Levels (rule m den) := by
  intro env env' w expr same
  have part (i : Nat) (expr : Expr) := levels env env' (.part i :: w) expr same
  -- Both tests of a truth value give the same.
  have decide {β : Type} {look : Den → β} {condition condition' : Den} {first first' second
      second' : Outcome Den} (told : condition.flat = condition'.flat)
      (whenTrue : Resembles look first first') (whenFalse : Resembles look second second') :
      Resembles look (do if ← expect (Eval.toBool condition.outline) then first else second)
        (do if ← expect (Eval.toBool condition'.outline) then first' else second') := by
    have holds : Resembles id (expect (Eval.toBool condition.outline))
        (expect (Eval.toBool condition'.outline)) := by
      rw [outline_of_flat told]
      exact .refl
    refine holds.bind fun holds _ same => ?_
    obtain rfl : holds = _ := same
    cases holds with
    | true => exact whenTrue
    | false => exact whenFalse
  cases expr with
  | constant location value => exact .refl
  | slot location depth slot =>
    have owners := Env.ancestor?_of_flat same depth
    simp only [rule]
    cases reached : env.ancestor? depth with
    | none =>
      rw [reached] at owners
      rw [Option.map_eq_none_iff.mp owners.symm]
      exact .refl
    | some owner =>
      rw [reached] at owners
      obtain ⟨owner', reached', same'⟩ := Option.map_eq_some_iff.mp owners.symm
      rw [reached']
      exact resembles_read levels same'.symm slot
  | call location function args =>
    refine (part 0 function).bind fun callee callee' same' => ?_
    refine (resembles_all levels same args rfl).bind fun values values' given => ?_
    exact resembles_call levels same' given env.depth env'.depth
  | list location items =>
    refine (resembles_all levels same items rfl).map fun values values' made => ?_
    rw [Den.flat, Den.flat, Den.flats_eq, Den.flats_eq, made]
  | record location fields =>
    refine (resembles_fields levels same fields rfl).map fun values values' made => ?_
    rw [Den.flat, Den.flat, made]
  | «module» location slotCount fields bindings =>
    refine .pure ?_
    rw [Den.flat, Den.flat, Env.flat_frame same rfl]
  | letIn location bindings body => exact part 0 body
  | lambda location paramCount slotCount body =>
    refine .pure ?_
    rw [Den.flat, Den.flat, same]
  | unary location op operand =>
    refine (part 0 operand).bind fun value value' same' => ?_
    rw [outline_of_flat same']
    exact .refl
  | binary location op left right =>
    cases op with
    | and =>
      refine (part 0 left).bind fun a a' same' => ?_
      exact decide same' (resembles_truth levels same _) .refl
    | or =>
      refine (part 0 left).bind fun a a' same' => ?_
      exact decide same' .refl (resembles_truth levels same _)
    | _ =>
      refine (part 0 left).bind fun a a' same' => ?_
      refine (part 1 right).bind fun b b' same'' => ?_
      exact resembles_combine _ same' same''
  | conditional location condition whenTrue whenFalse =>
    refine (part 0 condition).bind fun a a' same' => ?_
    exact decide same' (part 1 whenTrue) (part 2 whenFalse)
  | dot location base name =>
    refine (part 0 base).bind fun value value' same' => ?_
    refine (resembles_field? levels same' name).bind fun found found' same'' => ?_
    cases found with
    | none =>
      rw [Option.map_eq_none_iff.mp same''.symm]
      exact resembles_component same' name
    | some field =>
      obtain ⟨field', rfl, equal⟩ := Option.map_eq_some_iff.mp same''.symm
      exact .pure equal.symm
  | index location base index =>
    refine (part 0 base).bind fun value value' same' => ?_
    refine (resembles_toList same').bind fun items items' listed => ?_
    refine (part 1 index).bind fun place place' same'' => ?_
    rw [outline_of_flat same'']
    have count : items.length = items'.length := by simpa using congrArg List.length listed
    have told : Resembles id (expect (Eval.toNumber place'.outline))
        (expect (Eval.toNumber place'.outline)) := .refl
    refine told.bind fun x _ equal => ?_
    obtain rfl : x = _ := equal
    rw [count]
    cases Eval.position? x items'.length with
    | none => exact .refl
    | some i =>
      have item : (items[i]?).map Den.flat = (items'[i]?).map Den.flat := by
        rw [← List.getElem?_map, listed, List.getElem?_map]
      simp only [Option.bind_some]
      cases there : items[i]? with
      | none =>
        rw [there] at item
        rw [Option.map_eq_none_iff.mp item.symm]
        exact .refl
      | some value =>
        rw [there] at item
        obtain ⟨value', there', same⟩ := Option.map_eq_some_iff.mp item.symm
        rw [there']
        exact .pure same.symm
  | forEach location slotCount list body =>
    refine (part 0 list).bind fun value value' same' => ?_
    refine (resembles_toList same').bind fun items items' listed => ?_
    refine (resembles_each levels same body listed rfl).map fun values values' made => ?_
    rw [Den.flat, Den.flat, Den.flats_eq, Den.flats_eq, made]

end Rules

/-- What code denotes does not depend on how many calls are around it, unless they are too many. -/
theorem levels_upTo (m : Machine) (fuel : Nat) : Levels (upTo m fuel) := by
  induction fuel with
  | zero => exact fun _ _ _ _ _ => .refl
  | succ fuel ih => exact levels_rule ih

end ShapeLang.Denotation
