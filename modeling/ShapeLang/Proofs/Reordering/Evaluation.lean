import ShapeLang.Proofs.Builtin.Results
import ShapeLang.Proofs.Reordering.Operations

/-! # Twin code is evaluated alike

Two evaluators that follow each other on the parts of expressions follow each other on expressions.
With the same fuel this holds for evaluation itself.
-/

namespace ShapeLang.Reordering

open Eval

variable {literals : Location → Location → Prop} {layouts : Layouts} {heap heap' : Heap}
  {evaluate evaluate' : Evaluator} {m : Machine} {held held' : List Held} {id : FrameId}
  {context context' : Context}

/-- Lists of values that serve the same purpose, side by side. -/
abbrev Partners (literals : Location → Location → Prop) (layouts : Layouts) :
    List Value → List Value → Prop :=
  List.Forall₂ (Partner literals layouts)

namespace Partners

variable {values values' : List Value}

theorem later {wider : Layouts} (partners : Partners literals layouts values values')
    (later : layouts <+: wider) : Partners literals wider values values' :=
  partners.imp fun _ _ partner => partner.later later

theorem ofItems (partners : Partners literals layouts values values') :
    Partner literals layouts (.ofItems values) (.ofItems values') := by
  obtain ⟨pairs, rfl, rfl, each⟩ := exists_pairs partners
  exact .list pairs each

end Partners

/-- A builtin function gives the same in both evaluations, unless it quotes a module. -/
theorem apply_partners (a : Arithmetic) (function : Builtin) {args args' : List Value}
    (partners : Partners literals layouts args args') (count : args.length = function.arity) :
    function.apply a args = function.apply a args' ∨ ∃ value value' : Value,
      value.Rearranged value' ∧
        function.apply a args = .error (.reported (.userError value.shown)) ∧
        function.apply a args' = .error (.reported (.userError value'.shown)) := by
  obtain ⟨pairs, rfl, rfl, each⟩ := exists_pairs partners
  have alike : Value.AllAlike List.Perm Eq Eq pairs := fun pair mem => (each pair mem).rearranged
  by_cases quotes : function = .error
  · subst quotes
    obtain ⟨⟨value, value'⟩, rfl⟩ := List.length_eq_one_iff.mp ((List.length_map _).symm.trans count)
    have shown : value.Rearranged value' := alike (value, value') (by simp)
    have given := shown
    cases given with
    | text content => exact .inl rfl
    | _ => exact .inr ⟨_, _, shown, rfl, rfl⟩
  · rw [List.length_map] at count
    exact .inl (function.apply_alike a pairs alike count fun same => absurd same quotes)

/-- Fields of the same names with values that serve the same purpose. -/
def FieldPartners (literals : Location → Location → Prop) (layouts : Layouts)
    (fields fields' : List (String × Value)) : Prop :=
  ∃ triples : List (String × Value × Value), fields = triples.map (fun field => (field.1, field.2.1)) ∧
    fields' = triples.map (fun field => (field.1, field.2.2)) ∧
    ∀ field ∈ triples, Partner literals layouts field.2.1 field.2.2

section Parts

variable (follows : Follows literals evaluate evaluate')
include follows

theorem tandem_evaluateAll (exprs : List (Expr × Expr)) {done done' : List Value}
    (paired : Paired literals layouts heap heap')
    (twins : ∀ expr ∈ exprs, Expr.Twin literals (layouts.sees id) expr.1 expr.2)
    (partners : Partners literals layouts done done') :
    Tandem literals layouts (Eval.evaluateAll evaluate held id done (exprs.map (·.1)))
      (Eval.evaluateAll evaluate' held' id done' (exprs.map (·.2))) heap heap'
      (Partners literals) := by
  induction exprs generalizing layouts heap heap' done done' with
  | nil => exact .pure paired (List.rel_reverse partners)
  | cons expr exprs ih =>
    obtain ⟨first, rest⟩ := List.forall_mem_cons.mp twins
    refine (follows _ _ _ _ _ _ _ _ paired first).bind ?_
    intro value value' wider after after' later paired' partner
    exact ih paired' (fun expr mem => (rest expr mem).mono (Layouts.sees_later later))
      (.cons partner (partners.later later))

theorem tandem_evaluateFields (exprs : List (String × Expr × Expr))
    {done done' : List (String × Value)} (paired : Paired literals layouts heap heap')
    (twins : ∀ expr ∈ exprs, Expr.Twin literals (layouts.sees id) expr.2.1 expr.2.2)
    (partners : FieldPartners literals layouts done done') :
    Tandem literals layouts
      (Eval.evaluateFields evaluate held id done (exprs.map fun expr => (expr.1, expr.2.1)))
      (Eval.evaluateFields evaluate' held' id done' (exprs.map fun expr => (expr.1, expr.2.2)))
      heap heap' (FieldPartners literals) := by
  induction exprs generalizing layouts heap heap' done done' with
  | nil =>
    obtain ⟨triples, rfl, rfl, each⟩ := partners
    exact .pure paired ⟨triples.reverse, by simp, by simp, by simpa using each⟩
  | cons expr exprs ih =>
    obtain ⟨first, rest⟩ := List.forall_mem_cons.mp twins
    refine (follows _ _ _ _ _ _ _ _ paired first).bind ?_
    intro value value' wider after after' later paired' partner
    refine ih paired' (fun expr mem => (rest expr mem).mono (Layouts.sees_later later)) ?_
    obtain ⟨triples, rfl, rfl, each⟩ := partners
    exact ⟨(expr.1, value, value') :: triples, rfl, rfl, List.forall_mem_cons.mpr
      ⟨partner, fun field mem => (each field mem).later later⟩⟩

theorem tandem_evaluateEach {slotCount slotCount' : Nat} {body body' : Expr}
    {slots : Nat → Nat → Prop} (matching : Matching slotCount slotCount' slots) (item : slots 0 0)
    (items : List (Value × Value)) {done done' : List Value}
    (paired : Paired literals layouts heap heap')
    (twin : Expr.Twin literals ((layouts.sees id).enter slots) body body')
    (given : ∀ item ∈ items, Partner literals layouts item.1 item.2)
    (partners : Partners literals layouts done done') :
    Tandem literals layouts
      (Eval.evaluateEach evaluate held id slotCount body done (items.map (·.1)))
      (Eval.evaluateEach evaluate' held' id slotCount' body' done' (items.map (·.2))) heap heap'
      (Partners literals) := by
  induction items generalizing layouts heap heap' done done' with
  | nil => exact .pure paired (List.rel_reverse partners)
  | cons value items ih =>
    obtain ⟨first, rest⟩ := List.forall_mem_cons.mp given
    refine (tandem_allocChild paired matching id).bind ?_
    rintro _ _ _ after after' later paired' ⟨rfl, rfl, rfl⟩
    refine (tandem_store paired' ⟨_, Layouts.getElem?_add _ _, item⟩
      (.ready (first.later later))).bind ?_
    rintro _ _ _ next next' - paired'' rfl
    refine (follows _ _ _ _ _ _ _ _ paired'' (twin.mono Layouts.sees_add)).bind ?_
    intro result result' wider last last' later' paired''' partner
    have since := later.trans later'
    exact ih paired''' (twin.mono (Pairing.enter_mono (Layouts.sees_later since)))
      (fun other mem => (rest other mem).later since) (.cons partner (partners.later since))

/-- Both read the field of a name. -/
theorem tandem_field? (paired : Paired literals layouts heap heap') {value value' : Value}
    (partner : Partner literals layouts value value') (name : String) :
    Tandem literals layouts (Eval.field? evaluate held value name context)
      (Eval.field? evaluate' held' value' name context') heap heap' fun wider found found' =>
        Option.Rel (Partner literals wider) found found' := by
  cases partner with
  | record fields parts =>
    refine .pure paired ?_
    rw [lookup_map Prod.fst, lookup_map Prod.snd]
    cases found : fields.lookup name with
    | none => exact .none
    | some field =>
      obtain ⟨before, after, split, -⟩ := List.lookup_eq_some_iff.mp found
      exact .some (parts (name, field) (by simp [split]))
  | @«module» frame fields fields' names named =>
    have here := named name
    simp only [Eval.field?]
    generalize fields.lookup name = slot, fields'.lookup name = slot' at here ⊢
    cases here with
    | none => exact .pure paired .none
    | some seen => exact .map ((tandem_force follows paired seen).mono fun _ _ _ _ => .some)
  | _ => exact .pure paired .none

/-- Both call functions that serve the same purpose. -/
theorem tandem_call (paired : Paired literals layouts heap heap') {function function' : Value}
    (partner : Partner literals layouts function function') {args args' : List Value}
    (partners : Partners literals layouts args args') (caller : FrameId) (site site' : Location) :
    Tandem literals layouts (Eval.call m evaluate held function args caller site)
      (Eval.call m evaluate' held' function' args' caller site') heap heap' (Partner literals) := by
  have count := partners.length_eq
  cases partner with
  | @closure serial lambda lambda' env code =>
    obtain ⟨place, paramCount, slotCount, body⟩ := lambda
    obtain ⟨place', paramCount', slotCount', body'⟩ := lambda'
    cases code with | lambda slots literal matching params inner =>
    simp only [Eval.call, count]
    by_cases enough : args'.length = paramCount
    · simp only [enough, ne_eq, not_true_eq_false, ↓reduceIte]
      refine (tandem_allocCall paired matching env caller site site').bind ?_
      rintro _ _ _ after after' later paired' ⟨rfl, rfl, rfl⟩
      obtain ⟨values, rfl, rfl, each⟩ := exists_pairs (partners.later later)
      rw [List.length_map] at enough
      refine (tandem_storeAll paired' values (fun i low => ?_) each).bind ?_
      · rw [Nat.zero_add]
        exact ⟨_, Layouts.getElem?_add _ _, params i (enough ▸ low)⟩
      · rintro _ _ _ last last' - paired'' rfl
        exact follows _ _ _ _ _ _ _ _ paired'' (inner.mono Layouts.sees_add)
    · simp only [enough, ne_eq, not_false_eq_true, ↓reduceIte]
      exact .stop (.raise paired (.same _))
  | builtin function =>
    simp only [Eval.call, count]
    by_cases enough : args'.length = function.arity
    · simp only [enough, ne_eq, not_true_eq_false, ↓reduceIte]
      rcases apply_partners m.arithmetic function partners (count.trans enough) with
        same | ⟨value, value', shown, quoted, quoted'⟩
      · rw [same]
        cases applied : function.apply m.arithmetic args' with
        | ok value => exact .pure paired (.of_plain (function.apply_plain _ _ value applied))
        | error failure =>
          cases failure with
          | mistake kind => exact .raise paired (.same kind)
          | reported kind => exact .raise paired (.same kind)
          | missing => exact .defect paired _ _
      · rw [quoted, quoted']
        exact .raise paired (.userError shown)
    · simp only [enough, ne_eq, not_false_eq_true, ↓reduceIte]
      exact .stop (.raise paired (.same _))
  | _ => exact .raise paired (.same _)

end Parts

section Step

/-- What an operator makes of operands that serve the same purpose. -/
theorem tandem_combine (paired : Paired literals layouts heap heap') {location location' : Location}
    {op : BinaryOp} {left left' right right' : Expr} {a a' b b' : Value}
    (first : Partner literals layouts a a') (second : Partner literals layouts b b') :
    Tandem literals layouts (Eval.combine m held id location op left right a b)
      (Eval.combine m held' id location' op left' right' a' b') heap heap' (Partner literals) := by
  unfold Eval.combine
  dsimp only
  cases compare? op with
  | some holds =>
    refine (Tandem.blaming_same paired first.rearranged.toNumber).bind ?_
    rintro x _ wider after after' - paired' ⟨rfl, -⟩
    refine (Tandem.blaming_same paired' second.rearranged.toNumber).bind ?_
    rintro y _ widest last last' - paired'' ⟨rfl, -⟩
    exact .pure paired'' (.bool _)
  | none =>
    refine (Tandem.blaming_same paired (first.rearranged.operate m.arithmetic op
      Value.oneToOne_eq Value.oneToOne_eq second.rearranged)).mono ?_
    rintro wider value _ - ⟨rfl, made⟩
    exact .of_plain (Eval.operate_plain _ _ _ _ value made)

/-- A condition, and what comes after it. -/
theorem tandem_test (follows : Follows literals evaluate evaluate')
    (paired : Paired literals layouts heap heap') {condition condition' : Expr}
    (twin : Expr.Twin literals (layouts.sees id) condition condition')
    {next next' : Bool → Eval Value}
    (rest : ∀ wider after after' b, layouts <+: wider → Paired literals wider after after' →
      Tandem literals wider (next b) (next' b) after after' (Partner literals)) :
    Tandem literals layouts
      (do
        let value ← evaluate held id condition
        next (← Eval.blaming (.value value :: held) context (toBool value)))
      (do
        let value ← evaluate' held' id condition'
        next' (← Eval.blaming (.value value :: held') context' (toBool value))) heap heap'
      (Partner literals) := by
  refine (follows _ _ _ _ _ _ _ _ paired twin).bind ?_
  intro value value' wider after after' later paired' partner
  refine (Tandem.blaming_same paired' partner.rearranged.toBool).bind ?_
  rintro b _ widest last last' later' paired'' ⟨rfl, -⟩
  exact rest widest last last' b (later.trans later') paired''

/-- The items of a list. -/
theorem tandem_toList (paired : Paired literals layouts heap heap') {value value' : Value}
    (partner : Partner literals layouts value value') :
    Tandem literals layouts (Eval.blaming held context (toList value))
      (Eval.blaming held' context' (toList value')) heap heap' (Partners literals) := by
  refine .blaming paired ?_
  cases partner with
  | list items parts => exact .ok (forall₂_of_pairs parts)
  | _ => exact .error (.same _)

/-- One step of evaluation. -/
theorem step_follows (follows : Follows literals evaluate evaluate') :
    Follows literals (Eval.step m evaluate) (Eval.step m evaluate') := by
  intro layouts heap heap' held held' id expr expr' paired twin
  cases twin with
  | constant value => exact .pure paired (.of_plain value.toValue_plain)
  | slot together =>
    obtain ⟨owner, layout, reached, reached', there, belong⟩ := paired.ancestor? together
    have ran {heap : Heap} {depth : Nat} (reached : heap.ancestor? id depth = some owner) :
        Eval.ancestor id depth heap = (.ok owner, heap) := by
      refine Ends.exact (.ancestor (fun other found => ?_) fun missing => ?_)
      · exact ⟨Option.some.inj (found.symm.trans reached), rfl⟩
      · rw [reached] at missing
        cases missing
    exact .steps (ran reached) (ran reached')
      (tandem_force follows paired ⟨layout, there, belong⟩)
  | call args head rest =>
    refine (follows _ _ _ _ _ _ _ _ paired head).bind ?_
    intro callee callee' wider after after' later paired' partner
    refine (tandem_evaluateAll follows args paired'
      (fun arg mem => (rest arg mem).mono (Layouts.sees_later later)) .nil).bind ?_
    intro values values' widest last last' later' paired'' partners
    have called := partner.later later'
    cases called with
    | closure code => exact tandem_call follows paired'' (.closure code) partners id _ _
    | builtin function => exact tandem_call follows paired'' (.builtin function) partners id _ _
    | _ => exact .raise paired'' (.same _)
  | list items parts =>
    exact .map ((tandem_evaluateAll follows items paired parts .nil).mono fun _ _ _ _ partners =>
      partners.ofItems)
  | record fields parts =>
    refine .map ((tandem_evaluateFields follows fields paired parts ⟨[], rfl, rfl, by simp⟩).mono ?_)
    rintro wider _ _ - ⟨triples, rfl, rfl, each⟩
    exact .record triples each
  | «module» slots definitions matching names named distinct order together parts =>
    refine (tandem_allocChild paired matching id).bind ?_
    rintro _ _ _ after after' later paired' ⟨rfl, rfl, rfl⟩
    have seen (slot slot' : Nat) (belong : slots slot slot') :
        (layouts.add ⟨slots, some id⟩).sees layouts.length 0 slot slot' :=
      Layouts.sees_add 0 slot slot' belong
    refine (tandem_storePending paired' definitions order distinct
      (fun definition mem => seen _ _ (together definition mem))
      fun definition mem => (parts definition mem).mono Layouts.sees_add).bind ?_
    rintro _ _ _ last last' - paired'' rfl
    exact .pure paired'' (.module names fun name => rel_mono seen (named name))
  | letIn bindings distinct order together parts rest =>
    refine (tandem_storePending paired bindings order distinct together parts).bind ?_
    rintro _ _ _ after after' - paired' rfl
    exact follows _ _ _ _ _ _ _ _ paired' rest
  | lambda slots literal matching params inner =>
    exact tandem_close paired (.lambda slots literal matching params inner)
  | @unary _ _ _ op _ _ part =>
    refine (follows _ _ _ _ _ _ _ _ paired part).bind ?_
    intro value value' wider after after' later paired' partner
    cases op with
    | negate =>
      refine (Tandem.blaming_same paired' (partner.rearranged.mapNumbers _)).mono ?_
      rintro wider value _ - ⟨rfl, made⟩
      exact .of_plain (Value.mapNumbers_plain _ _ value made)
    | not =>
      dsimp only
      rw [partner.rearranged.toBool]
      refine (Tandem.blaming_same paired' rfl).mono ?_
      rintro wider value _ - ⟨rfl, made⟩
      cases condition : toBool value' with
      | error kind => rw [condition] at made; cases made
      | ok b =>
        rw [condition] at made
        exact Except.ok.inj made ▸ .bool _
  | @binary _ _ _ op left left' right right' first second =>
    have decided {wider : Layouts} {after after' : Heap} (later : layouts <+: wider)
        (paired : Paired literals wider after after') :
        Tandem literals wider
          (do
            let b ← evaluate held id right
            .bool <$> Eval.blaming (.value b :: held) (.place right.location (some id)) (toBool b))
          (do
            let b ← evaluate' held' id right'
            .bool <$> Eval.blaming (.value b :: held') (.place right'.location (some id)) (toBool b))
          after after' (Partner literals) := by
      refine (follows _ _ _ _ _ _ _ _ paired (second.mono (Layouts.sees_later later))).bind ?_
      intro b b' widest last last' _ paired' partner
      refine .map ((Tandem.blaming_same paired' partner.rearranged.toBool).mono ?_)
      rintro _ value _ - ⟨rfl, -⟩
      exact .bool value
    by_cases strict : op ≠ .and ∧ op ≠ .or
    · rw [step_binary strict, step_binary strict]
      refine (follows _ _ _ _ _ _ _ _ paired first).bind ?_
      intro a a' wider after after' later paired' partner
      refine (follows _ _ _ _ _ _ _ _ paired' (second.mono (Layouts.sees_later later))).bind ?_
      intro b b' widest last last' later' paired'' partner'
      exact tandem_combine paired'' (partner.later later') partner'
    · cases op with
      | and =>
        refine tandem_test follows paired first fun wider after after' b later paired' => ?_
        cases b with
        | true => exact decided later paired'
        | false => exact .pure paired' (.bool false)
      | or =>
        refine tandem_test follows paired first fun wider after after' b later paired' => ?_
        cases b with
        | true => exact .pure paired' (.bool true)
        | false => exact decided later paired'
      | _ => exact (strict (by simp)).elim
  | conditional first second third =>
    refine tandem_test follows paired first fun wider after after' b later paired' => ?_
    cases b with
    | true => exact follows _ _ _ _ _ _ _ _ paired' (second.mono (Layouts.sees_later later))
    | false => exact follows _ _ _ _ _ _ _ _ paired' (third.mono (Layouts.sees_later later))
  | dot name part =>
    refine (follows _ _ _ _ _ _ _ _ paired part).bind ?_
    intro value value' wider after after' later paired' partner
    refine (tandem_field? follows paired' partner name).bind ?_
    intro found found' widest last last' later' paired'' read
    cases read with
    | some read => exact .pure paired'' read
    | none =>
      dsimp only
      rw [partner.rearranged.numbers?]
      cases value'.numbers?.bind fun xs => (componentIndex? name).bind (xs[·]?) with
      | some x => exact .pure paired'' (.num x)
      | none =>
        cases partner with
        | list | record | «module» => exact .raise paired'' (.same _)
        | closure => exact .raise paired'' (.same _)
        | _ => exact .raise paired'' (.same _)
  | index first second =>
    refine (follows _ _ _ _ _ _ _ _ paired first).bind ?_
    intro value value' wider after after' later paired' partner
    refine (tandem_toList paired' partner).bind ?_
    intro items items' middle next next' since paired₁ partners
    refine (follows _ _ _ _ _ _ _ _ paired₁
      (second.mono (Layouts.sees_later (later.trans since)))).bind ?_
    intro place place' widest last last' since' paired₂ partner
    refine (Tandem.blaming_same paired₂ partner.rearranged.toNumber).bind ?_
    rintro x _ final heap heap' since₂ paired₃ ⟨rfl, -⟩
    have found : Option.Rel (Partner literals final) ((position? x items.length).bind (items[·]?))
        ((position? x items'.length).bind (items'[·]?)) := by
      rw [partners.length_eq]
      cases position? x items'.length with
      | none => exact .none
      | some i => exact getElem?_of_forall₂ (partners.later (since'.trans since₂)) i
    rw [partners.length_eq] at found ⊢
    generalize (position? x items'.length).bind (items[·]?) = item,
      (position? x items'.length).bind (items'[·]?) = item' at found ⊢
    cases found with
    | none => exact .raise paired₃ (.same _)
    | some partner => exact .pure paired₃ partner
  | forEach slots first matching item inner =>
    refine (follows _ _ _ _ _ _ _ _ paired first).bind ?_
    intro value value' wider after after' later paired' partner
    refine (tandem_toList paired' partner).bind ?_
    intro values values' widest last last' later' paired'' partners
    obtain ⟨items, rfl, rfl, given⟩ := exists_pairs partners
    exact .map ((tandem_evaluateEach follows matching item items paired''
      (inner.mono (Pairing.enter_mono (Layouts.sees_later (later.trans later')))) given .nil).mono
      fun _ _ _ _ partners => partners.ofItems)

/-- Evaluation with the same fuel. The induction is on the fuel. -/
theorem upTo_follows (m : Machine) (fuel : Nat) :
    Follows literals (Eval.upTo m fuel) (Eval.upTo m fuel) := by
  induction fuel with
  | zero => exact fun _ _ _ _ _ _ _ _ paired _ => .throw paired .outOfFuel
  | succ fuel ih => exact step_follows ih

end Step

end ShapeLang.Reordering
