import ShapeLang.Proofs.Builtin.Results
import ShapeLang.Proofs.Denotation.Parts
import ShapeLang.Proofs.Reevaluation.Agreement

/-! # Parts of an evaluation in frames with the same roles

Reading a slot, evaluating a list of expressions, running the rounds of a loop and calling a
function agree with what is denoted if the evaluation of the expressions inside does. A slot gives
the same whether it waits, was evaluated before, or was reset since.
-/

namespace ShapeLang.Reevaluation

open Denotation

/-- Code of a frame, at a place. -/
structure Sits (roles : Roles) (id : FrameId) (env : Env) (w : Place) (expr : Expr) : Prop where
  known : roles id = some env
  laid : (definitions w expr).Sublist env.definitions
  roomy : expr.Roomy

/-- An evaluator that finds what is denoted if contents are compared. -/
def Simulates (m : Machine) (lenient : Prop) (evaluate : Evaluator) : Prop :=
  ∀ busy roles heap held id env w expr, Reflects m lenient busy roles heap →
    Sits roles id env w expr →
    Agrees m lenient busy heap roles (evaluate held id expr) (fun n => denote m (n + 1) env w expr)
      Means

variable {m : Machine} {lenient : Prop} {busy : List Errand} {roles wider : Roles}
  {heap : Heap} {w w' : Place} {id : FrameId} {env : Env} {expr : Expr} {value : Value}
  {value' : Den} {values : List Value} {dens : List Den} {evaluate : Evaluator} {held : List Held}

namespace Sits

theorem later (sits : Sits roles id env w expr) (within : roles.Within wider) :
    Sits wider id env w expr :=
  ⟨within id env sits.known, sits.laid, sits.roomy⟩

/-- A part of some code. -/
theorem part (sits : Sits roles id env w expr) {part : Expr}
    (laid : (definitions w' part).Sublist (definitions w expr)) (roomy : part.Roomy) :
    Sits roles id env w' part :=
  ⟨sits.known, laid.trans sits.laid, roomy⟩

end Sits

theorem Reflects.read_definition (reflects : Reflects m lenient busy roles heap)
    (known : roles id = some env) {d : Denotation.Definition} (mem : d ∈ env.definitions)
    (den : Denoter) :
    read den env d.slot = den env d.inner d.expr := by
  have laid := (reflects.stands id env known).laid
  have behind : env.args[d.slot]? = none := by
    rw [List.getElem?_eq_none_iff]
    exact laid.apart d mem
  rw [ Denotation.read, behind, definition?_of_mem laid.distinct mem]

section Definitions

theorem exists_of_mem_definitionsAll {w : Place} {exprs : List Expr} {d : Denotation.Definition}
    (mem : d ∈ definitionsAll w exprs) : ∃ expr ∈ exprs, ∃ w', d ∈ definitions w' expr := by
  induction exprs generalizing w with
  | nil => cases mem
  | cons expr exprs ih =>
    rcases List.mem_append.mp mem with mem | mem
    · exact ⟨expr, by simp, _, mem⟩
    · obtain ⟨expr, mem', found⟩ := ih mem
      exact ⟨expr, by simp [mem'], found⟩

theorem exists_of_mem_definitionsFields {w : Place} {fields : List (String × Expr)}
    {d : Denotation.Definition} (mem : d ∈ definitionsFields w fields) :
    ∃ field ∈ fields, ∃ w', d ∈ definitions w' field.2 := by
  induction fields generalizing w with
  | nil => cases mem
  | cons field fields ih =>
    rcases List.mem_append.mp mem with mem | mem
    · exact ⟨field, by simp, _, mem⟩
    · obtain ⟨field, mem', found⟩ := ih mem
      exact ⟨field, by simp [mem'], found⟩

theorem exists_of_mem_definitionsGroup {w : Place} {bindings : List (Nat × Expr)}
    {d : Denotation.Definition} (mem : d ∈ definitionsGroup w bindings) :
    ∃ binding ∈ bindings, ∃ w', d ∈ definitions w' binding.2 := by
  induction bindings with
  | nil => cases mem
  | cons binding bindings ih =>
    rcases List.mem_append.mp mem with mem | mem
    · exact ⟨binding, by simp, _, mem⟩
    · obtain ⟨binding, mem', found⟩ := ih mem
      exact ⟨binding, by simp [mem'], found⟩

/-- The definitions inside code lay out their slots without overlap if the code does. -/
theorem roomy_definitions {vis : Visibility} {expr : Expr} (sees : expr.Scoped vis) (w : Place) :
    ∀ d ∈ definitions w expr, d.expr.Roomy := by
  intro d mem
  induction sees generalizing w with
  | constant => cases mem
  | slot => cases mem
  | «module» => cases mem
  | lambda => cases mem
  | call _ _ head rest =>
    rcases List.mem_append.mp mem with mem | mem
    · exact head _ mem
    · obtain ⟨arg, isArg, w', mem⟩ := exists_of_mem_definitionsAll mem
      exact rest arg isArg w' mem
  | list _ parts =>
    obtain ⟨item, isItem, w', mem⟩ := exists_of_mem_definitionsAll mem
    exact parts item isItem w' mem
  | record _ parts =>
    obtain ⟨field, isField, w', mem⟩ := exists_of_mem_definitionsFields mem
    exact parts field isField w' mem
  | letIn given _ parts rest =>
    rcases List.mem_append.mp mem with mem | mem
    · rcases List.mem_append.mp mem with mem | mem
      · exact (given _ (mem_group mem).1).roomy
      · obtain ⟨binding, isBinding, w', mem⟩ := exists_of_mem_definitionsGroup mem
        exact parts binding isBinding w' mem
    · exact rest _ mem
  | unary _ part => exact part _ mem
  | binary _ _ first second => exact (List.mem_append.mp mem).elim (first _) (second _)
  | conditional _ _ _ first second third =>
    rcases List.mem_append.mp mem with mem | mem
    · exact (List.mem_append.mp mem).elim (first _) (second _)
    · exact third _ mem
  | dot _ part => exact part _ mem
  | index _ _ first second => exact (List.mem_append.mp mem).elim (first _) (second _)
  | forEach _ _ _ first => exact first _ mem

end Definitions

section Parts

variable (simulates : Simulates m lenient evaluate) (reflects : Reflects m lenient busy roles heap)
include simulates reflects

theorem Simulates.at (sits : Sits roles id env w expr) :
    Agrees m lenient busy heap roles (evaluate held id expr) (fun n => denote m n env w expr)
      Means :=
  Agrees.of_succ (simulates busy roles heap held id env w expr reflects sits) rfl

/-- Reading a slot. -/
theorem agrees_force {slot : Nat} {context : Context} (known : roles id = some env) :
    Agrees m lenient busy heap roles (Eval.force evaluate held id slot context)
      (fun n => read (denote m n) env slot) Means := by
  have holds {frame : Frame} {content : Slot} (found : heap.frame? id = some frame)
      (there : frame.slots[slot]? = some content) :
      Holds m lenient busy roles id env slot content :=
    reflects.holds id env slot content known ((Heap.slot?_of_frame? found).trans there)
  have broken (d : Defect) : (∃ wider, roles.Within wider ∧ Reflects m lenient busy wider heap) ∧
      Excused m lenient busy (fun n => read (denote m n) env slot) (.defect d) :=
    ⟨⟨roles, .refl roles, reflects⟩, trivial⟩
  apply Ends.force
  case ready =>
    intro frame value found there
    cases holds found there with
    | @argument _ value' given means =>
      have reads (n : Nat) : read (denote m n) env slot = pure value' := by
        rw [ Denotation.read, given]
      simp only [reads]
      exact ⟨roles, _, .refl roles, reflects, .pure _, means⟩
    | done mem here means yields =>
      subst here
      simp only [reflects.read_definition known mem]
      exact ⟨roles, _, .refl roles, reflects, yields, means⟩
  case pending =>
    intro frame definition found there
    cases holds found there with
    | @pending d mem here =>
      subst here
      simp only [reflects.read_definition known mem]
      have stands := reflects.stands id env known
      have sits : Sits roles id env d.inner d.expr :=
        ⟨known, stands.laid.nested.closed d mem, stands.roomy d mem⟩
      apply Ends.mono (simulates _ roles _ (.frame id :: held) id env d.inner d.expr
        (reflects.begin known mem) sits)
      · rintro value after ⟨wider, value', within, reflects', yields, means⟩
        have found : Yields lenient (fun n => denote m n env d.inner d.expr) value' :=
          yields.of_succ rfl
        refine ⟨wider, value', within, reflects'.finish fun env' known' => ?_, found, means⟩
        obtain rfl := Option.some.inj ((within id env known).symm.trans known')
        exact .done mem rfl means found
      · rintro fault after ⟨⟨wider, within, reflects'⟩, excused⟩
        refine ⟨⟨wider, within, reflects'.finish fun env' known' => ?_⟩,
          Excused.finish excused⟩
        obtain rfl := Option.some.inj ((within id env known).symm.trans known')
        exact .pending mem rfl
  case busy =>
    intro frame locations found there
    cases holds found there with
    | @busy d mem here underWay =>
      subst here
      simp only [reflects.read_definition known mem]
      exact ⟨⟨roles, .refl roles, reflects⟩,
        .inr (.inl ⟨rfl, fun n waiting => waiting _ underWay n (Nat.le_refl n)⟩)⟩
  case empty => exact fun _ _ _ => broken _
  case outside => exact fun _ _ _ => broken _
  case missing => exact fun _ => broken _

/-- The field of a record or a module. -/
theorem agrees_field? (means : Means roles value value') {name : String} {context : Context} :
    Agrees m lenient busy heap roles (Eval.field? evaluate held value name context)
      (fun n => field? (denote m n) value' name)
      fun wider found found' => Option.Rel (Means wider) found found' := by
  cases means with
  | record fields parts =>
    have split : (fields.map fun field => (field.1, field.2.1)).lookup name =
          (fields.lookup name).map (·.1) ∧
        (fields.map fun field => (field.1, field.2.2)).lookup name =
          (fields.lookup name).map (·.2) :=
      ⟨lookup_map Prod.fst fields name, lookup_map Prod.snd fields name⟩
    simp only [Eval.field?, field?, split.1, split.2]
    apply Agrees.pure reflects
    cases found : fields.lookup name with
    | none => exact .none
    | some parts' =>
      obtain ⟨before, after, rfl, -⟩ := List.lookup_eq_some_iff.mp found
      exact .some (parts (name, parts') (by simp))
  | @«module» id env fields known =>
    simp only [Eval.field?, field?]
    cases fields.lookup name with
    | none => exact .pure reflects .none
    | some slot =>
      exact ((agrees_force simulates reflects known).mono
        fun _ _ _ means => Option.Rel.some means).map
  | _ => exact .pure reflects .none

/-- Expressions that are evaluated one after the other. -/
theorem agrees_all (exprs : List Expr) (known : roles id = some env)
    (laid : (definitionsAll w exprs).Sublist env.definitions)
    (roomy : ∀ expr ∈ exprs, expr.Roomy) (done : MeansAll roles values dens) :
    Agrees m lenient busy heap roles (Eval.evaluateAll evaluate held id values exprs)
      (fun n => denoteAll (denote m n) env w dens exprs) MeansAll := by
  induction exprs generalizing heap roles w values dens with
  | nil => exact .pure reflects (List.forall₂_reverse_iff.mpr done)
  | cons expr exprs ih =>
    have sits : Sits roles id env (.part 0 :: w) expr :=
      ⟨known, (List.sublist_append_left _ _).trans laid, roomy expr (by simp)⟩
    apply (simulates.at reflects sits).bind
    intro value value' after wider within reflects' means
    exact ih reflects' (within id env known) ((List.sublist_append_right _ _).trans laid)
      (fun other mem => roomy other (by simp [mem])) (.cons means (done.mono within))

/-- The fields of a record. -/
theorem agrees_fields (fields : List (String × Expr)) {given : List (String × Value)}
    {denoted : List (String × Den)} (known : roles id = some env)
    (laid : (definitionsFields w fields).Sublist env.definitions)
    (roomy : ∀ field ∈ fields, field.2.Roomy) (done : MeansFields roles given denoted) :
    Agrees m lenient busy heap roles (Eval.evaluateFields evaluate held id given fields)
      (fun n => denoteFields (denote m n) env w denoted fields) MeansFields := by
  induction fields generalizing heap roles w given denoted with
  | nil => exact .pure reflects (List.forall₂_reverse_iff.mpr done)
  | cons field fields ih =>
    have sits : Sits roles id env (.part 0 :: w) field.2 :=
      ⟨known, (List.sublist_append_left _ _).trans laid, roomy field (by simp)⟩
    apply (simulates.at reflects sits).bind
    intro value value' after wider within reflects' means
    exact ih reflects' (within id env known) ((List.sublist_append_right _ _).trans laid)
      (fun other mem => roomy other (by simp [mem])) (.cons ⟨rfl, means⟩ (done.mono within))

/-- Code that runs in a new frame, with values in its first slots. -/
theorem agrees_body {around : FrameId} {outer : Env} {caller : Option FrameId}
    {site : Option Location} {slotCount depth : Nat} {body : Expr}
    (known : roles around = some outer) (all : MeansAll roles values dens)
    (layout : Room slotCount (List.range dens.length ++ body.letSlots)) (roomy : body.Roomy) :
    Agrees m lenient busy (heap.alloc slotCount (some around) caller site depth).2 roles
      (do
        Eval.storeAll heap.frames.size 0 values
        evaluate held heap.frames.size body)
      (fun n => denote m n
        (.frame w (definitions (.part 0 :: w) body) depth dens (some outer)) (.part 0 :: w) body)
      Means := by
  let new : Env := .frame w (definitions (.part 0 :: w) body) depth dens (some outer)
  have within : roles.Within (roles.assign heap.frames.size new) :=
    Roles.within_assign reflects.unknown_size
  have roomyAll : ∀ d ∈ new.definitions, d.expr.Roomy := roomy_definitions roomy _
  have reflects' : Reflects m lenient busy (roles.assign heap.frames.size new)
      (heap.alloc slotCount (some around) caller site new.depth).2 := by
    refine reflects.enter (laid_body layout rfl).1 roomyAll ?_
    rintro _ ⟨⟩
    exact ⟨outer, rfl, known⟩
  refine Agrees.widen within (Agrees.left (Ends.mono (reflects'.storeAll Roles.assign_self
    (all.mono within) fun i => by rw [Nat.zero_add]; rfl) ?_ ?_))
  · intro _ after reflects''
    exact ⟨_, .refl _, simulates.at reflects'' ⟨Roles.assign_self, .refl _, roomy⟩⟩
  · rintro _ after ⟨reflects'', d, rfl⟩
    exact ⟨⟨_, .refl _, reflects''⟩, trivial⟩

/-- The rounds of a loop. -/
theorem agrees_each {slotCount : Nat} {body : Expr} {items : List Value} {denoted : List Den}
    (known : roles id = some env) (layout : Room slotCount (0 :: body.letSlots))
    (roomy : body.Roomy) (all : MeansAll roles items denoted) (done : MeansAll roles values dens) :
    Agrees m lenient busy heap roles
      (Eval.evaluateEach evaluate held id slotCount body values items)
      (fun n => denoteEach (denote m n) env w body dens denoted) MeansAll := by
  induction items generalizing heap roles w values dens denoted with
  | nil =>
    cases all
    exact .pure reflects (List.forall₂_reverse_iff.mpr done)
  | cons item items ih =>
    cases all with | @cons _ item' _ denoted means all =>
    have layout' : Room slotCount (List.range [item'].length ++ body.letSlots) := layout
    obtain ⟨frame, found, depth, -⟩ := (reflects.stands id env known).frame
    refine Agrees.left (.allocChild (fun frame' found' => ?_) fun missing => ?_)
    rotate_left
    · simp [found] at missing
    obtain rfl := Option.some.inj (found.symm.trans found')
    refine ⟨roles, .refl roles, ?_⟩
    have first : Agrees m lenient busy
        (heap.alloc slotCount (some id) (some id) none frame.depth).2 roles
        (do
          Eval.storeAll heap.frames.size 0 [item]
          evaluate (.frame heap.frames.size :: .values values :: held) heap.frames.size body)
        (fun n => denote m n (round env (.part 0 :: w) body item') (.part 0 :: .part 0 :: w) body)
        Means := by
      rw [depth]
      exact agrees_body simulates reflects known (.cons means .nil) layout' roomy
    simp only [Eval.storeAll, bind_assoc, pure_bind] at first
    have rest := first.bind fun value value' later wider within reflects' means' =>
      ih (w := .part 1 :: w) reflects' (within id env known) (MeansAll.mono all within)
        (.cons means' (done.mono within))
    simp only [bind_assoc] at rest
    exact rest

/-- A call of a function literal with as many arguments as it takes. -/
theorem agrees_closure {serial : Nat} {x : Place} {lambda : Lambda} {around : FrameId} {outer : Env}
    {site : Location} {frame : Frame} (found : heap.frame? id = some frame)
    (atAround : roles around = some outer)
    (layout : Room lambda.slotCount (List.range lambda.paramCount ++ lambda.body.letSlots))
    (roomy : lambda.body.Roomy) (all : MeansAll roles values dens)
    (count : dens.length = lambda.paramCount) :
    Agrees m lenient busy heap roles
      (Eval.call m evaluate held (.closure serial lambda around) values id site)
      (fun n => call m (denote m n) (.closure x lambda outer) dens frame.depth w) Means := by
  have count' : values.length = lambda.paramCount := all.length_eq.trans count
  rw [← count] at layout
  simp only [Eval.call, call, count, count', ne_eq, not_true_eq_false, ↓reduceIte]
  by_cases deep : m.maxCallDepth < frame.depth + 1
  · simp only [deep, ↓reduceIte]
    refine Ends.stop
      (.allocCall (fun frame' found' fits => ?_) (fun _ _ _ _ => ?_) fun missing => ?_)
    · obtain rfl := Option.some.inj (found.symm.trans found')
      omega
    · exact ⟨⟨roles, .refl roles, reflects⟩, .inl (Settles.throw _).stop⟩
    · simp [found] at missing
  · simp only [deep, ↓reduceIte]
    refine Agrees.left (.allocCall (fun frame' found' fits => ?_) (fun frame' _ found' deep' => ?_)
      fun missing => ?_)
    · obtain rfl := Option.some.inj (found.symm.trans found')
      exact ⟨roles, .refl roles, agrees_body simulates reflects atAround all layout roomy⟩
    · obtain rfl := Option.some.inj (found.symm.trans found')
      omega
    · simp [found] at missing

omit simulates in
/-- A call of a builtin function with as many arguments as it takes. -/
theorem agrees_builtin {builtin : Builtin} {site : Location} {depth : Nat}
    (all : MeansAll roles values dens) (count : dens.length = builtin.arity) :
    Agrees m lenient busy heap roles (Eval.call m evaluate held (.builtin builtin) values id site)
      (fun n => call m (denote m n) (.builtin builtin) dens depth w) Means := by
  have count' : values.length = builtin.arity := all.length_eq.trans count
  simp only [Eval.call, call, count, count', ne_eq, not_true_eq_false, ↓reduceIte]
  have complete := Builtin.apply_ne_missing m.arithmetic builtin count'
  have plain := Builtin.apply_plain m.arithmetic builtin values
  have same : builtin.apply m.arithmetic values =
      builtin.apply m.arithmetic (dens.map Den.outline) := by
    have alike : Value.AllAlike Eq (fun _ _ => True) (fun _ _ => True)
        (values.zip (dens.map Den.outline)) := by
      intro pair mem
      rw [List.zip_map_right] at mem
      obtain ⟨⟨value, value'⟩, mem', rfl⟩ := List.mem_map.mp mem
      exact (List.forall₂_iff_zip.mp all).2 mem' |>.alike
    have lengths : values.length = (dens.map Den.outline).length := by
      rw [List.length_map, all.length_eq]
    have applied := builtin.apply_alike m.arithmetic _ alike
      (by simp [all.length_eq, count]) fun _ pair mem => (alike pair mem).shown
    have first := List.map_fst_zip (Nat.le_of_eq lengths)
    have second := List.map_snd_zip (Nat.le_of_eq lengths.symm)
    rwa [first, second] at applied
  rw [← same]
  cases result : builtin.apply m.arithmetic values with
  | ok value => exact .pure reflects (.of_plain (plain value result))
  | error failure =>
    cases failure with
    | mistake kind => exact .raise reflects kind
    | reported kind => exact .raise reflects kind
    | missing => exact (complete result).elim

/-- A call that a frame makes. -/
theorem agrees_call {function : Value} {function' : Den} {site : Location} {frame : Frame}
    (means : Means roles function function') (all : MeansAll roles values dens)
    (found : heap.frame? id = some frame) :
    Agrees m lenient busy heap roles (Eval.call m evaluate held function values id site)
      (fun n => call m (denote m n) function' dens frame.depth w) Means := by
  have count := all.length_eq
  have told := means.alike.wrongType "function"
  cases means with
  | @closure serial x lambda around outer atAround layout roomy =>
    by_cases fits : dens.length = lambda.paramCount
    · exact agrees_closure simulates reflects found atAround layout roomy all fits
    · simp only [Eval.call, call, count, fits, ne_eq, not_false_eq_true, ↓reduceIte]
      exact .stop reflects _
  | builtin builtin =>
    by_cases fits : dens.length = builtin.arity
    · exact agrees_builtin reflects all fits
    · simp only [Eval.call, call, count, fits, ne_eq, not_false_eq_true, ↓reduceIte]
      exact .stop reflects _
  | _ =>
    simp only [Eval.call, call, ← told]
    exact .raise reflects _

end Parts

end ShapeLang.Reevaluation
