import ShapeLang.Proofs.Denotation.Parts

/-! # Evaluation finds what is denoted

Whatever definitions were evaluated before, in whatever order, and whichever of them failed, an
expression evaluates to what it denotes. The induction is on the fuel.
-/

namespace ShapeLang.Denotation

variable {m : Machine} {busy : List Task} {view : View} {heap : Heap} {w : Place} {id : FrameId}
  {env : Env} {value : Value} {value' : Den} {k : Nat} {evaluate : Evaluator} {held : List Held}

section Tests

/-- The result of an operator, if there is any. -/
theorem agrees_plain (reflects : Reflects m busy view heap) {context : Context}
    {result result' : Except ErrorKind Value} (same : result = result')
    (plain : Value.PlainResult result) :
    Agrees m busy w heap view (Eval.blaming held context result)
      (fun _ => Den.ofPlain <$> expect result')
      fun wider value value' => Means busy wider w value value' := by
  apply Agrees.mapRight
  apply (Agrees.test reflects same).mono
  rintro wider value _ ⟨made, rfl⟩
  exact .of_plain (plain value made)

variable (reflects : Reflects m busy view heap) (means : Means busy view w value value')
  {context : Context}
include reflects means

/-- A list and the denotations of its items. -/
theorem agrees_toList {α β : Type} {next : List Value → Eval α} {next' : Nat → List Den → Outcome β}
    {post : View → α → β → Prop}
    (second : ∀ items items', MeansAll busy view w items items' →
      Agrees m busy w heap view (next items) (next' · items') post) :
    Agrees m busy w heap view (Eval.blaming held context (Eval.toList value) >>= next)
      (fun n => expect (toList value') >>= next' n) post := by
  have told := means.alike.wrongType "list"
  cases means with
  | list items parts =>
    change Agrees m busy w heap view (pure (items.map (·.1)) >>= next)
      (fun n => pure (items.map (·.2)) >>= next' n) post
    simp only [pure_bind]
    exact second _ _ ⟨items, rfl, rfl, parts⟩
  | _ =>
    simp only [toList, ← told]
    exact .stop reflects _

/-- An operator other than `&&` and `||`. -/
theorem agrees_combine {location : Location} {op : BinaryOp} {left right : Expr} {other : Value}
    {other' : Den} (means' : Means busy view w other other') :
    Agrees m busy w heap view (Eval.combine m held id location op left right value other)
      (fun _ => combine m op value' other')
      fun wider value value' => Means busy wider w value value' := by
  unfold Eval.combine combine
  cases Eval.compare? op with
  | some holds =>
    apply Agrees.told reflects means.alike.toNumber
    intro x _
    apply Agrees.told reflects means'.alike.toNumber
    intro y _
    exact .pure reflects (.bool _)
  | none =>
    exact agrees_plain reflects (means.alike.operate m.arithmetic op reflects.sameFrame
      reflects.sameOrigin means'.alike) (Eval.operate_plain m.arithmetic op value other)

end Tests

section Step

variable (simulates : Simulates m evaluate) (reflects : Reflects m busy view heap)
  (opened : Open view heap w) {location : Location}
include simulates reflects opened

omit simulates in
/-- The definitions of a module wait in a frame of its own. -/
theorem step_module {slotCount : Nat} {fields : List (String × Nat)} {bindings : List (Nat × Expr)}
    (sits : Sits busy view id env w (.module location slotCount fields bindings)) :
    Agrees m busy w heap view
      (Eval.step m evaluate held id (.module location slotCount fields bindings))
      (fun n => rule m (upTo m n) env w (.module location slotCount fields bindings))
      fun wider value value' => Means busy wider w value value' := by
  obtain ⟨known, sees, -, inside⟩ := sits
  cases sees with | «module» layout named parts =>
  let new : Env := .frame w (group w bindings ++ definitionsGroup w bindings) env.depth []
    (some env)
  have slots : new.definitions.map (·.slot) =
      bindings.map (·.1) ++ bindings.flatMap (·.2.letSlots) := by
    simp [new, map_slot_group, map_slot_definitionsGroup]
  have laid : new.Laid :=
    ⟨slots ▸ layout.nodup, fun _ _ => Nat.zero_le _, nested_group w bindings⟩
  have room (d : Definition) (mem : d ∈ new.definitions) : d.slot < slotCount :=
    layout.inside d.slot (slots ▸ List.mem_map_of_mem mem)
  let entered := heap.enter slotCount id id none env.depth []
  have noArgs : ∀ arg ∈ ([] : List (Value × Den)), Means busy view w arg.1 arg.2 := by simp
  obtain ⟨evolves, reflects', bare⟩ : Evolves w heap view entered
      (view.addEnv heap.frames.size new) ∧
        Reflects m busy (view.addEnv heap.frames.size new) entered ∧
          Bare (view.addEnv heap.frames.size new) entered w :=
    reflects.enter opened known (.of_suffix inside) laid (Nat.zero_le _) room noArgs
  have known' : (view.addEnv heap.frames.size new).env heap.frames.size = some new := by
    simp [View.addEnv]
  have first : (group w bindings).Sublist new.definitions := List.sublist_append_left _ _
  have evolves' := evolves.trans (.putGroup reflects' bare known' first)
  have reflects'' := reflects'.putGroup bare known' first fun binding mem =>
    (parts binding mem).mono fun depth slot sees => by
      cases depth with
      | zero => exact .inl ⟨rfl, sees⟩
      | succ depth =>
        exact .inr (View.visible_outer rfl (.refl w) depth slot
          (evolves.passes.visible trivial depth slot sees))
  obtain ⟨frame, found, depth, -⟩ := (reflects.stands id env known).frame
  refine Ends.through (fun round after => round = heap.frames.size ∧ after = entered)
    (.allocChild (fun frame' found' => ?_) fun missing => ?_) ?_
  · obtain rfl := Option.some.inj (found.symm.trans found')
    exact ⟨rfl, by rw [depth]; rfl⟩
  · simp [found] at missing
  rintro _ _ ⟨rfl, rfl⟩
  refine Ends.through (fun _ after => after = entered.putEach heap.frames.size (pendings bindings))
    (.storePending Heap.frame?_enter_self ?_ rfl) ?_
  · intro definition mem
    simpa using layout.inside definition.1 (List.mem_append_left _ (List.mem_map_of_mem mem))
  rintro _ _ rfl
  apply Agrees.later evolves'
  apply Agrees.pure reflects''
  refine .module known' (.refl w) fun field mem => ?_
  obtain ⟨d, mem', same⟩ := exists_mem_group w (named field mem)
  exact ⟨d, same, View.defines_addLive known' first mem', (mem_group mem').2⟩

/-- The definitions of a `let` wait in the frame around it. -/
theorem step_letIn {bindings : List (Nat × Expr)} {body : Expr}
    (sits : Sits busy view id env w (.letIn location bindings body)) :
    Agrees m busy w heap view (Eval.step m evaluate held id (.letIn location bindings body))
      (fun n => rule m (upTo m n) env w (.letIn location bindings body))
      fun wider value value' => Means busy wider w value value' := by
  obtain ⟨known, sees, laid, inside⟩ := sits
  cases sees with | letIn parts rest =>
  have first : (group w bindings).Sublist env.definitions :=
    ((List.sublist_append_left _ _).trans (List.sublist_append_left _ _)).trans laid
  have bare := opened.bare
  have evolves := Evolves.putGroup reflects bare known first
  have reflects' := reflects.putGroup bare known first parts
  have here : w <:+ .part 0 :: w := List.suffix_cons _ w
  have sits' : Sits busy (view.addLive id (bindings.map (·.1))) id env (.part 0 :: w) body :=
    ⟨known, rest.mono (View.visible_addLive known first here),
      (List.sublist_append_right _ _).trans laid, inside.trans here⟩
  obtain ⟨frame, found, -, room, -⟩ := (reflects.stands id env known).frame
  refine Ends.through (fun _ after => after = heap.putEach id (pendings bindings))
    (.storePending found (fun definition mem => ?_) rfl) ?_
  · obtain ⟨d, mem', same⟩ := exists_mem_group w (List.mem_map_of_mem mem)
    exact same ▸ room d (first.subset mem')
  rintro _ _ rfl
  apply Agrees.later evolves
  exact (simulates.part reflects' sits' (bare.free_putGroup reflects known first)
    (Nat.le_refl 0)).outer here

omit simulates in
/-- A function literal becomes a closure. -/
theorem step_lambda {paramCount slotCount : Nat} {body : Expr}
    (sits : Sits busy view id env w (.lambda location paramCount slotCount body)) :
    Agrees m busy w heap view
      (Eval.step m evaluate held id (.lambda location paramCount slotCount body))
      (fun n => rule m (upTo m n) env w (.lambda location paramCount slotCount body))
      fun wider value value' => Means busy wider w value value' := by
  obtain ⟨known, sees, -, inside⟩ := sits
  cases sees with | lambda layout inner =>
  have evolves : Evolves w heap view _ _ := .close reflects
  have made : (view.addOrigin heap.closures w).origin heap.closures = some w := by
    simp [View.addOrigin]
  exact Ends.close ⟨_, _, evolves, reflects.close opened, .pure _,
    .closure made known (.refl w) (.of_suffix inside) layout
      (inner.mono (Visibility.enter_mono (evolves.passes.visible trivial)))⟩

omit opened in
/-- The right operand of `&&` and `||`. -/
theorem agrees_truth {right : Expr} {context : Value → Context}
    (sits : Sits busy view id env (.part 1 :: w) right) (free : Free view heap w 1) :
    Agrees m busy w heap view (do
        let b ← evaluate held id right
        Value.bool <$> Eval.blaming (.value b :: held) (context b) (Eval.toBool b))
      (fun n => do
        let b ← upTo m n env (.part 1 :: w) right
        Den.bool <$> expect (Eval.toBool b.outline))
      fun wider value value' => Means busy wider w value value' := by
  apply (simulates.part reflects sits free (Nat.le_refl 1)).bind (List.suffix_cons _ w)
  intro b b' after wider evolves reflects' means
  apply Agrees.map
  apply (Agrees.test reflects' means.alike.toBool).mono
  rintro _ result _ ⟨-, rfl⟩
  exact .bool result

theorem step_and {left right : Expr}
    (sits : Sits busy view id env w (.binary location .and left right)) :
    Agrees m busy w heap view (Eval.step m evaluate held id (.binary location .and left right))
      (fun n => rule m (upTo m n) env w (.binary location .and left right))
      fun wider value value' => Means busy wider w value value' := by
  cases sits.sees with | binary first second =>
  have one := sits.part first (List.sublist_append_left _ _)
  have two := sits.part second (List.sublist_append_right _ _)
  apply (simulates.part reflects one opened.free (Nat.le_refl 0)).bind (List.suffix_cons _ w)
  intro a a' after wider evolves reflects' means
  apply Agrees.told reflects' means.alike.toBool
  intro holds _
  cases holds with
  | true => exact agrees_truth simulates reflects' (two.later evolves) (opened.free.next evolves)
  | false => exact .pure reflects' (.bool false)

theorem step_or {left right : Expr}
    (sits : Sits busy view id env w (.binary location .or left right)) :
    Agrees m busy w heap view (Eval.step m evaluate held id (.binary location .or left right))
      (fun n => rule m (upTo m n) env w (.binary location .or left right))
      fun wider value value' => Means busy wider w value value' := by
  cases sits.sees with | binary first second =>
  have one := sits.part first (List.sublist_append_left _ _)
  have two := sits.part second (List.sublist_append_right _ _)
  apply (simulates.part reflects one opened.free (Nat.le_refl 0)).bind (List.suffix_cons _ w)
  intro a a' after wider evolves reflects' means
  apply Agrees.told reflects' means.alike.toBool
  intro holds _
  cases holds with
  | true => exact .pure reflects' (.bool true)
  | false => exact agrees_truth simulates reflects' (two.later evolves) (opened.free.next evolves)

/-- A strict operator. -/
theorem step_binary {left right : Expr} {op : BinaryOp} (strict : op ≠ .and ∧ op ≠ .or)
    (sits : Sits busy view id env w (.binary location op left right)) :
    Agrees m busy w heap view (Eval.step m evaluate held id (.binary location op left right))
      (fun n => rule m (upTo m n) env w (.binary location op left right))
      fun wider value value' => Means busy wider w value value' := by
  have denoted (n : Nat) : rule m (upTo m n) env w (.binary location op left right) = (do
      let a ← upTo m n env (.part 0 :: w) left
      let b ← upTo m n env (.part 1 :: w) right
      combine m op a b) := by
    cases op with
    | and => exact (strict.1 rfl).elim
    | or => exact (strict.2 rfl).elim
    | _ => rfl
  simp only [Eval.step_binary strict, denoted]
  cases sits.sees with | binary first second =>
  have one := sits.part first (List.sublist_append_left _ _)
  have two := sits.part second (List.sublist_append_right _ _)
  apply (simulates.part reflects one opened.free (Nat.le_refl 0)).bind (List.suffix_cons _ w)
  intro a a' after wider evolves reflects' means
  apply (simulates.part reflects' (two.later evolves) (opened.free.next evolves)
    (Nat.le_refl 1)).bind (List.suffix_cons _ w)
  intro b b' last widest evolves' reflects'' means'
  exact agrees_combine reflects'' (means.later evolves') means'

theorem step_conditional {condition whenTrue whenFalse : Expr}
    (sits : Sits busy view id env w (.conditional location condition whenTrue whenFalse)) :
    Agrees m busy w heap view
      (Eval.step m evaluate held id (.conditional location condition whenTrue whenFalse))
      (fun n => rule m (upTo m n) env w (.conditional location condition whenTrue whenFalse))
      fun wider value value' => Means busy wider w value value' := by
  cases sits.sees with | conditional first second third =>
  have one := sits.part first ((List.sublist_append_left _ _).trans (List.sublist_append_left _ _))
  have two := sits.part second
    ((List.sublist_append_right _ _).trans (List.sublist_append_left _ _))
  have three := sits.part third (List.sublist_append_right _ _)
  apply (simulates.part reflects one opened.free (Nat.le_refl 0)).bind (List.suffix_cons _ w)
  intro a a' after wider evolves reflects' means
  have free := opened.free.next evolves
  apply Agrees.told reflects' means.alike.toBool
  intro holds _
  cases holds with
  | true =>
    exact (simulates.part reflects' (two.later evolves) free (Nat.le_refl 1)).outer
      (List.suffix_cons _ w)
  | false =>
    exact (simulates.part reflects' (three.later evolves) free (Nat.le_succ 1)).outer
      (List.suffix_cons _ w)

theorem step_call {function : Expr} {args : List Expr}
    (sits : Sits busy view id env w (.call location function args)) :
    Agrees m busy w heap view (Eval.step m evaluate held id (.call location function args))
      (fun n => rule m (upTo m n) env w (.call location function args))
      fun wider value value' => Means busy wider w value value' := by
  cases sits.sees with | call head rest =>
  have one := sits.part head (List.sublist_append_left _ _)
  have there : w <:+ .part 1 :: w := List.suffix_cons _ w
  apply (simulates.part reflects one opened.free (Nat.le_refl 0)).bind (List.suffix_cons _ w)
  intro callee callee' after wider evolves reflects' means
  have free := opened.free.next evolves
  apply (agrees_all simulates reflects' args (evolves.env id env sits.known)
    (fun arg mem => ((rest arg mem).mono (evolves.passes.visible trivial)).mono
      (View.visible_seen (seen_part 1)))
    ((List.sublist_append_right _ _).trans sits.laid) (sits.inside.trans there)
    (free.opened (Nat.le_refl 1)) .nil).bind there
  intro values dens last widest evolves' reflects'' all
  have told := means.alike.wrongType "function"
  have args : MeansAll busy widest w values dens := all.seen (.cons (by simp))
  have known := evolves'.env id env (evolves.env id env sits.known)
  obtain ⟨frame, found, depth, -⟩ := (reflects''.stands id env known).frame
  have called : Agrees m busy (.part 2 :: w) last widest
      (Eval.call m evaluate held callee values id location)
      (fun n => call m (upTo m n) callee' dens env.depth (.part 2 :: w))
      fun wider value value' => Means busy wider (.part 2 :: w) value value' := by
    rw [← depth]
    exact agrees_call simulates reflects'' ((means.later evolves').seen (seen_part 2))
      (args.seen (seen_part 2)) found ((free.next evolves').opened (Nat.le_refl 2))
  have result := (called.outer (List.suffix_cons _ w)).mono fun _ _ _ means => means.whole
  cases means with
  | closure _ _ _ _ _ _ => exact result
  | builtin _ => exact result
  | _ =>
    simp only [call, ← told]
    exact .raise reflects'' _

theorem step_dot {base : Expr} {name : String}
    (sits : Sits busy view id env w (.dot location base name)) :
    Agrees m busy w heap view (Eval.step m evaluate held id (.dot location base name))
      (fun n => rule m (upTo m n) env w (.dot location base name))
      fun wider value value' => Means busy wider w value value' := by
  cases sits.sees with | dot part =>
  have one := sits.part part (List.Sublist.refl _)
  apply (simulates.part reflects one opened.free (Nat.le_refl 0)).bind (List.suffix_cons _ w)
  intro value value' after wider evolves reflects' means
  apply (agrees_field? simulates reflects' means).bind List.suffix_rfl
  intro found found' last widest evolves' reflects'' same
  cases same with
  | some means' => exact .pure reflects'' means'
  | none =>
    have numbers := means.alike.numbers?
    have told := means.alike.wrongType "record or module"
    simp only [component, ← numbers]
    cases value.numbers?.bind fun xs => (componentIndex? name).bind (xs[·]?) with
    | some x => exact .pure reflects'' (.num x)
    | none =>
      cases means with
      | list _ _ => exact .raise reflects'' _
      | record _ _ => exact .raise reflects'' _
      | «module» _ _ _ => exact .raise reflects'' _
      | _ =>
        simp only [← told]
        exact .raise reflects'' _

theorem step_index {base index : Expr}
    (sits : Sits busy view id env w (.index location base index)) :
    Agrees m busy w heap view (Eval.step m evaluate held id (.index location base index))
      (fun n => rule m (upTo m n) env w (.index location base index))
      fun wider value value' => Means busy wider w value value' := by
  cases sits.sees with | index first second =>
  have one := sits.part first (List.sublist_append_left _ _)
  have two := sits.part second (List.sublist_append_right _ _)
  apply (simulates.part reflects one opened.free (Nat.le_refl 0)).bind (List.suffix_cons _ w)
  intro value value' after wider evolves reflects' means
  apply agrees_toList reflects' means
  intro items items' all
  apply (simulates.part reflects' (two.later evolves) (opened.free.next evolves)
    (Nat.le_refl 1)).bind (List.suffix_cons _ w)
  intro place place' last widest evolves' reflects'' means'
  apply Agrees.told reflects'' means'.alike.toNumber
  intro x _
  rw [← all.length_eq]
  cases Eval.position? x items.length with
  | none => exact .raise reflects'' _
  | some i =>
    have same := (all.later evolves').getElem? i
    simp only [Option.bind_some]
    generalize items[i]? = item at same
    generalize items'[i]? = item' at same
    cases same with
    | some means'' => exact .pure reflects'' means''
    | none => exact .raise reflects'' _

theorem step_forEach {slotCount : Nat} {list body : Expr}
    (sits : Sits busy view id env w (.forEach location slotCount list body)) :
    Agrees m busy w heap view (Eval.step m evaluate held id (.forEach location slotCount list body))
      (fun n => rule m (upTo m n) env w (.forEach location slotCount list body))
      fun wider value value' => Means busy wider w value value' := by
  cases sits.sees with | forEach first layout inner =>
  have one := sits.part first (List.Sublist.refl _)
  have there : w <:+ .part 1 :: w := List.suffix_cons _ w
  apply (simulates.part reflects one opened.free (Nat.le_refl 0)).bind (List.suffix_cons _ w)
  intro value value' after wider evolves reflects' means
  apply agrees_toList reflects' means
  intro items items' all
  have inner' := inner.mono (Visibility.enter_mono fun depth slot sees =>
    View.visible_seen (seen_part 1) depth slot (evolves.passes.visible trivial depth slot sees))
  apply Agrees.map
  apply ((agrees_each simulates reflects' (evolves.env id env sits.known)
    (sits.inside.trans there) layout inner'
    ((opened.free.next evolves).opened (Nat.le_refl 1)) (all.seen (seen_part 1))
    .nil).outer there).mono
  exact fun _ values dens made => (made.seen (.cons (by simp))).list

end Step

/-- One step finds what is denoted if the evaluation of the parts does. -/
theorem step_simulates (simulates : Simulates m evaluate) :
    Simulates m (Eval.step m evaluate) := by
  intro busy view heap held id env w expr reflects sits opened
  change Agrees m busy w heap view _ (fun n => rule m (upTo m n) env w expr) _
  cases expr with
  | constant location value => exact .pure reflects (.of_plain (Constant.toValue_plain value))
  | slot location depth slot =>
    cases sits.sees with | slot visible =>
    obtain ⟨at_, owner, known, reached, seen⟩ := visible
    obtain ⟨other, found, known'⟩ := reflects.ancestor sits.known reached
    obtain rfl := reflects.frames other at_ owner owner known' known rfl
    simp only [rule, reached]
    apply Agrees.left
    refine .ancestor (fun other' found' => ?_) fun missing => ?_
    · obtain rfl := Option.some.inj (found.symm.trans found')
      refine ⟨view, .refl, ?_⟩
      rcases seen with ⟨low, seen⟩ | ⟨d, rfl, defines, seen⟩
      · exact agrees_argument reflects known seen low
      · exact agrees_definition simulates reflects defines seen
    · simp [found] at missing
  | call => exact step_call simulates reflects opened sits
  | list location items =>
    cases sits.sees with | list parts =>
    apply Agrees.map
    exact (agrees_all simulates reflects items sits.known parts sits.laid sits.inside opened
      .nil).mono fun _ _ _ all => all.list
  | record location fields =>
    cases sits.sees with | record parts =>
    apply Agrees.map
    exact (agrees_fields simulates reflects fields sits.known parts sits.laid sits.inside opened
      ⟨[], rfl, rfl, by simp⟩).mono fun _ _ _ all => all.record
  | «module» => exact step_module reflects opened sits
  | letIn => exact step_letIn simulates reflects opened sits
  | lambda => exact step_lambda reflects opened sits
  | unary location op operand =>
    cases sits.sees with | unary part =>
    apply (simulates.part reflects (sits.part part (List.Sublist.refl _)) opened.free
      (Nat.le_refl 0)).bind (List.suffix_cons _ w)
    intro value value' after wider evolves reflects' means
    cases op with
    | negate =>
      exact agrees_plain reflects' (means.alike.mapNumbers _) (Value.mapNumbers_plain _ value)
    | not =>
      have same := means.alike.toBool
      refine agrees_plain reflects' (by simp only [same]) fun result made => ?_
      cases told : Eval.toBool value with
      | error kind => simp [told] at made
      | ok holds =>
        rw [told] at made
        exact Except.ok.inj made ▸ .bool _
  | binary location op left right =>
    by_cases conjunction : op = .and
    · subst conjunction
      exact step_and simulates reflects opened sits
    · by_cases disjunction : op = .or
      · subst disjunction
        exact step_or simulates reflects opened sits
      · exact step_binary simulates reflects opened ⟨conjunction, disjunction⟩ sits
  | conditional => exact step_conditional simulates reflects opened sits
  | dot => exact step_dot simulates reflects opened sits
  | index => exact step_index simulates reflects opened sits
  | forEach => exact step_forEach simulates reflects opened sits

/-- Evaluation finds what is denoted, with any amount of fuel that suffices. -/
theorem upTo_simulates (m : Machine) (fuel : Nat) : Simulates m (Eval.upTo m fuel) := by
  induction fuel with
  | zero =>
    intro busy view heap held id env w expr reflects _ _
    exact Ends.throw ⟨⟨view, .refl, reflects⟩, trivial⟩
  | succ fuel ih => exact step_simulates ih

end ShapeLang.Denotation
