import ShapeLang.Proofs.Eval.Neat
import ShapeLang.Proofs.Eval.Safety

/-! # Evaluation keeps frames orderly

Where frames are orderly, an evaluation that succeeds leaves them orderly, and uses no more free
slots than those of the `let`s of its expression. So nothing in a frame is ever written over, as
long as nothing fails.
-/

namespace ShapeLang

namespace Eval

/-- An evaluator that keeps frames orderly. -/
def Tidy (base : Nat) (ev : Evaluator) : Prop :=
  ∀ start held id expr, Neat base start [] → Prepared base start id expr →
    Ends (ev held id expr) start (fun _ heap => Tidied base start id expr.letSlots heap)
      fun _ _ => True

section Parts

variable {m : Machine} {base : Nat} {ev : Evaluator} {start heap : Heap} {held : List Held}
  {id : FrameId} {values : List Value}

/-- Evaluating the definition that waits in a slot, and putting its value there. -/
private theorem tidies_pending {slot : Nat} {definition : Expr} {frame : Frame}
    (tidy : Tidy base ev) (neat : Neat base heap values) (inside : heap.Since base id)
    (found : heap.frame? id = some frame)
    (pending : frame.slots[slot]? = some (.pending definition)) :
    Ends (ev held id definition) (heap.put id slot .busy)
      (fun value later => Tidied base heap id [] (later.put id slot (.ready value)))
      fun _ _ => True := by
  obtain ⟨neatBusy, prepared⟩ := neat.busy inside found pending
  exact (tidy _ _ id definition neatBusy prepared).mono
    (fun _ _ tidied => tidied.finish found pending) fun _ _ _ => trivial

variable (safe : Safe ev) (tidy : Tidy base ev)

include safe tidy

/-- A part that is evaluated in a frame with spare slots for its `let`s. -/
theorem tidies_part {expr : Expr} (neat : Neat base heap values)
    (prepared : Prepared base heap id expr) :
    Ends (ev held id expr) heap
      (fun value later => Tidied base heap id expr.letSlots later ∧
        Neat base later (value :: values))
      fun _ _ => True := by
  have stays : Stays (ev held id expr) heap heap [id] values fun value => value :: values :=
    stays_part safe (neat.world prepared.inside) (.refl heap [id] values)
      (fun _ _ owned _ _ => owned id (by simp)) prepared.fits
  refine ((tidy heap held id expr (neat.mono (by simp)) prepared).and stays).mono
    (fun value later both => ?_) fun _ _ _ => trivial
  exact ⟨both.1, neat.later prepared.inside both.2 both.1.orderly⟩

/-- Forcing a slot uses no slot that was free. -/
theorem tidies_force {slot : Nat} {context : Context} (neat : Neat base heap values)
    (inside : heap.Since base id) (filled : heap.Filled id slot) :
    Ends (force ev held id slot context) heap
      (fun value later => Tidied base heap id [] later ∧ Neat base later (value :: values))
      fun _ _ => True := by
  have world := neat.world inside
  have stays : Stays (force ev held id slot context) heap heap [id] values
      fun value => value :: values :=
    stays_force safe world (.refl heap [id] values) (fun _ _ owned _ _ => owned id (by simp)) filled
  have tidied : Ends (force ev held id slot context) heap
      (fun _ later => Tidied base heap id [] later) fun _ _ => True := by
    refine .force (fun _ _ _ _ => .refl neat.orderly) (fun frame definition found pending => ?_)
      (fun _ _ _ _ => trivial) (fun _ _ _ => trivial) (fun _ _ _ => trivial) fun _ => trivial
    exact tidies_pending tidy neat inside found pending
  exact (tidied.and stays).mono (fun value later both =>
    ⟨both.1, neat.later inside both.2 both.1.orderly⟩) fun _ _ _ => trivial

theorem tidies_field? {value : Value} {name : String} {context : Context}
    (neat : Neat base heap values) (inside : heap.Since base id) (mem : value ∈ values) :
    Ends (field? ev held value name context) heap
      (fun found later => Tidied base heap id [] later ∧ Neat base later (found.toList ++ values))
      fun _ _ => True := by
  have world := neat.world inside
  have stays : Stays (field? ev held value name context) heap heap [id] values
      fun found => found.toList ++ values := stays_field? safe world (.refl heap [id] values) mem
  have tidied : Ends (field? ev held value name context) heap
      (fun _ later => Tidied base heap id [] later) fun _ _ => True := by
    cases value with
    | «module» frame fields =>
      simp only [field?]
      cases found : fields.lookup name with
      | none => exact .pure (.refl neat.orderly)
      | some slot =>
        obtain ⟨name', member⟩ := exists_mem_of_lookup found
        obtain ⟨since, filled⟩ : heap.Since base frame ∧ heap.Filled frame slot := by
          cases neat.trusted _ mem with
          | «module» known =>
            obtain ⟨owner, reached, filled⟩ := known.2 _ member
            exact ⟨known.1, Option.some.inj reached ▸ filled⟩
        have forced : Ends (force ev (.value (.module frame fields) :: held) frame slot context)
            heap (fun value later => Tidied base heap frame [] later ∧
              Neat base later (value :: values)) fun _ _ => True :=
          tidies_force safe tidy neat since filled
        exact .map (forced.mono (fun _ _ both => both.1.anywhere id) fun _ _ _ => trivial)
    | _ => exact .pure (.refl neat.orderly)
  exact (tidied.and stays).mono (fun _ _ both =>
    ⟨both.1, neat.later inside both.2 both.1.orderly⟩) fun _ _ _ => trivial

/-- Several parts, each with its own slots. -/
theorem tidies_evaluateAll (exprs : List Expr) (done : List Value) (neat : Neat base heap values)
    (inside : heap.Since base id) (kept : ∀ value ∈ done, value ∈ values)
    (sees : ∀ expr ∈ exprs, expr.Scoped (heap.visible id))
    (spare : heap.SpareAt id (exprs.flatMap Expr.letSlots)) :
    Ends (evaluateAll ev held id done exprs) heap
      (fun results later => Tidied base heap id (exprs.flatMap Expr.letSlots) later ∧
        Neat base later (results ++ values))
      fun _ _ => True := by
  induction exprs generalizing heap values done with
  | nil =>
    refine .pure ⟨.refl neat.orderly, neat.mono fun value mem => ?_⟩
    rcases List.mem_append.mp mem with mem | mem
    · exact kept value (List.mem_reverse.mp mem)
    · exact mem
  | cons expr exprs ih =>
    rw [List.flatMap_cons] at spare
    refine (tidies_part safe tidy neat (.of_spare inside (sees expr (by simp)) spare.left)).bind
      fun value later first => ?_
    obtain ⟨tidied, neat'⟩ := first
    have size := tidied.extension.size_le
    refine (ih (value :: done) neat' (.mono size id inside) (fun other mem => ?_)
      (fun other mem => (sees other (by simp [mem])).mono tidied.grows.visible)
      (tidied.spareAt spare.right fun _ mem mem' => spare.disjoint mem' mem)).mono
      (fun results last rest => ?_) fun _ _ _ => trivial
    · rcases List.mem_cons.mp mem with rfl | mem
      · simp
      · simp [kept other mem]
    · refine ⟨List.flatMap_cons ▸ tidied.andThen rest.1, rest.2.mono fun other mem => ?_⟩
      rcases List.mem_append.mp mem with mem | mem
      · exact List.mem_append_left _ mem
      · exact List.mem_append_right _ (List.mem_cons_of_mem _ mem)

theorem tidies_evaluateFields (fields : List (String × Expr)) (done : List (String × Value))
    (neat : Neat base heap values) (inside : heap.Since base id)
    (sees : ∀ field ∈ fields, field.2.Scoped (heap.visible id))
    (spare : heap.SpareAt id (fields.flatMap (·.2.letSlots))) :
    Ends (evaluateFields ev held id done fields) heap
      (fun _ later => Tidied base heap id (fields.flatMap (·.2.letSlots)) later)
      fun _ _ => True := by
  induction fields generalizing heap values done with
  | nil => exact .pure (.refl neat.orderly)
  | cons field fields ih =>
    obtain ⟨name, expr⟩ := field
    rw [List.flatMap_cons] at spare
    refine (tidies_part safe tidy neat
      (.of_spare inside (sees _ List.mem_cons_self) spare.left)).bind
      fun value later first => ?_
    obtain ⟨tidied, neat'⟩ := first
    refine (ih ((name, value) :: done) neat' (.mono tidied.extension.size_le id inside)
      (fun other mem => (sees other (by simp [mem])).mono tidied.grows.visible)
      (tidied.spareAt spare.right fun _ mem mem' => spare.disjoint mem' mem)).mono
      (fun results last rest => ?_) fun _ _ _ => trivial
    exact List.flatMap_cons ▸ tidied.andThen rest

/-- A body that is evaluated in a new frame with its parameters. -/
theorem tidies_body {slotCount : Nat} {body : Expr} {env : FrameId} {args : List Value}
    (neat : Neat base heap values) (id caller : FrameId) (callSite : Option Location)
    (callDepth : Nat) (inside : heap.Since base env)
    (room : Room slotCount (List.range args.length ++ body.letSlots))
    (sees : body.Scoped ((heap.visible env).enter (List.range args.length)))
    (given : ∀ arg ∈ args, arg ∈ values) :
    Ends (ev held heap.frames.size body)
      (heap.enter slotCount env caller callSite callDepth (readies 0 args))
      (fun value later => Tidied base heap id [] later ∧ Neat base later (value :: values))
      fun _ _ => True := by
  have entered := Tidied.enter neat.orderly id slotCount env caller callSite callDepth
    (readies 0 args) readies_nonempty (.of_idle idle_setEach_readies)
  refine (tidies_part safe tidy
    (neat.enter_values caller callSite callDepth inside given)
    (.enter_values caller callSite callDepth inside room sees)).mono (fun value later both => ?_)
    fun _ _ _ => trivial
  refine ⟨entered.elsewhere both.1 fun place _ free => ?_, both.2⟩
  exact Nat.lt_irrefl _ free.lt_size

/-- The body of a loop, in a frame of its own for each item. -/
theorem tidies_evaluateEach {slotCount : Nat} {body : Expr} (items done : List Value)
    (neat : Neat base heap values) (inside : heap.Since base id)
    (room : Room slotCount (0 :: body.letSlots)) (sees : body.Scoped ((heap.visible id).enter [0]))
    (given : ∀ item ∈ items, item ∈ values) :
    Ends (evaluateEach ev held id slotCount body done items) heap
      (fun _ later => Tidied base heap id [] later) fun _ _ => True := by
  induction items generalizing heap values done with
  | nil => exact .pure (.refl neat.orderly)
  | cons item items ih =>
    obtain ⟨frame, found⟩ := neat.sound.found id inside
    refine Ends.through (fun round after => round = heap.frames.size ∧
      (heap.alloc slotCount (some id) (some id) none frame.depth).2 = after)
      (.allocChild (fun other found' => ?_) fun _ => trivial) ?_
    · obtain rfl := Option.some.inj (found.symm.trans found')
      exact ⟨rfl, rfl⟩
    rintro _ _ ⟨rfl, rfl⟩
    have allocated := Heap.frame?_alloc_self heap slotCount (some id) (some id) none frame.depth
    refine Ends.through (fun _ after =>
      heap.enter slotCount id id none frame.depth (readies 0 [item]) = after)
      (.store_found allocated (by simpa [Heap.fresh] using room.inside 0 (by simp)) rfl) ?_
    rintro _ _ rfl
    have roomy : Room slotCount (List.range [item].length ++ body.letSlots) := room
    have sees' : body.Scoped ((heap.visible id).enter (List.range [item].length)) := sees
    refine (tidies_body safe tidy neat id id none frame.depth inside roomy sees'
      (by simpa using given item (by simp))).bind fun value later first => ?_
    obtain ⟨tidied, neat'⟩ := first
    refine (ih (value :: done) neat' (.mono tidied.extension.size_le id inside)
      (sees.mono (Visibility.enter_mono tidied.grows.visible))
      fun other mem => by simp [given other (by simp [mem])]).mono
      (fun _ _ rest => tidied.andThen rest) fun _ _ _ => trivial

theorem tidies_call {function : Value} {args : List Value} {caller : FrameId} {site : Location}
    (neat : Neat base heap values) (inside : heap.Since base caller) (mem : function ∈ values)
    (given : ∀ arg ∈ args, arg ∈ values) :
    Ends (call m ev held function args caller site) heap
      (fun _ later => Tidied base heap caller [] later) fun _ _ => True := by
  cases function with
  | closure serial lambda env =>
    simp only [call]
    by_cases count : args.length = lambda.paramCount
    · simp only [count, ne_eq, not_true_eq_false, ↓reduceIte]
      obtain ⟨frame, found⟩ := neat.sound.found caller inside
      obtain ⟨known, room, sees⟩ : heap.Since base env ∧
          Room lambda.slotCount (List.range args.length ++ lambda.body.letSlots) ∧
          lambda.body.Scoped ((heap.visible env).enter (List.range args.length)) := by
        rw [count]
        cases neat.trusted _ mem with
        | closure known =>
          cases known.2 with
          | lambda room inner => exact ⟨known.1, room, inner⟩
      refine Ends.through (fun entered after => entered = heap.frames.size ∧
        (heap.alloc lambda.slotCount (some env) (some caller) (some site) (frame.depth + 1)).2 =
          after)
        (.allocCall (fun other found' _ => ?_) (fun _ _ _ _ => trivial) fun _ => trivial) ?_
      · obtain rfl := Option.some.inj (found.symm.trans found')
        exact ⟨rfl, rfl⟩
      rintro _ _ ⟨rfl, rfl⟩
      have allocated := Heap.frame?_alloc_self heap lambda.slotCount (some env) (some caller)
        (some site) (frame.depth + 1)
      refine Ends.through (fun _ after => heap.enter lambda.slotCount env caller
        (some site) (frame.depth + 1) (readies 0 args) = after)
        (.storeAll allocated (by simpa [Heap.fresh] using room.length_le) rfl) ?_
      rintro _ _ rfl
      exact (tidies_body safe tidy neat caller caller (some site) (frame.depth + 1) known room sees
        given).mono (fun _ _ both => both.1) fun _ _ _ => trivial
    · simp only [count, ne_eq, not_false_eq_true, ↓reduceIte]
      exact Ends.stop (.raise fun _ => trivial)
  | builtin builtin =>
    simp only [call]
    by_cases count : args.length = builtin.arity
    · simp only [count, ne_eq, not_true_eq_false, ↓reduceIte]
      cases builtin.apply m.arithmetic args with
      | ok value => exact .pure (.refl neat.orderly)
      | error failure =>
        cases failure with
        | mistake kind => exact .raise fun _ => trivial
        | reported kind => exact .raise fun _ => trivial
        | missing => exact .defect trivial
    · simp only [count, ne_eq, not_false_eq_true, ↓reduceIte]
      exact Ends.stop (.raise fun _ => trivial)
  | _ => exact .raise fun _ => trivial

end Parts

section Step

variable {m : Machine} {base : Nat} {ev : Evaluator}

theorem step_tidy (safe : Safe ev) (tidy : Tidy base ev) : Tidy base (step m ev) := by
  intro start held id expr neat prepared
  have inside := prepared.inside
  have spare := prepared.spare
  have begun : Tidied base start id [] start := .refl neat.orderly
  -- A part of the expression, evaluated in the same frame later on.
  have part {part : Expr} {heap : Heap} {values : List Value} {held : List Held}
      {places : List Nat} (tidied : Tidied base start id places heap)
      (neat : Neat base heap values) (sees : part.Scoped (start.visible id))
      (spare : start.SpareAt id (places ++ part.letSlots)) :
      Ends (ev held id part) heap
        (fun value later => Tidied base start id (places ++ part.letSlots) later ∧
          Neat base later (value :: values))
        fun _ _ => True := by
    have prepared' : Prepared base heap id part :=
      .of_spare (.mono tidied.extension.size_le id inside) (sees.mono tidied.grows.visible)
        (tidied.spareAt spare.right fun _ mem mem' => spare.disjoint mem' mem)
    exact (tidies_part safe tidy neat prepared').mono
      (fun _ _ both => ⟨tidied.andThen both.1, both.2⟩) fun _ _ _ => trivial
  have blamed {α : Type} {heap : Heap} {held : List Held} {context : Context}
      {result : Except ErrorKind α} :
      Ends (blaming held context result) heap (fun _ later => heap = later) fun _ _ => True :=
    .blaming (fun _ _ => rfl) fun _ _ _ => trivial
  have all {exprs : List Expr} {heap : Heap} {values : List Value} {held : List Held}
      {places : List Nat} (tidied : Tidied base start id places heap) (neat : Neat base heap values)
      (sees : ∀ expr ∈ exprs, expr.Scoped (start.visible id))
      (spare : start.SpareAt id (places ++ exprs.flatMap Expr.letSlots)) :
      Ends (evaluateAll ev held id [] exprs) heap
        (fun results later => Tidied base start id (places ++ exprs.flatMap Expr.letSlots) later ∧
          Neat base later (results ++ values))
        fun _ _ => True :=
    (tidies_evaluateAll safe tidy exprs [] neat (.mono tidied.extension.size_le id inside) (by simp)
      (fun expr mem => (sees expr mem).mono tidied.grows.visible)
      (tidied.spareAt spare.right fun _ mem mem' => spare.disjoint mem' mem)).mono
      (fun _ _ both => ⟨tidied.andThen both.1, both.2⟩) fun _ _ _ => trivial
  cases prepared.fits.sees with
  | constant => exact .pure begun
  | @slot _ _ depth slot visible =>
    obtain ⟨owner, reached, filled⟩ := visible
    refine Ends.through (fun found after => found = owner ∧ start = after)
      (.ancestor (fun other reached' => ⟨Option.some.inj (reached'.symm.trans reached), rfl⟩)
      fun _ => trivial) ?_
    rintro _ _ ⟨rfl, rfl⟩
    exact (tidies_force safe tidy neat (neat.sound.ancestor inside reached) filled).mono
      (fun _ _ both => both.1.anywhere id) fun _ _ _ => trivial
  | @call _ site function args head rest =>
    rw [Expr.letSlots_call] at spare ⊢
    refine (part begun neat head spare.left).bind fun callee heap first => ?_
    refine (all first.1 first.2 rest spare).bind fun results heap second => ?_
    obtain ⟨tidied, neat⟩ := second
    have called : Ends (call m ev held callee results id site) heap
        (fun _ later => Tidied base start id
          (function.letSlots ++ args.flatMap Expr.letSlots) later) fun _ _ => True :=
      (tidies_call safe tidy neat (.mono tidied.extension.size_le id inside) (by simp)
        fun arg mem => by simp [mem]).mono
        (fun _ _ last => (tidied.andThen last).widen fun _ mem => by simpa using mem)
        fun _ _ _ => trivial
    cases callee with
    | closure => exact called
    | builtin => exact called
    | _ => exact .raise fun _ => trivial
  | @list _ _ items parts =>
    rw [Expr.letSlots_list] at spare ⊢
    exact .map ((all begun neat parts spare).mono (fun _ _ both => both.1) fun _ _ _ => trivial)
  | @record _ _ fields parts =>
    rw [Expr.letSlots_record] at spare ⊢
    exact .map (tidies_evaluateFields safe tidy fields [] neat inside parts spare)
  | @«module» _ _ slotCount fields definitions room named parts =>
    obtain ⟨frame, found⟩ := neat.sound.found id inside
    refine Ends.through (fun inner after => inner = start.frames.size ∧
      (start.alloc slotCount (some id) (some id) none frame.depth).2 = after)
      (.allocChild (fun other found' => ?_) fun _ => trivial) ?_
    · obtain rfl := Option.some.inj (found.symm.trans found')
      exact ⟨rfl, rfl⟩
    rintro _ _ ⟨rfl, rfl⟩
    refine Ends.through (fun _ after =>
      start.enter slotCount id id none frame.depth (pendings definitions) = after)
      (.storePending
        (Heap.frame?_alloc_self start slotCount (some id) (some id) none frame.depth)
        (fun definition mem => ?_) rfl) ?_
    · simpa [Heap.fresh] using
        room.inside _ (List.mem_append_left _ (List.mem_map_of_mem mem))
    rintro _ _ rfl
    exact .pure (.enter neat.orderly id slotCount id id none frame.depth _ pendings_nonempty
      (orderly_setEach_pendings room))
  | @letIn _ _ bindings body =>
    have stored := Tidied.storeLet neat.orderly spare
    obtain ⟨neat', prepared'⟩ := Prepared.storeLet neat prepared
    obtain ⟨frame, found, roomy⟩ := prepared.fits.room
    rw [Expr.letSlots_letIn] at roomy ⊢
    refine Ends.through (fun _ after => start.putEach id (pendings bindings) = after)
      (.storePending found (fun binding mem => roomy binding.1 ?_) rfl) ?_
    · rw [List.append_assoc]
      exact List.mem_append_left _ (List.mem_map_of_mem mem)
    rintro _ _ rfl
    exact (tidies_part safe tidy neat' prepared').mono (fun _ _ both => stored.andThen both.1)
      fun _ _ _ => trivial
  | lambda =>
    exact .close ⟨⟨Nat.le_refl _, fun _ frame found => ⟨frame, found, rfl, rfl, rfl⟩⟩,
      Heap.Settled.refl start, fun _ _ free _ => free, neat.orderly⟩
  | @unary _ _ op _ operand =>
    refine (part begun neat operand spare).bind fun value heap first => ?_
    exact .blaming (fun _ _ => first.1) fun _ _ _ => trivial
  | @binary _ location op left right first second =>
    rw [Expr.letSlots_binary] at spare ⊢
    by_cases strict : op ≠ .and ∧ op ≠ .or
    · rw [step_binary strict]
      refine (part begun neat first spare.left).bind fun a heap one => ?_
      refine (part one.1 one.2 second spare).bind fun b heap two => ?_
      unfold combine
      cases compare? op with
      | some holds =>
        exact Ends.bind blamed fun x _ same => same ▸ Ends.bind blamed fun y _ same' =>
          same' ▸ .pure two.1
      | none => exact .blaming (fun _ _ => two.1) fun _ _ _ => trivial
    -- The second operand of `&&` and `||` is evaluated in one of the two cases.
    have decided {heap : Heap} {values : List Value} (context : Value → Context)
        (tidied : Tidied base start id left.letSlots heap) (neat : Neat base heap values) :
        Ends (do
          let b ← ev held id right
          Value.bool <$> blaming (.value b :: held) (context b) (toBool b)) heap
          (fun _ later => Tidied base start id (left.letSlots ++ right.letSlots) later)
          fun _ _ => True :=
      (part tidied neat second spare).bind fun b later two =>
        .map (.blaming (fun _ _ => two.1) fun _ _ _ => trivial)
    cases op with
    | and =>
      refine (part begun neat first spare.left).bind fun a heap one => blamed.bind ?_
      rintro (_ | _) _ rfl
      · exact .pure (one.1.widen fun _ mem => List.mem_append_left _ mem)
      · exact decided (fun _ => _) one.1 one.2
    | or =>
      refine (part begun neat first spare.left).bind fun a heap one => blamed.bind ?_
      rintro (_ | _) _ rfl
      · exact decided (fun _ => _) one.1 one.2
      · exact .pure (one.1.widen fun _ mem => List.mem_append_left _ mem)
    | _ => simp at strict
  | @conditional _ _ condition whenTrue whenFalse first second third =>
    rw [Expr.letSlots_conditional] at spare ⊢
    refine (part begun neat first spare.left.left).bind fun value heap one => blamed.bind ?_
    rintro (_ | _) _ rfl
    · have spare' := spare.sublist
        (.append_right (List.sublist_append_left _ whenTrue.letSlots) whenFalse.letSlots)
      exact (part one.1 one.2 third spare').mono (fun _ _ two => two.1.widen fun place mem => by
        rw [List.nil_append, List.mem_append] at mem
        rcases mem with mem | mem <;> simp [mem]) fun _ _ _ => trivial
    · exact (part one.1 one.2 second spare.left).mono (fun _ _ two => two.1.widen fun _ mem =>
        List.mem_append_left _ mem) fun _ _ _ => trivial
  | @dot _ _ base' name part' =>
    refine (part begun neat part' spare).bind fun value heap one => ?_
    refine (tidies_field? safe tidy one.2 (.mono one.1.extension.size_le id inside)
      (by simp)).bind fun found later two => ?_
    have whole : Tidied base start id base'.letSlots later :=
      (one.1.andThen two.1).widen fun _ mem => by simpa using mem
    cases found with
    | some found => exact .pure whole
    | none =>
      dsimp only
      cases value.numbers?.bind fun xs => (componentIndex? name).bind (xs[·]?) with
      | some x => exact .pure whole
      | none => cases value <;> exact .raise fun _ => trivial
  | index first second =>
    rw [Expr.letSlots_index] at spare ⊢
    refine (part begun neat first spare.left).bind fun value heap one => blamed.bind ?_
    rintro items _ rfl
    refine (part one.1 one.2 second spare).bind fun place later two => blamed.bind ?_
    rintro x _ rfl
    cases (position? x items.length).bind (items[·]?) with
    | none => exact .raise fun _ => trivial
    | some item => exact .pure two.1
  | @forEach _ _ slotCount list body first room inner =>
    rw [Expr.letSlots_forEach] at spare ⊢
    refine (part begun neat first spare).bind fun value heap one => ?_
    refine Ends.through (fun items after => heap = after ∧ toList value = .ok items)
      (.blaming (fun _ same => ⟨rfl, same⟩) fun _ _ _ => trivial) ?_
    rintro items _ ⟨rfl, same⟩
    have listed : Neat base heap items := ⟨one.2.orderly, one.2.sound,
      trusts_items same (one.2.trusted value (by simp))⟩
    refine .map ((tidies_evaluateEach safe tidy items [] listed
      (.mono one.1.extension.size_le id inside) room
      (inner.mono (Visibility.enter_mono one.1.grows.visible)) fun _ mem => mem).mono
      (fun _ _ two => (one.1.andThen two).widen fun _ mem => by simpa using mem)
      fun _ _ _ => trivial)

/-- Evaluation keeps frames orderly, with any amount of fuel. -/
theorem upTo_tidy (m : Machine) (base fuel : Nat) : Tidy base (upTo m fuel) := by
  induction fuel with
  | zero => exact fun _ _ _ _ _ _ => Ends.throw trivial
  | succ fuel ih => exact step_tidy (upTo_safe m fuel) ih

end Step

end Eval

end ShapeLang
