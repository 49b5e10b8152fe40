import ShapeLang.Proofs.Eval.Tidy
import ShapeLang.Proofs.Lexical.Agreement
import ShapeLang.Proofs.Lexical.Mirror
import ShapeLang.Proofs.Lexical.Outline

/-! # Parts of two evaluations that run side by side

An expression is evaluated in a frame, and the phrase that it was resolved from in the scopes that
lie around the frame. What is made of parts, of definitions that are forced, of the rounds of a loop
and of calls agrees if the parts do; frames and scopes still mirror each other afterwards. A
definition is forced in the frame that its scope lies in.
-/

namespace ShapeLang.Lexical

open Eval (Neat Prepared Safe Tidied Tidy)

/-- Code in a frame, and where its phrase stands. -/
structure Situated (base : Nat) (placement : Placement) (heap : Heap) (id : FrameId) (env : Env)
    (ribs : Ribs) : Prop where
  lies : Lies base placement heap env.scopes id ribs
  depth : ∃ frame, heap.frame? id = some frame ∧ frame.depth = env.depth

/-- What evaluation in a frame has come to: the frames that it used, the scopes that mirror them,
and values on both sides. -/
structure Course (names : Namespace) (base : Nat) (start : Heap) (first : Placement) (id : FrameId)
    (places : List Nat) (heap : Heap) (store : Store) (placement : Placement)
    (pairs : List (ShapeLang.Value × Value)) : Prop where
  mirrors : Mirrors names base placement heap store
  placed : first <+: placement
  tidied : Tidied base start id places heap
  neat : Neat base heap (pairs.map (·.1))
  same : ∀ pair ∈ pairs, Corresponds names base placement heap pair.1 pair.2

/-- Values that correspond to each other, in frames and scopes that go on to mirror each other. -/
def Leaves (names : Namespace) (base : Nat) (placement : Placement) (value : ShapeLang.Value)
    (heap : Heap) (value' : Value) (store : Store) : Prop :=
  ∃ later, placement <+: later ∧ Mirrors names base later heap store ∧
    Corresponds names base later heap value value'

/-- Two evaluators that agree on everything that is resolved. -/
def Simulates (names : Namespace) (base : Nat) (ev : Evaluator) (walk : Walker) : Prop :=
  ∀ heap store placement held id env ribs phrase expr,
    Mirrors names base placement heap store → Neat base heap [] →
    Situated base placement heap id env ribs → Resolves names ribs phrase expr →
    heap.SpareAt id expr.letSlots →
    Agrees (ev held id expr) heap (walk env phrase) store (Leaves names base placement)

section Course

variable {names : Namespace} {base : Nat} {start heap after : Heap} {first placement later : Placement}
  {id other : FrameId} {places more : List Nat} {store store' : Store} {env : Env} {ribs : Ribs}
  {pairs pairs' : List (ShapeLang.Value × Value)}

theorem Situated.mono (situated : Situated base placement heap id env ribs)
    (placed : placement <+: later) (extension : heap.Extends after) :
    Situated base later after id env ribs := by
  obtain ⟨lies, frame, found, depth⟩ := situated
  obtain ⟨frame', found', -, depth', -⟩ := extension.kept id frame found
  exact ⟨lies.mono placed extension, frame', found', depth'.trans depth⟩

/-- Resolved code can run in its frame if there are spare slots for its `let`s. -/
theorem Situated.prepared (situated : Situated base placement heap id env ribs)
    (mirrors : Mirrors names base placement heap store) {phrase : Phrase} {expr : Expr}
    (resolves : Resolves names ribs phrase expr) (spare : heap.SpareAt id expr.letSlots) :
    Prepared base heap id expr :=
  .of_spare situated.lies.since (resolves.scoped.mono (situated.lies.visible mirrors)) spare

namespace Course

theorem refl (mirrors : Mirrors names base placement heap store) (neat : Neat base heap []) :
    Course names base heap placement id [] heap store placement [] :=
  ⟨mirrors, List.prefix_refl _, .refl neat.orderly, neat, by simp⟩

private theorem extend (one : Course names base start first id places heap store placement pairs)
    (two : Course names base heap placement other more after store' later pairs')
    {used : List Nat} (tidied : Tidied base start id used after) :
    Course names base start first id used after store' later (pairs' ++ pairs) := by
  refine ⟨two.mirrors, one.placed.trans two.placed, tidied, ⟨two.neat.orderly, two.neat.sound,
    fun value mem => ?_⟩, fun pair mem => ?_⟩
  · rw [List.map_append] at mem
    rcases List.mem_append.mp mem with mem | mem
    · exact two.neat.trusted value mem
    · exact (one.neat.trusted value mem).mono two.tidied.grows
        (Heap.Since.mono two.tidied.extension.size_le)
  · rcases List.mem_append.mp mem with mem | mem
    · exact two.same pair mem
    · exact (one.same pair mem).mono two.placed two.tidied.extension

theorem andThen (one : Course names base start first id places heap store placement pairs)
    (two : Course names base heap placement id more after store' later pairs') :
    Course names base start first id (places ++ more) after store' later (pairs' ++ pairs) :=
  one.extend two (one.tidied.andThen two.tidied)

/-- A further evaluation, in a frame that was not there at the start. -/
theorem elsewhere (one : Course names base start first id places heap store placement pairs)
    (two : Course names base heap placement other more after store' later pairs')
    (new : start.frames.size ≤ other) :
    Course names base start first id places after store' later (pairs' ++ pairs) :=
  one.extend two (one.tidied.elsewhere two.tidied fun _ _ free =>
    Nat.not_lt.mpr new free.lt_size)

/-- Other values that correspond to each other. -/
theorem derive (course : Course names base start first id places heap store placement pairs)
    (values : ∀ pair ∈ pairs', heap.Trusts (heap.Since base) pair.1 ∧
      Corresponds names base placement heap pair.1 pair.2) :
    Course names base start first id places heap store placement pairs' := by
  refine ⟨course.mirrors, course.placed, course.tidied, ⟨course.neat.orderly, course.neat.sound,
    fun value mem => ?_⟩, fun pair mem => (values pair mem).2⟩
  obtain ⟨pair, inside, rfl⟩ := List.mem_map.mp mem
  exact (values pair inside).1

theorem push (course : Course names base start first id places heap store placement pairs)
    {value : ShapeLang.Value} {value' : Value} (trusted : heap.Trusts (heap.Since base) value)
    (same : Corresponds names base placement heap value value') :
    Course names base start first id places heap store placement ((value, value') :: pairs) :=
  course.derive fun pair mem => by
    rcases List.mem_cons.mp mem with rfl | mem
    · exact ⟨trusted, same⟩
    · exact ⟨course.neat.trusted _ (List.mem_map_of_mem mem), course.same pair mem⟩

theorem mono (course : Course names base start first id places heap store placement pairs)
    (included : ∀ pair ∈ pairs', pair ∈ pairs) :
    Course names base start first id places heap store placement pairs' :=
  course.derive fun pair mem => ⟨course.neat.trusted _ (List.mem_map_of_mem (included pair mem)),
    course.same pair (included pair mem)⟩

/-- What an evaluation leaves when it is over. -/
theorem finish {value : ShapeLang.Value} {value' : Value}
    (course : Course names base start first id places heap store placement pairs)
    (same : Corresponds names base placement heap value value') :
    Leaves names base first value heap value' store :=
  ⟨placement, course.placed, course.mirrors, same⟩

theorem widen (course : Course names base start first id places heap store placement pairs)
    (included : ∀ place ∈ places, place ∈ more) :
    Course names base start first id more heap store placement pairs :=
  ⟨course.mirrors, course.placed, course.tidied.widen included, course.neat, course.same⟩

end Course

end Course

section Parts

variable {names : Namespace} {base : Nat} {m : Machine} {ev : Evaluator} {walk : Walker}
  {start heap : Heap} {first placement : Placement} {id : FrameId} {places : List Nat}
  {store : Store} {env : Env} {ribs : Ribs} {pairs : List (ShapeLang.Value × Value)}
  {held : List Held}

variable (safe : Safe ev) (tidy : Tidy base ev) (simulates : Simulates names base ev walk)

include safe tidy simulates

/-- Resolved code and its phrase, in frames and scopes that mirror each other. -/
theorem agrees_run {phrase : Phrase} {expr : Expr}
    (mirrors : Mirrors names base placement heap store) (neat : Neat base heap [])
    (situated : Situated base placement heap id env ribs)
    (resolves : Resolves names ribs phrase expr) (spare : heap.SpareAt id expr.letSlots) :
    Agrees (ev held id expr) heap (walk env phrase) store fun value after value' store' =>
      ∃ later, Course names base heap placement id expr.letSlots after store' later
        [(value, value')] := by
  refine ((simulates heap store placement held id env ribs phrase expr mirrors neat situated
    resolves spare).and (Eval.tidies_part safe tidy neat
      (situated.prepared mirrors resolves spare))).mono fun value after value' store' both => ?_
  obtain ⟨⟨later, placed, mirrors', same⟩, tidied, neat'⟩ := both
  exact ⟨later, mirrors', placed, tidied, neat', by simpa using same⟩

/-- A part of the code that is evaluated in a frame. -/
theorem agrees_part {phrase : Phrase} {expr : Expr}
    (course : Course names base start first id places heap store placement pairs)
    (situated : Situated base first start id env ribs) (resolves : Resolves names ribs phrase expr)
    (spare : start.SpareAt id (places ++ expr.letSlots)) :
    Agrees (ev held id expr) heap (walk env phrase) store fun value after value' store' =>
      ∃ later, Course names base start first id (places ++ expr.letSlots) after store' later
        ((value, value') :: pairs) := by
  apply (agrees_run safe tidy simulates course.mirrors (course.neat.mono (by simp))
    (situated.mono course.placed course.tidied.extension) resolves
    (course.tidied.spareAt spare.right fun _ mem mem' => spare.disjoint mem' mem)).mono
  rintro value after value' store' ⟨later, one⟩
  exact ⟨later, course.andThen one⟩

/-- Forcing a slot, and looking up the name that it belongs to. -/
theorem agrees_force {number : ScopeId} {owner : FrameId} {rib : Rib} {name : String} {slot : Nat}
    {context : Context}
    (course : Course names base start first id places heap store placement pairs)
    (placed : placement[number]? = some (owner, rib)) (bound : rib.slots.lookup name = some slot) :
    Agrees (Eval.force ev held owner slot context) heap (force walk number name) store
      fun value after value' store' => ∃ later,
        Course names base start first id places after store' later ((value, value') :: pairs) := by
  obtain ⟨scope, frame, ribs, found, occupies⟩ := course.mirrors.occupies number owner rib placed
  have since := occupies.lies.since
  obtain ⟨unbound, -⟩ | ⟨_, content, cell, bound', cellFound, holds, related⟩ :=
    occupies.filling.lookup name
  · simp [bound] at unbound
  obtain rfl := Option.some.inj (bound.symm.trans bound')
  have known : store.cell? number name = some cell := by
    rw [Store.cell?, found, Option.bind_some, cellFound]
  have tidied : Ends (Eval.force ev held owner slot context) heap
      (fun value later => Tidied base heap owner [] later ∧
        Neat base later (value :: pairs.map (·.1))) fun _ _ => True :=
    Eval.tidies_force safe tidy course.neat since
      ⟨frame, content, occupies.found, holds, related.nonempty⟩
  suffices agrees : Agrees (Eval.force ev held owner slot context) heap (force walk number name)
      store fun value after value' store' => ∃ later, placement <+: later ∧
        Mirrors names base later after store' ∧
        Corresponds names base later after value value' from
    (agrees.and tidied).mono fun value after value' store' both => by
      obtain ⟨⟨later, placed', mirrors, same⟩, tidied, neat⟩ := both
      have one : Course names base heap placement id [] after store' later [(value, value')] :=
        ⟨mirrors, placed', tidied.anywhere id, neat.mono (by simp), by simpa using same⟩
      exact ⟨later, (course.andThen one).widen (by simp)⟩
  refine .left (.frame_found occupies.found (.get ?_))
  simp only [holds, found, known]
  cases related with
  | waiting resolves =>
    have within := (List.getElem?_eq_some_iff.mp holds).1
    refine .left (.store_found occupies.found within (.modifyGet (.settling ?_)))
    obtain ⟨neat, prepared⟩ := course.neat.busy since occupies.found holds
    have busy : Mirrors names base placement (heap.put owner slot .busy)
        (store.set number name .busy) := course.mirrors.write placed bound fun _ => .busy
    have situated : Situated base placement (heap.put owner slot .busy) owner
        ⟨number :: scope.outer, scope.depth⟩ (rib :: ribs) :=
      ⟨occupies.lies.mono (List.prefix_refl _) (.put heap owner slot .busy), _,
        Heap.frame?_put_self occupies.found, occupies.depth⟩
    apply (agrees_run safe tidy simulates busy neat situated resolves prepared.spare).mono
    rintro value after value' store' ⟨later, inner⟩
    have same := inner.same (value, value') (by simp)
    have extension := Heap.Extends.put after owner slot (.ready value)
    exact ⟨later, inner.placed, inner.mirrors.write (placed_later inner.placed placed) bound
      fun _ => .done (same.mono (List.prefix_refl _) extension),
      same.mono (List.prefix_refl _) extension⟩
  | busy => exact .raise _
  | done same => exact .pure ⟨placement, List.prefix_refl _, course.mirrors, same⟩

/-- Reading a field. -/
theorem agrees_field? {value : ShapeLang.Value} {value' : Value} {name : String}
    {context : Context}
    (course : Course names base start first id places heap store placement pairs)
    (mem : (value, value') ∈ pairs) :
    Agrees (Eval.field? ev held value name context) heap (field? walk value' name) store
      fun found after found' store' => ∃ (later : Placement)
        (more : Option (ShapeLang.Value × Value)), found = more.map (·.1) ∧
        found' = more.map (·.2) ∧ Course names base start first id places after store' later
          (more.toList ++ pairs) := by
  have trusted := course.neat.trusted value (List.mem_map_of_mem mem)
  cases course.same _ mem with
  | record fields parts =>
    refine .pure ⟨placement, fields.lookup name, ?_, ?_, ?_⟩
    · rw [lookup_map Prod.fst]
    · rw [lookup_map Prod.snd]
    · refine course.derive fun pair inside => ?_
      rcases List.mem_append.mp inside with new | old
      · obtain ⟨name', inside⟩ := Eval.exists_mem_of_lookup (Option.mem_toList.mp new)
        cases trusted with
        | record known => exact ⟨known _ (List.mem_map_of_mem inside), parts _ inside⟩
      · exact ⟨course.neat.trusted _ (List.mem_map_of_mem old), course.same pair old⟩
  | @«module» owner number slots placed =>
    simp only [Eval.field?, field?]
    cases bound : slots.lookup name with
    | none =>
      have absent : name ∉ slots.map (·.1) := by
        intro inside
        obtain ⟨field, mem', rfl⟩ := List.mem_map.mp inside
        simpa using List.lookup_eq_none_iff.mp bound field mem'
      rw [if_neg absent]
      exact .pure ⟨placement, none, rfl, rfl, course⟩
    | some slot =>
      have present : name ∈ slots.map (·.1) := by
        obtain ⟨before, after, rfl, -⟩ := List.lookup_eq_some_iff.mp bound
        simp
      rw [if_pos present]
      apply Agrees.map
      apply (agrees_force safe tidy simulates course placed bound).mono
      rintro value after value' store' ⟨later, forced⟩
      exact ⟨later, some (value, value'), rfl, rfl, forced⟩
  | _ => exact .pure ⟨placement, none, rfl, rfl, course⟩

/-- Several parts, one after the other. -/
theorem agrees_evaluateAll (items : List (Phrase × Expr)) (done : List ShapeLang.Value)
    (course : Course names base start first id places heap store placement pairs)
    (situated : Situated base first start id env ribs)
    (resolves : ∀ item ∈ items, Resolves names ribs item.1 item.2)
    (spare : start.SpareAt id (places ++ (items.map (·.2)).flatMap Expr.letSlots)) :
    Agrees (Eval.evaluateAll ev held id done (items.map (·.2))) heap
      (walkAll walk env (items.map (·.1))) store fun values after values' store' =>
        ∃ (later : Placement) (more : List (ShapeLang.Value × Value)),
          values = done.reverse ++ more.map (·.1) ∧ values' = more.map (·.2) ∧
          Course names base start first id
            (places ++ (items.map (·.2)).flatMap Expr.letSlots) after store' later
            (more ++ pairs) := by
  induction items generalizing heap store placement places pairs done with
  | nil => exact .pure ⟨placement, [], by simp, rfl, course.widen (by simp)⟩
  | cons item items ih =>
    rw [List.map_cons, List.flatMap_cons, ← List.append_assoc] at spare ⊢
    refine (agrees_part safe tidy simulates course situated (resolves item (by simp))
      spare.left).bind ?_
    rintro value after value' store' ⟨later, one⟩
    refine .right ((ih (value :: done) one (fun other mem => resolves other (by simp [mem]))
      spare).mono ?_)
    rintro values last values' store'' ⟨last', more, rfl, rfl, rest⟩
    refine ⟨last', (value, value') :: more, by simp, rfl, rest.mono ?_⟩
    intro pair mem
    simp only [List.cons_append, List.mem_cons, List.mem_append] at mem ⊢
    rcases mem with rfl | mem | mem
    · exact .inr (.inl rfl)
    · exact .inl mem
    · exact .inr (.inr mem)

/-- The fields of a record, one after the other. -/
theorem agrees_evaluateFields (fields : List (Ident × Phrase × Expr))
    (done : List (String × ShapeLang.Value))
    (course : Course names base start first id places heap store placement pairs)
    (situated : Situated base first start id env ribs)
    (resolves : ∀ field ∈ fields, Resolves names ribs field.2.1 field.2.2)
    (spare : start.SpareAt id (places ++ fields.flatMap (·.2.2.letSlots))) :
    Agrees (Eval.evaluateFields ev held id done
        (fields.map fun field => (field.1.name, field.2.2))) heap
      (walkFields walk env (fields.map fun field => (field.1, field.2.1))) store
      fun values after values' store' => ∃ (later : Placement)
        (more : List (String × ShapeLang.Value × Value)),
        values = done.reverse ++ more.map (fun field => (field.1, field.2.1)) ∧
        values' = more.map (fun field => (field.1, field.2.2)) ∧
        Course names base start first id (places ++ fields.flatMap (·.2.2.letSlots)) after store'
          later (more.map (·.2) ++ pairs) := by
  induction fields generalizing heap store placement places pairs done with
  | nil => exact .pure ⟨placement, [], by simp, rfl, course.widen (by simp)⟩
  | cons field fields ih =>
    rw [List.flatMap_cons, ← List.append_assoc] at spare ⊢
    refine (agrees_part safe tidy simulates course situated (resolves field (by simp))
      spare.left).bind ?_
    rintro value after value' store' ⟨later, one⟩
    refine .right ((ih ((field.1.name, value) :: done) one
      (fun other mem => resolves other (by simp [mem])) spare).mono ?_)
    rintro values last values' store'' ⟨last', more, rfl, rfl, rest⟩
    refine ⟨last', (field.1.name, value, value') :: more, by simp, rfl, rest.mono ?_⟩
    intro pair mem
    simp only [List.map_cons, List.cons_append, List.mem_cons, List.mem_append] at mem ⊢
    rcases mem with rfl | mem | mem
    · exact .inr (.inl rfl)
    · exact .inl mem
    · exact .inr (.inr mem)

/-- The body of a function or of a loop, in a new frame and a new scope for its parameters. -/
theorem agrees_body {params : List String} {args : List (ShapeLang.Value × Value)}
    {slotCount : Nat} {around : Env} {envFrame caller : FrameId} {callSite : Option Location}
    {ribs' : Ribs} {body : Phrase} {expr : Expr}
    (course : Course names base start first id places heap store placement pairs)
    (lies : Lies base placement heap around.scopes envFrame ribs')
    (room : Room slotCount (List.range params.length ++ expr.letSlots))
    (inner : Resolves names (Rib.ofParameters params :: ribs') body expr)
    (count : args.length = params.length) (given : ∀ arg ∈ args, arg ∈ pairs) :
    Agrees (ev held heap.frames.size expr)
      (heap.enter slotCount envFrame caller callSite around.depth (readies 0 (args.map (·.1))))
      (walk ⟨store.scopes.size :: around.scopes, around.depth⟩ body)
      (store.push (params.zip ((args.map (·.2)).map .done)) around)
      fun value after value' store' => ∃ later,
        Course names base start first id places after store' later ((value, value') :: pairs) := by
  have slotsOf : (Rib.ofParameters params).slots.map (·.2) = List.range params.length := by
    apply List.ext_getElem <;> simp [Rib.ofParameters]
  have opens : (Rib.ofParameters params).opensFrame = true := rfl
  have nonempty : ∀ content ∈ readies 0 (args.map (·.1)), content.2 ≠ .empty := readies_nonempty
  obtain ⟨mirrors, lies'⟩ := course.mirrors.openFrame lies slotCount caller callSite nonempty opens
    (slotsOf ▸ List.nodup_range)
    (.of_args count (by simpa using room.length_le) fun arg mem => course.same arg (given arg mem))
  have given' : ∀ value ∈ args.map (·.1), value ∈ pairs.map (·.1) := by
    intro value mem
    obtain ⟨arg, inside, rfl⟩ := List.mem_map.mp mem
    exact List.mem_map_of_mem (given arg inside)
  have neat : Neat base (heap.enter slotCount envFrame caller callSite around.depth
      (readies 0 (args.map (·.1)))) (pairs.map (·.1)) :=
    course.neat.enter_values caller callSite around.depth lies.since given'
  have entered : Course names base heap placement id [] _ _ _ [] :=
    ⟨mirrors, List.prefix_append _ _, .enter course.neat.orderly id slotCount envFrame caller
      callSite around.depth _ nonempty (.of_idle Eval.idle_setEach_readies), neat.mono (by simp),
      by simp⟩
  have room' : Room slotCount (List.range (args.map (·.1)).length ++ expr.letSlots) := by
    rwa [List.length_map, count]
  have situated : Situated base _ (heap.enter slotCount envFrame caller callSite around.depth
      (readies 0 (args.map (·.1)))) heap.frames.size
      ⟨store.scopes.size :: around.scopes, around.depth⟩ (Rib.ofParameters params :: ribs') :=
    ⟨lies', _, Heap.frame?_enter_self, rfl⟩
  refine (agrees_run safe tidy simulates mirrors (neat.mono (by simp)) situated inner
    ⟨_, Heap.frame?_enter_self, Eval.spare_setEach_readies room'⟩).mono ?_
  rintro value after value' store' ⟨later, one⟩
  exact ⟨later, (course.andThen (entered.elsewhere one (Nat.le_refl _))).widen (by simp)⟩

/-- The body of a loop, with a frame and a scope of its own for each item. -/
theorem agrees_evaluateEach {slotCount : Nat} {name : String} {body : Phrase} {expr : Expr}
    (items : List (ShapeLang.Value × Value)) (done : List ShapeLang.Value)
    (course : Course names base start first id places heap store placement pairs)
    (situated : Situated base first start id env ribs) (room : Room slotCount (0 :: expr.letSlots))
    (inner : Resolves names (Rib.ofParameters [name] :: ribs) body expr)
    (given : ∀ item ∈ items, item ∈ pairs) :
    Agrees (Eval.evaluateEach ev held id slotCount expr done (items.map (·.1))) heap
      (walkEach walk env name body (items.map (·.2))) store fun values after values' store' =>
        ∃ (later : Placement) (more : List (ShapeLang.Value × Value)),
          values = done.reverse ++ more.map (·.1) ∧ values' = more.map (·.2) ∧
          Course names base start first id places after store' later (more ++ pairs) := by
  induction items generalizing heap store placement pairs done with
  | nil => exact .pure ⟨placement, [], by simp, rfl, course⟩
  | cons item items ih =>
    obtain ⟨lies, frame, found, depth⟩ := situated.mono course.placed course.tidied.extension
    refine .left (.allocChild (fun other found' => ?_) fun missing => by simp [found] at missing)
    obtain rfl := Option.some.inj (found.symm.trans found')
    refine .left (.store_found (Heap.frame?_alloc_self heap slotCount (some id) (some id) none
      frame.depth) (by simpa [Heap.fresh] using room.inside 0 (by simp)) (.modifyGet ?_))
    rw [depth]
    have first : Agrees (ev (.frame heap.frames.size :: .values done :: held) heap.frames.size expr)
        (heap.enter slotCount id id none env.depth (readies 0 ([item].map (·.1))))
        (walk ⟨store.scopes.size :: env.scopes, env.depth⟩ body)
        (store.push ([name].zip (([item].map (·.2)).map .done)) env)
        fun value after value' store' => ∃ later,
          Course names base start first id places after store' later ((value, value') :: pairs) :=
      agrees_body safe tidy simulates course lies room inner rfl fun other mem => by
        obtain rfl := List.mem_singleton.mp mem
        exact given other (by simp)
    refine first.bind ?_
    rintro value after value' store' ⟨later, one⟩
    refine .right ((ih (value :: done) one fun other mem => ?_).mono ?_)
    · exact List.mem_cons_of_mem _ (given other (by simp [mem]))
    rintro values last values' store'' ⟨last', more, rfl, rfl, rest⟩
    refine ⟨last', (value, value') :: more, by simp, rfl, rest.mono ?_⟩
    intro pair mem
    simp only [List.cons_append, List.mem_cons, List.mem_append] at mem ⊢
    rcases mem with rfl | mem | mem
    · exact .inr (.inl rfl)
    · exact .inl mem
    · exact .inr (.inr mem)

/-- Calling a function from a frame. -/
theorem agrees_call {function : ShapeLang.Value} {function' : Value}
    {args : List (ShapeLang.Value × Value)} {caller : FrameId} {frame : Frame} {site : Location}
    (course : Course names base start first id places heap store placement pairs)
    (found : heap.frame? caller = some frame) (mem : (function, function') ∈ pairs)
    (given : ∀ arg ∈ args, arg ∈ pairs) :
    Agrees (Eval.call m ev held function (args.map (·.1)) caller site) heap
      (call m walk function' (args.map (·.2)) frame.depth) store
      fun value after value' store' => ∃ later,
        Course names base start first id places after store' later ((value, value') :: pairs) := by
  cases course.same _ mem with
  | @closure serial lambda envFrame params body scopes ribs' count lies room inner =>
    simp only [Eval.call, call, List.length_map, count]
    by_cases count' : args.length = params.length
    · simp only [count', ne_eq, not_true_eq_false, ↓reduceIte]
      by_cases deep : m.maxCallDepth < frame.depth + 1
      · rw [if_pos deep]
        refine .stop (.fails (.allocCall (fun other found' fits => ?_) (fun _ _ _ _ => ⟨_, rfl, rfl⟩)
          fun missing => by simp [found] at missing))
        obtain rfl := Option.some.inj (found.symm.trans found')
        omega
      · rw [if_neg deep]
        refine .left (.allocCall (fun other found' fits => ?_) (fun other _ found' less => ?_)
          fun missing => by simp [found] at missing)
        · obtain rfl := Option.some.inj (found.symm.trans found')
          refine .left (.storeAll (Heap.frame?_alloc_self heap lambda.slotCount (some envFrame)
            (some caller) (some site) (frame.depth + 1)) ?_ (.modifyGet ?_))
          · simpa [Heap.fresh, count'] using room.length_le
          · have around : Lies base placement heap (Env.mk scopes (frame.depth + 1)).scopes envFrame
                ribs' := lies
            exact agrees_body safe tidy simulates course around room inner count' given
        · obtain rfl := Option.some.inj (found.symm.trans found')
          omega
    · simp only [count', ne_eq, not_false_eq_true, ↓reduceIte]
      exact .stop (.raise _)
  | builtin function =>
    simp only [Eval.call, call, List.length_map]
    by_cases count' : args.length = function.arity
    · simp only [count', ne_eq, not_true_eq_false, ↓reduceIte]
      have outlined : function.apply m.arithmetic ((args.map (·.2)).map Value.outline) =
          function.apply m.arithmetic (args.map (·.1)) := by
        have alike : ShapeLang.Value.AllAlike Eq (SameModule placement) Eq
            (args.map fun arg => (arg.1, arg.2.outline)) := by
          intro pair inside
          obtain ⟨arg, argument, rfl⟩ := List.mem_map.mp inside
          exact (course.same arg (given arg argument)).alike
        simpa [Function.comp_def] using
          (function.apply_alike m.arithmetic _ alike (by simpa using count')
            fun _ pair mem => (alike pair mem).shown).symm
      rw [outlined]
      cases result : function.apply m.arithmetic (args.map (·.1)) with
      | ok value =>
        have plain := function.apply_plain _ _ value result
        exact .pure ⟨placement, course.push plain.holds (.of_plain plain)⟩
      | error failure =>
        cases failure with
        | mistake kind => exact .raise kind
        | reported kind => exact .raise kind
        | missing => exact (function.apply_ne_missing _ (by simpa using count') result).elim
    · simp only [count', ne_eq, not_false_eq_true, ↓reduceIte]
      exact .stop (.raise _)
  | _ => exact .raise _

end Parts

end ShapeLang.Lexical
