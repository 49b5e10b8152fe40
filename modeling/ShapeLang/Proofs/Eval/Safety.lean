import ShapeLang.Proofs.Builtin.Results
import ShapeLang.Proofs.Eval.Stage

/-! # Evaluation meets no defect

Code that fits its frame, in a trusted set of frames, is evaluated without a defect, and what was
trusted stays trusted. This holds for every amount of fuel and also when evaluation fails.
-/

namespace ShapeLang

namespace Eval

/-- An evaluator that meets no defect where frames are trusted. -/
def Safe (ev : Evaluator) : Prop :=
  ∀ start held id expr, World start [id] [] → start.Fits id expr →
    Ends (ev held id expr) start (fun value heap => Stage start [id] [] heap [value])
      (Broken start [id] [])

theorem exists_mem_of_lookup {α : Type} {fields : List (String × α)} {name : String}
    {found : α} (same : fields.lookup name = some found) : ∃ name', (name', found) ∈ fields := by
  obtain ⟨before, after, rfl, -⟩ := List.lookup_eq_some_iff.mp same
  exact ⟨name, by simp⟩

section Step

variable {m : Machine} {ev : Evaluator} {start heap : Heap} {owners : List FrameId}
  {entry values : List Value} {held : List Held} {id : FrameId}

theorem Broken.andThen {fault : Fault} {after : Heap} {owners' : List FrameId}
    {entry' : List Value} (stage : Stage start owners entry heap values)
    (enter : Stage.Secures start owners heap values fun trust =>
      (∀ id ∈ owners', trust id) ∧ ∀ value ∈ entry', heap.Trusts trust value)
    (broken : Broken heap owners' entry' fault after) : Broken start owners entry fault after :=
  ⟨broken.1, (stage.andThen broken.2 enter).subset (by simp)⟩

/-- Ends of a computation of which all that counts is that it stays in a trusted set. -/
abbrev Stays {α : Type} (action : Eval α) (heap start : Heap) (owners : List FrameId)
    (entry : List Value) (after : α → List Value) : Prop :=
  Ends action heap (fun a later => Stage start owners entry later (after a))
    (Broken start owners entry)

variable (safe : Safe ev) (world : World start owners entry)

include safe world in
/-- A part that is evaluated in a trusted frame. -/
theorem stays_part (stage : Stage start owners entry heap values) {expr : Expr}
    (member : Stage.Secures start owners heap values (· id)) (fits : heap.Fits id expr) :
    Stays (ev held id expr) heap start owners entry fun value => value :: values := by
  obtain ⟨trust, sound, inside, fresh, trusted⟩ := stage.witness world
  have here : World heap [id] [] :=
    ⟨trust, sound, by simpa using member trust sound inside fresh trusted, by simp⟩
  have enter : Stage.Secures start owners heap values fun trust =>
      (∀ other ∈ [id], trust other) ∧ ∀ value ∈ ([] : List Value), heap.Trusts trust value :=
    fun trust sound inside fresh trusted => by simpa using member trust sound inside fresh trusted
  exact (safe heap held id expr here fits).mono (fun _ _ second => stage.andThen second enter)
    fun _ _ broken => broken.andThen stage enter

include safe in
/-- Forcing a slot that something was put into. -/
private theorem stays_force_alone {slot : Nat} {context : Context} (world : World heap [id] [])
    (filled : heap.Filled id slot) :
    Stays (force ev held id slot context) heap heap [id] [] fun value => [value] := by
  obtain ⟨trust, sound, inside, -⟩ := world
  have trusted : trust id := inside id (by simp)
  obtain ⟨frame, content, found, holds, nonempty⟩ := filled
  have only {other : Frame} (found' : heap.frame? id = some other) : other = frame :=
    Option.some.inj (found'.symm.trans found)
  have stage := Stage.refl heap [id] []
  refine .force (fun other value found' ready => ?_) (fun other definition found' pending => ?_)
    (fun _ _ _ _ => stage.broken _) (fun other found' empty => ?_) (fun other found' none => ?_)
    (fun missing => ?_)
  · obtain rfl := only found'
    exact stage.push fun trust sound inside _ _ =>
      sound.fitting id _ slot _ (inside id (by simp)) found ready
  · obtain rfl := only found'
    have fits : heap.Fits id definition := sound.fitting id _ slot _ trusted found pending
    have busy := Heap.Grows.put heap id slot (show Slot.busy ≠ .empty by simp)
    have begun : Stage heap [id] [] (heap.put id slot .busy) [] :=
      stage.putEach id [(slot, .busy)] (by simp) (by simp [Heap.Fitting])
    have world' : World (heap.put id slot .busy) [id] [] := by
      obtain ⟨trust, sound, inside, -, -⟩ := begun.witness ⟨trust, sound, inside, by simp⟩
      exact ⟨trust, sound, inside, by simp⟩
    have enter : Stage.Secures heap [id] (heap.put id slot .busy) [] fun trust =>
        (∀ other ∈ [id], trust other) ∧
          ∀ value ∈ ([] : List Value), (heap.put id slot .busy).Trusts trust value :=
      fun trust _ inside _ _ => ⟨inside, by simp⟩
    have old := Heap.lt_size_of_frame? found
    refine (safe _ _ id definition world' (fits.mono busy)).mono (fun value after second => ?_)
      fun fault after broken => ?_
    · have whole := begun.andThen second enter
      have grows := Heap.Grows.put after id slot (show Slot.ready value ≠ .empty by simp)
      -- The frame is an old one: it is trusted afterwards only if it was trusted before, and then
      -- so is the value.
      refine ⟨whole.grows.trans grows, fun trust sound => ?_⟩
      obtain ⟨wider, grown, new, sound', inside⟩ := whole.sound trust sound
      refine ⟨wider, grown, new, sound'.put (by simp) fun known => ?_, fun here entered => ?_⟩
      · have known' : trust id := (new id known).resolve_right (Nat.not_le.mpr old)
        exact ((inside (by simpa using known') (by simp)).2 value (by simp)).mono grows
          fun _ known => known
      · obtain ⟨fresh, trusted⟩ := inside here entered
        refine ⟨fun other low high => fresh other low ?_, fun other mem => ?_⟩
        · simpa [Heap.put, Heap.size_mapSlots] using high
        · exact (trusted other (by simpa using mem)).mono grows fun _ known => known
    · obtain ⟨harmless, whole⟩ := broken.andThen begun enter
      refine ⟨harmless, whole.putEach id [(slot, .pending definition)] (by simp) ?_⟩
      intro trust content mem
      obtain rfl := List.mem_singleton.mp mem
      exact (fits.mono whole.grows).mono (.put after id slot (by simp))
  · obtain rfl := only found'
    rw [holds] at empty
    exact (nonempty (Option.some.inj empty)).elim
  · obtain rfl := only found'
    rw [holds] at none
    cases none
  · rw [found] at missing
    cases missing

include safe world

/-- Forcing a slot of a trusted frame. -/
theorem stays_force (stage : Stage start owners entry heap values) {slot : Nat}
    {context : Context} (member : Stage.Secures start owners heap values (· id))
    (filled : heap.Filled id slot) :
    Stays (force ev held id slot context) heap start owners entry fun value => value :: values := by
  obtain ⟨trust, sound, inside, fresh, trusted⟩ := stage.witness world
  have here : World heap [id] [] :=
    ⟨trust, sound, by simpa using member trust sound inside fresh trusted, by simp⟩
  have enter : Stage.Secures start owners heap values fun trust =>
      (∀ other ∈ [id], trust other) ∧ ∀ value ∈ ([] : List Value), heap.Trusts trust value :=
    fun trust sound inside fresh trusted => by simpa using member trust sound inside fresh trusted
  exact (stays_force_alone safe here filled).mono (fun _ _ second => stage.andThen second enter)
    fun _ _ broken => broken.andThen stage enter

/-- Reading a field of a trusted value. -/
theorem stays_field? {value : Value} {name : String} {context : Context}
    (stage : Stage start owners entry heap values) (mem : value ∈ values) :
    Stays (field? ev held value name context) heap start owners entry
      fun found => found.toList ++ values := by
  cases value with
  | record fields frames =>
    refine .pure (stage.derive fun trust _ _ _ trusted other mem' => ?_)
    rcases List.mem_append.mp mem' with mem' | mem'
    · cases trusted _ mem with
      | record parts =>
        obtain ⟨name', inside⟩ := exists_mem_of_lookup (Option.mem_toList.mp mem')
        exact parts _ inside
    · exact trusted other mem'
  | «module» frame fields =>
    simp only [field?]
    cases found : fields.lookup name with
    | none => exact .pure (stage.subset fun _ mem => by simpa using mem)
    | some slot =>
      obtain ⟨name', inside⟩ := exists_mem_of_lookup found
      have member : Stage.Secures start owners heap values (· frame) :=
        fun trust _ _ _ trusted => by
          cases trusted _ mem with
          | «module» known => exact known.1
      have filled : heap.Filled frame slot := stage.secured world fun trust _ _ _ trusted => by
        cases trusted _ mem with
        | «module» known =>
          obtain ⟨owner, reached, filled⟩ := known.2 _ inside
          exact Option.some.inj reached ▸ filled
      exact .map (stays_force safe world stage member filled)
  | _ => exact .pure (stage.subset fun _ mem => by simpa using mem)

/-- Evaluating several parts in a trusted frame. -/
theorem stays_evaluateAll (member : id ∈ owners) (exprs : List Expr) (done : List Value)
    (stage : Stage start owners entry heap values) (kept : ∀ value ∈ done, value ∈ values)
    (fits : ∀ expr ∈ exprs, start.Fits id expr) :
    Stays (evaluateAll ev held id done exprs) heap start owners entry
      fun results => results ++ values := by
  induction exprs generalizing heap values done with
  | nil =>
    refine .pure (stage.subset fun value mem => ?_)
    rcases List.mem_append.mp mem with mem | mem
    · exact kept value (List.mem_reverse.mp mem)
    · exact mem
  | cons expr exprs ih =>
    have part : Stays (ev (.values done :: held) id expr) heap start owners entry
        fun value => value :: values := stays_part safe world stage
      (fun _ _ inside _ _ => inside id member) ((fits expr (by simp)).mono stage.grows)
    refine part.bind fun value later stage' => ?_
    refine (ih (value :: done) stage' (fun other mem => ?_) fun other mem =>
      fits other (by simp [mem])).mono (fun results after last => ?_) fun _ _ broken => broken
    · rcases List.mem_cons.mp mem with rfl | mem
      · simp
      · simp [kept other mem]
    · refine last.subset fun other mem => ?_
      rcases List.mem_append.mp mem with mem | mem
      · exact List.mem_append_left _ mem
      · exact List.mem_append_right _ (List.mem_cons_of_mem _ mem)

theorem stays_evaluateFields (member : id ∈ owners) (fields : List (String × Expr))
    (done : List (String × Value)) (stage : Stage start owners entry heap values)
    (kept : ∀ field ∈ done, field.2 ∈ values)
    (fits : ∀ field ∈ fields, start.Fits id field.2) :
    Stays (evaluateFields ev held id done fields) heap start owners entry
      fun results => results.map (·.2) ++ values := by
  induction fields generalizing heap values done with
  | nil =>
    refine .pure (stage.subset fun value mem => ?_)
    rcases List.mem_append.mp mem with mem | mem
    · obtain ⟨field, inside, rfl⟩ := List.mem_map.mp mem
      exact kept field (List.mem_reverse.mp inside)
    · exact mem
  | cons field fields ih =>
    obtain ⟨name, expr⟩ := field
    have part : Stays (ev (.values (done.map (·.2)) :: held) id expr) heap start owners entry
        fun value => value :: values := stays_part safe world stage
      (fun _ _ inside _ _ => inside id member) ((fits _ List.mem_cons_self).mono stage.grows)
    refine part.bind fun value later stage' => ?_
    refine (ih ((name, value) :: done) stage' (fun other mem => ?_) fun other mem =>
      fits other (by simp [mem])).mono (fun results after last => ?_) fun _ _ broken => broken
    · rcases List.mem_cons.mp mem with rfl | mem
      · simp
      · simp [kept other mem]
    · refine last.subset fun other mem => ?_
      rcases List.mem_append.mp mem with mem | mem
      · exact List.mem_append_left _ mem
      · exact List.mem_append_right _ (List.mem_cons_of_mem _ mem)

/-- Evaluating the body of a loop, with one frame for each item. -/
theorem stays_evaluateEach {slotCount : Nat} {body : Expr} (member : id ∈ owners)
    (room : Room slotCount (0 :: body.letSlots))
    (sees : body.Scoped ((start.visible id).enter [0]))
    (known : ∃ frame, start.frame? id = some frame)
    (items done : List Value) (stage : Stage start owners entry heap values)
    (given : ∀ item ∈ items, item ∈ values) (kept : ∀ value ∈ done, value ∈ values) :
    Stays (evaluateEach ev held id slotCount body done items) heap start owners entry
      fun results => results ++ values := by
  induction items generalizing heap values done with
  | nil =>
    refine .pure (stage.subset fun value mem => ?_)
    rcases List.mem_append.mp mem with mem | mem
    · exact kept value (List.mem_reverse.mp mem)
    · exact mem
  | cons item items ih =>
    obtain ⟨frame, found⟩ := known
    obtain ⟨outer, found', -⟩ := stage.grows.extension.kept id frame found
    refine Ends.through (fun round after => round = heap.frames.size ∧
      (heap.alloc slotCount (some id) (some id) none outer.depth).2 = after)
      (.allocChild (fun other found'' => ?_) fun missing => by simp [found'] at missing) ?_
    · obtain rfl := Option.some.inj (found'.symm.trans found'')
      exact ⟨rfl, rfl⟩
    rintro _ _ ⟨rfl, rfl⟩
    have allocated := Heap.frame?_alloc_self heap slotCount (some id) (some id) none outer.depth
    refine Ends.through (fun _ after =>
      heap.enter slotCount id id none outer.depth [(0, .ready item)] = after)
      (.store_found allocated
      (by simpa [Heap.fresh] using room.inside 0 (by simp)) rfl) ?_
    rintro _ _ rfl
    have nonempty : ∀ content ∈ [(0, Slot.ready item)], content.2 ≠ .empty := by simp
    have grows := Heap.Grows.enter heap slotCount id id none outer.depth nonempty
    have entered := stage.enter slotCount id id none outer.depth [(0, .ready item)] nonempty
      (fun _ _ inside _ _ => inside id member) fun trust _ _ _ trusted content mem => by
        obtain rfl := List.mem_singleton.mp mem
        exact (trusted item (given item (by simp))).mono grows fun _ => .inl
    have fits : (heap.enter slotCount id id none outer.depth [(0, .ready item)]).Fits
        heap.frames.size body :=
      Heap.fits_enter [0]
        (sees.mono (Visibility.enter_mono stage.grows.visible)) (by simp) (by simp)
        (by simpa using room.inside)
    refine (stays_part safe world entered (fun _ _ _ fresh _ => fresh _
      stage.grows.extension.size_le
      (by rw [Heap.size_enter]; exact Nat.lt_succ_self _)) fits).bind fun value later stage' => ?_
    refine (ih (value :: done) stage' (fun other mem => ?_) fun other mem => ?_).mono
      (fun results after last => ?_) fun _ _ broken => broken
    · simp [given other (by simp [mem])]
    · rcases List.mem_cons.mp mem with rfl | mem
      · simp
      · simp [kept other mem]
    · refine last.subset fun other mem => ?_
      rcases List.mem_append.mp mem with mem | mem
      · exact List.mem_append_left _ mem
      · exact List.mem_append_right _ (List.mem_cons_of_mem _ mem)

/-- Calling a trusted function with trusted arguments. The caller only counts the calls. -/
theorem stays_call {function : Value} {args : List Value} {caller : FrameId} {site : Location}
    (stage : Stage start owners entry heap values) (mem : function ∈ values)
    (given : ∀ arg ∈ args, arg ∈ values) (known : ∃ frame, heap.frame? caller = some frame) :
    Stays (call m ev held function args caller site) heap start owners entry
      fun value => value :: values := by
  cases function with
  | closure serial lambda env =>
    simp only [call]
    by_cases count : args.length = lambda.paramCount
    · simp only [count, ne_eq, not_true_eq_false, ↓reduceIte]
      obtain ⟨frame, found⟩ := known
      have closure {trust : Trust} (trusted : ∀ value ∈ values, heap.Trusts trust value) :
          trust env ∧ Expr.Scoped (heap.visible env)
            (.lambda lambda.location lambda.paramCount lambda.slotCount lambda.body) := by
        cases trusted _ mem with
        | closure known => exact known
      obtain ⟨room, sees⟩ : Room lambda.slotCount
          (List.range lambda.paramCount ++ lambda.body.letSlots) ∧
          lambda.body.Scoped ((heap.visible env).enter (List.range lambda.paramCount)) :=
        stage.secured world fun _ _ _ _ trusted => by
          cases (closure trusted).2 with
          | lambda room inner => exact ⟨room, inner⟩
      refine Ends.through (fun entered after => entered = heap.frames.size ∧
        (heap.alloc lambda.slotCount (some env) (some caller) (some site) (frame.depth + 1)).2 =
          after)
        (.allocCall (fun other found' _ => ?_) (fun _ _ _ _ => stage.broken _)
        fun missing => by simp [found] at missing) ?_
      · obtain rfl := Option.some.inj (found.symm.trans found')
        exact ⟨rfl, rfl⟩
      rintro _ _ ⟨rfl, rfl⟩
      have allocated := Heap.frame?_alloc_self heap lambda.slotCount (some env) (some caller)
        (some site) (frame.depth + 1)
      refine Ends.through (fun _ after => heap.enter lambda.slotCount env caller
        (some site) (frame.depth + 1) (readies 0 args) = after) (.storeAll allocated ?_ rfl) ?_
      · simpa [Heap.fresh, count] using room.length_le
      rintro _ _ rfl
      have nonempty : ∀ content ∈ readies 0 args, content.2 ≠ .empty := readies_nonempty
      have grows := Heap.Grows.enter heap lambda.slotCount env caller (some site) (frame.depth + 1)
        nonempty
      have entered := stage.enter lambda.slotCount env caller (some site) (frame.depth + 1)
        (readies 0 args) nonempty (fun _ _ _ _ trusted => (closure trusted).1)
        fun trust _ _ _ trusted content mem => by
          obtain ⟨-, -, arg, mem, same⟩ := mem_readies mem
          rw [same]
          exact (trusted arg (given arg mem)).mono grows fun _ => .inl
      refine stays_part safe world entered (fun _ _ _ fresh _ => fresh _
        stage.grows.extension.size_le (by rw [Heap.size_enter]; exact Nat.lt_succ_self _)) ?_
      refine Heap.fits_enter (List.range lambda.paramCount) sees nonempty
        (fun slot mem => ?_) room.inside
      have inRange : slot ∈ (readies 0 args).map (·.1) := by
        rw [map_readies, count]
        simpa using mem
      exact List.mem_map.mp inRange
    · simp only [count, ne_eq, not_false_eq_true, ↓reduceIte]
      exact Ends.stop (.raise fun _ => stage.broken _)
  | builtin builtin =>
    simp only [call]
    by_cases count : args.length = builtin.arity
    · simp only [count, ne_eq, not_true_eq_false, ↓reduceIte]
      cases result : builtin.apply m.arithmetic args with
      | ok value => exact .pure (stage.push_plain (builtin.apply_plain _ args value result))
      | error failure =>
        cases failure with
        | mistake kind => exact .raise fun _ => stage.broken _
        | reported kind => exact .raise fun _ => stage.broken _
        | missing => exact (builtin.apply_ne_missing _ count result).elim
    · simp only [count, ne_eq, not_false_eq_true, ↓reduceIte]
      exact Ends.stop (.raise fun _ => stage.broken _)
  | _ => exact .raise fun _ => stage.broken _

end Step

section Safe

variable {m : Machine} {ev : Evaluator} {start : Heap} {held : List Held} {id : FrameId}

private theorem fits_part {expr part : Expr} (fits : start.Fits id expr)
    (sees : part.Scoped (start.visible id))
    (included : ∀ slot ∈ part.letSlots, slot ∈ expr.letSlots) : start.Fits id part := by
  obtain ⟨frame, found, inside⟩ := fits.room
  exact ⟨sees, frame, found, fun slot mem => inside slot (included slot mem)⟩

private theorem stays_blaming {α : Type} {heap : Heap} {values : List Value} {context : Context}
    {result : Except ErrorKind α} (stage : Stage start [id] [] heap values) :
    Stays (blaming held context result) heap start [id] [] fun _ => values :=
  .blaming (fun _ _ => stage) fun _ _ _ => stage.broken _

/-- Blaming an operator that makes plain values. -/
private theorem stays_plain {heap : Heap} {values : List Value} {context : Context}
    {result : Except ErrorKind Value} (stage : Stage start [id] [] heap values)
    (plain : Value.PlainResult result) :
    Stays (blaming held context result) heap start [id] [] fun value => [value] :=
  .blaming (fun value made => (stage.push_plain (plain value made)).subset (by simp))
    fun _ _ _ => stage.broken _

private theorem only {heap : Heap} {value : Value} {values : List Value}
    (stage : Stage start [id] [] heap (value :: values)) : Stage start [id] [] heap [value] :=
  stage.subset (by simp)

theorem trusts_items {heap : Heap} {trust : Trust} {value : Value} {items : List Value}
    (same : toList value = .ok items) (trusted : heap.Trusts trust value) :
    ∀ item ∈ items, heap.Trusts trust item := by
  cases value with
  | list items' frames =>
    obtain rfl := Except.ok.inj same
    cases trusted with
    | list parts => exact parts
  | _ => cases same

theorem step_safe (safe : Safe ev) : Safe (step m ev) := by
  intro start held id expr world fits
  have stage := Stage.refl start [id] []
  have member {heap : Heap} {values : List Value} :
      Stage.Secures start [id] heap values (· id) := fun _ _ inside _ _ => inside id (by simp)
  -- A part of the expression, evaluated in the same frame later on.
  have part {part : Expr} {heap : Heap} {values : List Value} {held : List Held}
      (stage : Stage start [id] [] heap values) (sees : part.Scoped (start.visible id))
      (included : ∀ slot ∈ part.letSlots, slot ∈ expr.letSlots) :
      Stays (ev held id part) heap start [id] [] fun value => value :: values :=
    stays_part safe world stage member ((fits_part fits sees included).mono stage.grows)
  have fitsAll {parts : List Expr} (sees : ∀ part ∈ parts, part.Scoped (start.visible id))
      (included : ∀ part ∈ parts, ∀ slot ∈ part.letSlots, slot ∈ expr.letSlots) :
      ∀ part ∈ parts, start.Fits id part :=
    fun part mem => fits_part fits (sees part mem) (included part mem)
  cases fits.sees with
  | constant => exact .pure (stage.push_plain (Constant.toValue_plain _))
  | @slot _ _ depth slot visible =>
    obtain ⟨owner, reached, filled⟩ := visible
    refine Ends.through (fun found after => found = owner ∧ start = after)
      (.ancestor (fun other reached' => ⟨Option.some.inj (reached'.symm.trans reached), rfl⟩)
      fun missing => by simp [reached] at missing) ?_
    rintro _ _ ⟨rfl, rfl⟩
    exact stays_force safe world stage
      (fun _ sound inside _ _ => sound.ancestor (inside id (by simp)) reached) filled
  | @call _ site function args head rest =>
    refine (part stage head fun slot mem => by simp [mem]).bind fun callee heap stage => ?_
    refine (stays_evaluateAll safe world (by simp) args [] stage (by simp) (fitsAll rest
      fun arg mem slot inside => by
        rw [Expr.letSlots_call]
        exact List.mem_append_right _ (List.mem_flatMap.mpr ⟨arg, mem, inside⟩))).bind ?_
    intro results heap stage
    have known : ∃ frame, heap.frame? id = some frame := by
      obtain ⟨frame, found, -⟩ := fits.room
      exact stage.grows.extension.frame? found
    have called : Stays (call m ev held callee results id site) heap start [id] []
        fun value => value :: (results ++ [callee]) := stays_call safe world stage (by simp)
      (fun arg mem => by simp [mem]) known
    cases callee with
    | closure => exact called.mono (fun _ _ stage => only stage) fun _ _ broken => broken
    | builtin => exact called.mono (fun _ _ stage => only stage) fun _ _ broken => broken
    | _ => exact .raise fun _ => stage.broken _
  | @list _ _ items parts =>
    refine .map ((stays_evaluateAll safe world (by simp) items [] stage (by simp) (fitsAll parts
      fun item mem slot inside => by
        rw [Expr.letSlots_list]
        exact List.mem_flatMap.mpr ⟨item, mem, inside⟩)).mono (fun results heap stage => ?_)
      fun _ _ broken => broken)
    exact only (stage.push fun _ _ _ _ trusted =>
      .list fun item mem => trusted item (List.mem_append_left _ mem))
  | @record _ _ fields parts =>
    refine .map ((stays_evaluateFields safe world (by simp) fields [] stage (by simp)
      fun field mem => fits_part fits (parts field mem) fun slot inside => by
        rw [Expr.letSlots_record]
        exact List.mem_flatMap.mpr ⟨field, mem, inside⟩).mono (fun results heap stage => ?_)
      fun _ _ broken => broken)
    exact only (stage.push fun _ _ _ _ trusted => .record fun field mem =>
      trusted field.2 (List.mem_append_left _ (List.mem_map_of_mem mem)))
  | @«module» _ _ slotCount fields definitions room named parts =>
    obtain ⟨frame, found, -⟩ := fits.room
    refine Ends.through (fun inner after => inner = start.frames.size ∧
      (start.alloc slotCount (some id) (some id) none frame.depth).2 = after)
      (.allocChild (fun other found' => ?_) fun missing => by simp [found] at missing) ?_
    · obtain rfl := Option.some.inj (found.symm.trans found')
      exact ⟨rfl, rfl⟩
    rintro _ _ ⟨rfl, rfl⟩
    have allocated := Heap.frame?_alloc_self start slotCount (some id) (some id) none frame.depth
    have roomy (definition : Nat × Expr) (mem : definition ∈ definitions) :
        definition.1 < slotCount :=
      room.inside _ (List.mem_append_left _ (List.mem_map_of_mem mem))
    refine Ends.through (fun _ after =>
      start.enter slotCount id id none frame.depth (pendings definitions) = after)
      (.storePending allocated
      (fun definition mem => by simpa [Heap.fresh] using roomy definition mem) rfl) ?_
    rintro _ _ rfl
    have stored (slot : Nat) (mem : slot ∈ definitions.map (·.1)) :
        ∃ content ∈ pendings definitions, content.1 = slot := by
      obtain ⟨definition, inside, rfl⟩ := List.mem_map.mp mem
      exact ⟨_, List.mem_map_of_mem inside, rfl⟩
    have entered := stage.enter slotCount id id none frame.depth (pendings definitions)
      pendings_nonempty member fun _ _ _ _ _ content mem => by
        obtain ⟨definition, inside, rfl⟩ := List.mem_map.mp mem
        refine Heap.fits_enter _ (parts definition inside) pendings_nonempty stored
          fun slot mem => ?_
        refine room.inside slot ?_
        rcases List.mem_append.mp mem with mem | mem
        · exact List.mem_append_left _ mem
        · exact List.mem_append_right _ (List.mem_flatMap.mpr ⟨definition, inside, mem⟩)
    refine .pure (entered.push fun _ _ _ fresh _ => .module ⟨fresh _ (Nat.le_refl _)
      (by rw [Heap.size_enter]; exact Nat.lt_succ_self _), fun field mem => ⟨_, rfl, ?_⟩⟩)
    obtain ⟨content, mem', same⟩ := stored field.2 (named field mem)
    rw [← same]
    refine Heap.filled_putEach allocated pendings_nonempty mem' ?_
    obtain ⟨definition, inside, rfl⟩ := List.mem_map.mp mem'
    simpa [Heap.fresh] using roomy definition inside
  | @letIn _ _ bindings body parts rest =>
    obtain ⟨frame, found, inside⟩ := fits.room
    have roomy (binding : Nat × Expr) (mem : binding ∈ bindings) :
        binding.1 < frame.slots.length := by
      refine inside binding.1 ?_
      rw [Expr.letSlots_letIn, List.append_assoc]
      exact List.mem_append_left _ (List.mem_map_of_mem mem)
    refine Ends.through (fun _ after =>
      start.putEach id (pendings bindings) = after) (.storePending found roomy rfl) ?_
    rintro _ _ rfl
    have nonempty : ∀ content ∈ pendings bindings, content.2 ≠ .empty := pendings_nonempty
    have grows := Heap.Grows.putEach start id nonempty
    have extended (depth slot : Nat)
        (seen : (start.visible id).extend (bindings.map (·.1)) depth slot) :
        (start.putEach id (pendings bindings)).visible id depth slot := by
      rcases seen with ⟨rfl, mem⟩ | seen
      · obtain ⟨binding, bound, rfl⟩ := List.mem_map.mp mem
        exact ⟨id, rfl, Heap.filled_putEach found pendings_nonempty
          (List.mem_map_of_mem bound) (roomy binding bound)⟩
      · exact grows.visible depth slot seen
    have fitsLater {part : Expr}
        (sees : part.Scoped ((start.visible id).extend (bindings.map (·.1))))
        (included : ∀ slot ∈ part.letSlots, slot ∈ (Expr.letIn ‹_› bindings body).letSlots) :
        (start.putEach id (pendings bindings)).Fits id part :=
      ⟨sees.mono extended, _, Heap.frame?_putEach_self found, fun slot mem => by
        simpa using inside slot (included slot mem)⟩
    have stored := stage.putEach id (pendings bindings) nonempty
      fun _ content mem => by
        obtain ⟨binding, bound, rfl⟩ := List.mem_map.mp mem
        refine fitsLater (parts binding bound) fun slot inner => ?_
        rw [Expr.letSlots_letIn]
        exact List.mem_append_left _
          (List.mem_append_right _ (List.mem_flatMap.mpr ⟨binding, bound, inner⟩))
    exact stays_part safe world stored member (fitsLater rest fun slot mem => by
      rw [Expr.letSlots_letIn]
      exact List.mem_append_right _ mem)
  | lambda room inner =>
    exact .close ((stage.push fun _ _ inside _ _ =>
      .closure ⟨inside id (by simp), .lambda room inner⟩).close _)
  | @unary _ _ op _ operand =>
    refine (part stage operand fun slot mem => by simpa using mem).bind fun value heap stage => ?_
    refine stays_plain stage fun result made => ?_
    cases op with
    | negate => exact Value.mapNumbers_plain _ _ result made
    | not =>
      cases value with
      | bool b => exact Except.ok.inj made ▸ .bool _
      | _ => cases made
  | @binary _ location op left right first second =>
    have leftPart {heap : Heap} (stage : Stage start [id] [] heap []) :
        Stays (ev held id left) heap start [id] [] fun value => [value] :=
      part stage first fun slot mem => by simp [mem]
    have rightPart {heap : Heap} {values : List Value} {held : List Held}
        (stage : Stage start [id] [] heap values) :
        Stays (ev held id right) heap start [id] [] fun value => value :: values :=
      part stage second fun slot mem => by simp [mem]
    by_cases strict : op ≠ .and ∧ op ≠ .or
    · rw [step_binary strict]
      refine (leftPart stage).bind fun a heap stage => (rightPart stage).bind fun b heap stage => ?_
      unfold combine
      cases compare? op with
      | some holds =>
        exact (stays_blaming stage).bind fun x _ stage => (stays_blaming stage).bind
          fun y _ stage => .pure (only (stage.push_plain (.bool (holds x y))))
      | none => exact stays_plain stage (operate_plain _ _ _ _)
    -- The second operand of `&&` and `||` is evaluated in one of the two cases.
    have decided {heap : Heap} {values : List Value} (context : Value → Context)
        (stage : Stage start [id] [] heap values) :
        Stays (do
          let b ← ev held id right
          Value.bool <$> blaming (.value b :: held) (context b) (toBool b)) heap start [id] []
          fun value => [value] := by
      refine (rightPart stage).bind fun b heap stage => .map ?_
      exact (stays_blaming stage).mono (fun truth _ stage =>
        only (stage.push_plain (.bool truth))) fun _ _ broken => broken
    cases op with
    | and =>
      refine (leftPart stage).bind fun a heap stage => (stays_blaming stage).bind
        fun truth heap stage => ?_
      cases truth with
      | false => exact .pure (only (stage.push_plain (.bool false)))
      | true => exact decided (fun _ => _) stage
    | or =>
      refine (leftPart stage).bind fun a heap stage => (stays_blaming stage).bind
        fun truth heap stage => ?_
      cases truth with
      | false => exact decided (fun _ => _) stage
      | true => exact .pure (only (stage.push_plain (.bool true)))
    | _ => simp at strict
  | @conditional _ _ _ whenTrue whenFalse first second third =>
    refine (part stage first fun slot mem => by simp [mem]).bind fun value heap stage =>
      (stays_blaming stage).bind fun truth heap stage => ?_
    cases truth with
    | false =>
      have chosen : Stays (ev held id whenFalse) heap start [id] [] fun result => [result, value] :=
        part stage third fun slot mem => by simp [mem]
      exact Ends.mono chosen (fun _ _ stage => only stage) fun _ _ broken => broken
    | true =>
      have chosen : Stays (ev held id whenTrue) heap start [id] [] fun result => [result, value] :=
        part stage second fun slot mem => by simp [mem]
      exact Ends.mono chosen (fun _ _ stage => only stage) fun _ _ broken => broken
  | @dot _ _ _ name base =>
    refine (part stage base fun slot mem => by simpa using mem).bind fun value heap stage =>
      (stays_field? safe world stage (by simp)).bind fun found heap stage => ?_
    cases found with
    | some found => exact .pure (only stage)
    | none =>
      dsimp only
      cases value.numbers?.bind fun xs => (componentIndex? name).bind (xs[·]?) with
      | some x => exact .pure ((stage.push_plain (.num x)).subset (by simp))
      | none => cases value <;> exact .raise fun _ => stage.broken _
  | index first second =>
    refine (part stage first fun slot mem => by simp [mem]).bind fun value heap stage => ?_
    refine Ends.through (fun items after => heap = after ∧
      toList value = .ok items)
      (.blaming (fun _ same => ⟨rfl, same⟩) fun _ _ _ => stage.broken _) ?_
    rintro items _ ⟨rfl, same⟩
    refine (part stage second fun slot mem => by simp [mem]).bind fun place heap stage =>
      (stays_blaming stage).bind fun x heap stage => ?_
    cases found : (position? x items.length).bind (items[·]?) with
    | none => exact .raise fun _ => stage.broken _
    | some item =>
      refine .pure (only (stage.push fun _ _ _ _ trusted => ?_))
      obtain ⟨i, -, found⟩ := Option.bind_eq_some_iff.mp found
      exact trusts_items same (trusted value (by simp)) item (List.mem_of_getElem? found)
  | @forEach _ _ slotCount list body first room inner =>
    refine (part stage first fun slot mem => by simpa using mem).bind fun value heap stage => ?_
    refine Ends.through (fun items after => heap = after ∧
      toList value = .ok items)
      (.blaming (fun _ same => ⟨rfl, same⟩) fun _ _ _ => stage.broken _) ?_
    rintro items _ ⟨rfl, same⟩
    obtain ⟨frame, found, -⟩ := fits.room
    have listed : Stage start [id] [] heap (items ++ [value]) :=
      stage.derive fun _ _ _ _ trusted item mem => by
        rcases List.mem_append.mp mem with mem | mem
        · exact trusts_items same (trusted value (by simp)) item mem
        · exact trusted item mem
    refine .map ((stays_evaluateEach safe world (by simp) room inner ⟨frame, found⟩ items [] listed
      (fun item mem => by simp [mem]) (by simp)).mono (fun results heap stage => ?_)
      fun _ _ broken => broken)
    exact only (stage.push fun _ _ _ _ trusted =>
      .list fun item mem => trusted item (by simp [mem]))

/-- Evaluation meets no defect, with any amount of fuel. -/
theorem upTo_safe (m : Machine) (fuel : Nat) : Safe (upTo m fuel) := by
  induction fuel with
  | zero => exact fun start _ id _ _ _ => Ends.throw ⟨.outOfFuel, .refl start [id] []⟩
  | succ fuel ih => exact step_safe ih

end Safe

end Eval

end ShapeLang
