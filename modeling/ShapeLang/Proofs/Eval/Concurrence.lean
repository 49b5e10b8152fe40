import ShapeLang.Proofs.Eval.Operations

/-! # Evaluators that concur

Two evaluators can end in the same way although one of them does more: it watches what is under way,
or works out the places of an error by itself. That they concur has to be shown where the two differ
only. Everywhere else it follows from what evaluation keeps up: a discipline says what holds of the
frames at all times, how frames can change, and what is under way in a frame.
-/

namespace ShapeLang

namespace Eval

/-- What evaluation keeps up. -/
structure Discipline (m : Machine) where
  sound : Heap → Prop
  /-- The frames can become those. -/
  leads : Heap → Heap → Prop
  /-- These things can be under way while the frame is worked in. -/
  allowed : List Held → Heap → FrameId → Prop
  refl : ∀ heap, leads heap heap
  trans : ∀ {before middle after}, leads before middle → leads middle after → leads before after
  put : ∀ {heap} id slot content, sound heap →
    sound (heap.put id slot content) ∧ leads heap (heap.put id slot content)
  close : ∀ {heap}, sound heap → sound { heap with closures := heap.closures + 1 } ∧
    leads heap { heap with closures := heap.closures + 1 }
  child : ∀ {heap id frame} slotCount, sound heap → heap.frame? id = some frame →
    sound (heap.alloc slotCount (some id) (some id) none frame.depth).2 ∧
      leads heap (heap.alloc slotCount (some id) (some id) none frame.depth).2
  enter : ∀ {heap id frame} slotCount env site, sound heap → heap.frame? id = some frame →
    frame.depth + 1 ≤ m.maxCallDepth →
    sound (heap.alloc slotCount (some env) (some id) (some site) (frame.depth + 1)).2 ∧
      leads heap (heap.alloc slotCount (some env) (some id) (some site) (frame.depth + 1)).2
  later : ∀ {held before after id}, allowed held before id → leads before after →
    allowed held after id
  value : ∀ {held heap id} value, allowed held heap id → allowed (.value value :: held) heap id
  values : ∀ {held heap id} values, allowed held heap id → allowed (.values values :: held) heap id
  begun : ∀ {held heap id} other, sound heap → allowed held heap id →
    allowed (.frame other :: held) heap other
  called : ∀ {held heap id frame} slotCount env site, sound heap → allowed held heap id →
    heap.frame? id = some frame →
    allowed (.call heap.frames.size site :: held)
      (heap.alloc slotCount (some env) (some id) (some site) (frame.depth + 1)).2 heap.frames.size

variable {m : Machine} {d : Discipline m}

/-- Two computations end in the same way, and keep up the discipline. -/
def Concurs {α : Type} (d : Discipline m) (action other : Eval α) (heap : Heap)
    (returns : α → Heap → Prop) : Prop :=
  action heap = other heap ∧
    Ends action heap (fun a later => d.leads heap later ∧ d.sound later ∧ returns a later)
      fun _ later => d.leads heap later ∧ d.sound later

namespace Concurs

variable {α β : Type} {action other : Eval α} {heap : Heap} {returns : α → Heap → Prop}

theorem pure (sound : d.sound heap) {a : α} (ok : returns a heap) :
    Concurs d (pure a) (pure a) heap returns :=
  ⟨rfl, d.refl heap, sound, ok⟩

/-- Whatever else a computation would do, what counts is what it does with these frames. -/
theorem congr {action' : Eval α} (same : action heap = action' heap)
    (concurs : Concurs d action' other heap returns) : Concurs d action other heap returns :=
  ⟨same.trans concurs.1, concurs.2.congr same⟩

/-- However the computations end, the frames are sound. -/
theorem sound_after (concurs : Concurs d action other heap returns) : d.sound (other heap).2 := by
  obtain ⟨same, ends⟩ := concurs
  rw [← same]
  rcases ended : action heap with ⟨fault | a, later⟩
  · exact (ends.failed ended).2
  · exact (ends.returned ended).2.1

theorem throw (sound : d.sound heap) {fault : Fault} :
    Concurs d (throw fault) (throw fault) heap returns :=
  ⟨rfl, d.refl heap, sound⟩

theorem raise (sound : d.sound heap) {held : List Held} {context : Context} {kind : ErrorKind} :
    Concurs d (Eval.raise held context kind) (Eval.raise held context kind) heap returns :=
  ⟨rfl, .raise fun _ => ⟨d.refl heap, sound⟩⟩

theorem blaming (sound : d.sound heap) {held : List Held} {context : Context}
    {result : Except ErrorKind α} :
    Concurs d (Eval.blaming held context result) (Eval.blaming held context result) heap
      fun _ _ => True :=
  ⟨rfl, .blaming (fun _ _ => ⟨d.refl heap, sound, trivial⟩) fun _ _ _ => ⟨d.refl heap, sound⟩⟩

theorem bind {next next' : α → Eval β} {returns' : β → Heap → Prop}
    (first : Concurs d action other heap returns)
    (second : ∀ a later, d.leads heap later → d.sound later → returns a later →
      Concurs d (next a) (next' a) later returns') :
    Concurs d (action >>= next) (other >>= next') heap returns' := by
  obtain ⟨same, ends⟩ := first
  constructor
  · rw [bind_run, bind_run, ← same]
    rcases ran : action heap with ⟨fault | a, later⟩
    · rfl
    · obtain ⟨leads, sound, ok⟩ := ends.returned ran
      exact (second a later leads sound ok).1
  · apply ends.bind
    rintro a later ⟨leads, sound, ok⟩
    apply (second a later leads sound ok).2.mono
    · exact fun _ _ ⟨leads', rest⟩ => ⟨d.trans leads leads', rest⟩
    · exact fun _ _ ⟨leads', rest⟩ => ⟨d.trans leads leads', rest⟩

theorem map {f : α → β} {returns' : β → Heap → Prop}
    (concurs : Concurs d action other heap fun a => returns' (f a)) :
    Concurs d (f <$> action) (f <$> other) heap returns' := by
  rw [map_eq_pure_bind, map_eq_pure_bind]
  exact concurs.bind fun a later _ sound ok => .pure sound ok

theorem frame (sound : d.sound heap) {id : FrameId} :
    Concurs d (Eval.frame id) (Eval.frame id) heap fun frame later =>
      heap = later ∧ heap.frame? id = some frame :=
  ⟨rfl, .frame (fun _ found => ⟨d.refl heap, sound, rfl, found⟩) fun _ => ⟨d.refl heap, sound⟩⟩

theorem ancestor (sound : d.sound heap) {id depth : Nat} :
    Concurs d (Eval.ancestor id depth) (Eval.ancestor id depth) heap fun _ _ => True :=
  ⟨rfl, .ancestor (fun _ _ => ⟨d.refl heap, sound, trivial⟩) fun _ => ⟨d.refl heap, sound⟩⟩

theorem store (sound : d.sound heap) {id slot : Nat} {content : Slot} :
    Concurs d (Eval.store id slot content) (Eval.store id slot content) heap fun _ _ => True := by
  obtain ⟨sound', leads⟩ := d.put id slot content sound
  exact ⟨rfl, .store (fun _ _ _ => ⟨leads, sound', trivial⟩) (fun _ _ _ => ⟨d.refl heap, sound⟩)
    fun _ => ⟨d.refl heap, sound⟩⟩

theorem storeAll (sound : d.sound heap) {id slot : Nat} (values : List Value) :
    Concurs d (Eval.storeAll id slot values) (Eval.storeAll id slot values) heap
      fun _ _ => True := by
  induction values generalizing heap slot with
  | nil => exact .pure sound trivial
  | cons value values ih => exact (store sound).bind fun _ _ _ sound' _ => ih sound'

theorem storePending (sound : d.sound heap) {id : Nat} (definitions : List (Nat × Expr)) :
    Concurs d (Eval.storePending id definitions) (Eval.storePending id definitions) heap
      fun _ _ => True := by
  induction definitions generalizing heap with
  | nil => exact .pure sound trivial
  | cons definition definitions ih => exact (store sound).bind fun _ _ _ sound' _ => ih sound'

theorem close (sound : d.sound heap) {lambda : Lambda} {env : FrameId} :
    Concurs d (Eval.close lambda env) (Eval.close lambda env) heap fun _ _ => True := by
  obtain ⟨sound', leads⟩ := d.close sound
  exact ⟨rfl, .close ⟨leads, sound', trivial⟩⟩

theorem settling {action other : Eval Value} {id slot : Nat} {definition : Expr}
    (concurs : Concurs d action other heap fun _ _ => True) :
    Concurs d (Eval.settling id slot definition action)
      (Eval.settling id slot definition other) heap fun _ _ => True := by
  obtain ⟨same, ends⟩ := concurs
  constructor
  · unfold Eval.settling
    rw [← same]
  · apply Ends.settling
    apply ends.mono
    · rintro value later ⟨leads, sound, -⟩
      obtain ⟨sound', leads'⟩ := d.put id slot (.ready value) sound
      exact ⟨d.trans leads leads', sound', trivial⟩
    · rintro fault later ⟨leads, sound⟩
      obtain ⟨sound', leads'⟩ := d.put id slot (.pending definition) sound
      exact ⟨d.trans leads leads', sound'⟩

theorem allocChild (sound : d.sound heap) {slotCount id : Nat} :
    Concurs d (Eval.allocChild slotCount id) (Eval.allocChild slotCount id) heap
      fun _ _ => True := by
  refine ⟨rfl, .allocChild (fun frame found => ?_) fun _ => ⟨d.refl heap, sound⟩⟩
  obtain ⟨sound', leads⟩ := d.child slotCount sound found
  exact ⟨leads, sound', trivial⟩

/-- A frame is made for a call, and the call is under way. -/
theorem allocCall (sound : d.sound heap) {held held' : List Held} {slotCount env caller : Nat}
    (allowed : d.allowed held heap caller) {site : Location} :
    Concurs d (Eval.allocCall m held' slotCount env caller site)
      (Eval.allocCall m held' slotCount env caller site) heap
      fun id later => d.allowed (.call id site :: held) later id := by
  refine ⟨rfl, .allocCall (fun frame found fits => ?_) (fun _ _ _ _ => ⟨d.refl heap, sound⟩)
    fun _ => ⟨d.refl heap, sound⟩⟩
  obtain ⟨sound', leads⟩ := d.enter slotCount env site sound found fits
  exact ⟨leads, sound', d.called slotCount env site sound allowed found⟩

end Concurs

/-- Two evaluators that concur under the discipline. -/
def Alike (d : Discipline m) (ev ev' : Evaluator) : Prop :=
  ∀ held id expr heap, d.sound heap → d.allowed held heap id →
    Concurs d (ev held id expr) (ev' held id expr) heap fun _ _ => True

section Step

variable {ev ev' : Evaluator} {held : List Held} {heap after : Heap} {id : FrameId}
  (alike : Alike d ev ev') (sound : d.sound heap) (allowed : d.allowed held heap id)
include alike sound allowed

theorem concurs_force {owner slot : Nat} {context : Context} :
    Concurs d (force ev held owner slot context) (force ev' held owner slot context)
      heap fun _ _ => True := by
  unfold force
  apply (Concurs.frame sound).bind
  rintro frame _ - sound ⟨rfl, found⟩
  dsimp only
  split
  · exact .throw sound
  · exact .pure sound trivial
  · exact .raise sound
  · exact .throw sound
  · rename_i definition _
    apply (Concurs.store sound).bind
    intro _ busy leads sound' _
    have inOwner := d.begun owner sound' (d.later allowed leads)
    exact (alike (.frame owner :: held) owner definition busy sound' inOwner).settling

theorem concurs_field? {value : Value} {name : String} {context : Context} :
    Concurs d (field? ev held value name context) (field? ev' held value name context) heap
      fun _ _ => True := by
  unfold field?
  split
  · exact .pure sound trivial
  · split
    · exact (concurs_force alike sound (d.value _ allowed)).map
    · exact .pure sound trivial
  · exact .pure sound trivial

theorem concurs_evaluateAll (exprs : List Expr) (done : List Value) :
    Concurs d (evaluateAll ev held id done exprs) (evaluateAll ev' held id done exprs) heap
      fun _ _ => True := by
  induction exprs generalizing heap done with
  | nil => exact .pure sound trivial
  | cons expr exprs ih =>
    apply (alike _ id expr heap sound (d.values done allowed)).bind
    exact fun value later leads sound' _ => ih sound' (d.later allowed leads) _

theorem concurs_evaluateFields (fields : List (String × Expr)) (done : List (String × Value)) :
    Concurs d (evaluateFields ev held id done fields) (evaluateFields ev' held id done fields) heap
      fun _ _ => True := by
  induction fields generalizing heap done with
  | nil => exact .pure sound trivial
  | cons field fields ih =>
    apply (alike _ id field.2 heap sound (d.values (done.map (·.2)) allowed)).bind
    exact fun value later leads sound' _ => ih sound' (d.later allowed leads) _

theorem concurs_evaluateEach {slotCount : Nat} {body : Expr} (items done : List Value) :
    Concurs d (evaluateEach ev held id slotCount body done items)
      (evaluateEach ev' held id slotCount body done items) heap fun _ _ => True := by
  induction items generalizing heap done with
  | nil => exact .pure sound trivial
  | cons item items ih =>
    apply (Concurs.allocChild sound).bind
    intro round later leads sound' _
    apply (Concurs.store sound').bind
    intro _ stored leads' sound'' _
    have still := d.later allowed (d.trans leads leads')
    have inRound := d.begun round sound'' (d.values done still)
    apply (alike _ round body stored sound'' inRound).bind
    exact fun value last leads'' sound''' _ => ih sound''' (d.later still leads'') _

theorem concurs_call {function : Value} {args : List Value} {site : Location} :
    Concurs d (call m ev held function args id site) (call m ev' held function args id site) heap
      fun _ _ => True := by
  unfold call
  dsimp only
  split
  · rename_i serial lambda env
    split
    · exact .raise sound
    · apply (Concurs.allocCall sound (d.value _ allowed)).bind
      intro callee entered leads sound' inside
      apply (Concurs.storeAll sound' args).bind
      exact fun _ stored leads' sound'' _ =>
        alike _ callee lambda.body stored sound'' (d.later inside leads')
  · split
    · exact .raise sound
    · split
      · exact .pure sound trivial
      · exact .raise sound
      · exact .raise sound
      · exact .throw sound
  · exact .raise sound

omit alike allowed in
/-- An operator does nothing with frames once its operands are evaluated. -/
theorem concurs_combine {location : Location} {op : BinaryOp} {left right : Expr} {a b : Value} :
    Concurs d (combine m held id location op left right a b)
      (combine m held id location op left right a b) heap fun _ _ => True := by
  unfold combine
  dsimp only
  split
  · apply (Concurs.blaming sound).bind
    intro x later _ sound' _
    apply (Concurs.blaming sound').bind
    exact fun y last _ sound'' _ => .pure sound'' trivial
  · exact .blaming sound

theorem concurs_binary {op : BinaryOp} (strict : op ≠ .and ∧ op ≠ .or) (location : Location)
    (left right : Expr) :
    Concurs d (step m ev held id (.binary location op left right))
      (step m ev' held id (.binary location op left right)) heap fun _ _ => True := by
  rw [step_binary strict, step_binary strict]
  apply (alike held id left heap sound allowed).bind
  intro a later leads sound' _
  apply (alike _ id right later sound' (d.value a (d.later allowed leads))).bind
  exact fun b last _ sound'' _ => concurs_combine sound''

omit sound allowed in
/-- Evaluators concur if those for the parts do. -/
theorem step_alike : Alike d (step m ev) (step m ev') := by
  intro held id expr heap sound allowed
  unfold step
  dsimp only
  cases expr with
  | constant => exact .pure sound trivial
  | slot location depth slot =>
    apply (Concurs.ancestor sound).bind
    exact fun owner later leads sound' _ => concurs_force alike sound' (d.later allowed leads)
  | call site function args =>
    apply (alike held id function heap sound allowed).bind
    intro callee later leads sound' _
    have still := d.later allowed leads
    apply (concurs_evaluateAll alike sound' (d.value callee still) args []).bind
    intro args last leads' sound'' _
    split
    · exact concurs_call alike sound'' (d.later still leads')
    · exact concurs_call alike sound'' (d.later still leads')
    · exact .raise sound''
  | list location items => exact (concurs_evaluateAll alike sound allowed items []).map
  | record location fields => exact (concurs_evaluateFields alike sound allowed fields []).map
  | «module» location slotCount fields definitions =>
    apply (Concurs.allocChild sound).bind
    intro inner later leads sound' _
    apply (Concurs.storePending sound' definitions).bind
    exact fun _ last _ sound'' _ => .pure sound'' trivial
  | letIn location bindings body =>
    apply (Concurs.storePending sound bindings).bind
    exact fun _ later leads sound' _ => alike held id body later sound' (d.later allowed leads)
  | lambda => exact .close sound
  | unary location op operand =>
    apply (alike held id operand heap sound allowed).bind
    exact fun value later leads sound' _ => .blaming sound'
  | binary location op left right =>
    have first := alike held id left heap sound allowed
    have strict (others : op ≠ .and ∧ op ≠ .or) :=
      concurs_binary alike sound allowed others location left right
    cases op with
    | and =>
      apply first.bind
      intro a later leads sound' _
      apply (Concurs.blaming sound').bind
      intro chosen last leads' sound'' _
      split
      · apply (alike held id right last sound'' (d.later allowed (d.trans leads leads'))).bind
        exact fun b _ _ sound₃ _ => (Concurs.blaming sound₃).map
      · exact .pure sound'' trivial
    | or =>
      apply first.bind
      intro a later leads sound' _
      apply (Concurs.blaming sound').bind
      intro chosen last leads' sound'' _
      split
      · exact .pure sound'' trivial
      · apply (alike held id right last sound'' (d.later allowed (d.trans leads leads'))).bind
        exact fun b _ _ sound₃ _ => (Concurs.blaming sound₃).map
    | _ => exact strict (by simp)
  | conditional location condition whenTrue whenFalse =>
    apply (alike held id condition heap sound allowed).bind
    intro value later leads sound' _
    apply (Concurs.blaming sound').bind
    intro chosen last leads' sound'' _
    have still := d.later allowed (d.trans leads leads')
    split
    · exact alike held id whenTrue last sound'' still
    · exact alike held id whenFalse last sound'' still
  | dot location base name =>
    apply (alike held id base heap sound allowed).bind
    intro value later leads sound' _
    apply (concurs_field? alike sound' (d.later allowed leads)).bind
    intro found last leads' sound'' _
    split
    · exact .pure sound'' trivial
    · split
      · exact .pure sound'' trivial
      · split
        · exact .raise sound''
        · exact .raise sound''
        · exact .raise sound''
        · exact .raise sound''
  | index location base index =>
    apply (alike held id base heap sound allowed).bind
    intro value later leads sound' _
    apply (Concurs.blaming sound').bind
    intro items later' leads' sound'' _
    have still := d.later allowed (d.trans leads leads')
    apply (alike _ id index later' sound'' (d.value value still)).bind
    intro place later'' leads'' sound₃ _
    apply (Concurs.blaming sound₃).bind
    intro x last _ sound₄ _
    split
    · exact .pure sound₄ trivial
    · exact .raise sound₄
  | forEach location slotCount list body =>
    apply (alike held id list heap sound allowed).bind
    intro value later leads sound' _
    apply (Concurs.blaming sound').bind
    intro items last leads' sound'' _
    have still := d.later allowed (d.trans leads leads')
    exact (concurs_evaluateEach alike sound'' (d.value value still) items []).map

end Step

end Eval

end ShapeLang
