import ShapeLang.Proofs.Eval.Operations

/-! # What evaluation keeps up

A property of all frames that every operation on frames keeps up is kept up by evaluation, however
the operations follow each other and wherever something fails; the same goes for how the frames can
change, and for what faults can be. A definition that is forced is marked while it is evaluated.
What the mark disturbs is put right when the evaluation of the definition has ended, so the two are
looked at together.
-/

namespace ShapeLang

namespace Eval

/-- What every operation on frames keeps up. -/
structure Conduct (m : Machine) where
  sound : Heap → Prop
  /-- The frames can become those. -/
  leads : Heap → Heap → Prop
  /-- What something can fail with. -/
  faulty : Fault → Prop
  /-- Definitions and values can be put into the slot whenever a `let` or a new frame has some. -/
  fillable : FrameId → Nat → Prop
  refl : ∀ heap, leads heap heap
  trans : ∀ {before middle after}, leads before middle → leads middle after → leads before after
  fill : ∀ {heap id slot content}, sound heap → fillable id slot → content ≠ .busy →
    sound (heap.put id slot content) ∧ leads heap (heap.put id slot content)
  begin : ∀ {heap id slot frame definition}, sound heap → heap.frame? id = some frame →
    frame.slots[slot]? = some (.pending definition) → sound (heap.put id slot .busy)
  finish : ∀ {heap after id slot frame definition content}, sound heap →
    heap.frame? id = some frame → frame.slots[slot]? = some (.pending definition) →
    leads (heap.put id slot .busy) after → sound after → content ≠ .busy →
    sound (after.put id slot content) ∧ leads heap (after.put id slot content)
  close : ∀ {heap}, sound heap → sound { heap with closures := heap.closures + 1 } ∧
    leads heap { heap with closures := heap.closures + 1 }
  child : ∀ {heap id frame} slotCount, sound heap → heap.frame? id = some frame →
    sound (heap.alloc slotCount (some id) (some id) none frame.depth).2 ∧
      leads heap (heap.alloc slotCount (some id) (some id) none frame.depth).2 ∧
      ∀ slot, fillable heap.frames.size slot
  enter : ∀ {heap id frame} slotCount env site, sound heap → heap.frame? id = some frame →
    frame.depth + 1 ≤ m.maxCallDepth →
    sound (heap.alloc slotCount (some env) (some id) (some site) (frame.depth + 1)).2 ∧
      leads heap (heap.alloc slotCount (some env) (some id) (some site) (frame.depth + 1)).2 ∧
      ∀ slot, fillable heap.frames.size slot
  raised : ∀ {heap}, sound heap → ∀ held context kind,
    faulty (.exception ⟨kind, Context.locations heap held context⟩)
  broken : ∀ d, faulty (.defect d)
  starved : faulty .outOfFuel

variable {m : Machine} {d : Conduct m}

/-- The computation keeps up the conduct, and returns what is described. -/
def Behaves {α : Type} (d : Conduct m) (action : Eval α) (heap : Heap) (returns : α → Prop) :
    Prop :=
  Ends action heap (fun a later => d.leads heap later ∧ d.sound later ∧ returns a)
    fun fault later => d.leads heap later ∧ d.sound later ∧ d.faulty fault

namespace Behaves

variable {α β : Type} {action : Eval α} {heap : Heap} {returns : α → Prop} (sound : d.sound heap)

theorem bind {next : α → Eval β} {returns' : β → Prop} (first : Behaves d action heap returns)
    (second : ∀ a later, d.sound later → returns a → Behaves d (next a) later returns') :
    Behaves d (action >>= next) heap returns' := by
  apply Ends.bind first
  rintro a later ⟨leads, sound, ok⟩
  apply (second a later sound ok).mono
  · exact fun _ _ ⟨leads', rest⟩ => ⟨d.trans leads leads', rest⟩
  · exact fun _ _ ⟨leads', rest⟩ => ⟨d.trans leads leads', rest⟩

include sound

theorem pure {a : α} (ok : returns a) : Behaves d (pure a) heap returns :=
  ⟨d.refl heap, sound, ok⟩

theorem defect {broken : Defect} : Behaves d (Eval.defect broken) heap returns :=
  ⟨d.refl heap, sound, d.broken broken⟩

theorem raise {held : List Held} {context : Context} {kind : ErrorKind} :
    Behaves d (Eval.raise held context kind) heap returns :=
  ⟨d.refl heap, sound, d.raised sound held context kind⟩

/-- Nothing follows what is raised. -/
theorem stop {held : List Held} {context : Context} {kind : ErrorKind} {next : α → Eval β}
    {returns : β → Prop} : Behaves d (Eval.raise held context kind >>= next) heap returns := by
  have raised : Behaves d (Eval.raise held context kind : Eval α) heap fun _ => False :=
    raise sound
  exact raised.bind fun _ _ _ no => no.elim

theorem blaming {held : List Held} {context : Context} {result : Except ErrorKind α} :
    Behaves d (Eval.blaming held context result) heap fun _ => True := by
  cases result with
  | ok a => exact .pure sound trivial
  | error kind => exact .raise sound

omit sound in
theorem map {f : α → β} (behaves : Behaves d action heap fun _ => True) :
    Behaves d (f <$> action) heap fun _ => True := by
  rw [map_eq_pure_bind]
  exact behaves.bind fun _ _ sound _ => .pure sound trivial

theorem ancestor {id depth : Nat} :
    Behaves d (Eval.ancestor id depth) heap fun _ => True :=
  Ends.ancestor (fun _ _ => ⟨d.refl heap, sound, trivial⟩) fun _ =>
    ⟨d.refl heap, sound, d.broken _⟩

theorem store {id slot : Nat} {content : Slot} (fillable : d.fillable id slot)
    (notBusy : content ≠ .busy) : Behaves d (Eval.store id slot content) heap fun _ => True := by
  obtain ⟨sound', leads⟩ := d.fill sound fillable notBusy
  exact Ends.store (fun _ _ _ => ⟨leads, sound', trivial⟩)
    (fun _ _ _ => ⟨d.refl heap, sound, d.broken _⟩) fun _ => ⟨d.refl heap, sound, d.broken _⟩

theorem storeAll {id slot : Nat} (fillable : ∀ slot, d.fillable id slot) (values : List Value) :
    Behaves d (Eval.storeAll id slot values) heap fun _ => True := by
  induction values generalizing heap slot with
  | nil => exact .pure sound trivial
  | cons value values ih =>
    exact (store sound (fillable slot) (by simp)).bind fun _ _ sound' _ => ih sound'

theorem storePending {id : Nat} (definitions : List (Nat × Expr))
    (fillable : ∀ definition ∈ definitions, d.fillable id definition.1) :
    Behaves d (Eval.storePending id definitions) heap fun _ => True := by
  induction definitions generalizing heap with
  | nil => exact .pure sound trivial
  | cons definition definitions ih =>
    apply (store sound (fillable definition (by simp)) (by simp)).bind
    exact fun _ _ sound' _ => ih sound' fun other mem => fillable other (by simp [mem])

theorem close {lambda : Lambda} {env : FrameId} :
    Behaves d (Eval.close lambda env) heap fun _ => True := by
  obtain ⟨sound', leads⟩ := d.close sound
  exact Ends.close ⟨leads, sound', trivial⟩

/-- The slots of a new frame can be filled. -/
theorem allocChild {slotCount id : Nat} :
    Behaves d (Eval.allocChild slotCount id) heap fun round => ∀ slot, d.fillable round slot := by
  apply Ends.allocChild
  · intro frame found
    obtain ⟨sound', leads, fillable⟩ := d.child slotCount sound found
    exact ⟨leads, sound', fillable⟩
  · exact fun _ => ⟨d.refl heap, sound, d.broken _⟩

theorem allocCall {held : List Held} {slotCount env caller : Nat} {site : Location} :
    Behaves d (Eval.allocCall m held slotCount env caller site) heap
      fun callee => ∀ slot, d.fillable callee slot := by
  unfold Eval.allocCall
  apply Ends.through fun frame later => heap.frame? caller = some frame ∧ heap = later
  · exact .frame (fun frame found => ⟨found, rfl⟩) fun _ => ⟨d.refl heap, sound, d.broken _⟩
  · rintro frame _ ⟨found, rfl⟩
    dsimp only
    split
    · exact Behaves.stop sound
    · rename_i fits
      obtain ⟨sound', leads, fillable⟩ :=
        d.enter slotCount env site sound found (Nat.le_of_not_lt fits)
      exact Ends.alloc ⟨leads, sound', fillable⟩

end Behaves

/-- An evaluator that keeps up the conduct. -/
def Conducts (d : Conduct m) (ev : Evaluator) : Prop :=
  ∀ held id expr heap, d.sound heap → Behaves d (ev held id expr) heap fun _ => True

section Step

variable {ev : Evaluator} {held : List Held} {heap : Heap} {id : FrameId}
  (conducts : Conducts d ev) (sound : d.sound heap)
include conducts sound

/-- The mark is taken away again, whether the definition could be evaluated or not. -/
theorem behaves_force {slot : Nat} {context : Context} :
    Behaves d (force ev held id slot context) heap fun _ => True := by
  unfold force
  apply Ends.through fun frame later => heap.frame? id = some frame ∧ heap = later
  · exact .frame (fun frame found => ⟨found, rfl⟩) fun _ => ⟨d.refl heap, sound, d.broken _⟩
  rintro frame _ ⟨found, rfl⟩
  dsimp only
  split
  · exact Behaves.defect sound
  · exact Behaves.pure sound trivial
  · exact Behaves.raise sound
  · exact Behaves.defect sound
  · rename_i definition pending
    have inside : slot < frame.slots.length := (List.getElem?_eq_some_iff.mp pending).1
    apply Ends.through fun _ later => later = heap.put id slot .busy
    · exact .store_found found inside rfl
    rintro _ _ rfl
    apply Ends.settling
    apply (conducts _ id definition _ (d.begin sound found pending)).mono
    · rintro value later ⟨leads, sound', -⟩
      obtain ⟨sound'', leads'⟩ :=
        d.finish sound found pending leads sound' (show Slot.ready value ≠ .busy by simp)
      exact ⟨leads', sound'', trivial⟩
    · rintro fault later ⟨leads, sound', faulty⟩
      obtain ⟨sound'', leads'⟩ :=
        d.finish sound found pending leads sound'
          (show Slot.pending definition ≠ .busy by simp)
      exact ⟨leads', sound'', faulty⟩

theorem behaves_field? {value : Value} {name : String} {context : Context} :
    Behaves d (field? ev held value name context) heap fun _ => True := by
  unfold field?
  split
  · exact .pure sound trivial
  · split
    · exact (behaves_force conducts sound).map
    · exact .pure sound trivial
  · exact .pure sound trivial

theorem behaves_evaluateAll (exprs : List Expr) (done : List Value) :
    Behaves d (evaluateAll ev held id done exprs) heap fun _ => True := by
  induction exprs generalizing heap done with
  | nil => exact .pure sound trivial
  | cons expr exprs ih =>
    exact (conducts _ id expr heap sound).bind fun value _ sound' _ => ih sound' _

theorem behaves_evaluateFields (fields : List (String × Expr)) (done : List (String × Value)) :
    Behaves d (evaluateFields ev held id done fields) heap fun _ => True := by
  induction fields generalizing heap done with
  | nil => exact .pure sound trivial
  | cons field fields ih =>
    exact (conducts _ id field.2 heap sound).bind fun value _ sound' _ => ih sound' _

theorem behaves_evaluateEach {slotCount : Nat} {body : Expr} (items done : List Value) :
    Behaves d (evaluateEach ev held id slotCount body done items) heap fun _ => True := by
  induction items generalizing heap done with
  | nil => exact .pure sound trivial
  | cons item items ih =>
    apply (Behaves.allocChild sound).bind
    intro round later sound' fillable
    apply (Behaves.store sound' (fillable 0) (by simp)).bind
    intro _ stored sound'' _
    exact (conducts _ round body stored sound'').bind fun value _ sound''' _ => ih sound''' _

theorem behaves_call {function : Value} {args : List Value} {site : Location} :
    Behaves d (call m ev held function args id site) heap fun _ => True := by
  unfold call
  dsimp only
  split
  · rename_i serial lambda env
    split
    · exact Behaves.stop sound
    · apply (Behaves.allocCall sound).bind
      intro callee entered sound' fillable
      apply (Behaves.storeAll sound' fillable args).bind
      exact fun _ stored sound'' _ => conducts _ callee lambda.body stored sound''
  · split
    · exact Behaves.stop sound
    · split
      · exact .pure sound trivial
      · exact .raise sound
      · exact .raise sound
      · exact .defect sound
  · exact .raise sound

omit conducts in
theorem behaves_combine {location : Location} {op : BinaryOp} {left right : Expr} {a b : Value} :
    Behaves d (combine m held id location op left right a b) heap fun _ => True := by
  unfold combine
  dsimp only
  split
  · apply (Behaves.blaming sound).bind
    intro x later sound' _
    apply (Behaves.blaming sound').bind
    exact fun y last sound'' _ => .pure sound'' trivial
  · exact .blaming sound

/-- One expression, unless it is a `let` whose slots cannot be filled. -/
theorem step_behaves (expr : Expr)
    (lets : ∀ location bindings body, expr = .letIn location bindings body →
      ∀ binding ∈ bindings, d.fillable id binding.1) :
    Behaves d (step m ev held id expr) heap fun _ => True := by
  -- The second operand of `&&` and `||`.
  have decided {later : Heap} (sound : d.sound later) (right : Expr) (context : Context) :
      Behaves d (do
        let b ← ev held id right
        Value.bool <$> blaming (.value b :: held) context (toBool b)) later fun _ => True :=
    (conducts held id right later sound).bind fun b _ sound' _ => (Behaves.blaming sound').map
  unfold step
  dsimp only
  cases expr with
  | constant => exact .pure sound trivial
  | slot location depth slot =>
    exact (Behaves.ancestor sound).bind fun owner later sound' _ => behaves_force conducts sound'
  | call site function args =>
    apply (conducts held id function heap sound).bind
    intro callee later sound' _
    apply (behaves_evaluateAll conducts sound' args []).bind
    intro args last sound'' _
    split
    · exact behaves_call conducts sound''
    · exact behaves_call conducts sound''
    · exact .raise sound''
  | list location items => exact (behaves_evaluateAll conducts sound items []).map
  | record location fields => exact (behaves_evaluateFields conducts sound fields []).map
  | «module» location slotCount fields definitions =>
    apply (Behaves.allocChild sound).bind
    intro inner later sound' fillable
    apply (Behaves.storePending sound' definitions fun definition _ => fillable _).bind
    exact fun _ last sound'' _ => .pure sound'' trivial
  | letIn location bindings body =>
    apply (Behaves.storePending sound bindings (lets location bindings body rfl)).bind
    exact fun _ later sound' _ => conducts held id body later sound'
  | lambda => exact .close sound
  | unary location op operand =>
    exact (conducts held id operand heap sound).bind fun value later sound' _ => .blaming sound'
  | binary location op left right =>
    have first := conducts held id left heap sound
    have strict (others : op ≠ .and ∧ op ≠ .or) :
        Behaves d (step m ev held id (.binary location op left right)) heap fun _ => True := by
      rw [step_binary others]
      apply first.bind
      intro a later sound' _
      apply (conducts _ id right later sound').bind
      exact fun b last sound'' _ => behaves_combine sound''
    cases op with
    | and =>
      apply first.bind
      intro a later sound' _
      apply (Behaves.blaming sound').bind
      intro chosen last sound'' _
      split
      · exact decided sound'' right _
      · exact .pure sound'' trivial
    | or =>
      apply first.bind
      intro a later sound' _
      apply (Behaves.blaming sound').bind
      intro chosen last sound'' _
      split
      · exact .pure sound'' trivial
      · exact decided sound'' right _
    | _ => exact strict (by simp)
  | conditional location condition whenTrue whenFalse =>
    apply (conducts held id condition heap sound).bind
    intro value later sound' _
    apply (Behaves.blaming sound').bind
    intro chosen last sound'' _
    split
    · exact conducts held id whenTrue last sound''
    · exact conducts held id whenFalse last sound''
  | dot location base name =>
    apply (conducts held id base heap sound).bind
    intro value later sound' _
    apply (behaves_field? conducts sound').bind
    intro found last sound'' _
    split
    · exact .pure sound'' trivial
    · split
      · exact .pure sound'' trivial
      · split <;> exact .raise sound''
  | index location base index =>
    apply (conducts held id base heap sound).bind
    intro value later sound' _
    apply (Behaves.blaming sound').bind
    intro items later' sound'' _
    apply (conducts _ id index later' sound'').bind
    intro place later'' sound₃ _
    apply (Behaves.blaming sound₃).bind
    intro x last sound₄ _
    split
    · exact .pure sound₄ trivial
    · exact .raise sound₄
  | forEach location slotCount list body =>
    apply (conducts held id list heap sound).bind
    intro value later sound' _
    apply (Behaves.blaming sound').bind
    intro items last sound'' _
    exact (behaves_evaluateEach conducts sound'' items []).map

end Step

/-- Evaluation keeps up a conduct in which every slot can be filled. -/
theorem upTo_conducts (fillable : ∀ id slot, d.fillable id slot) (fuel : Nat) :
    Conducts d (upTo m fuel) := by
  induction fuel with
  | zero => exact fun held id expr heap sound => ⟨d.refl heap, sound, d.starved⟩
  | succ fuel ih =>
    exact fun held id expr heap sound => step_behaves ih sound expr fun _ _ _ _ _ _ => fillable _ _

end Eval

end ShapeLang
