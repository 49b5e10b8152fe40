import ShapeLang.Proofs.Eval.Conduct
import ShapeLang.Proofs.Eval.Limits
import ShapeLang.Proofs.Reevaluation.Roles

/-! # What forcing leaves in the slots

The definition that a slot holds is marked while it is evaluated. When the evaluation has ended,
whatever it was that ended it, no mark is left that was not there before: the definition is back in
its slot, or its value is there. The value stays until the slot is written again. A `let` does that
when it is evaluated once more in the same frame, and so does sampling a shape, which empties the
frame of one of its functions each time.
-/

namespace ShapeLang

namespace Heap

variable {heap : Heap} {id other : FrameId} {slot place : Nat}

theorem slot?_alloc_ne (slotCount : Nat) (parent caller : Option FrameId)
    (callSite : Option Location) (depth : Nat) (old : other ≠ heap.frames.size) :
    (heap.alloc slotCount parent caller callSite depth).2.slot? other place =
      heap.slot? other place := by
  rw [slot?, frame?_alloc_ne heap slotCount parent caller callSite depth old, slot?]

/-- Nothing is in the slots of a new frame. -/
theorem slot?_alloc_cases {slotCount : Nat} {parent caller : Option FrameId}
    {callSite : Option Location} {depth : Nat} {content : Slot}
    (holds : (heap.alloc slotCount parent caller callSite depth).2.slot? other place =
      some content) : content = .empty ∨ heap.slot? other place = some content := by
  by_cases new : other = heap.frames.size
  · subst new
    rw [slot?_of_frame? (frame?_alloc_self ..)] at holds
    exact .inl (List.eq_of_mem_replicate (List.mem_of_getElem? holds))
  · rw [slot?_alloc_ne slotCount parent caller callSite depth new] at holds
    exact .inr holds

/-- Every slot that is marked now was marked before. -/
def Unmarked (before after : Heap) : Prop :=
  ∀ id slot, after.slot? id slot = some .busy → before.slot? id slot = some .busy

theorem Unmarked.trans {before middle after : Heap} (first : before.Unmarked middle)
    (second : middle.Unmarked after) : before.Unmarked after :=
  fun id slot marked => first id slot (second id slot marked)

theorem Unmarked.put {content : Slot} (other : content ≠ .busy) :
    heap.Unmarked (heap.put id slot content) := by
  intro id' slot' marked
  rcases slot?_put_cases marked with ⟨-, -, same⟩ | ⟨-, same⟩
  · exact (other same.symm).elim
  · exact same

theorem Unmarked.alloc (slotCount : Nat) (parent caller : Option FrameId)
    (callSite : Option Location) (depth : Nat) :
    heap.Unmarked (heap.alloc slotCount parent caller callSite depth).2 := by
  intro id' slot' marked
  rcases slot?_alloc_cases marked with same | same
  · cases same
  · exact same

/-- A mark that is taken away again was never there. -/
theorem Unmarked.finish {after : Heap} {content : Slot}
    (unmarked : (heap.put id slot .busy).Unmarked after) (other : content ≠ .busy) :
    heap.Unmarked (after.put id slot content) := by
  intro id' slot' marked
  rcases slot?_put_cases marked with ⟨-, -, same⟩ | ⟨elsewhere, same⟩
  · exact (other same.symm).elim
  · rw [← slot?_put_ne fun here there => elsewhere ⟨here.symm, there.symm⟩]
    exact unmarked id' slot' same

end Heap

namespace Eval

variable {m : Machine} {alarm : Fault} {id : FrameId} {slot : Nat} {value : Value} {heap : Heap}

/-- No marks are left. -/
def unmarking (m : Machine) : Conduct m where
  sound _ := True
  leads before after := before.Unmarked after ∧ before.Extends after
  faulty _ := True
  fillable _ _ := True
  refl heap := ⟨fun _ _ marked => marked, .refl heap⟩
  trans first second := ⟨first.1.trans second.1, first.2.trans second.2⟩
  fill _ _ other := ⟨trivial, .put other, .put ..⟩
  begin _ _ _ := trivial
  finish _ _ _ leads _ other :=
    ⟨trivial, leads.1.finish other, ((Heap.Extends.put ..).trans leads.2).trans (.put ..)⟩
  close _ := ⟨trivial, fun _ _ marked => marked, Nat.le_refl _, fun _ frame found =>
    ⟨frame, found, rfl, rfl, rfl⟩⟩
  child _ _ _ := ⟨trivial, ⟨.alloc _ _ _ _ _, .alloc ..⟩, fun _ => trivial⟩
  enter _ _ _ _ _ _ := ⟨trivial, ⟨.alloc _ _ _ _ _, .alloc ..⟩, fun _ => trivial⟩
  raised _ _ _ _ := trivial
  broken _ := trivial
  starved := trivial

/-- A value stays in its slot, as long as no `let` writes it. -/
def keeping (m : Machine) (id : FrameId) (slot : Nat) (value : Value) : Conduct m where
  sound heap := heap.slot? id slot = some (.ready value)
  leads _ _ := True
  faulty _ := True
  fillable other place := ¬ (other = id ∧ place = slot)
  refl _ := trivial
  trans _ _ := trivial
  fill holds elsewhere _ :=
    ⟨(Heap.slot?_put_ne fun here there => elsewhere ⟨here, there⟩).trans holds, trivial⟩
  begin holds found pending := by
    refine (Heap.slot?_put_ne ?_).trans holds
    rintro rfl rfl
    rw [Heap.slot?_of_frame? found, pending] at holds
    cases holds
  finish before found pending _ holds _ := by
    refine ⟨(Heap.slot?_put_ne ?_).trans holds, trivial⟩
    rintro rfl rfl
    rw [Heap.slot?_of_frame? found, pending] at before
    cases before
  close holds := ⟨holds, trivial⟩
  child _ holds _ := by
    obtain ⟨frame, found, -⟩ := Heap.slot?_eq_some_iff.mp holds
    have old := Nat.ne_of_lt (Heap.lt_size_of_frame? found)
    exact ⟨(Heap.slot?_alloc_ne _ _ _ _ _ old).trans holds, trivial, fun _ same => old same.1.symm⟩
  enter _ _ _ holds _ _ := by
    obtain ⟨frame, found, -⟩ := Heap.slot?_eq_some_iff.mp holds
    have old := Nat.ne_of_lt (Heap.lt_size_of_frame? found)
    exact ⟨(Heap.slot?_alloc_ne _ _ _ _ _ old).trans holds, trivial, fun _ same => old same.1.symm⟩
  raised _ _ _ _ := trivial
  broken _ := trivial
  starved := trivial

/-- Evaluates as `upTo` does, but gives an alarm when a `let` is about to put a definition into the
slot of the frame. -/
def guarded (m : Machine) (alarm : Fault) (id : FrameId) (slot : Nat) : Nat → Evaluator
  | 0 => fun _ _ _ => throw .outOfFuel
  | fuel + 1 => fun held frame expr =>
    match expr with
    | .letIn location bindings body =>
      if frame = id ∧ slot ∈ bindings.map (·.1) then throw alarm
      else step m (guarded m alarm id slot fuel) held frame (.letIn location bindings body)
    | other => step m (guarded m alarm id slot fuel) held frame other

/-- Without an alarm nothing is different. -/
theorem guarded_unless (m : Machine) (alarm : Fault) (id : FrameId) (slot fuel : Nat)
    (held : List Held) (frame : FrameId) (expr : Expr) :
    Unless (· = alarm) (guarded m alarm id slot fuel held frame expr)
      (upTo m fuel held frame expr) := by
  induction fuel generalizing held frame expr with
  | zero => exact .refl _
  | succ fuel ih =>
    unfold guarded
    split
    · split
      · exact .stopped rfl
      · exact step_unless ih (.refl _ m) held frame _
    · exact step_unless ih (.refl _ m) held frame _

/-- With or without an alarm, the value is still there. -/
theorem guarded_keeps (fuel : Nat) :
    Conducts (keeping m id slot value) (guarded m alarm id slot fuel) := by
  induction fuel with
  | zero => exact fun held frame expr heap holds => ⟨trivial, holds, trivial⟩
  | succ fuel ih =>
    intro held frame expr heap holds
    unfold guarded
    split
    · split
      · exact ⟨trivial, holds, trivial⟩
      · rename_i elsewhere
        apply step_behaves ih holds
        rintro _ _ _ ⟨⟩ binding mem ⟨rfl, rfl⟩
        exact elsewhere ⟨rfl, List.mem_map_of_mem mem⟩
    · rename_i notLet
      apply step_behaves ih holds
      intro location bindings body same
      exact (notLet location bindings body same).elim

/-- What forcing a slot has done. -/
structure Forced (before : Heap) (id : FrameId) (slot : Nat) (result : Except Fault Value)
    (after : Heap) : Prop where
  /-- No slot of any frame is marked that was not marked before. -/
  unmarked : before.Unmarked after
  failed : ∀ fault, result = .error fault → after.slot? id slot = before.slot? id slot
  returned : ∀ value, result = .ok value → after.slot? id slot = some (.ready value)

/-- Forcing a slot, whatever the frames hold. -/
theorem forced_force (m : Machine) (fuel : Nat) (held : List Held) (id : FrameId) (slot : Nat)
    (context : Context) (heap : Heap) :
    Ends (force (upTo m fuel) held id slot context) heap
      (fun value after => Forced heap id slot (.ok value) after)
      fun fault after => Forced heap id slot (.error fault) after := by
  have untouched (fault : Fault) : Forced heap id slot (.error fault) heap :=
    ⟨fun _ _ marked => marked, fun _ _ => rfl, fun _ same => by cases same⟩
  apply Ends.force
  · intro frame value found ready
    refine ⟨fun _ _ marked => marked, fun _ same => (by cases same), fun other same => ?_⟩
    cases same
    rw [Heap.slot?_of_frame? found, ready]
  · intro frame definition found pending
    have conducts : Conducts (unmarking m) (upTo m fuel) := upTo_conducts (fun _ _ => trivial) fuel
    have before : heap.slot? id slot = some (.pending definition) := by
      rw [Heap.slot?_of_frame? found, pending]
    -- The slot is still there when its definition has been evaluated.
    have written {after : Heap} (extension : (heap.put id slot .busy).Extends after)
        (content : Slot) : (after.put id slot content).slot? id slot = some content := by
      obtain ⟨later, found', -, -, size⟩ := extension.kept id _ (Heap.frame?_put_self found)
      have inside : slot < later.slots.length := by
        rw [size, List.length_set]
        exact (List.getElem?_eq_some_iff.mp pending).1
      rw [Heap.slot?_of_frame? (Heap.frame?_put_self found')]
      exact List.getElem?_set_self inside
    apply (conducts (.frame id :: held) id definition (heap.put id slot .busy) trivial).mono
    · rintro value after ⟨⟨unmarked, extension⟩, -⟩
      refine ⟨unmarked.finish (by simp), fun _ same => (by cases same), fun other same => ?_⟩
      cases same
      exact written extension _
    · rintro fault after ⟨⟨unmarked, extension⟩, -⟩
      exact ⟨unmarked.finish (by simp), fun _ _ => (written extension _).trans before.symm,
        fun _ same => by cases same⟩
  · exact fun _ _ _ _ => untouched _
  · exact fun _ _ _ => untouched _
  · exact fun _ _ _ => untouched _
  · exact fun _ => untouched _

/-- A value that is there is read without evaluating anything. -/
theorem force_ready (holds : heap.slot? id slot = some (.ready value)) (ev : Evaluator)
    (held : List Held) (context : Context) :
    force ev held id slot context heap = (.ok value, heap) := by
  obtain ⟨found, there, ready⟩ := Heap.slot?_eq_some_iff.mp holds
  have looked : frame id heap = (.ok found, heap) := by
    apply Ends.exact
    apply Ends.frame
    · exact fun other there' => ⟨Option.some.inj (there'.symm.trans there), rfl⟩
    · intro missing
      rw [there] at missing
      cases missing
  unfold force
  rw [bind_run, looked]
  simp only [ready]
  rfl

/-- Looking for a shape reads fields and makes frames. -/
theorem behaves_ofValue? {d : Conduct m} {ev : Evaluator} (conducts : Conducts d ev)
    (sound : d.sound heap) {held : List Held} {context : Context} {value : Value} :
    Behaves d (Shape.ofValue? ev held context value) heap fun _ => True := by
  have nothing {later : Heap} (sound : d.sound later) :
      Behaves d (pure none : Eval (Option Shape)) later fun _ => True := .pure sound trivial
  have read {later : Heap} (sound : d.sound later) (name : String) :
      Behaves d (field? ev (.value value :: held) value name context) later fun _ => True :=
    behaves_field? conducts sound
  have capture {later : Heap} (sound : d.sound later) (lambda : Lambda) (env : FrameId) :
      Behaves d (Shape.capture lambda env) later fun _ => True :=
    (Behaves.allocChild sound).bind fun _ _ sound _ => .pure sound trivial
  unfold Shape.ofValue?
  refine (read sound _).bind fun dist later sound _ => ?_
  dsimp only
  split
  case h_2 => exact nothing sound
  refine (read sound _).bind fun colour later sound _ => ?_
  split
  case h_2 => exact nothing sound
  refine (read sound _).bind fun flat later sound _ => ?_
  refine (read sound _).bind fun solid later sound _ => ?_
  split
  case h_2 => exact nothing sound
  split
  case h_2 => exact nothing sound
  refine (read sound _).bind fun box later sound _ => ?_
  split
  case h_2 => exact nothing sound
  refine (capture sound _ _).bind fun dist later sound _ => ?_
  exact (capture sound _ _).bind fun colour later sound _ => .pure sound trivial

/-- Sampling a shape empties no frame but that of the function. -/
theorem callAt_keeps {ev : Evaluator} (conducts : Conducts (keeping m id slot value) ev)
    {function : ShapeFunction} (apart : ¬ function.frame = id)
    (holds : heap.slot? id slot = some (.ready value)) {held : List Held} {p : Point} {t : Float} :
    Behaves (keeping m id slot value) (Recognizer.callAt ev held function p t) heap
      fun _ => True := by
  have cleared : Behaves (keeping m id slot value) (clear function.frame) heap fun _ => True := by
    apply Ends.modify
    refine ⟨trivial, ?_, trivial⟩
    change Heap.slot? _ id slot = _
    rw [Heap.slot?, Heap.frame?_mapSlots, if_neg apart]
    exact holds
  have fillable (place : Nat) : (keeping m id slot value).fillable function.frame place :=
    fun same => apart same.1
  have body {later : Heap} (sound : (keeping m id slot value).sound later) :=
    conducts (.frame function.frame :: held) function.frame function.lambda.body later sound
  unfold Recognizer.callAt
  apply cleared.bind
  intro _ later sound _
  split
  · exact (Behaves.store sound (fillable 0) (by simp)).bind fun _ _ sound _ => body sound
  · apply (Behaves.store sound (fillable 0) (by simp)).bind
    intro _ stored sound _
    exact (Behaves.store sound (fillable 1) (by simp)).bind fun _ _ sound _ => body sound

/-- Something that runs code. -/
inductive Act where
  | evaluate (held : List Held) (id : FrameId) (expr : Expr)
  | force (held : List Held) (id : FrameId) (slot : Nat) (context : Context)
  | field (held : List Held) (value : Value) (name : String) (context : Context)
  | call (held : List Held) (function : Value) (args : List Value) (caller : FrameId)
    (site : Location)
  | recognize (held : List Held) (context : Context) (value : Value)
  | sample (held : List Held) (function : ShapeFunction) (p : Point) (t : Float)

namespace Act

def run (m : Machine) (ev : Evaluator) : Act → Eval (Option Value)
  | evaluate held id expr => some <$> ev held id expr
  | force held id slot context => some <$> Eval.force ev held id slot context
  | field held value name context => Eval.field? ev held value name context
  | call held function args caller site => some <$> Eval.call m ev held function args caller site
  | recognize held context value => (fun _ => none) <$> Shape.ofValue? ev held context value
  | sample held function p t => some <$> Recognizer.callAt ev held function p t

/-- The act empties the frame. -/
def Empties : Act → FrameId → Prop
  | sample _ function _ _, id => function.frame = id
  | _, _ => False

/-- The frames after one act has followed the other, whether they failed or not. -/
def runAll (m : Machine) (ev : Evaluator) : List Act → Heap → Heap
  | [], heap => heap
  | act :: acts, heap => runAll m ev acts (act.run m ev heap).2

theorem run_unless (fuel : Nat) (act : Act) :
    Unless (· = alarm) (act.run m (guarded m alarm id slot fuel)) (act.run m (upTo m fuel)) := by
  have part := guarded_unless m alarm id slot fuel
  cases act with
  | evaluate held id expr => exact (part held id expr).map some
  | force => exact (unless_force part).map some
  | field => exact unless_field? part
  | call => exact (unless_call part (.refl _ m)).map some
  | recognize => exact (unless_ofValue? part).map _
  | sample => exact (unless_callAt part).map some

theorem run_keeps (m : Machine) (alarm : Fault) (fuel : Nat) (act : Act) (apart : ¬ act.Empties id)
    (holds : heap.slot? id slot = some (.ready value)) :
    (act.run m (guarded m alarm id slot fuel) heap).2.slot? id slot = some (.ready value) := by
  have conducts : Conducts (keeping m id slot value) (guarded m alarm id slot fuel) :=
    guarded_keeps fuel
  have kept : Behaves (keeping m id slot value) (act.run m (guarded m alarm id slot fuel)) heap
      fun _ => True := by
    cases act with
    | evaluate held id expr => exact (conducts held id expr heap holds).map
    | force => exact (behaves_force conducts holds).map
    | field => exact behaves_field? conducts holds
    | call => exact (behaves_call conducts holds).map
    | recognize => exact (behaves_ofValue? conducts holds).map
    | sample held function p t => exact (callAt_keeps conducts apart holds).map
  apply Ends.outcome fun _ (after : Heap) => after.slot? id slot = some (.ready value)
  exact kept.mono (fun _ _ ⟨_, sound, _⟩ => sound) fun _ _ ⟨_, sound, _⟩ => sound

/-- Whatever is run in whatever order, a value stays in its slot, unless at some moment a `let` puts
its definition there once more, or the frame is emptied. -/
theorem runAll_keeps (fuel : Nat) (acts : List Act)
    (holds : heap.slot? id slot = some (.ready value)) :
    (∃ done act rest, acts = done ++ act :: rest ∧
      (act.Empties id ∨ (act.run m (guarded m alarm id slot fuel)
        (runAll m (upTo m fuel) done heap)).1 = .error alarm)) ∨
      (runAll m (upTo m fuel) acts heap).slot? id slot = some (.ready value) := by
  induction acts generalizing heap with
  | nil => exact .inr holds
  | cons act acts ih =>
    by_cases apart : act.Empties id
    · exact .inl ⟨[], act, acts, rfl, .inl apart⟩
    have kept := run_keeps m alarm fuel act apart holds
    rcases run_unless fuel act heap with ⟨_, later, rfl, ran⟩ | same
    · exact .inl ⟨[], act, acts, rfl, .inr (congrArg Prod.fst ran)⟩
    · rw [← same] at kept
      rcases ih kept with ⟨done, other, rest, rfl, ended⟩ | stays
      · exact .inl ⟨act :: done, other, rest, rfl, ended⟩
      · exact .inr stays

end Act

end Eval

end ShapeLang
