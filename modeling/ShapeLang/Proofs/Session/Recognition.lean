import ShapeLang.Proofs.Session.Fields
import ShapeLang.Proofs.Session.Termination

/-! # Recognition is exact and one-way

A recognizer without a shape takes the first value that describes one, and no other value; a
recognizer with a shape keeps it. Whenever the answer is no, or there is no answer, the recognizer
is what it was.
-/

namespace ShapeLang

section Taking

variable {evaluate : Evaluator} {held : List Held} {context : Context} {value : Value}
  {heap : Heap}

/-- A function of a shape gets a new frame, if the frame that its closure captured exists. -/
theorem Ends.capture {lambda : Lambda} {env : FrameId} :
    Ends (Shape.capture lambda env) heap
      (fun function after => function = ⟨lambda, heap.frames.size⟩ ∧ ∃ depth,
        after = (heap.alloc lambda.slotCount (some env) (some env) none depth).2)
      fun fault _ => ∃ d, fault = .defect d := by
  refine Ends.through (fun id after => id = heap.frames.size ∧ ∃ depth,
      after = (heap.alloc lambda.slotCount (some env) (some env) none depth).2)
    (.allocChild (fun frame _ => ⟨rfl, frame.depth, rfl⟩) fun _ => ⟨_, rfl⟩) ?_
  rintro _ after ⟨rfl, allocated⟩
  exact .pure ⟨rfl, allocated⟩

/-- The two functions of a shape get frames of their own. -/
private theorem captures_of_alloc (heap : Heap) (dist colour : Lambda) (env env' : FrameId)
    (serial serial' depth depth' : Nat) :
    let middle := (heap.alloc dist.slotCount (some env) (some env) none depth).2
    let after := (middle.alloc colour.slotCount (some env') (some env') none depth').2
    ShapeFunction.Captures ⟨dist, heap.frames.size⟩ (some (.closure serial dist env)) heap after ∧
      ShapeFunction.Captures ⟨colour, middle.frames.size⟩ (some (.closure serial' colour env')) heap
        after ∧ heap.frames.size ≠ middle.frames.size := by
  intro middle after
  have size : middle.frames.size = heap.frames.size + 1 := Heap.size_alloc ..
  have missing (id : FrameId) (le : heap.frames.size ≤ id) : heap.frame? id = none := by
    cases found : heap.frame? id with
    | none => rfl
    | some frame => exact absurd (Heap.lt_size_of_frame? found) (Nat.not_lt.mpr le)
  constructor
  · exact ⟨missing _ (Nat.le_refl _), serial, env, _, rfl,
      Heap.frame?_alloc_of_some _ _ _ _ _ _ (Heap.frame?_alloc_self ..), rfl, by simp [Heap.fresh]⟩
  constructor
  · exact ⟨missing _ (by dsimp only; omega), serial', env', _, rfl, Heap.frame?_alloc_self .., rfl,
      by simp [Heap.fresh]⟩
  · omega

/-- Looking for a shape in a value gives what reading all of its fields gives, as far as it is
needed. -/
theorem Shape.ofValue?_ends :
    Ends (ofValue? evaluate held context value) heap
      (fun found after => match found with
        | some shape => ∃ fields later,
          Describes evaluate held context value heap fields later ∧ shape.MadeOf fields later after
        | none => ∀ fields later, ¬ Describes evaluate held context value heap fields later)
      fun fault after => readFields evaluate held context value heap = (.error fault, after) ∨
        ∃ d, fault = .defect d := by
  unfold ofValue?
  refine Ends.through _ (.ran fun fault after failed => .inl ?_) fun dist heap₁ ran₁ => ?_
  · simp only [readFields, bind_run, ShapeRole.name] at failed ⊢
    rw [failed]
  split
  case h_2 taken =>
    refine .pure fun fields later describes => ?_
    obtain ⟨first⟩ := readings_of_readFields describes.read
    cases ran₁.symm.trans first
    obtain ⟨function, same⟩ := Option.isSome_iff_exists.mp
      (isSome_bind_closure?_iff.mpr describes.fit.dist)
    exact taken _ _ same
  case h_1 distCode distEnv tookDist =>
  refine Ends.through _ (.ran fun fault after failed => .inl ?_) fun colour heap₂ ran₂ => ?_
  · simp only [readFields, bind_run, ShapeRole.name] at ran₁ failed ⊢
    simp only [ran₁, failed]
  split
  case h_2 taken =>
    refine .pure fun fields later describes => ?_
    obtain ⟨first, second⟩ := readings_of_readFields describes.read
    cases ran₁.symm.trans first
    cases ran₂.symm.trans second
    obtain ⟨function, same⟩ := Option.isSome_iff_exists.mp
      (isSome_bind_closure?_iff.mpr describes.fit.colour)
    exact taken _ _ same
  case h_1 colourCode colourEnv tookColour =>
  refine Ends.through _ (.ran fun fault after failed => .inl ?_) fun flat heap₃ ran₃ => ?_
  · simp only [readFields, bind_run, ShapeRole.name] at ran₁ ran₂ failed ⊢
    simp only [ran₁, ran₂, failed]
  refine Ends.through _ (.ran fun fault after failed => .inl ?_) fun solid heap₄ ran₄ => ?_
  · simp only [readFields, bind_run, ShapeRole.name] at ran₁ ran₂ failed ⊢
    simp only [ran₁, ran₂, ran₃, failed]
  split
  case h_2 taken =>
    refine .pure fun fields later describes => ?_
    obtain ⟨first, second, third⟩ := readings_of_readFields describes.read
    cases ran₁.symm.trans first
    cases ran₂.symm.trans second
    cases ran₃.symm.trans third
    obtain ⟨flag, same⟩ := Option.isSome_iff_exists.mp (isSome_flag?_iff.mpr describes.fit.flat)
    exact taken flag same
  case h_1 is2d tookFlat =>
  split
  case h_2 taken =>
    refine .pure fun fields later describes => ?_
    obtain ⟨first, second, third, fourth⟩ := readings_of_readFields describes.read
    cases ran₁.symm.trans first
    cases ran₂.symm.trans second
    cases ran₃.symm.trans third
    cases ran₄.symm.trans fourth
    obtain ⟨flag, same⟩ := Option.isSome_iff_exists.mp (isSome_flag?_iff.mpr describes.fit.solid)
    exact taken flag same
  case h_1 solidFlag tookSolid =>
  refine Ends.through _ (.ran fun fault after failed => .inl ?_) fun box heap₅ ran₅ => ?_
  · simp only [readFields, bind_run, ShapeRole.name] at ran₁ ran₂ failed ⊢
    simp only [ran₁, ran₂, ran₃, ran₄, failed]
  split
  case h_2 taken =>
    refine .pure fun fields later describes => ?_
    obtain ⟨first, second, third, fourth, fifth⟩ := readings_of_readFields describes.read
    cases ran₁.symm.trans first
    cases ran₂.symm.trans second
    cases ran₃.symm.trans third
    cases ran₄.symm.trans fourth
    cases ran₅.symm.trans fifth
    obtain ⟨bounds, same⟩ := Option.isSome_iff_exists.mp (isSome_bounds?_iff.mpr describes.fit.box)
    exact taken bounds same
  case h_1 bounds tookBounds =>
  have read : readFields evaluate held context value heap =
      (.ok ⟨dist, colour, flat, solid, box⟩, heap₅) := by
    simp only [readFields, bind_run, ShapeRole.name] at ran₁ ran₂ ⊢
    simp only [ran₁, ran₂, ran₃, ran₄, ran₅]
    rfl
  obtain ⟨count, serial, rfl⟩ := bind_closure?_eq_some_iff.mp tookDist
  obtain ⟨count', serial', rfl⟩ := bind_closure?_eq_some_iff.mp tookColour
  have fit : Fields.Fit ⟨_, _, flat, solid, box⟩ :=
    ⟨isSome_bind_closure?_iff.mp (Option.isSome_of_eq_some tookDist),
      isSome_bind_closure?_iff.mp (Option.isSome_of_eq_some tookColour),
      isSome_flag?_iff.mp (Option.isSome_of_eq_some tookFlat),
      isSome_flag?_iff.mp (Option.isSome_of_eq_some tookSolid),
      isSome_bounds?_iff.mp (Option.isSome_of_eq_some tookBounds)⟩
  have describes : Describes evaluate held context value heap _ heap₅ :=
    ⟨hasFields_of_field? ran₁, read, fit⟩
  refine Ends.bind (.mono .capture (fun _ _ captured => captured) fun _ _ => .inr) ?_
  rintro _ _ ⟨rfl, depth, rfl⟩
  refine Ends.bind (.mono .capture (fun _ _ captured => captured) fun _ _ => .inr) ?_
  rintro _ _ ⟨rfl, depth', rfl⟩
  obtain ⟨capturesDist, capturesColour, apart⟩ := captures_of_alloc heap₅ distCode colourCode distEnv
    colourEnv serial serial' depth depth'
  obtain ⟨space, inBox⟩ := bounds?_eq_some tookBounds
  refine .pure ⟨_, heap₅, describes, capturesDist, capturesColour, apart, flag?_eq_some tookFlat,
    ?_, space, inBox⟩
  rw [← flag?_eq_some tookSolid]
  simp

end Taking

namespace Recognizer

/-- How a recognizer without a shape answers when it is shown a value. -/
inductive Answers (evaluate : Evaluator) (held : List Held) (r : Recognizer) (value : Value)
    (heap : Heap) : Prop
  /-- The value describes a shape, which the recognizer takes. -/
  | found {fields : Shape.Fields} {later after : Heap} {shape : Shape}
    (describes : Shape.Describes evaluate held r.context value heap fields later)
    (made : shape.MadeOf fields later after)
    (recognized : r.recognize evaluate held value heap =
      (.ok (true, { r with shape := some shape }), after))
    (required : r.require evaluate held value heap = (.ok { r with shape := some shape }, after))
  /-- The value describes no shape, and the recognizer stays what it is. -/
  | refused {after : Heap} {locations : List Location}
    (other : ∀ fields later, ¬ Shape.Describes evaluate held r.context value heap fields later)
    (recognized : r.recognize evaluate held value heap = (.ok (false, r), after))
    (required : r.require evaluate held value heap =
      (.error (.exception ⟨.notAShape, locations⟩), after))
  /-- A field of the value cannot be read. -/
  | failed {fault : Fault} {after : Heap} (harmless : fault.Harmless)
    (unreadable : Shape.readFields evaluate held r.context value heap = (.error fault, after))
    (recognized : r.recognize evaluate held value heap = (.error fault, after))
    (required : r.require evaluate held value heap = (.error fault, after))

variable {evaluate : Evaluator} {held : List Held} {value : Value} {heap : Heap} {trust : Trust}
  {r : Recognizer}

/-- A recognizer that has a shape looks at nothing. -/
theorem recognize_of_isShape (known : r.isShape) :
    r.recognize evaluate held value heap = (.ok (true, r), heap) := by
  simp only [recognize, known, ↓reduceIte]
  rfl

theorem require_of_isShape (known : r.isShape) :
    r.require evaluate held value heap = (.ok r, heap) := by
  simp only [require, bind_run, recognize_of_isShape known]
  rfl

/-- A recognizer without a shape asks what the value describes. -/
theorem recognize_of_not_isShape (unknown : r.isShape = false) :
    r.recognize evaluate held value heap =
      match Shape.ofValue? evaluate held r.context value heap with
      | (.ok (some shape), after) => (.ok (true, { r with shape := some shape }), after)
      | (.ok none, after) => (.ok (false, r), after)
      | (.error fault, after) => (.error fault, after) := by
  simp only [recognize, unknown, Bool.false_eq_true, ↓reduceIte, bind_run]
  rcases Shape.ofValue? evaluate held r.context value heap with ⟨_ | _ | _, after⟩ <;> rfl

theorem answers (safe : Eval.Safe evaluate) (sound : heap.Sound trust)
    (trusted : heap.Trusts trust value) (unknown : r.isShape = false) :
    r.Answers evaluate held value heap := by
  have recognized := @recognize_of_not_isShape evaluate held value heap r unknown
  have exactly := @Shape.ofValue?_ends evaluate held r.context value heap
  have careful : Careful (Shape.ofValue? evaluate held r.context value) heap trust
      fun found later wider => ∀ shape, found = some shape → ∀ role,
        later.Serves wider (shape.function role) :=
    shape_careful safe sound trusted
  rcases ran : Shape.ofValue? evaluate held r.context value heap with ⟨fault | _ | shape, after⟩ <;>
    simp only [ran] at recognized
  · have required : r.require evaluate held value heap = (.error fault, after) := by
      simp only [require, bind_run, recognized]
    have harmless := (careful.failed ran).1
    rcases exactly.failed ran with unreadable | ⟨d, rfl⟩
    · exact .failed harmless unreadable recognized required
    · exact absurd rfl (harmless d)
  · have required : r.require evaluate held value heap =
        (.error (.exception ⟨.notAShape, r.context.locations after held⟩), after) := by
      simp only [require, bind_run, recognized]
      rfl
    exact .refused (exactly.returned ran) recognized required
  · obtain ⟨fields, later, describes, made⟩ := exactly.returned ran
    refine .found describes made recognized ?_
    simp only [require, bind_run, recognized]
    rfl

/-- Where a shape has to be, looking for it has found it. -/
theorem recognize_of_require {r' : Recognizer} {after : Heap}
    (ran : r.require evaluate held value heap = (.ok r', after)) :
    r.recognize evaluate held value heap = (.ok (true, r'), after) := by
  simp only [require, bind_run] at ran
  rcases looked : r.recognize evaluate held value heap with ⟨fault | ⟨_ | _, found⟩, later⟩ <;>
    simp only [looked] at ran <;> cases ran
  rfl

/-- Looking for a shape ends. -/
theorem recognize_terminates (m : Machine) (heap : Heap) (held : List Held) (value : Value) :
    Terminates (fun fuel => r.recognize (Eval.upTo m fuel) held value) heap fun _ _ => True := by
  have read (name : String) (after : Heap) : Terminates (fun fuel => Eval.field? (Eval.upTo m fuel)
      (.value value :: held) value name r.context) after fun _ _ => True :=
    Eval.field?_terminates m after (.value value :: held) value name r.context
  have capture (lambda : Lambda) (env : FrameId) (after : Heap) :
      Terminates (fun _ => Shape.capture lambda env) after fun _ _ => True := by
    refine .of_ends (Ends.mono .capture (fun _ _ _ => trivial) fun _ _ broken => ?_)
    obtain ⟨d, rfl⟩ := broken
    simp
  have none (after : Heap) : Terminates (fun _ => (pure none : Eval (Option Shape))) after
      fun _ _ => True :=
    .of_ends (.pure trivial)
  cases known : r.isShape with
  | true =>
    refine ⟨0, .ok (true, r), heap, fun _ _ => recognize_of_isShape known, ?_, fun _ _ => trivial⟩
    simp
  | false =>
  simp only [recognize, known, Bool.false_eq_true, ↓reduceIte]
  refine .through (fun _ _ => True) ?_ fun found after _ => ?_
  · refine (read _ _).bind fun dist heap₁ _ => ?_
    split
    case h_2 => exact none _
    refine (read _ _).bind fun colour heap₂ _ => ?_
    split
    case h_2 => exact none _
    refine (read _ _).bind fun flat heap₃ _ => ?_
    refine (read _ _).bind fun solid heap₄ _ => ?_
    split
    case h_2 => exact none _
    split
    case h_2 => exact none _
    refine (read _ _).bind fun box heap₅ _ => ?_
    split
    case h_2 => exact none _
    exact (capture _ _ _).bind fun _ _ _ => (capture _ _ _).bind fun _ _ _ => .of_ends (.pure trivial)
  · cases found <;> exact .of_ends (.pure trivial)

theorem require_terminates (m : Machine) (heap : Heap) (held : List Held) (value : Value) :
    Terminates (fun fuel => r.require (Eval.upTo m fuel) held value) heap fun _ _ => True := by
  refine (recognize_terminates m heap held value).bind ?_
  rintro ⟨_ | _, r'⟩ after -
  · exact .of_ends (.raise (by simp))
  · exact .of_ends (.pure trivial)

end Recognizer

/-- Requests to look for a shape in a value. -/
def Request.LooksAt (request : Request) (recognizer value : Nat) : Prop :=
  request = .recognize recognizer value ∨ request = .require recognizer value

namespace Session

variable {m : Machine} {s s' : Session} {heap after : Heap} {trust : Trust} {held : List Held}
  {i j : Nat} {r : Recognizer} {value : Value} {fields : Shape.Fields}

/-- What a request does to the recognizers of a session. -/
inductive Recognized (m : Machine) (fuel : Nat) (held : List Held) (request : Request)
    (s : Session) (heap : Heap) (s' : Session) (after : Heap) : Prop
  | same (kept : s'.recognizers = s.recognizers)
  | added (nub : Option Location) (more : s'.recognizers = s.recognizers ++ [.new nub])
  | looked {i j : Nat} {r r' : Recognizer} {value : Value} {found : Bool}
    (looks : request.LooksAt i j) (there : s.recognizers[i]? = some r)
    (given : s.values[j]? = some value)
    (ran : r.recognize (Eval.upTo m fuel) held value heap = (.ok (found, r'), after))
    (set : s'.recognizers = s.recognizers.set i r')

/-- What one request does to the recognizers. -/
theorem answer_recognizers (m : Machine) (s : Session) (fuel : Nat) (held : List Held)
    (request : Request) (heap : Heap) : Ends (s.answer m fuel held request) heap
      (fun s' after => Recognized m fuel held request s heap s' after) fun _ _ => True := by
  have unaffected {action : Eval Session} {before : Heap}
      (ends : Ends action before (fun s' _ => s'.recognizers = s.recognizers) fun _ _ => True) :
      Ends action before (fun s' after => Recognized m fuel held request s heap s' after)
        fun _ _ => True :=
    ends.mono (fun _ _ => .same) fun _ _ _ => trivial
  cases request with
  | compile names named source =>
    refine unaffected (Ends.through (fun _ _ => True) (.of_forall fun _ _ => trivial) ?_)
    intro caller _ _
    refine Ends.through (fun _ _ => True) (.of_forall fun _ _ => trivial) fun result _ _ => ?_
    cases result <;> exact .pure rfl
  | eval i =>
    simp only [answer, withProgram]
    split
    · exact unaffected (.map (.of_forall fun _ _ => rfl))
    · exact .pure (.same rfl)
  | constant value => exact .pure (.same rfl)
  | list items => exact .pure (.same rfl)
  | record fields => exact .pure (.same rfl)
  | item i index =>
    simp only [answer, withValue]
    split
    · split
      · rename_i items _ _
        refine .pure (.same ?_)
        cases items[index]? <;> rfl
      · exact .pure (.same rfl)
    · exact .pure (.same rfl)
  | field i name context =>
    simp only [answer, withValue]
    split
    · refine unaffected (.map (.of_forall fun found _ => ?_))
      cases found <;> rfl
    · exact .pure (.same rfl)
  | call i args named site =>
    simp only [answer, withValue]
    split
    · refine unaffected (Ends.through (fun _ _ => True) (.of_forall fun _ _ => trivial) ?_)
      exact fun frame _ _ => .map (.of_forall fun _ _ => rfl)
    · exact .pure (.same rfl)
  | recognizer nub => exact .pure (.added nub rfl)
  | recognize i j =>
    simp only [answer, withRecognizer, withValue]
    split
    · rename_i r there
      split
      · rename_i value given
        refine .map ((Ends.ran fun _ _ _ => trivial).mono ?_ fun _ _ _ => trivial)
        exact fun found after ran => .looked (.inl rfl) there given ran rfl
      · exact .pure (.same rfl)
    · exact .pure (.same rfl)
  | require i j =>
    simp only [answer, withRecognizer, withValue]
    split
    · rename_i r there
      split
      · rename_i value given
        refine .map ((Ends.ran fun _ _ _ => trivial).mono ?_ fun _ _ _ => trivial)
        exact fun r' after ran =>
          .looked (.inr rfl) there given (Recognizer.recognize_of_require ran) rfl
      · exact .pure (.same rfl)
    · exact .pure (.same rfl)
  | dist i p t =>
    simp only [answer, withRecognizer]
    split
    · exact unaffected (.map (.of_forall fun _ _ => rfl))
    · exact .pure (.same rfl)
  | colour i p t =>
    simp only [answer, withRecognizer]
    split
    · exact unaffected (.map (.of_forall fun _ _ => rfl))
    · exact .pure (.same rfl)
  | inline i role param compiler =>
    simp only [answer, withRecognizer]
    split
    · refine unaffected (Ends.through (fun _ _ => True) (.of_forall fun _ _ => trivial) ?_)
      rintro ⟨_ | _, _⟩ _ -
      · exact Ends.throw trivial
      · exact .pure rfl
    · exact .pure (.same rfl)
  | shader i =>
    simp only [answer, withRecognizer]
    split
    · refine unaffected (Ends.through (fun _ _ => True) (.of_forall fun _ _ => trivial) ?_)
      rintro ⟨_, _ | _⟩ _ -
      · exact .pure rfl
      · exact Ends.throw trivial
    · exact .pure (.same rfl)

/-- What one turn does to the recognizers, also if its request fails. -/
theorem turn_recognizers (m : Machine) (t : Turn) (s : Session) (heap : Heap) :
    Recognized m t.fuel t.held t.request s heap (turn m (s, heap) t).2.1
      (turn m (s, heap) t).2.2 := by
  have answered := answer_recognizers m s t.fuel t.held t.request heap
  unfold turn
  rcases ran : s.answer m t.fuel t.held t.request heap with ⟨fault | s', after⟩
  · exact .same rfl
  · exact answered.returned ran

/-- A turn shows the recognizer a value of the host that describes a shape. -/
def Shows (m : Machine) (state : Session × Heap) (i : Nat) (r : Recognizer) (t : Turn)
    (fields : Shape.Fields) (later : Heap) : Prop :=
  ∃ j value, t.request.LooksAt i j ∧ state.1.values[j]? = some value ∧
    Shape.Describes (Eval.upTo m t.fuel) t.held r.context value state.2 fields later

/-- Some turn shows the recognizer a value that describes a shape. -/
def Shown (m : Machine) (state : Session × Heap) (i : Nat) (r : Recognizer) (turns : List Turn) :
    Prop :=
  ∃ before t after fields later, turns = before ++ t :: after ∧
    Shows m (play m state before) i r t fields later

/-- In one turn, a recognizer keeps its shape. -/
theorem turn_keeps (t : Turn) (there : s.recognizers[i]? = some r) (known : r.isShape) :
    (turn m (s, heap) t).2.1.recognizers[i]? = some r := by
  cases turn_recognizers m t s heap with
  | same kept => rw [kept, there]
  | added nub more =>
    rw [more, List.getElem?_append_left (List.getElem?_eq_some_iff.mp there).1, there]
  | @looked i' j r₀ r' value found looks there' given ran set =>
    rw [set]
    by_cases same : i' = i
    · subst same
      obtain rfl := Option.some.inj (there'.symm.trans there)
      cases (Prod.mk.inj (ran.symm.trans (Recognizer.recognize_of_isShape known))).1
      rw [List.getElem?_set_self (List.getElem?_eq_some_iff.mp there).1]
    · rw [List.getElem?_set_ne same, there]

/-- In one turn, a recognizer that is shown no shape stays without one. -/
theorem turn_unshown (t : Turn) (secure : s.Secure heap trust) (there : s.recognizers[i]? = some r)
    (unknown : r.isShape = false) (unshown : ∀ fields later, ¬ Shows m (s, heap) i r t fields later) :
    (turn m (s, heap) t).2.1.recognizers[i]? = some r := by
  cases turn_recognizers m t s heap with
  | same kept => rw [kept, there]
  | added nub more =>
    rw [more, List.getElem?_append_left (List.getElem?_eq_some_iff.mp there).1, there]
  | @looked i' j r₀ r' value found looks there' given ran set =>
    rw [set]
    by_cases same : i' = i
    · subst same
      obtain rfl := Option.some.inj (there.symm.trans there')
      have trusted := secure.values value (List.mem_of_getElem? given)
      have answers : r.Answers (Eval.upTo m t.fuel) t.held value heap :=
        Recognizer.answers (Eval.upTo_safe m t.fuel) secure.sound trusted unknown
      cases answers with
      | found describes => exact absurd ⟨j, value, looks, given, describes⟩ (unshown _ _)
      | refused _ recognized _ =>
        cases ran.symm.trans recognized
        rw [List.getElem?_set_self (List.getElem?_eq_some_iff.mp there).1]
      | failed _ _ recognized _ => cases ran.symm.trans recognized
    · rw [List.getElem?_set_ne same, there]

/-- In one turn, a recognizer that is shown a shape takes it. -/
theorem turn_shown {t : Turn} {later : Heap} (secure : s.Secure heap trust)
    (there : s.recognizers[i]? = some r) (unknown : r.isShape = false)
    (offers : Shows m (s, heap) i r t fields later) :
    ∃ shape : Shape, shape.MadeOf fields later (turn m (s, heap) t).2.2 ∧
      (turn m (s, heap) t).2.1.recognizers[i]? = some { r with shape := some shape } := by
  obtain ⟨j, value, looks, given, describes⟩ := offers
  have trusted := secure.values value (List.mem_of_getElem? given)
  have answers : r.Answers (Eval.upTo m t.fuel) t.held value heap :=
    Recognizer.answers (Eval.upTo_safe m t.fuel) secure.sound trusted unknown
  cases answers with
  | @found _ _ after shape describes' made recognized required =>
    cases describes.read.symm.trans describes'.read
    have answered : s.answer m t.fuel t.held t.request heap =
        (.ok (s.setRecognizer i { r with shape := some shape }), after) := by
      rcases looks with looks | looks <;>
        simp only [looks, answer, withRecognizer, there, withValue, given, map_eq_pure_bind,
          bind_run, recognized, required] <;> rfl
    simp only [turn, answered]
    refine ⟨shape, made, ?_⟩
    exact List.getElem?_set_self (List.getElem?_eq_some_iff.mp there).1
  | refused other => exact absurd describes (other _ _)
  | failed _ unreadable => cases describes.read.symm.trans unreadable

theorem play_append (m : Machine) (state : Session × Heap) (first second : List Turn) :
    play m state (first ++ second) = play m (play m state first) second := by
  induction first generalizing state with
  | nil => rfl
  | cons t first ih => exact ih (turn m state t).2

/-- A recognizer keeps its shape, whatever the host does. -/
theorem play_keeps (turns : List Turn) (there : s.recognizers[i]? = some r) (known : r.isShape) :
    (play m (s, heap) turns).1.recognizers[i]? = some r := by
  induction turns generalizing s heap with
  | nil => exact there
  | cons t turns ih => exact ih (turn_keeps t there known)

/-- A recognizer that is shown no shape stays without one. -/
theorem play_unshown (turns : List Turn) (secure : s.Secure heap trust)
    (there : s.recognizers[i]? = some r) (unknown : r.isShape = false)
    (unshown : ¬ Shown m (s, heap) i r turns) :
    (play m (s, heap) turns).1.recognizers[i]? = some r := by
  induction turns generalizing s heap trust with
  | nil => exact there
  | cons t turns ih =>
    obtain ⟨-, _, -, secure'⟩ := turn_secure m t secure
    refine ih secure' (turn_unshown t secure there unknown fun fields later offers => ?_) ?_
    · exact unshown ⟨[], t, turns, fields, later, rfl, offers⟩
    · rintro ⟨before, t', after, fields, later, rfl, offers⟩
      exact unshown ⟨t :: before, t', after, fields, later, rfl, offers⟩

/-- The first shape that a recognizer is shown is the one that it has from then on. -/
theorem play_first {before : List Turn} {t : Turn} {later : Heap} (rest : List Turn)
    (secure : s.Secure heap trust) (there : s.recognizers[i]? = some r)
    (unknown : r.isShape = false) (unshown : ¬ Shown m (s, heap) i r before)
    (offers : Shows m (play m (s, heap) before) i r t fields later) :
    ∃ shape : Shape, shape.MadeOf fields later (play m (s, heap) (before ++ [t])).2 ∧
      (play m (s, heap) (before ++ t :: rest)).1.recognizers[i]? =
        some { r with shape := some shape } := by
  have there' := play_unshown before secure there unknown unshown
  obtain ⟨_, -, secure'⟩ := play_secure m before secure
  obtain ⟨shape, made, taken⟩ := turn_shown secure' there' unknown offers
  refine ⟨shape, ?_, ?_⟩
  · rw [play_append]
    exact made
  · rw [play_append]
    exact play_keeps rest taken rfl

end Session

/-- The shape has a dimension, and the frames of its functions have room for all that the functions
put into them. -/
structure Shape.Whole (shape : Shape) (heap : Heap) : Prop where
  dimension : shape.is2d = true ∨ shape.is3d = true
  frames : ∀ role, ∃ frame, heap.frame? (shape.function role).frame = some frame ∧
    frame.slots.length = (shape.function role).lambda.slotCount ∧
    ∀ slot ∈ List.range (shape.function role).lambda.paramCount ++
      (shape.function role).lambda.body.letSlots, slot < frame.slots.length

/-- A shape, if there is one, has a dimension. -/
def Recognizer.Spatial (r : Recognizer) : Prop :=
  ∀ shape, r.shape = some shape → shape.is2d = true ∨ shape.is3d = true

theorem Recognizer.Spatial.recognize {evaluate : Evaluator} {held : List Held} {value : Value}
    {heap after : Heap} {r r' : Recognizer} {found : Bool} (spatial : r.Spatial)
    (ran : r.recognize evaluate held value heap = (.ok (found, r'), after)) : r'.Spatial := by
  cases known : r.isShape with
  | true =>
    cases (Prod.mk.inj (ran.symm.trans (recognize_of_isShape known))).1
    exact spatial
  | false =>
    rw [recognize_of_not_isShape known] at ran
    rcases looked : Shape.ofValue? evaluate held r.context value heap with
      ⟨fault | _ | shape, later⟩ <;> simp only [looked] at ran <;> cases ran
    · exact spatial
    · obtain ⟨fields, before, -, made⟩ := Shape.ofValue?_ends.returned looked
      intro other same
      obtain rfl := Option.some.inj same
      exact made.dimension

namespace Session

variable {m : Machine} {s : Session} {heap : Heap} {trust : Trust} {r : Recognizer}

theorem turn_spatial (t : Turn) (spatial : ∀ r ∈ s.recognizers, r.Spatial) :
    ∀ r ∈ (turn m (s, heap) t).2.1.recognizers, r.Spatial := by
  intro r mem
  cases turn_recognizers m t s heap with
  | same kept => exact spatial r (kept ▸ mem)
  | added nub more =>
    rw [more] at mem
    rcases List.mem_append.mp mem with mem | mem
    · exact spatial r mem
    · obtain rfl := List.mem_singleton.mp mem
      intro shape same
      cases same
  | looked looks there given ran set =>
    rw [set] at mem
    rcases List.mem_or_eq_of_mem_set mem with mem | rfl
    · exact spatial r mem
    · exact (spatial _ (List.mem_of_getElem? there)).recognize ran

theorem play_spatial (turns : List Turn) (spatial : ∀ r ∈ s.recognizers, r.Spatial) :
    ∀ r ∈ (play m (s, heap) turns).1.recognizers, r.Spatial := by
  induction turns generalizing s heap with
  | nil => exact spatial
  | cons t turns ih => exact ih (turn_spatial t spatial)

/-- Every shape of a session is complete. -/
theorem Secure.whole (secure : s.Secure heap trust) (mem : r ∈ s.recognizers)
    (spatial : r.Spatial) {shape : Shape} (here : r.shape = some shape) : shape.Whole heap := by
  refine ⟨spatial shape here, fun role => ?_⟩
  obtain ⟨frame, env, found, size, -, -, sees⟩ :=
    (secure.recognizers r mem shape here role).frame
  refine ⟨frame, found, size, fun slot used => ?_⟩
  cases sees with
  | lambda room => exact size ▸ room.inside slot used

/-- What a host can rely on that has a recognizer. The first value shown to it that describes a
shape becomes its shape for good; no other value does, and nothing else changes it. -/
structure RecognizesOnce (m : Machine) (s : Session) (heap : Heap) (i : Nat) (r : Recognizer) :
    Prop where
  whole : ∀ shape, r.shape = some shape → shape.Whole heap
  ends : ∀ value held, Terminates (fun fuel => r.recognize (Eval.upTo m fuel) held value) heap
      (fun _ _ => True) ∧
    Terminates (fun fuel => r.require (Eval.upTo m fuel) held value) heap fun _ _ => True
  answers : r.isShape = false → ∀ value ∈ s.values, ∀ fuel held,
    r.Answers (Eval.upTo m fuel) held value heap
  settled : r.isShape → ∀ evaluate held value later,
    r.recognize evaluate held value later = (.ok (true, r), later) ∧
      r.require evaluate held value later = (.ok r, later)
  kept : r.isShape → ∀ turns, (play m (s, heap) turns).1.recognizers[i]? = some r
  unshown : r.isShape = false → ∀ turns, ¬ Shown m (s, heap) i r turns →
    (play m (s, heap) turns).1.recognizers[i]? = some r
  first : r.isShape = false → ∀ before t rest fields later, ¬ Shown m (s, heap) i r before →
    Shows m (play m (s, heap) before) i r t fields later →
    ∃ shape : Shape, shape.MadeOf fields later (play m (s, heap) (before ++ [t])).2 ∧
      (play m (s, heap) (before ++ t :: rest)).1.recognizers[i]? =
        some { r with shape := some shape }

theorem Secure.recognizesOnce (secure : s.Secure heap trust)
    (spatial : ∀ r ∈ s.recognizers, r.Spatial) {i : Nat} (there : s.recognizers[i]? = some r) :
    RecognizesOnce m s heap i r where
  whole := fun _ here =>
    have mem := List.mem_of_getElem? there
    secure.whole mem (spatial r mem) here
  ends := fun value _ => ⟨r.recognize_terminates m heap _ value,
    r.require_terminates m heap _ value⟩
  answers := fun unknown value mem fuel _ =>
    Recognizer.answers (Eval.upTo_safe m fuel) secure.sound (secure.values value mem) unknown
  settled := fun known _ _ _ _ =>
    ⟨Recognizer.recognize_of_isShape known, Recognizer.require_of_isShape known⟩
  kept := fun known turns => play_keeps turns there known
  unshown := fun unknown turns unshown => play_unshown turns secure there unknown unshown
  first := fun unknown _ _ rest _ _ unshown offers =>
    play_first rest secure there unknown unshown offers

end Session

namespace Program

/-- Whatever a host has done with a program and what it got from it, each of its recognizers takes
exactly the values that describe a shape, keeps the first of them and is changed by nothing
else. -/
theorem recognition_exact (m : Machine) (names : Namespace) (held : List Held)
    (caller : Option FrameId) (source : Source) (heap : Heap)
    (known : ∀ id, caller = some id → ∃ frame, heap.frame? id = some frame) (p : Program)
    (compiled : Heap) (accepted : compile names held caller source heap = (.ok (.ok p), compiled))
    (turns : List Turn) (s : Session) (reached : Heap)
    (played : Session.play m (.start p, compiled) turns = (s, reached)) (i : Nat) (r : Recognizer)
    (there : s.recognizers[i]? = some r) : Session.RecognizesOnce m s reached i r := by
  obtain ⟨trust, secure⟩ := start_secure known accepted
  obtain ⟨wider, -, secure'⟩ := Session.play_secure m turns secure
  have spatial := @Session.play_spatial m (Session.start p) compiled turns (by simp [Session.start])
  rw [played] at secure' spatial
  exact secure'.recognizesOnce spatial there

/-- A module without a colour, and a module that describes a shape of two dimensions. -/
def sketches : Source :=
  ⟨"sketches", "[{dist(p) = 1}, {dist(p, t) = 1; colour(q) = [1, 1, 1]; is_2d_shape = true}]"⟩

/-- A host has both sketches and a recognizer, which takes the second one if it is shown both. -/
theorem recognition_exact_sketches : ∃ p compiled s reached r,
    compile [] [] none sketches .empty = (.ok (.ok p), compiled) ∧
    Session.play .standard (.start p, compiled) [⟨.eval 0, 9, []⟩, ⟨.item 0 0, 9, []⟩,
      ⟨.item 0 1, 9, []⟩, ⟨.recognizer none, 9, []⟩] = (s, reached) ∧
    s.recognizers[0]? = some r ∧ r.isShape = false ∧
    (Session.play .standard (s, reached)
      [⟨.recognize 0 1, 9, []⟩, ⟨.require 0 2, 9, []⟩]).1.recognizers[0]?.any (·.is2d) ∧
    Session.RecognizesOnce .standard s reached 0 r := by
  have run : ((compile [] [] none sketches .empty).1.toOption.bind Except.toOption).any fun p =>
      let state := Session.play .standard (.start p, (compile [] [] none sketches .empty).2)
        [⟨.eval 0, 9, []⟩, ⟨.item 0 0, 9, []⟩, ⟨.item 0 1, 9, []⟩, ⟨.recognizer none, 9, []⟩]
      state.1.recognizers[0]?.any (fun r => !r.isShape) &&
        (Session.play .standard state
          [⟨.recognize 0 1, 9, []⟩, ⟨.require 0 2, 9, []⟩]).1.recognizers[0]?.any (·.is2d) := by
    decide +kernel
  rcases accepted : compile [] [] none sketches .empty with ⟨fault | errors | p, compiled⟩
  · simp [accepted, Except.toOption] at run
  · simp [accepted, Except.toOption] at run
  rcases played : Session.play .standard (.start p, compiled) [⟨.eval 0, 9, []⟩, ⟨.item 0 0, 9, []⟩,
      ⟨.item 0 1, 9, []⟩, ⟨.recognizer none, 9, []⟩] with ⟨s, reached⟩
  cases there : s.recognizers[0]? with
  | none => simp [accepted, played, there, Except.toOption] at run
  | some r =>
    simp only [accepted, Except.toOption, Option.bind_some, Option.any_some, played, there,
      Bool.and_eq_true, Bool.not_eq_eq_eq_not, Bool.not_true] at run
    exact ⟨p, compiled, s, reached, r, rfl, played, there, run.1, run.2,
      recognition_exact .standard [] [] none sketches .empty (by simp) p compiled accepted _ s
        reached played 0 r there⟩

end Program

end ShapeLang
