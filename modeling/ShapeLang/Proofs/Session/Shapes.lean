import ShapeLang.Proofs.Session.Queries

/-! # A shape is sampled as its functions are called

After any queries, each sample of a shape is what calling the function gives that is in the field
of the value, and the shader code is that which was written before.
-/

namespace ShapeLang

open Denotation

section Ending

variable (m : Machine) (heap : Heap) (held : List Held)

/-- Sampling ends, whatever the shape is. -/
theorem Recognizer.sample_terminates {α : Type} (r : Recognizer) (role : ShapeRole)
    (result : Value → Except ErrorKind α) (p : Point) (t : Float) :
    Terminates (fun fuel => r.sample (Eval.upTo m fuel) held role result p t) heap
      fun _ _ => True := by
  have told (context : Context) (held : List Held) (value : Value) (after : Heap) :
      Terminates (fun _ => Eval.blaming held context (result value)) after fun _ _ => True :=
    .of_ends (.blaming (fun _ _ => trivial) (by simp))
  have store {id : FrameId} {slot : Nat} {content : Slot} {after : Heap} :
      Terminates (fun _ => Eval.store id slot content) after fun _ _ => True :=
    .of_ends (.store (fun _ _ _ => trivial) (by simp) (by simp))
  have evaluated (held : List Held) (function : ShapeFunction) (after : Heap) :
      Terminates (fun fuel => Eval.upTo m fuel held function.frame function.lambda.body) after
        fun _ _ => True :=
    (Eval.upTo_terminates m after held _ _).mono fun _ _ _ => trivial
  refine .through (fun _ _ => True) (.of_ends ?_) fun function between _ => ?_
  · unfold Recognizer.function
    split
    · exact .pure trivial
    · exact .raise (by simp)
  refine .through (fun _ _ => True) ?_ fun value after _ => told _ _ value after
  refine .through (fun _ _ => True) (.of_ends (.modify trivial)) fun _ cleared _ => ?_
  split
  · exact .through (fun _ _ => True) store fun _ after _ => evaluated _ function after
  · exact .through (fun _ _ => True) store fun _ after _ =>
      .through (fun _ _ => True) store fun _ last _ => evaluated _ function last

theorem Session.callAndConvert_terminates {α : Type} (function : Value) (args : List Value)
    (caller : Option FrameId) (site : Location) (result : Value → Except ErrorKind α) :
    Terminates (fun fuel => Session.callAndConvert m fuel held function args caller site result)
      heap fun _ _ => True :=
  (callingFrame_terminates heap caller).through (fun _ _ => True) fun frame between _ =>
    (Eval.call_terminates m between held function args frame site).through (fun _ _ => True)
      fun _ _ _ => .of_ends (.blaming (fun _ _ => trivial) (by simp))

end Ending

/-- A function of a shape was made of a closure, which is still what the field of a value gives. -/
structure ShapeFunction.MadeOf (m : Machine) (heap : Heap) (function : ShapeFunction)
    (value : Value) (name : String) (closure : Value) : Prop where
  code : ∃ serial frame env, closure = .closure serial function.lambda env ∧
    heap.frame? function.frame = some frame ∧ frame.parent = some env
  field : ∀ held context, ∃ enough, ∀ fuel, enough ≤ fuel →
    (Eval.field? (Eval.upTo m fuel) held value name context heap).1 = .ok (some closure)

/-- Two exports write the same, and fail in the same way if they fail. -/
inductive SameExport : Except Fault (String × Option Fault) →
    Except Fault (String × Option Fault) → Prop
  | written (text : String) : SameExport (.ok (text, none)) (.ok (text, none))
  | failed (text : String) {fault fault' : Fault} (same : fault.SameKind fault') :
    SameExport (.ok (text, some fault)) (.ok (text, some fault'))
  | unfinished (text : String) :
    SameExport (.ok (text, some .outOfFuel)) (.ok (text, some .outOfFuel))

/-- A shape that is queried at one time is what its functions are at another time: samples are what
calls of the closures give that are in the fields of the value, and the shader code is the same. -/
structure Shape.Undisturbed (m : Machine) (r : Recognizer) (shape : Shape) (value : Value)
    (heap heap' : Heap) : Prop where
  sampled : ∃ closure : ShapeRole → Value,
    (∀ role : ShapeRole,
      (shape.function role).MadeOf m heap' value role.name (closure role)) ∧
    ∀ held held' p t caller site,
      AlikeUnlessDeep (fun fuel => r.dist (Eval.upTo m fuel) held p t)
        (fun fuel => Session.callAndConvert m fuel held' (closure .dist)
          (shape.dist.pointArgs p t) caller site Eval.toNumber) heap heap' ∧
      AlikeUnlessDeep (fun fuel => r.colour (Eval.upTo m fuel) held p t)
        (fun fuel => Session.callAndConvert m fuel held' (closure .colour)
          (shape.colour.pointArgs p t) caller site Recognizer.toColour) heap heap'
  exported : ∀ held held' depth, ∃ enough, ∀ fuel fuel', enough ≤ fuel → enough ≤ fuel' →
    SameExport (r.shader (Eval.upTo m fuel) held depth heap).1
      (r.shader (Eval.upTo m fuel') held' depth heap').1

namespace Session

variable {m : Machine} {s s' : Session} {r : Recognizer} {shape : Shape} {found : ShapeRole → Den}
  {dens dens' : List Den} {heap heap' : Heap} {view view' : View} {trust trust' : Trust}
  {k k' : Nat} {value : Value} {den : Den}

theorem Denoted.mono (denoted : Denoted m s dens heap view trust k) (le : k ≤ k') :
    Denoted m s dens heap view trust k' :=
  { denoted with knows := denoted.knows.mono le }

/-- A closure is known by the place where it was made. -/
theorem closure_of_means (reflects : Reflects m [] view heap) {serial : Nat} {lambda : Lambda}
    {env : FrameId} (means : Means [] view [] (.closure serial lambda env) den)
    (means' : Means [] view [] value den) : value = .closure serial lambda env := by
  cases means with | closure made known =>
  cases means' with | closure made' known' =>
  rw [reflects.origins _ _ _ made made', reflects.frames _ _ _ _ known known' rfl]

/-- The closures that a shape was made of can be read from the value that it came from. -/
theorem Denoted.madeOf (denoted : Denoted m s dens heap view trust k)
    (means : Means [] view [] value den) (describes : Describes m view heap den shape found) :
    ∃ closure : ShapeRole → Value, (∀ role : ShapeRole,
      (shape.function role).MadeOf m heap value role.name (closure role)) ∧
      ∀ role, Means [] view [] (closure role) (found role) := by
  have each (role : ShapeRole) : ∃ closure,
      (shape.function role).MadeOf m heap value role.name closure ∧
        Means [] view [] closure (found role) := by
    obtain ⟨frame, serial, env, there, -, parent, captured⟩ := describes.captured role
    refine ⟨_, ⟨⟨serial, frame, env, rfl, there, parent⟩, fun held context => ?_⟩, captured⟩
    obtain ⟨enough, result, after, settled, fueled, -⟩ :=
      Eval.field?_terminates m heap held value role.name context
    refine ⟨enough, fun fuel le => ?_⟩
    have agrees : Agrees m [] [] heap view
        (Eval.field? (Eval.upTo m enough) held value role.name context)
        (fun n => field? (upTo m n) den role.name)
        fun wider part part' => Option.Rel (Means [] wider []) part part' :=
      agrees_field? (upTo_simulates m enough) denoted.knows.reflects means
    dsimp only at settled
    have ran := settled enough (Nat.le_refl _)
    rw [settled fuel le]
    cases result with
    | error fault =>
      obtain ⟨-, excused⟩ := agrees.failed ran
      exact (excused.not_settles (fun same => fueled (congrArg _ same))
        (describes.field role)).elim
    | ok part =>
      obtain ⟨wider, part', evolves, reflects, settles, read⟩ := agrees.returned ran
      obtain rfl := Except.ok.inj (settles.unique (describes.field role))
      cases read with | some read =>
      rw [closure_of_means reflects (captured.later evolves) read]
  choose closure made means using each
  exact ⟨closure, made, means⟩

section Pair

variable (denoted : Denoted m s dens heap view trust k)
  (denoted' : Denoted m s' dens' heap' view' trust' k) (here : r.shape = some shape)
  (mem : r ∈ s.recognizers)
  (captured : ∀ role, Captured view heap (shape.function role) (found role))
include denoted denoted' here mem captured

/-- A sample at one time is what a call gives at another time. -/
theorem Denoted.sampled {α : Type} {result : Value → Except ErrorKind α}
    (converts : Converts result) (role : ShapeRole) {closure : Value}
    (means : Means [] view' [] closure (found role)) (held held' : List Held) (p : Point)
    (t : Float) (caller : Option FrameId) (site : Location) :
    AlikeUnlessDeep (fun fuel => r.sample (Eval.upTo m fuel) held role result p t)
      (fun fuel => callAndConvert m fuel held' closure ((shape.function role).pointArgs p t) caller
        site result) heap heap' := by
  have offers := denoted.offers mem here role (captured role)
  obtain ⟨depth, x, outer, same, agrees⟩ := denoted.knows.agrees_sample converts here offers
  obtain ⟨depth', agrees'⟩ := denoted'.knows.agrees_callAndConvert converts means
    (means_pointArgs [] view' [] (shape.function role) p t) caller site
  obtain ⟨enough, last, settled, final⟩ := Agrees.final
    (Recognizer.sample_terminates m heap held r role result p t) fun fuel => agrees fuel held p t
  obtain ⟨enough', last', settled', final'⟩ := Agrees.final
    (callAndConvert_terminates m heap' held' closure _ caller site result)
    fun fuel => agrees' fuel held'
  refine ⟨max enough enough', last, last', fun fuel le => settled fuel (by omega),
    fun fuel le => settled' fuel (by omega), final.alike (fun n => ?_) final'⟩
  have count : (pointDens (shape.function role) p t).length =
      (shape.function role).lambda.paramCount := by
    rw [pointDens, List.length_map, (shape.function role).length_pointArgs offers.paramCount]
  rw [same]
  refine (resembles_call_upTo x outer depth depth' count [.part k] n).bind
    fun value value' flat => ?_
  rw [outline_of_flat flat]
  exact .refl

/-- The shader code at two times. -/
theorem Denoted.exported
    (captured' : ∀ role, Captured view' heap' (shape.function role) (found role))
    (mem' : r ∈ s'.recognizers) (held held' : List Held) (depth : Nat) :
    ∃ enough, ∀ fuel fuel', enough ≤ fuel → enough ≤ fuel' →
      SameExport (r.shader (Eval.upTo m fuel) held depth heap).1
        (r.shader (Eval.upTo m fuel') held' depth heap').1 := by
  have heaps : (captures m (r.held ++ held) (r.held ++ held') k).heaps
      (⟨heap, view⟩, ⟨heap', view'⟩) heap heap' :=
    ⟨⟨rfl, denoted.knows.reflects⟩, rfl, denoted'.knows.reflects⟩
  obtain ⟨enough, last, last', ran, ran', alike⟩ :=
    writeShader_alongside here here
      (fun role wider after after' later heaps => by
        obtain ⟨⟨rfl, -⟩, rfl, -⟩ := heaps
        exact ((captured role).later later.1).code ((captured' role).later later.2))
      heaps depth [.dist, .colour]
  dsimp only at ran ran'
  refine ⟨enough, fun fuel fuel' le le' => ?_⟩
  have harmless {s : Session} {heap : Heap} {trust : Trust} (secure : s.Secure heap trust)
      (mem : r ∈ s.recognizers) (fuel : Nat) (held : List Held) :
      Careful (r.writeShader (Eval.upTo m fuel) held depth [.dist, .colour]) heap trust
        fun result _ _ => ∀ fault, result.2 = some fault → fault.Harmless :=
    writeShader_careful (Eval.upTo_safe m fuel) secure.sound (secure.recognizers r mem)
      [.dist, .colour]
  have first := harmless denoted.secure mem fuel held
  have second := harmless denoted'.secure mem' fuel' held'
  have done := ran fuel le
  have done' := ran' fuel' le'
  rw [Recognizer.shader, Recognizer.shader, done, done']
  cases alike with
  | failed impossible => exact impossible.elim
  | @returned out out' after after' ended =>
    obtain ⟨text, fault⟩ := out
    obtain ⟨text', fault'⟩ := out'
    obtain ⟨rfl, like, -⟩ := ended
    obtain ⟨_, -, apart⟩ := first.returned done
    cases like with
    | none => exact .written _
    | some like =>
      cases like with
      | exception same => exact .failed _ (.exception same)
      | defect d => exact (apart _ rfl d rfl).elim
      | outOfFuel => exact .unfinished _

end Pair

/-- A host has a shape. Then it makes no difference to its queries what the host does before them
with its values and shapes. -/
theorem Denoted.undisturbed (denoted : Denoted m s dens heap view trust k) {i : Nat}
    (there : s.recognizers[i]? = some r) (here : r.shape = some shape) (first second : List Turn)
    (uses : ∀ t ∈ first ++ second, t.request.UsesShapes) :
    (Session.play m (s, heap) first).1.recognizers[i]? = some r ∧ ∃ value ∈ s.values,
      shape.Undisturbed m r value (Session.play m (s, heap) first).2
        (Session.play m (s, heap) second).2 := by
  simp only [List.mem_append] at uses
  obtain ⟨value, mem, den, found, means, describes⟩ :=
    denoted.shapes r (List.mem_of_getElem? there) shape here
  obtain ⟨_, view₁, trust₁, k₁, denoted₁, kept₁⟩ :=
    denoted.play first fun t mem => uses t (.inl mem)
  obtain ⟨_, view₂, trust₂, k₂, denoted₂, kept₂⟩ :=
    denoted.play second fun t mem => uses t (.inr mem)
  obtain ⟨there₁, captured₁⟩ := kept₁.shapes i r shape found there here describes.captured
  obtain ⟨there₂, captured₂⟩ := kept₂.shapes i r shape found there here describes.captured
  have mem₁ := List.mem_of_getElem? there₁
  have mem₂ := List.mem_of_getElem? there₂
  have denoted₁ := denoted₁.mono (Nat.le_max_left k₁ k₂)
  have denoted₂ := denoted₂.mono (Nat.le_max_right k₁ k₂)
  obtain ⟨closure, made, meant⟩ :=
    denoted₂.madeOf ((kept₂.values value mem).2 den means) ⟨describes.field, captured₂⟩
  refine ⟨there₁, value, mem, ⟨closure, made, fun held held' p t caller site => ⟨?_, ?_⟩⟩,
    denoted₁.exported denoted₂ here mem₁ captured₁ captured₂ mem₂⟩
  · exact denoted₁.sampled denoted₂ here mem₁ captured₁ converts_toNumber .dist (meant .dist)
      held held' p t caller site
  · exact denoted₁.sampled denoted₂ here mem₁ captured₁ converts_toColour .colour
      (meant .colour) held held' p t caller site

end Session

namespace Program

variable {m : Machine} {names : Namespace} {held : List Held} {caller : Option FrameId}
  {source : Source} {heap : Heap} {p : Program}

/-- A program that was compiled is evaluated. Then the host knows what it has. -/
theorem exists_denoted (known : ∀ id, caller = some id → ∃ frame, heap.frame? id = some frame)
    {compiled : Heap} (accepted : compile names held caller source heap = (.ok (.ok p), compiled))
    {earlier : List Turn} {fuel : Nat} {held' : List Held} {value : Value} {evaluated : Heap}
    (ran : p.eval m fuel held' (Session.play m (.start p, compiled) earlier).2 =
      (.ok value, evaluated)) :
    ∃ dens view trust k,
      Session.Denoted m ((Session.start p).addValue value) dens evaluated view trust k := by
  classical
  obtain ⟨trust, secure⟩ := start_secure known accepted
  obtain ⟨trust₁, advance, -⟩ := Session.play_secure m earlier secure
  have secure₁ := secure.advance advance
  obtain ⟨view, den, knows⟩ := ((rooted_compile accepted).later advance.extension).knows ran
  obtain ⟨trust₂, advance₂, trusted⟩ :=
    ((secure₁.programs p (by simp [Session.start])).eval_careful secure₁.sound).returned ran
  have secure₂ := (secure₁.advance advance₂).addValue trusted
  exact ⟨[den], view.within trust₂, trust₂, 1, secure₂,
    knows.within secure₂.sound secure₂.values,
    fun id env known => (View.within_env.mp known).1, by simp [Session.start, Session.addValue]⟩

/-- A program is evaluated at any time, and the host uses the values and shapes that it gets. Then
its queries of a shape do not disturb each other, and neither does anything else that it does: each
sample is what calling the function gives, and the shader code is the same. -/
theorem queries_undisturbed (m : Machine) (names : Namespace) (held : List Held)
    (caller : Option FrameId) (source : Source) (heap : Heap)
    (known : ∀ id, caller = some id → ∃ frame, heap.frame? id = some frame) (p : Program)
    (compiled : Heap) (accepted : compile names held caller source heap = (.ok (.ok p), compiled))
    (earlier : List Turn) (fuel : Nat) (held' : List Held) (value : Value) (evaluated : Heap)
    (ran : p.eval m fuel held' (Session.play m (.start p, compiled) earlier).2 =
      (.ok value, evaluated))
    (before first second : List Turn)
    (uses : ∀ t ∈ before ++ first ++ second, t.request.UsesShapes) (s : Session) (heap' : Heap)
    (reached : Session.play m ((Session.start p).addValue value, evaluated) before = (s, heap'))
    (i : Nat) (r : Recognizer) (there : s.recognizers[i]? = some r) (shape : Shape)
    (here : r.shape = some shape) :
    (Session.play m (s, heap') first).1.recognizers[i]? = some r ∧ ∃ origin ∈ s.values,
      shape.Undisturbed m r origin (Session.play m (s, heap') first).2
        (Session.play m (s, heap') second).2 := by
  simp only [List.mem_append] at uses
  obtain ⟨dens, view, trust, k, denoted⟩ := exists_denoted known accepted ran
  obtain ⟨dens₁, view₁, trust₁, k₁, denoted₁, -⟩ :=
    denoted.play before fun t mem => uses t (.inl (.inl mem))
  rw [reached] at denoted₁
  refine denoted₁.undisturbed there here first second fun t mem => uses t ?_
  rcases List.mem_append.mp mem with mem | mem
  · exact .inl (.inr mem)
  · exact .inr mem

/-- A shape whose distance needs a definition and a function that the definition captured. -/
def cone : Source :=
  ⟨"cone", "{f(x) = x; g = f; dist(p, t) = g(t); colour(q) = [q.x, q.y, q.z]}"⟩

/-- A host that samples the cone and exports it gets the same afterwards as one that has asked for a
colour. -/
theorem queries_undisturbed_cone : ∃ p compiled value evaluated s heap r shape,
    compile [] [] none cone .empty = (.ok (.ok p), compiled) ∧
    p.eval .standard 9 [] compiled = (.ok value, evaluated) ∧
    Session.play .standard ((Session.start p).addValue value, evaluated)
      [⟨.recognizer none, 9, []⟩, ⟨.recognize 0 0, 9, []⟩] = (s, heap) ∧
    s.recognizers[0]? = some r ∧ r.shape = some shape ∧
    (Session.play .standard (s, heap)
      [⟨.dist 0 ⟨0, 0, 0⟩ 0, 9, []⟩, ⟨.shader 0, 9, []⟩]).1.recognizers[0]? = some r ∧
    ∃ origin ∈ s.values, shape.Undisturbed .standard r origin
      (Session.play .standard (s, heap) [⟨.dist 0 ⟨0, 0, 0⟩ 0, 9, []⟩, ⟨.shader 0, 9, []⟩]).2
      (Session.play .standard (s, heap) [⟨.colour 0 ⟨0, 0, 0⟩ 0, 9, []⟩]).2 := by
  have run : ((compile [] [] none cone .empty).1.toOption.bind Except.toOption).any fun p =>
      let state := p.eval .standard 9 [] (compile [] [] none cone .empty).2
      state.1.toOption.any fun value =>
        (Session.play .standard ((Session.start p).addValue value, state.2)
          [⟨.recognizer none, 9, []⟩, ⟨.recognize 0 0, 9, []⟩]).1.recognizers[0]?.any
            (·.isShape) := by
    decide +kernel
  rcases accepted : compile [] [] none cone .empty with ⟨fault | errors | p, compiled⟩
  · simp [accepted, Except.toOption] at run
  · simp [accepted, Except.toOption] at run
  rcases ran : p.eval .standard 9 [] compiled with ⟨fault | value, evaluated⟩
  · simp [accepted, ran, Except.toOption] at run
  rcases reached : Session.play .standard ((Session.start p).addValue value, evaluated)
    [⟨.recognizer none, 9, []⟩, ⟨.recognize 0 0, 9, []⟩] with ⟨s, heap⟩
  cases there : s.recognizers[0]? with
  | none => simp [accepted, ran, reached, there, Except.toOption] at run
  | some r =>
    cases here : r.shape with
    | none => simp [accepted, ran, reached, there, here, Recognizer.isShape, Except.toOption] at run
    | some shape =>
      refine ⟨p, compiled, value, evaluated, s, heap, r, shape, rfl, ran, reached, there, here, ?_⟩
      exact queries_undisturbed .standard [] [] none cone .empty (by simp) p compiled accepted [] 9
        [] value evaluated ran [⟨.recognizer none, 9, []⟩, ⟨.recognize 0 0, 9, []⟩]
        [⟨.dist 0 ⟨0, 0, 0⟩ 0, 9, []⟩, ⟨.shader 0, 9, []⟩] [⟨.colour 0 ⟨0, 0, 0⟩ 0, 9, []⟩]
        (by simp [Request.UsesShapes]) s heap reached 0 r there shape here

end Program

end ShapeLang
