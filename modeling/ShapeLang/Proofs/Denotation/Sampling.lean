import ShapeLang.Proofs.Denotation.Depth
import ShapeLang.Proofs.Denotation.Host
import ShapeLang.Proofs.Eval.Termination
import ShapeLang.Proofs.Session.Careful

/-! # Sampling a shape is calling a function

A function of a shape runs in a frame that is emptied before. While it runs the frame stands for
the environment of a call of the closure that the shape was made of, except for the number of calls
around it.
-/

namespace ShapeLang

/-- Too many calls were nested. -/
inductive TooDeep {α : Type} : Except Fault α → Prop
  | exception {e : Exception} {limit : Nat} (deep : e.kind = .stackOverflow limit) :
    TooDeep (.error (.exception e))

/-- The same result, or exceptions of the same kind. -/
inductive SameResult {α : Type} : Except Fault α → Except Fault α → Prop
  | returned (a : α) : SameResult (.ok a) (.ok a)
  | failed {fault fault' : Fault} (same : fault.SameKind fault') :
    SameResult (.error fault) (.error fault')

/-- Two evaluations have the same result once they are granted fuel enough, unless too many calls
are nested in one of them. -/
def AlikeUnlessDeep {α : Type} (action action' : Nat → Eval α) (heap heap' : Heap) : Prop :=
  ∃ enough result result', (∀ fuel, enough ≤ fuel → (action fuel heap).1 = result) ∧
    (∀ fuel, enough ≤ fuel → (action' fuel heap').1 = result') ∧
    (TooDeep result ∨ TooDeep result' ∨ SameResult result result')

/-- Calls a function from a frame of the host, or from a frame that it names, and converts the
result. -/
def Session.callAndConvert {α : Type} (m : Machine) (fuel : Nat) (held : List Held)
    (function : Value) (args : List Value) (caller : Option FrameId) (site : Location)
    (result : Value → Except ErrorKind α) : Eval α := do
  let frame ← Session.callingFrame caller
  let value ← Eval.call m (Eval.upTo m fuel) held function args frame site
  Eval.blaming held (.place site caller) (result value)

/-- A conversion that cannot tell values of the same form from each other. -/
def Converts {α : Type} (result : Value → Except ErrorKind α) : Prop :=
  ∀ (same : FrameId → FrameId → Prop) (twin : Nat → Nat → Prop) (value value' : Value),
    Value.Alike Eq same twin value value' → result value = result value'

theorem converts_toNumber : Converts Eval.toNumber := fun _ _ _ _ alike => alike.toNumber

theorem converts_toColour : Converts Recognizer.toColour := by
  intro same twin value value' alike
  rw [Recognizer.toColour, Recognizer.toColour, alike.numbers?, alike.shown]

namespace Denotation

variable {m : Machine} {view wider : View} {heap later : Heap} {w : Place} {k : Nat}
  {values : List Value} {dens : List Den} {function : ShapeFunction} {den : Den}

/-- The frame of a shape function is inside the frame that a closure captured. -/
def Captured (view : View) (heap : Heap) (function : ShapeFunction) (den : Den) : Prop :=
  ∃ frame serial env, heap.frame? function.frame = some frame ∧
    frame.slots.length = function.lambda.slotCount ∧ frame.parent = some env ∧
    Means [] view [] (.closure serial function.lambda env) den

/-- A shape function runs in a frame that stands for nothing. -/
structure Offers (view : View) (heap : Heap) (function : ShapeFunction) (den : Den) : Prop where
  paramCount : function.lambda.paramCount = 1 ∨ function.lambda.paramCount = 2
  unknown : view.env function.frame = none
  captured : Captured view heap function den

/-- The denotations of the arguments at a point and a time. -/
def pointDens (function : ShapeFunction) (p : Point) (t : Float) : List Den :=
  (function.pointArgs p t).map .ofPlain

theorem means_pointArgs (busy : List Task) (view : View) (w : Place) (function : ShapeFunction)
    (p : Point) (t : Float) :
    MeansAll busy view w (function.pointArgs p t) (pointDens function p t) := by
  refine ⟨(function.pointArgs p t).map fun value => (value, .ofPlain value), ?_, ?_, ?_⟩
  · simp [Function.comp_def]
  · simp [pointDens, Function.comp_def]
  · intro pair mem
    obtain ⟨value, here, rfl⟩ := List.mem_map.mp mem
    exact .of_plain (function.pointArgs_plain p t value here)

namespace Knows

/-- The arguments wait in the frame of the function, and nothing else has happened. -/
theorem entered (knows : Knows m view heap values dens k) (unknown : view.env function.frame = none)
    (w : Place) (p : Point) (t : Float) :
    Evolves w heap view (function.entered heap p t) view ∧
      Reflects m [] view (function.entered heap p t) := by
  refine knows.reflects.aside (function.extends_entered heap p t) (fun id env known slot => ?_) ?_
  · have different : function.frame ≠ id := by
      rintro rfl
      simp [unknown] at known
    rw [Heap.slot?, Heap.slot?, function.frame?_entered_ne different]
  · rw [ShapeFunction.entered, Heap.closures_putEach]
    exact Nat.le_refl _

/-- A call in the frame of a shape function. -/
theorem agrees_callAt (knows : Knows m view heap values dens k)
    (offers : Offers view heap function den) :
    ∃ depth x outer, den = .closure x function.lambda outer ∧ ∀ fuel held p t,
      Agrees m [] [.part k] heap view (Recognizer.callAt (Eval.upTo m fuel) held function p t)
        (fun n => upTo m n (callee outer [.part k] depth function.lambda (pointDens function p t))
          [.part 0, .part k] function.lambda.body)
        fun wider value value' => Means [] wider [.part k] value value' := by
  obtain ⟨frame, serial, env, found, size, atParent, means⟩ := offers.captured
  cases means with | @closure _ x _ _ outer made known seen around layout inner =>
  refine ⟨frame.depth, x, outer, rfl, fun fuel held p t => ?_⟩
  obtain ⟨evolves, reflects⟩ := knows.entered offers.unknown [.part k] p t
  have count := function.length_pointArgs offers.paramCount p t
  have opened : Open view (function.entered heap p t) [.part k] := by
    have free : Free view heap [] k := knows.free
    have before := free.opened (Nat.le_refl k)
    exact ⟨before.fresh, evolves.awake_of (fun _ _ _ defines => defines) before.awake⟩
  have roomy : function.lambda.paramCount ≤ frame.slots.length := by
    rw [size]
    by_contra less
    have := layout.inside function.lambda.slotCount (by simp; omega)
    omega
  obtain ⟨pairs, given, denoted, parts⟩ := means_pointArgs [] view [.part k] function p t
  have length : pairs.length = function.lambda.paramCount := by
    rw [← count, given, List.length_map]
  refine Ends.callAt offers.paramCount found roomy (Agrees.later evolves ?_)
  obtain ⟨frame', found', parent', depth', size'⟩ :=
    (function.extends_entered heap p t).kept _ frame found
  rw [callee, denoted, ← depth']
  refine agrees_adopt (upTo_simulates m fuel) reflects opened offers.unknown found'
    (parent'.trans atParent) known (.nil _ x) around ?_ ?_ ?_ parts
  · simpa [length, size, size'] using layout
  · rw [length]
    exact inner
  · intro slot value there
    rw [← given] at there
    have low : slot < frame.slots.length := by
      have := (List.getElem?_eq_some_iff.mp there).1
      omega
    have mem := mem_readies_of_getElem? 0 (function.pointArgs p t) slot value there
    rw [Nat.zero_add] at mem
    rw [Heap.slot?, function.frame?_entered found, Option.bind_some]
    refine getElem?_setEach_of_mem ?_ mem (by simpa using low)
    rw [map_readies]
    exact List.nodup_range'

variable {α : Type} {result : Value → Except ErrorKind α}

/-- Sampling a shape: the result is made of what a call denotes. -/
theorem agrees_sample (knows : Knows m view heap values dens k) (converts : Converts result)
    {r : Recognizer} {shape : Shape} (here : r.shape = some shape) {role : ShapeRole}
    (offers : Offers view heap (shape.function role) den) :
    ∃ depth x outer, den = .closure x (shape.function role).lambda outer ∧ ∀ fuel held p t,
      Agrees m [] [.part k] heap view (r.sample (Eval.upTo m fuel) held role result p t)
        (fun n => upTo m n (callee outer [.part k] depth (shape.function role).lambda
            (pointDens (shape.function role) p t)) [.part 0, .part k]
          (shape.function role).lambda.body >>= fun den => expect (result den.outline))
        fun _ a a' => a = a' := by
  obtain ⟨depth, x, outer, same, agrees⟩ := knows.agrees_callAt offers
  refine ⟨depth, x, outer, same, fun fuel held p t => ?_⟩
  simp only [Recognizer.sample, Recognizer.function, here, pure_bind]
  refine (agrees fuel _ p t).bind List.suffix_rfl ?_
  intro value value' later wider evolves reflects means
  exact (Agrees.test reflects (converts _ _ _ _ means.alike)).mono fun _ _ _ ok => ok.2

/-- A call that the host makes, and what it makes of the result. -/
theorem agrees_callAndConvert (knows : Knows m view heap values dens k)
    (converts : Converts result) {value : Value} (means : Means [] view [] value den)
    {args : List Value} {args' : List Den} (all : MeansAll [] view [] args args')
    (caller : Option FrameId) (site : Location) :
    ∃ depth, ∀ fuel held, Agrees m [] [.part k] heap view
      (Session.callAndConvert m fuel held value args caller site result)
      (fun n => call m (upTo m n) den args' depth [.part k] >>= fun den =>
        expect (result den.outline)) fun _ a a' => a = a' := by
  obtain ⟨depth, -, agrees⟩ := knows.agrees_call means all caller site
  refine ⟨depth, fun fuel held => ?_⟩
  have told (value : Value) (value' : Den) (later : Heap) (wider : View)
      (reflects : Reflects m [] wider later) (means : Means [] wider [.part k] value value') :
      Agrees m [] [.part k] later wider (Eval.blaming held (.place site caller) (result value))
        (fun _ => expect (result value'.outline)) fun _ a a' => a = a' :=
    (Agrees.test reflects (converts _ _ _ _ means.alike)).mono fun _ _ _ ok => ok.2
  have converted := (agrees fuel held).bind List.suffix_rfl fun value value' later wider _ =>
    told value value' later wider
  simpa only [Session.callAndConvert, bind_assoc] using converted

end Knows

section Comparison

variable {α : Type} {result : Value → Except ErrorKind α}

/-- A call denotes the same, whatever calls are around it. -/
theorem resembles_call_upTo {lambda : Lambda} {args : List Den} (x : Place) (outer : Env)
    (depth depth' : Nat) (count : args.length = lambda.paramCount) (w : Place) (n : Nat) :
    Resembles Den.flat (upTo m n (callee outer w depth lambda args) (.part 0 :: w) lambda.body)
      (call m (upTo m n) (.closure x lambda outer) args depth' w) := by
  by_cases deep : m.maxCallDepth < depth' + 1
  · refine .inr (.inl ⟨m.maxCallDepth, ?_⟩)
    simp only [call, count, ne_eq, not_true_eq_false, ↓reduceIte, deep]
    rfl
  · simp only [call, count, ne_eq, not_true_eq_false, ↓reduceIte, deep]
    exact levels_upTo m n _ _ _ _ (Env.flat_frame rfl rfl)

/-- How an evaluation ends that agrees with outcomes and has fuel enough. -/
inductive Final (family : Nat → Outcome α) : Except Fault α → Prop
  | returned {a : α} (settles : Settles family (.ok a)) : Final family (.ok a)
  | failed {e : Exception} (settles : Settles family (.error e.kind)) :
    Final family (.error (.exception e))
  | circular {e : Exception} (circular : e.kind = .recursiveDefinition)
    (diverges : Diverges family) : Final family (.error (.exception e))

theorem Agrees.final {action : Nat → Eval α} {family : Nat → Outcome α}
    (ends : Terminates action heap fun _ _ => True)
    (agrees : ∀ fuel, Agrees m [] w heap view (action fuel) family fun _ a a' => a = a') :
    ∃ enough result, (∀ fuel, enough ≤ fuel → (action fuel heap).1 = result) ∧
      Final family result := by
  obtain ⟨enough, result, after, settled, fueled, -⟩ := ends
  refine ⟨enough, result, fun fuel le => by rw [settled fuel le], ?_⟩
  have ran := settled enough (Nat.le_refl _)
  cases result with
  | ok a =>
    obtain ⟨_, _, -, -, settles, rfl⟩ := (agrees enough).returned ran
    exact .returned settles
  | error fault =>
    obtain ⟨-, excused⟩ := (agrees enough).failed ran
    cases fault with
    | exception e =>
      rcases excused with settles | ⟨circular, needs⟩
      · exact .failed settles
      · exact .circular circular needs.diverges
    | defect d => exact excused.elim
    | outOfFuel => exact (fueled rfl).elim

section Final

variable {family family' : Nat → Outcome α} {last last' : Except Fault α}

theorem Final.alike (resembles : ∀ n, Resembles id (family n) (family' n))
    (final : Final family last) (final' : Final family' last') :
    TooDeep last ∨ TooDeep last' ∨ SameResult last last' := by
  by_cases deep : TooDeep last
  · exact .inl deep
  by_cases deep' : TooDeep last'
  · exact .inr (.inl deep')
  refine .inr (.inr ?_)
  have shallow {e : Exception} (flat : ¬ TooDeep (.error (.exception e) : Except Fault α))
      (limit : Nat) : (.error e.kind : Except ErrorKind α) ≠ .error (.stackOverflow limit) :=
    fun same => flat (.exception (Except.error.inj same))
  have returns (a : α) (limit : Nat) :
      (.ok a : Except ErrorKind α) ≠ .error (.stackOverflow limit) := by simp
  have resembles' (n : Nat) := (resembles n).symm
  cases final with
  | @returned a settles =>
    cases final' with
    | @returned a' settles' =>
      obtain rfl : a = a' := by
        simpa using Resembles.settles resembles settles settles' (returns a) (returns a')
      exact .returned a
    | failed settles' =>
      cases Resembles.settles resembles settles settles' (returns a) (shallow deep')
    | circular _ diverges =>
      exact (Resembles.not_diverges resembles settles (returns a) diverges).elim
  | @failed e settles =>
    cases final' with
    | @returned a' settles' =>
      cases Resembles.settles resembles settles settles' (shallow deep) (returns a')
    | @failed e' settles' =>
      have same := Resembles.settles resembles settles settles' (shallow deep) (shallow deep')
      exact .failed (.exception (Except.error.inj same))
    | circular _ diverges =>
      exact (Resembles.not_diverges resembles settles (shallow deep) diverges).elim
  | circular circular diverges =>
    cases final' with
    | @returned a' settles' =>
      exact (Resembles.not_diverges resembles' settles' (returns a') diverges).elim
    | failed settles' =>
      exact (Resembles.not_diverges resembles' settles' (shallow deep') diverges).elim
    | circular circular' => exact .failed (.exception (circular.trans circular'.symm))

end Final

end Comparison

end Denotation

end ShapeLang
