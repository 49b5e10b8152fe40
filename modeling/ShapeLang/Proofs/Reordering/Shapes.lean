import ShapeLang.Proofs.Reordering.Evaluation
import ShapeLang.Proofs.Shader.Exports

/-! # Shapes of twin code

Twin code describes the same shapes: they are recognized alike, their functions give the same at
each point, and the same shader code is written for them.
-/

namespace ShapeLang.Reordering

open Eval

variable {literals : Location → Location → Prop} {layouts wider : Layouts} {heap heap' : Heap}
  {evaluate evaluate' : Evaluator} {m : Machine} {held held' : List Held}
  {context context' : Context}

/-- Functions of two shapes that serve the same purpose: twin literals, each with a frame that was
made for it. -/
inductive FunctionPartner (literals : Location → Location → Prop) (layouts : Layouts) :
    ShapeFunction → ShapeFunction → Prop
  | intro {place place' : Location} {paramCount slotCount slotCount' : Nat} {body body' : Expr}
      {id env : FrameId} {slots : Nat → Nat → Prop} (count : paramCount = 1 ∨ paramCount = 2)
      (there : layouts[id]? = some (some ⟨slots, some env⟩)) (literal : literals place place')
      (matching : Matching slotCount slotCount' slots) (params : ∀ slot < paramCount, slots slot slot)
      (inner : Expr.Twin literals ((layouts.sees env).enter slots) body body') :
      FunctionPartner literals layouts ⟨⟨place, paramCount, slotCount, body⟩, id⟩
        ⟨⟨place', paramCount, slotCount', body'⟩, id⟩

/-- Shapes that say the same of themselves, with functions that serve the same purpose. -/
structure ShapePartner (literals : Location → Location → Prop) (layouts : Layouts)
    (shape shape' : Shape) : Prop where
  is2d : shape.is2d = shape'.is2d
  is3d : shape.is3d = shape'.is3d
  bounds : shape.bounds = shape'.bounds
  function : ∀ role, FunctionPartner literals layouts (shape.function role) (shape'.function role)

/-- Recognizers that have met the same shape, or none. -/
def RecognizerPartner (literals : Location → Location → Prop) (layouts : Layouts)
    (r r' : Recognizer) : Prop :=
  Option.Rel (ShapePartner literals layouts) r.shape r'.shape

section Later

theorem FunctionPartner.later {function function' : ShapeFunction}
    (partner : FunctionPartner literals layouts function function') (later : layouts <+: wider) :
    FunctionPartner literals wider function function' := by
  cases partner with
  | intro count there literal matching params inner =>
    exact .intro count (Layouts.kept later there) literal matching params
      (inner.mono (Pairing.enter_mono (Layouts.sees_later later)))

theorem ShapePartner.later {shape shape' : Shape}
    (partner : ShapePartner literals layouts shape shape') (later : layouts <+: wider) :
    ShapePartner literals wider shape shape' :=
  ⟨partner.is2d, partner.is3d, partner.bounds, fun role => (partner.function role).later later⟩

theorem RecognizerPartner.later {r r' : Recognizer}
    (partner : RecognizerPartner literals layouts r r') (later : layouts <+: wider) :
    RecognizerPartner literals wider r r' :=
  rel_mono (fun _ _ partner => partner.later later) partner

end Later

namespace RecognizerPartner

variable {r r' : Recognizer} (partner : RecognizerPartner literals layouts r r')
include partner

theorem isShape : r.isShape = r'.isShape := by
  unfold RecognizerPartner at partner
  unfold Recognizer.isShape
  generalize r.shape = shape, r'.shape = shape' at partner ⊢
  cases partner <;> rfl

theorem is2d : r.is2d = r'.is2d := by
  unfold RecognizerPartner at partner
  unfold Recognizer.is2d
  generalize r.shape = shape, r'.shape = shape' at partner ⊢
  cases partner with
  | none => rfl
  | some partner => simpa using partner.is2d

theorem is3d : r.is3d = r'.is3d := by
  unfold RecognizerPartner at partner
  unfold Recognizer.is3d
  generalize r.shape = shape, r'.shape = shape' at partner ⊢
  cases partner with
  | none => rfl
  | some partner => simpa using partner.is3d

theorem bounds : r.bounds = r'.bounds := by
  unfold RecognizerPartner at partner
  unfold Recognizer.bounds
  generalize r.shape = shape, r'.shape = shape' at partner ⊢
  cases partner with
  | none => rfl
  | some partner => simpa using partner.bounds

end RecognizerPartner

section Recognition

variable {value value' : Value} {found found' : Option Value}

/-- Flags are read alike. -/
theorem flag?_eq (partners : Option.Rel (Partner literals layouts) found found') :
    Shape.flag? found = Shape.flag? found' := by
  cases partners with
  | none => rfl
  | some partner => cases partner <;> rfl

/-- Boxes are read alike. -/
theorem bounds?_eq (is3d : Bool) (partners : Option.Rel (Partner literals layouts) found found') :
    Shape.bounds? is3d found = Shape.bounds? is3d found' := by
  cases partners with
  | none => rfl
  | some partner =>
    cases partner with
    | list items parts =>
      simp only [Shape.bounds?]
      rcases items with _ | ⟨least, _ | ⟨greatest, _ | ⟨next, rest⟩⟩⟩
      case cons.cons.nil =>
        obtain ⟨low, high, -⟩ := List.forall_mem_cons.mp parts |>.imp_right List.forall_mem_cons.mp
        simp only [List.map_cons, List.map_nil, BoundingBox.ofValue?, low.rearranged.numbers?,
          high.rearranged.numbers?]
      all_goals rfl
    | _ => rfl

/-- The closures that fields give are twins. -/
theorem closure?_partners (partners : Option.Rel (Partner literals layouts) found found') :
    Option.Rel (fun closure closure' => ∃ lambda lambda' env, closure = (lambda, env) ∧
        closure' = (lambda', env) ∧ (lambda.paramCount = 1 ∨ lambda.paramCount = 2) ∧
        Expr.Twin literals (layouts.sees env) lambda.expr lambda'.expr)
      (found.bind Shape.closure?) (found'.bind Shape.closure?) := by
  cases partners with
  | none => exact .none
  | some partner =>
    cases partner with
    | @closure serial lambda lambda' env code =>
      simp only [Option.bind_some, Shape.closure?, ← code.paramCount_eq]
      split
      case isTrue fits => exact .some ⟨lambda, lambda', _, rfl, rfl, fits, code⟩
      case isFalse => exact .none
    | _ => exact .none

/-- Functions of twin closures get frames of their own. -/
theorem tandem_capture (paired : Paired literals layouts heap heap') {lambda lambda' : Lambda}
    {env : FrameId} (count : lambda.paramCount = 1 ∨ lambda.paramCount = 2)
    (code : Expr.Twin literals (layouts.sees env) lambda.expr lambda'.expr) :
    Tandem literals layouts (Shape.capture lambda env) (Shape.capture lambda' env) heap heap'
      (FunctionPartner literals) := by
  obtain ⟨place, paramCount, slotCount, body⟩ := lambda
  obtain ⟨place', paramCount', slotCount', body'⟩ := lambda'
  cases code with | lambda slots literal matching params inner =>
  refine (tandem_allocChild paired matching env).bind ?_
  rintro _ _ _ after after' later paired' ⟨rfl, rfl, rfl⟩
  exact .pure paired' (.intro count (Layouts.getElem?_add _ _) literal matching params
    (inner.mono (Pairing.enter_mono (Layouts.sees_later later))))

/-- Values that serve the same purpose describe the same shape, or none. -/
theorem tandem_ofValue? (follows : Follows literals evaluate evaluate')
    (paired : Paired literals layouts heap heap') (partner : Partner literals layouts value value') :
    Tandem literals layouts (Shape.ofValue? evaluate held context value)
      (Shape.ofValue? evaluate' held' context' value') heap heap' fun wider shape shape' =>
        Option.Rel (ShapePartner literals wider) shape shape' := by
  unfold Shape.ofValue?
  refine (tandem_field? follows paired partner _).bind ?_
  intro dist dist' layouts₁ heap₁ heap₁' later₁ paired₁ dists
  have dists := closure?_partners dists
  generalize dist.bind Shape.closure? = dist, dist'.bind Shape.closure? = dist' at dists ⊢
  cases dists with
  | none => exact .pure paired₁ .none
  | some dists =>
  obtain ⟨_, _, _, rfl, rfl, countDist, codeDist⟩ := dists
  refine (tandem_field? follows paired₁ (partner.later later₁) _).bind ?_
  intro colour colour' layouts₂ heap₂ heap₂' later₂ paired₂ colours
  have colours := closure?_partners colours
  generalize colour.bind Shape.closure? = colour, colour'.bind Shape.closure? = colour' at colours ⊢
  cases colours with
  | none => exact .pure paired₂ .none
  | some colours =>
  obtain ⟨_, _, _, rfl, rfl, countColour, codeColour⟩ := colours
  have partner₂ := (partner.later later₁).later later₂
  refine (tandem_field? follows paired₂ partner₂ _).bind ?_
  intro flat flat' layouts₃ heap₃ heap₃' later₃ paired₃ flats
  refine (tandem_field? follows paired₃ (partner₂.later later₃) _).bind ?_
  intro solid solid' layouts₄ heap₄ heap₄' later₄ paired₄ solids
  have later₄ := later₃.trans later₄
  rw [flag?_eq flats]
  cases Shape.flag? flat' with
  | none => exact .pure paired₄ .none
  | some is2d =>
  rw [flag?_eq solids]
  cases Shape.flag? solid' with
  | none => exact .pure paired₄ .none
  | some is3d =>
  refine (tandem_field? follows paired₄ (partner₂.later later₄) _).bind ?_
  intro box box' layouts₅ heap₅ heap₅' later₅ paired₅ boxes
  have later₅ := later₄.trans later₅
  rw [bounds?_eq _ boxes]
  cases Shape.bounds? (is3d || !is2d) box' with
  | none => exact .pure paired₅ .none
  | some bounds =>
  refine (tandem_capture paired₅ countDist
    (codeDist.mono (Layouts.sees_later (later₂.trans later₅)))).bind ?_
  intro distance distance' layouts₆ heap₆ heap₆' later₆ paired₆ distances
  refine (tandem_capture paired₆ countColour
    (codeColour.mono (Layouts.sees_later (later₅.trans later₆)))).bind ?_
  intro paint paint' layouts₇ heap₇ heap₇' later₇ paired₇ paints
  refine .pure paired₇ (.some ⟨rfl, rfl, rfl, fun role => ?_⟩)
  cases role with
  | dist => exact distances.later later₇
  | colour => exact paints

end Recognition

section Recognizers

variable {r r' : Recognizer} {value value' : Value}

theorem tandem_recognize (follows : Follows literals evaluate evaluate')
    (paired : Paired literals layouts heap heap') (known : RecognizerPartner literals layouts r r')
    (partner : Partner literals layouts value value') :
    Tandem literals layouts (r.recognize evaluate held value) (r'.recognize evaluate' held' value')
      heap heap' fun wider found found' => found.1 = found'.1 ∧
        RecognizerPartner literals wider found.2 found'.2 := by
  unfold Recognizer.recognize
  rw [known.isShape]
  by_cases isShape : r'.isShape
  · simp only [isShape, ↓reduceIte]
    exact .pure paired ⟨rfl, known⟩
  · simp only [isShape, Bool.false_eq_true, ↓reduceIte]
    refine (tandem_ofValue? follows paired partner).bind ?_
    intro shape shape' wider after after' later paired' shapes
    cases shapes with
    | none => exact .pure paired' ⟨rfl, known.later later⟩
    | some shapes => exact .pure paired' ⟨rfl, .some shapes⟩

theorem tandem_require (follows : Follows literals evaluate evaluate')
    (paired : Paired literals layouts heap heap') (known : RecognizerPartner literals layouts r r')
    (partner : Partner literals layouts value value') :
    Tandem literals layouts (r.require evaluate held value) (r'.require evaluate' held' value')
      heap heap' (RecognizerPartner literals) := by
  refine (tandem_recognize follows paired known partner).bind ?_
  rintro ⟨found, after⟩ ⟨_, after'⟩ wider last last' later paired' ⟨rfl, known'⟩
  cases found with
  | true => exact .pure paired' known'
  | false => exact .raise paired' (.same _)

/-- Both call a function of a shape in its own frame. -/
theorem tandem_callAt (follows : Follows literals evaluate evaluate')
    (paired : Paired literals layouts heap heap') {function function' : ShapeFunction}
    (partner : FunctionPartner literals layouts function function') (p : Point) (t : Float) :
    Tandem literals layouts (Recognizer.callAt evaluate held function p t)
      (Recognizer.callAt evaluate' held' function' p t) heap heap' (Partner literals) := by
  cases partner with
  | @intro place place' paramCount slotCount slotCount' body body' id env slots count there literal
      matching params inner =>
  refine .steps (a := ()) (b := ()) rfl rfl ?_
  have cleared := paired.clear there
  have stored (slot : Nat) (low : slot < paramCount) {heap heap' : Heap}
      (paired : Paired literals layouts heap heap') {value : Value} (plain : value.Plain) :
      Tandem literals layouts (Eval.store id slot (.ready value))
        (Eval.store id slot (.ready value)) heap heap' fun wider _ _ => wider = layouts :=
    tandem_store paired ⟨_, there, params slot low⟩ (.ready (.of_plain plain))
  have reads (depth slot slot' : Nat) (seen : (layouts.sees env).enter slots depth slot slot') :
      layouts.sees id depth slot slot' := by
    cases depth with
    | zero => exact ⟨_, there, seen⟩
    | succ depth => exact ⟨_, env, there, rfl, seen⟩
  rcases count with rfl | rfl
  · simp only [↓reduceIte]
    refine (stored 0 (by simp) cleared (Value.Plain.ofNumbers _)).bind ?_
    rintro _ _ _ after after' - paired' rfl
    exact follows _ _ _ _ _ _ _ _ paired' (inner.mono reads)
  · simp only [Nat.succ_ne_self, ↓reduceIte]
    refine (stored 0 (by simp) cleared (Value.Plain.ofNumbers _)).bind ?_
    rintro _ _ _ after after' - paired' rfl
    refine (stored 1 (by simp) paired' (.num t)).bind ?_
    rintro _ _ _ last last' - paired'' rfl
    exact follows _ _ _ _ _ _ _ _ paired'' (inner.mono reads)

/-- What is made of a result is the same, or mistakes that quote values. -/
def Agreeing {α : Type} (result : Value → Except ErrorKind α) : Prop :=
  ∀ value value' : Value, value.Rearranged value' →
    CheckedAlike Eq (result value) (result value')

theorem agreeing_toNumber : Agreeing Eval.toNumber := by
  intro value value' rearranged
  rw [rearranged.toNumber]
  cases Eval.toNumber value' with
  | ok x => exact .ok rfl
  | error kind => exact .error (.same kind)

theorem agreeing_toColour : Agreeing Recognizer.toColour := by
  intro value value' rearranged
  unfold Recognizer.toColour
  rw [rearranged.numbers?]
  split
  · exact .ok rfl
  · exact .error (.wrongType _ rearranged)

theorem tandem_function (paired : Paired literals layouts heap heap')
    (known : RecognizerPartner literals layouts r r') (role : ShapeRole) :
    Tandem literals layouts (r.function held role) (r'.function held' role) heap heap'
      fun wider function function' => wider = layouts ∧
        FunctionPartner literals layouts function function' := by
  unfold RecognizerPartner at known
  unfold Recognizer.function
  generalize r.shape = shape, r'.shape = shape' at known ⊢
  cases known with
  | none => exact .raise paired (.same _)
  | some partner => exact .pure paired ⟨rfl, partner.function role⟩

/-- Both sample a function of the shape. -/
theorem tandem_sample {α : Type} (follows : Follows literals evaluate evaluate')
    (paired : Paired literals layouts heap heap') (known : RecognizerPartner literals layouts r r')
    (role : ShapeRole) {result : Value → Except ErrorKind α} (agreeing : Agreeing result)
    (p : Point) (t : Float) :
    Tandem literals layouts (r.sample evaluate held role result p t)
      (r'.sample evaluate' held' role result p t) heap heap' fun _ a b => a = b := by
  refine (tandem_function paired known role).bind ?_
  rintro function function' _ after after' - paired' ⟨rfl, partner⟩
  refine (tandem_callAt follows paired' partner p t).bind ?_
  intro value value' wider last last' later paired'' partner'
  exact .blaming paired'' (agreeing value value' partner'.rearranged)

end Recognizers

section Shaders

open Shader

/-- Shader code is made alike from values that serve the same purpose. -/
theorem Partner.shows {value value' : Value} (partner : Partner literals layouts value value') :
    value.Shows literals (fun id id' depth slot slot' => id = id' ∧
      layouts.sees id depth slot slot') value' := by
  have numbers := partner.rearranged.numbers?
  cases partner with
  | bool value => exact .bool value
  | num value => exact .num value
  | text content => exact .text _ _
  | list items parts => exact .list numbers
  | record fields parts => exact .record _ _ _ _
  | «module» names named => exact .module _ _ _ _
  | closure code => exact .closure (code.mono fun _ _ _ seen => ⟨rfl, seen⟩)
  | builtin function => exact .builtin function

/-- The captured frames of two compilations that are granted the same fuel. -/
def captures (m : Machine) (fuel : Nat) (held held' : List Held)
    (literals : Location → Location → Prop)
    (distinct : ∀ place place' other other', literals place place' → literals other other' →
      (place = other ↔ place' = other')) :
    Captures (fun _ => Eval.upTo m fuel) (fun _ => Eval.upTo m fuel) held held' where
  World := Layouts
  later := (· <+: ·)
  heaps := Paired literals
  sees layouts id id' depth slot slot' := id = id' ∧ layouts.sees id depth slot slot'
  kinds := ErrorKind.Rearranged
  literals := literals
  refl _ := List.prefix_rfl
  trans := .trans
  kept later seen := ⟨seen.1, Layouts.sees_later later _ _ _ seen.2⟩
  alike := .same
  distinct := distinct
  reading := by
    rintro layouts heap heap' id _ depth slot slot' paired ⟨rfl, seen⟩
    obtain ⟨owner, layout, reached, reached', there, together⟩ := paired.ancestor? seen
    refine ⟨owner, owner, reached, reached', fun context context' => .of_ends ?_⟩
    have both : Tandem literals layouts (Eval.force (Eval.upTo m fuel) held owner slot context)
        (Eval.force (Eval.upTo m fuel) held' owner slot' context') heap heap' (Partner literals) :=
      tandem_force (upTo_follows m fuel) paired ⟨layout, there, together⟩
    unfold Tandem at both
    generalize Eval.force (Eval.upTo m fuel) held owner slot context heap = last,
      Eval.force (Eval.upTo m fuel) held' owner slot' context' heap' = last' at both ⊢
    cases both with
    | returned done =>
      obtain ⟨wider, later, paired', partner⟩ := done
      exact .returned ⟨wider, later, paired', partner.shows⟩
    | failed failure => exact .failed failure

/-- The functions of two shapes have the same shader code. -/
theorem FunctionPartner.twin {fuel : Nat}
    {distinct : ∀ place place' other other', literals place place' → literals other other' →
      (place = other ↔ place' = other')}
    {function function' : ShapeFunction}
    (partner : FunctionPartner literals layouts function function')
    (paired : Paired literals layouts heap heap') :
    FunctionTwin (captures m fuel held held' literals distinct) layouts heap heap' function
      function' := by
  cases partner with | intro count there literal matching params inner =>
  obtain ⟨frame, frame', found, found', both⟩ := paired.frames _ _ there
  refine ⟨frame, frame', _, _, found, both.parent, found', both.parent', ?_⟩
  exact .lambda _ literal matching params
    (inner.mono (Pairing.enter_mono fun _ _ _ seen => ⟨rfl, seen⟩))

/-- The same text is written for both, up to a place where both fail. -/
theorem tandem_shader {r r' : Recognizer} (distinct : ∀ place place' other other',
      literals place place' → literals other other' → (place = other ↔ place' = other'))
    (paired : Paired literals layouts heap heap') (known : RecognizerPartner literals layouts r r')
    (fuel depth : Nat) :
    Tandem literals layouts (r.shader (Eval.upTo m fuel) held depth)
      (r'.shader (Eval.upTo m fuel) held' depth) heap heap' fun _ out out' =>
        out.1 = out'.1 ∧ Option.Rel (Fault.Like ErrorKind.Rearranged) out.2 out'.2 := by
  unfold RecognizerPartner at known
  generalize here : r.shape = shape, here' : r'.shape = shape' at known
  cases known with
  | none =>
    obtain ⟨e, kind, ran⟩ := r.shader_missing here (Eval.upTo m fuel) held depth heap
    obtain ⟨e', kind', ran'⟩ := r'.shader_missing here' (Eval.upTo m fuel) held' depth heap'
    refine .of_runs ran ran' List.prefix_rfl paired ⟨rfl, .some (.exception ?_)⟩
    rw [kind, kind']
    exact .same _
  | some partner =>
    have heaps : (captures m fuel (r.held ++ held) (r'.held ++ held') literals distinct).heaps
        layouts heap heap' := paired
    have both := (writeShader_alongside here here'
      (fun role wider after after' later paired =>
        ((partner.function role).later later).twin paired) heaps depth [.dist, .colour]).ends
    unfold Tandem Recognizer.shader
    generalize r.writeShader (Eval.upTo m fuel) held depth [.dist, .colour] heap = last,
      r'.writeShader (Eval.upTo m fuel) held' depth [.dist, .colour] heap' = last' at both ⊢
    cases both with
    | returned done =>
      obtain ⟨same, like, wider, later, paired'⟩ := done
      exact .returned ⟨wider, later, paired', same, like⟩
    | failed impossible => exact impossible.elim

end Shaders

end ShapeLang.Reordering
