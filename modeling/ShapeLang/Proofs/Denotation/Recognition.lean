import ShapeLang.Proofs.Denotation.Sampling

/-! # What a shape is made of

A shape is recognized by its fields. Its functions are the closures that the fields denote, each
with a frame that stands for nothing.
-/

namespace ShapeLang.Denotation

variable {m : Machine} {view wider : View} {heap after : Heap} {w : Place} {k : Nat}
  {values : List Value} {dens : List Den} {function : ShapeFunction} {value : Value} {den : Den}
  {shape : Shape} {found : ShapeRole → Den}

theorem Captured.later (captured : Captured view heap function den)
    (evolves : Evolves w heap view after wider) : Captured wider after function den := by
  obtain ⟨frame, serial, env, found, size, atParent, means⟩ := captured
  obtain ⟨frame', found', parent', -, size'⟩ := evolves.extension.kept _ frame found
  exact ⟨frame', serial, env, found', size'.trans size, parent'.trans atParent, means.later evolves⟩

/-- The functions of a shape are what the fields of a denotation are. -/
structure Describes (m : Machine) (view : View) (heap : Heap) (den : Den) (shape : Shape)
    (found : ShapeRole → Den) : Prop where
  field : ∀ role, Settles (fun n => field? (upTo m n) den role.name) (.ok (some (found role)))
  captured : ∀ role, Captured view heap (shape.function role) (found role)

theorem Describes.later (describes : Describes m view heap den shape found)
    (evolves : Evolves w heap view after wider) : Describes m wider after den shape found :=
  ⟨describes.field, fun role => (describes.captured role).later evolves⟩

/-- What the host had before is still known, together with something new. -/
def Onward (m : Machine) (view : View) (heap : Heap) (values : List Value) (dens : List Den)
    (after : Heap) (new : View → Prop) : Prop :=
  ∃ wider k, Evolves [] heap view after wider ∧ Knows m wider after values dens k ∧ new wider

theorem Onward.trans {between : Heap} {middle : View}
    (evolves : Evolves [] heap view between middle) {new : View → Prop}
    (onward : Onward m middle between values dens after new) :
    Onward m view heap values dens after new := by
  obtain ⟨wider, k, evolves', knows, new⟩ := onward
  exact ⟨wider, k, evolves.trans evolves', knows, new⟩

namespace Knows

/-- A host reads a field of a value that it has. -/
theorem reads (knows : Knows m view heap values dens k) {i : Nat} (there : values[i]? = some value)
    (denoted : dens[i]? = some den) (fuel : Nat) (held : List Held) (name : String)
    (context : Context) :
    Ends (Eval.field? (Eval.upTo m fuel) held value name context) heap
      (fun part after => Onward m view heap values dens after fun wider => ∃ part',
        Settles (fun n => field? (upTo m n) den name) (.ok part') ∧
          Option.Rel (Means [] wider []) part part')
      fun _ after => Onward m view heap values dens after fun _ => True := by
  have means := knows.means.getElem? i
  rw [there, denoted] at means
  cases means with | some means =>
  refine Ends.mono (agrees_field? (upTo_simulates m fuel) knows.reflects
    (means.seen (seen [.part k] _))) ?_ ?_
  rotate_left
  · rintro fault after ⟨⟨wider, evolves, reflects⟩, -⟩
    exact ⟨wider, k + 1, evolves.outer List.nil_suffix, knows.later evolves reflects, trivial⟩
  rintro part after ⟨wider, part', evolves, reflects, settles, means⟩
  refine ⟨wider, k + 1, evolves.outer List.nil_suffix, knows.later evolves reflects, part', settles,
    ?_⟩
  cases means with
  | none => exact .none
  | some means => exact .some (means.seen (seen _ _))

/-- A closure gets a frame that stands for nothing. -/
theorem captures (knows : Knows m view heap values dens k) {serial : Nat} {lambda : Lambda}
    {env : FrameId} (means : Means [] view [] (.closure serial lambda env) den) :
    Ends (Shape.capture lambda env) heap
      (fun function after => function.lambda = lambda ∧
        Onward m view heap values dens after fun wider => Captured wider after function den)
      fun _ after => Onward m view heap values dens after fun _ => True := by
  refine Ends.map (.allocChild (fun frame there => ?_) fun _ => ⟨view, k, .refl, knows, trivial⟩)
  obtain ⟨evolves, reflects⟩ :=
    knows.reflects.alloc (w := [.part k]) lambda.slotCount (some env) (some env) none frame.depth
  exact ⟨rfl, view, k + 1, evolves.outer List.nil_suffix, knows.later evolves reflects, _, serial,
    env, Heap.frame?_alloc_self .., by simp [Heap.fresh], rfl, means⟩

end Knows

/-- The closure that a field gives. -/
theorem exists_closure {part : Option Value} {part' : Option Den}
    (means : Option.Rel (Means [] view []) part part') {lambda : Lambda} {env : FrameId}
    (fits : part.bind Shape.closure? = some (lambda, env)) :
    ∃ serial den, part' = some den ∧ Means [] view [] (.closure serial lambda env) den := by
  obtain ⟨value, rfl, fit⟩ := Option.bind_eq_some_iff.mp fits
  cases means with | some means =>
  cases value with
  | closure serial code frame =>
    simp only [Shape.closure?] at fit
    split at fit
    · obtain ⟨rfl, rfl⟩ := Prod.mk.inj (Option.some.inj fit)
      exact ⟨serial, _, rfl, means⟩
    · cases fit
  | _ => cases fit

/-- A recognized shape is made of what the fields of the value denote. -/
theorem Knows.recognizes (knows : Knows m view heap values dens k) {i : Nat}
    (there : values[i]? = some value) (denoted : dens[i]? = some den) (fuel : Nat)
    (held : List Held) (context : Context) :
    Ends (Shape.ofValue? (Eval.upTo m fuel) held context value) heap
      (fun result after => Onward m view heap values dens after fun wider =>
        ∀ shape, result = some shape → ∃ found, Describes m wider after den shape found)
      fun _ after => Onward m view heap values dens after fun _ => True := by
  unfold Shape.ofValue?
  have nothing {heap : Heap} {view : View} {k : Nat} (knows : Knows m view heap values dens k) :
      Ends (pure none : Eval (Option Shape)) heap
        (fun result after => Onward m view heap values dens after fun wider =>
          ∀ shape, result = some shape → ∃ found, Describes m wider after den shape found)
        fun _ after => Onward m view heap values dens after fun _ => True :=
    .pure ⟨view, k, .refl, knows, fun _ same => by cases same⟩
  have onwards {heap after : Heap} {view wider : View} {action : Eval (Option Shape)}
      (evolves : Evolves [] heap view after wider)
      (rest : Ends action after
        (fun result last => Onward m wider after values dens last fun wider =>
          ∀ shape, result = some shape → ∃ found, Describes m wider last den shape found)
        fun _ last => Onward m wider after values dens last fun _ => True) :
      Ends action after
        (fun result last => Onward m view heap values dens last fun wider =>
          ∀ shape, result = some shape → ∃ found, Describes m wider last den shape found)
        fun _ last => Onward m view heap values dens last fun _ => True :=
    rest.mono (fun _ _ => .trans evolves) fun _ _ => .trans evolves
  refine (knows.reads there denoted fuel _ _ context).bind ?_
  rintro part₁ heap₁ ⟨view₁, k₁, step₁, knows₁, part₁', settles₁, means₁⟩
  refine onwards step₁ ?_
  split
  case h_2 => exact nothing knows₁
  rename_i dist distEnv fitsDist
  obtain ⟨distSerial, distDen, rfl, meansDist⟩ := exists_closure means₁ fitsDist
  refine (knows₁.reads there denoted fuel _ _ context).bind ?_
  rintro part₂ heap₂ ⟨view₂, k₂, step₂, knows₂, part₂', settles₂, means₂⟩
  refine onwards step₂ ?_
  split
  case h_2 => exact nothing knows₂
  rename_i colour colourEnv fitsColour
  obtain ⟨colourSerial, colourDen, rfl, meansColour⟩ := exists_closure means₂ fitsColour
  refine (knows₂.reads there denoted fuel _ _ context).bind ?_
  rintro flat heap₃ ⟨view₃, k₃, step₃, knows₃, -⟩
  refine onwards step₃ ?_
  refine (knows₃.reads there denoted fuel _ _ context).bind ?_
  rintro solid heap₄ ⟨view₄, k₄, step₄, knows₄, -⟩
  refine onwards step₄ ?_
  split
  case h_2 => exact nothing knows₄
  split
  case h_2 => exact nothing knows₄
  refine (knows₄.reads there denoted fuel _ _ context).bind ?_
  rintro box heap₅ ⟨view₅, k₅, step₅, knows₅, -⟩
  refine onwards step₅ ?_
  split
  case h_2 => exact nothing knows₅
  have steps := step₃.trans (step₄.trans step₅)
  refine (knows₅.captures (meansDist.later (step₂.trans steps))).bind ?_
  rintro distFunction heap₆ ⟨-, view₆, k₆, step₆, knows₆, capturedDist⟩
  refine onwards step₆ ?_
  refine (knows₆.captures (meansColour.later (steps.trans step₆))).bind ?_
  rintro colourFunction heap₇ ⟨-, view₇, k₇, step₇, knows₇, capturedColour⟩
  refine .pure ⟨view₇, k₇, step₇, knows₇, fun shape same => ?_⟩
  obtain rfl := Option.some.inj same
  refine ⟨fun role => if role = .dist then distDen else colourDen, fun role => ?_, fun role => ?_⟩
  · cases role with
    | dist => exact settles₁
    | colour => exact settles₂
  · cases role with
    | dist => exact capturedDist.later step₇
    | colour => exact capturedColour

end ShapeLang.Denotation
