import ShapeLang.Proofs.Denotation.Exports
import ShapeLang.Proofs.Denotation.Recognition
import ShapeLang.Proofs.Denotation.Trusted
import ShapeLang.Proofs.Session.ReadingOrder

/-! # A host that has shapes

A shape is sampled in frames that are used again and again, and exported while what its functions
captured is evaluated further. A host knows what these functions denote all the time, whatever it
asks for in between and however that ends.
-/

namespace ShapeLang

open Denotation

/-- Requests for values and shapes: they compile nothing, evaluate no program and add to no code. -/
def Request.UsesShapes : Request → Prop
  | .compile _ _ _ | .eval _ | .inline _ _ _ _ => False
  | _ => True

variable {m : Machine} {view wider : View} {heap after : Heap} {trust : Trust} {w : Place}
  {k : Nat} {values : List Value} {dens : List Den} {function : ShapeFunction} {value : Value}
  {den : Den} {shape : Shape} {found : ShapeRole → Den}

namespace Denotation

section Captured

/-- The shader code of a function is the same for two views of what it captured. -/
theorem Captured.code (captured : Captured view heap function den) {view' : View} {heap' : Heap}
    (captured' : Captured view' heap' function den) :
    ∃ frame frame' env env', heap.frame? function.frame = some frame ∧ frame.parent = some env ∧
      heap'.frame? function.frame = some frame' ∧ frame'.parent = some env' ∧
      Expr.Twin Eq (SeenAlike view view' env env') function.lambda.expr function.lambda.expr := by
  obtain ⟨frame, serial, env, found, -, parent, means⟩ := captured
  obtain ⟨frame', serial', env', found', -, parent', means'⟩ := captured'
  cases means.shows means' with
  | closure code => exact ⟨frame, frame', env, env', found, parent, found', parent', code⟩

/-- Only trusted frames have to be known. -/
theorem Captured.within [DecidablePred trust] (captured : Captured view heap function den)
    (reflects : Reflects m [] view heap) (sound : heap.Sound trust)
    (serves : heap.Serves trust function) : Captured (view.within trust) heap function den := by
  obtain ⟨frame, serial, env, found, size, atParent, means⟩ := captured
  obtain ⟨frame', env', found', -, atParent', inside, sees⟩ := serves.frame
  obtain rfl := Option.some.inj (found.symm.trans found')
  obtain rfl := Option.some.inj (atParent.symm.trans atParent')
  exact ⟨frame, serial, env, found, size, atParent,
    means.within reflects sound (.closure ⟨inside, sees⟩)⟩

/-- What a host knows if it knows trusted frames only. -/
theorem Knows.within [DecidablePred trust] (knows : Knows m view heap values dens k)
    (sound : heap.Sound trust) (trusted : ∀ value ∈ values, heap.Trusts trust value) :
    Knows m (view.within trust) heap values dens k := by
  refine ⟨knows.reflects.within sound, ?_, View.within_awake knows.free.awake, fun i le x taken =>
    knows.free.fresh i le x (View.within_taken taken)⟩
  obtain ⟨pairs, rfl, rfl, parts⟩ := knows.means
  exact ⟨pairs, rfl, rfl, fun pair mem => (parts pair mem).within knows.reflects sound
    (trusted _ (List.mem_map_of_mem mem))⟩

end Captured

end Denotation

namespace Session

variable {s s' : Session} {r : Recognizer} {i : Nat}

/-- A recognized shape came from a value that the host has. -/
def Described (m : Machine) (view : View) (heap : Heap) (s : Session) (shape : Shape) : Prop :=
  ∃ value ∈ s.values, ∃ den found,
    Means [] view [] value den ∧ Describes m view heap den shape found

/-- What a host knows that has values and shapes. -/
structure Denoted (m : Machine) (s : Session) (dens : List Den) (heap : Heap) (view : View)
    (trust : Trust) (k : Nat) : Prop where
  secure : s.Secure heap trust
  knows : Knows m view heap s.values dens k
  inside : ∀ id env, view.env id = some env → trust id
  shapes : ∀ r ∈ s.recognizers, ∀ shape, r.shape = some shape → Described m view heap s shape

/-- A host keeps its values and shapes, and what it gets denotes something. -/
structure Grown (m : Machine) (s s' : Session) (view : View) (heap : Heap) : Prop where
  values : ∀ value ∈ s.values, value ∈ s'.values
  kept : ∀ (i : Nat) r, s.recognizers[i]? = some r → r.isShape → s'.recognizers[i]? = some r
  shapes : ∀ r ∈ s'.recognizers, ∀ shape, r.shape = some shape →
    r ∈ s.recognizers ∨ Described m view heap s' shape

/-- What is known of values and shapes is known later. -/
structure Kept (s : Session) (heap : Heap) (view : View) (s' : Session) (heap' : Heap)
    (view' : View) : Prop where
  values : ∀ value ∈ s.values, value ∈ s'.values ∧
    ∀ den, Means [] view [] value den → Means [] view' [] value den
  shapes : ∀ (i : Nat) r shape (found : ShapeRole → Den), s.recognizers[i]? = some r →
    r.shape = some shape → (∀ role, Captured view heap (shape.function role) (found role)) →
    s'.recognizers[i]? = some r ∧
      ∀ role, Captured view' heap' (shape.function role) (found role)

theorem Kept.refl : Kept s heap view s heap view :=
  ⟨fun _ mem => ⟨mem, fun _ means => means⟩, fun _ _ _ _ there _ captured => ⟨there, captured⟩⟩

theorem Kept.trans {s₁ s₂ : Session} {heap₁ heap₂ : Heap} {view₁ view₂ : View}
    (first : Kept s heap view s₁ heap₁ view₁) (second : Kept s₁ heap₁ view₁ s₂ heap₂ view₂) :
    Kept s heap view s₂ heap₂ view₂ := by
  refine ⟨fun value mem => ?_, fun i r shape found there here captured => ?_⟩
  · obtain ⟨mem₁, means₁⟩ := first.values value mem
    obtain ⟨mem₂, means₂⟩ := second.values value mem₁
    exact ⟨mem₂, fun den means => means₂ den (means₁ den means)⟩
  · obtain ⟨there₁, captured₁⟩ := first.shapes i r shape found there here captured
    exact second.shapes i r shape found there₁ here captured₁

namespace Grown

theorem refl : Grown m s s view heap :=
  ⟨fun _ mem => mem, fun _ _ there _ => there, fun _ mem _ _ => .inl mem⟩

theorem of_values {values : List Value} (grown : ∀ value ∈ s.values, value ∈ values) :
    Grown m s { s with values := values } view heap :=
  ⟨grown, fun _ _ there _ => there, fun _ mem _ _ => .inl mem⟩

/-- A recognizer that has no shape yet looks for one. -/
theorem setRecognizer {r' : Recognizer} (there : s.recognizers[i]? = some r)
    (unknown : r.isShape = false)
    (described : ∀ shape, r'.shape = some shape → Described m view heap s shape) :
    Grown m s (s.setRecognizer i r') view heap := by
  refine ⟨fun _ mem => mem, fun j other atPosition isShape => ?_, fun other mem shape here => ?_⟩
  · have different : i ≠ j := by
      rintro rfl
      obtain rfl := Option.some.inj (there.symm.trans atPosition)
      rw [unknown] at isShape
      cases isShape
    exact (List.getElem?_set_ne different).trans atPosition
  · rcases List.mem_or_eq_of_mem_set mem with mem | rfl
    · exact .inl mem
    · exact .inr (described shape here)

/-- After a request, the host still knows what it has. -/
theorem denoted {dens' : List Den} {trust' : Trust} {k' : Nat}
    (grown : Grown m s s' wider after) (denoted : Denoted m s dens heap view trust k)
    (evolves : Evolves [] heap view after wider)
    (knows : Knows m wider after s'.values dens' k') (secure : s'.Secure after trust') :
    ∃ view', Denoted m s' dens' after view' trust' k' ∧ Kept s heap view s' after view' := by
  classical
  have values (value : Value) (mem : value ∈ s'.values) (den : Den)
      (means : Means [] wider [] value den) : Means [] (wider.within trust') [] value den :=
    means.within knows.reflects secure.sound (secure.values value mem)
  have shapes (r : Recognizer) (mem : r ∈ s'.recognizers) (shape : Shape)
      (here : r.shape = some shape) (role : ShapeRole) (den : Den)
      (captured : Captured wider after (shape.function role) den) :
      Captured (wider.within trust') after (shape.function role) den :=
    captured.within knows.reflects secure.sound (secure.recognizers r mem shape here role)
  have described (r : Recognizer) (mem : r ∈ s'.recognizers) (shape : Shape)
      (here : r.shape = some shape) : Described m wider after s' shape := by
    rcases grown.shapes r mem shape here with before | described
    · obtain ⟨value, mem, den, found, means, describes⟩ := denoted.shapes r before shape here
      exact ⟨value, grown.values value mem, den, found, means.later evolves,
        describes.later evolves⟩
    · exact described
  refine ⟨wider.within trust', ⟨secure, knows.within secure.sound secure.values,
    fun id env known => (View.within_env.mp known).1, fun r mem shape here => ?_⟩, ?_, ?_⟩
  · obtain ⟨value, there, den, found, means, describes⟩ := described r mem shape here
    exact ⟨value, there, den, found, values value there den means, describes.field,
      fun role => shapes r mem shape here role _ (describes.captured role)⟩
  · exact fun value mem => ⟨grown.values value mem, fun den means =>
      values value (grown.values value mem) den (means.later evolves)⟩
  · intro i r shape found there here captured
    have there' := grown.kept i r there (by rw [Recognizer.isShape, here]; rfl)
    exact ⟨there', fun role => shapes r (List.mem_of_getElem? there') shape here role _
      ((captured role).later evolves)⟩

end Grown

/-- Requests for values leave the shapes as they are. -/
theorem usesValues_grows (fuel : Nat) (held : List Held) {request : Request}
    (uses : request.UsesValues) : Ends (s.answer m fuel held request) heap
      (fun s' _ => ∃ more, s' = { s with values := s.values ++ more }) fun _ _ => True := by
  have same : s = { s with values := s.values ++ [] } := by rw [List.append_nil]
  cases request with
  | constant value => exact .pure ⟨[value.toValue], rfl⟩
  | list items => exact .pure ⟨[_], rfl⟩
  | record fields => exact .pure ⟨[_], rfl⟩
  | item i index =>
    simp only [answer, withValue]
    split
    · split
      · rename_i items _ _
        cases items[index]? with
        | none => exact .pure ⟨[], same⟩
        | some item => exact .pure ⟨[item], rfl⟩
      · exact .pure ⟨[], same⟩
    · exact .pure ⟨[], same⟩
  | field i name context =>
    simp only [answer, withValue]
    split
    · refine .map (.of_forall fun found _ => ?_)
      cases found with
      | none => exact ⟨[], same⟩
      | some value => exact ⟨[value], rfl⟩
    · exact .pure ⟨[], same⟩
  | call i args named site =>
    simp only [answer, withValue]
    split
    · exact Ends.through (fun _ _ => True) (.of_forall fun _ _ => trivial) fun frame _ _ =>
        .map (.of_forall fun value _ => ⟨[value], rfl⟩)
    · exact .pure ⟨[], same⟩
  | _ => exact uses.elim

/-- Without a shape nothing is read for an export. -/
private theorem ends_shader_missing {evaluate : Evaluator} {held : List Held} {fuel : Nat}
    (here : r.shape = none) :
    Ends (r.shader evaluate held fuel) heap (fun _ after => after = heap) fun _ _ => False := by
  have inlined : Ends (r.inline evaluate held fuel .dist Recognizer.shaderParam) ⟨heap, .new⟩
      (fun _ _ => False) fun _ later => later.heap = heap := by
    refine Ends.stop (.evaluating ?_)
    rw [Recognizer.function, here]
    exact .raise fun _ => rfl
  refine Ends.through (fun result after => (∃ fault, result = .error fault) ∧ after = heap)
    (.attempt (Ends.through (fun result after => (∃ fault, result.1 = .error fault) ∧
      after = heap) ?_ ?_)) ?_
  · unfold Ends Shader.Compile.runWith
    rcases ran : r.inline evaluate held fuel .dist Recognizer.shaderParam ⟨heap, .new⟩ with
      ⟨fault | term, later⟩
    · exact ⟨⟨fault, rfl⟩, inlined.failed ran⟩
    · exact (inlined.returned ran).elim
  · rintro ⟨_, compiler⟩ _ ⟨⟨fault, rfl⟩, rfl⟩
    exact Ends.throw ⟨⟨fault, rfl⟩, rfl⟩
  · rintro _ _ ⟨⟨fault, rfl⟩, rfl⟩
    exact .pure rfl

namespace Denoted

variable (denoted : Denoted m s dens heap view trust k)
include denoted

/-- The frames of a shape stand for nothing between the requests. -/
theorem offers (mem : r ∈ s.recognizers) (here : r.shape = some shape) (role : ShapeRole)
    (captured : Captured view heap (shape.function role) den) :
    Offers view heap (shape.function role) den := by
  have serves := denoted.secure.recognizers r mem shape here role
  refine ⟨serves.paramCount, ?_, captured⟩
  cases known : view.env (shape.function role).frame with
  | none => rfl
  | some env => exact (serves.apart (denoted.inside _ env known)).elim

/-- What exporting does to the frames that were captured. -/
theorem exports (mem : r ∈ s.recognizers) (fuel : Nat) (held : List Held) :
    Ends (r.shader (Eval.upTo m fuel) held fuel) heap
      (fun _ after => ∃ wider, Evolves [.part k] heap view after wider ∧ Reflects m [] wider after)
      fun _ after =>
        ∃ wider, Evolves [.part k] heap view after wider ∧ Reflects m [] wider after := by
  cases here : r.shape with
  | none =>
    refine (ends_shader_missing here).mono ?_ fun _ _ impossible => impossible.elim
    rintro _ _ rfl
    exact ⟨view, .refl, denoted.knows.reflects⟩
  | some shape =>
  have heaps : (capturesAgain m fuel (r.held ++ held) k).heaps ⟨heap, view⟩ heap heap :=
    ⟨rfl, rfl, denoted.knows.reflects⟩
  obtain ⟨_, -, _, found, -, describes⟩ := denoted.shapes r mem shape here
  have both := (writeShader_alongside here here (fun role wider after after' later heaps => ?_)
    heaps fuel [.dist, .colour]).ends
  · unfold Ends Recognizer.shader
    rcases ran : r.writeShader (Eval.upTo m fuel) held fuel [.dist, .colour] heap with
      ⟨fault | out, after⟩
    · rw [ran] at both
      cases both with | failed impossible => exact impossible.elim
    · rw [ran] at both
      cases both with
      | returned done =>
        obtain ⟨-, -, ⟨_, wider⟩, evolves, -, rfl, reflects⟩ := done
        exact ⟨wider, evolves, reflects⟩
  · obtain ⟨rfl, rfl, -⟩ := heaps
    have captured := (describes.captured role).later later
    exact captured.code captured

/-- What sampling does to the frames that were captured. -/
theorem samples (mem : r ∈ s.recognizers) {α : Type} {result : Value → Except ErrorKind α}
    (converts : Converts result) (fuel : Nat) (held : List Held) (role : ShapeRole) (p : Point)
    (t : Float) :
    Ends (r.sample (Eval.upTo m fuel) held role result p t) heap
      (fun _ after => ∃ wider, Evolves [.part k] heap view after wider ∧ Reflects m [] wider after)
      fun _ after =>
        ∃ wider, Evolves [.part k] heap view after wider ∧ Reflects m [] wider after := by
  cases here : r.shape with
  | none =>
    have missing : Ends (r.function (r.held ++ held) role) heap (fun _ _ => False)
        fun _ after => ∃ wider, Evolves [.part k] heap view after wider ∧
          Reflects m [] wider after := by
      rw [Recognizer.function, here]
      exact .raise fun _ => ⟨view, .refl, denoted.knows.reflects⟩
    exact missing.stop
  | some shape =>
    obtain ⟨_, -, _, found, -, describes⟩ := denoted.shapes r mem shape here
    obtain ⟨depth, x, outer, -, agrees⟩ := denoted.knows.agrees_sample converts here
      (denoted.offers mem here role (describes.captured role))
    refine Ends.mono (agrees fuel held p t) ?_ fun _ _ failed => failed.1
    rintro _ after ⟨wider, _, evolves, reflects, -⟩
    exact ⟨wider, evolves, reflects⟩

/-- Nothing is new after a request that leaves the host as it is. -/
private theorem answered_same {action : Eval Session}
    (ends : Ends action heap
      (fun s' after => s' = s ∧
        ∃ wider, Evolves [.part k] heap view after wider ∧ Reflects m [] wider after)
      fun _ after =>
        ∃ wider, Evolves [.part k] heap view after wider ∧ Reflects m [] wider after) :
    Ends action heap
      (fun s' after => ∃ dens', Onward m view heap s'.values dens' after fun wider =>
        Grown m s s' wider after)
      fun _ after => Onward m view heap s.values dens after fun _ => True := by
  refine ends.mono ?_ ?_
  · rintro _ after ⟨rfl, wider, evolves, reflects⟩
    exact ⟨dens, wider, k + 1, evolves.outer List.nil_suffix,
      denoted.knows.later evolves reflects, .refl⟩
  · rintro _ after ⟨wider, evolves, reflects⟩
    exact ⟨wider, k + 1, evolves.outer List.nil_suffix, denoted.knows.later evolves reflects,
      trivial⟩

/-- A recognizer that looks at a value. -/
private theorem recognizes (there : s.recognizers[i]? = some r) {j : Nat}
    (given : s.values[j]? = some value) (fuel : Nat) (held : List Held) :
    Ends (r.recognize (Eval.upTo m fuel) held value) heap
      (fun found after => Onward m view heap s.values dens after fun wider =>
        Grown m s (s.setRecognizer i found.2) wider after)
      fun _ after => Onward m view heap s.values dens after fun _ => True := by
  have same : s.setRecognizer i r = s := by
    obtain ⟨low, rfl⟩ := List.getElem?_eq_some_iff.mp there
    rw [setRecognizer, List.set_getElem_self]
  unfold Recognizer.recognize
  by_cases known : r.isShape
  · simp only [known, ↓reduceIte]
    refine .pure ⟨view, k, .refl, denoted.knows, ?_⟩
    rw [same]
    exact .refl
  simp only [known, Bool.false_eq_true, ↓reduceIte]
  have means := denoted.knows.means.getElem? j
  rw [given] at means
  generalize atPosition : dens[j]? = den at means
  cases means with | some means =>
  refine (denoted.knows.recognizes given atPosition fuel held r.context).bind ?_
  rintro found after ⟨wider, k', evolves, knows, describes⟩
  cases found with
  | none =>
    refine .pure ⟨wider, k', evolves, knows, ?_⟩
    rw [same]
    exact .refl
  | some shape =>
    refine .pure ⟨wider, k', evolves, knows, .setRecognizer there (by simpa using known) ?_⟩
    intro other here
    obtain rfl := Option.some.inj here
    obtain ⟨found, describes⟩ := describes _ rfl
    exact ⟨value, List.mem_of_getElem? given, _, found, means.later evolves, describes⟩

/-- A request for values and shapes leaves what denotes something. -/
theorem answers (request : Request) (uses : request.UsesShapes) (fuel : Nat) (held : List Held) :
    Ends (s.answer m fuel held request) heap
      (fun s' after => ∃ dens', Onward m view heap s'.values dens' after fun wider =>
        Grown m s s' wider after)
      fun _ after => Onward m view heap s.values dens after fun _ => True := by
  have idle : Ends (Pure.pure s : Eval Session) heap
      (fun s' after => ∃ dens', Onward m view heap s'.values dens' after fun wider =>
        Grown m s s' wider after)
      fun _ after => Onward m view heap s.values dens after fun _ => True :=
    .pure ⟨dens, view, k, .refl, denoted.knows, .refl⟩
  by_cases asks : request.UsesValues
  · obtain ⟨_, -, agrees⟩ := denoted.knows.agrees_answer fuel held request asks
    refine Ends.mono (Ends.and agrees (usesValues_grows fuel held asks)) ?_ ?_
    · rintro _ after ⟨⟨wider, dens', evolves, reflects, -, means⟩, more, rfl⟩
      exact ⟨dens', wider, k + 1, evolves.outer List.nil_suffix,
        ⟨reflects, means, denoted.knows.free.next evolves⟩,
        .of_values fun _ mem => List.mem_append_left _ mem⟩
    · rintro fault after ⟨⟨⟨wider, evolves, reflects⟩, -⟩, -⟩
      exact ⟨wider, k + 1, evolves.outer List.nil_suffix, denoted.knows.later evolves reflects,
        trivial⟩
  cases request with
  | recognizer nub =>
    refine .pure ⟨dens, view, k, .refl, denoted.knows, fun _ mem => mem, fun j r there _ => ?_,
      fun r mem shape here => ?_⟩
    · exact (List.getElem?_append_left (List.getElem?_eq_some_iff.mp there).1).trans there
    · rcases List.mem_append.mp mem with mem | mem
      · exact .inl mem
      · rw [List.mem_singleton.mp mem] at here
        cases here
  | recognize i j =>
    simp only [answer, withRecognizer, withValue]
    split
    · split
      · rename_i there _ _ given
        exact .map ((denoted.recognizes there given fuel held).mono
          (fun _ _ onward => ⟨dens, onward⟩) fun _ _ failed => failed)
      · exact idle
    · exact idle
  | require i j =>
    simp only [answer, withRecognizer, withValue]
    split
    · split
      · rename_i there _ _ given
        refine .map ((denoted.recognizes there given fuel held).bind ?_)
        rintro ⟨found, r'⟩ after ⟨wider, k', evolves, knows, grown⟩
        cases found with
        | true => exact .pure ⟨dens, wider, k', evolves, knows, grown⟩
        | false => exact .raise fun _ => ⟨wider, k', evolves, knows, trivial⟩
      · exact idle
    · exact idle
  | dist i p t =>
    simp only [answer, withRecognizer]
    split
    · rename_i there
      exact denoted.answered_same (.map (Ends.mono (denoted.samples (List.mem_of_getElem? there)
        converts_toNumber fuel held .dist p t) (fun _ _ ended => ⟨rfl, ended⟩)
        fun _ _ failed => failed))
    · exact idle
  | colour i p t =>
    simp only [answer, withRecognizer]
    split
    · rename_i there
      exact denoted.answered_same (.map (Ends.mono (denoted.samples (List.mem_of_getElem? there)
        converts_toColour fuel held .colour p t) (fun _ _ ended => ⟨rfl, ended⟩)
        fun _ _ failed => failed))
    · exact idle
  | shader i =>
    simp only [answer, withRecognizer]
    split
    · rename_i there
      refine denoted.answered_same ((denoted.exports (List.mem_of_getElem? there) fuel held).bind
        ?_)
      rintro ⟨text, fault⟩ after ended
      cases fault with
      | none => exact .pure ⟨rfl, ended⟩
      | some fault => exact Ends.throw ended
    · exact idle
  | compile | eval | inline => exact uses.elim
  | _ => exact (asks trivial).elim

/-- What one turn preserves. -/
theorem turn (t : Turn) (uses : t.request.UsesShapes) : ∃ dens' view' trust' k',
    Denoted m (Session.turn m (s, heap) t).2.1 dens' (Session.turn m (s, heap) t).2.2 view' trust'
      k' ∧
    Kept s heap view (Session.turn m (s, heap) t).2.1 (Session.turn m (s, heap) t).2.2 view' := by
  have ended := denoted.answers t.request uses t.fuel t.held
  obtain ⟨-, trust', -, secure⟩ := turn_secure m t denoted.secure
  unfold Session.turn at secure ⊢
  rcases ran : s.answer m t.fuel t.held t.request heap with ⟨fault | s', after⟩
  · rw [ran] at secure
    obtain ⟨wider, k', evolves, knows, -⟩ := ended.failed ran
    obtain ⟨view', denoted', kept⟩ := Grown.refl.denoted denoted evolves knows secure
    exact ⟨dens, view', trust', k', denoted', kept⟩
  · rw [ran] at secure
    obtain ⟨dens', wider, k', evolves, knows, grown⟩ := ended.returned ran
    obtain ⟨view', denoted', kept⟩ := grown.denoted denoted evolves knows secure
    exact ⟨dens', view', trust', k', denoted', kept⟩

end Denoted

/-- What any number of turns preserve. -/
theorem Denoted.play (turns : List Turn) (uses : ∀ t ∈ turns, t.request.UsesShapes)
    (denoted : Denoted m s dens heap view trust k) : ∃ dens' view' trust' k',
    Denoted m (Session.play m (s, heap) turns).1 dens' (Session.play m (s, heap) turns).2 view'
      trust' k' ∧
    Kept s heap view (Session.play m (s, heap) turns).1 (Session.play m (s, heap) turns).2
      view' := by
  induction turns generalizing s dens heap view trust k with
  | nil => exact ⟨dens, view, trust, k, denoted, .refl⟩
  | cons t turns ih =>
    obtain ⟨dens₁, view₁, trust₁, k₁, denoted₁, kept₁⟩ := denoted.turn t (uses t (by simp))
    obtain ⟨dens₂, view₂, trust₂, k₂, denoted₂, kept₂⟩ :=
      ih (fun other mem => uses other (by simp [mem])) denoted₁
    exact ⟨dens₂, view₂, trust₂, k₂, denoted₂, kept₁.trans kept₂⟩

end Session

end ShapeLang
