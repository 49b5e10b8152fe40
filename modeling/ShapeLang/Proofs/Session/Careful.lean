import ShapeLang.Program
import ShapeLang.Proofs.Eval.Safety
import ShapeLang.Proofs.Scope.Soundness
import ShapeLang.Proofs.Session.Advance

/-! # Requests meet no defect

What a host can do with frames, one operation at a time: programs are compiled, fields are read,
shapes are recognized and sampled. Each leaves the trusted frames trusted, also when it fails.
-/

namespace ShapeLang

/-- A computation that meets no defect where `trust` can be trusted, and leaves it so. -/
def Careful {α : Type} (action : Eval α) (heap : Heap) (trust : Trust)
    (returns : α → Heap → Trust → Prop) : Prop :=
  Ends action heap
    (fun a later => ∃ wider, Advance heap trust later wider ∧ returns a later wider)
    fun fault later => fault.Harmless ∧ ∃ wider, Advance heap trust later wider

section Careful

variable {α β : Type} {action : Eval α} {heap : Heap} {trust : Trust}
  {returns : α → Heap → Trust → Prop} {held : List Held}

namespace Careful

theorem pure (sound : heap.Sound trust) {a : α} (ok : returns a heap trust) :
    Careful (pure a) heap trust returns :=
  ⟨trust, .refl sound, ok⟩

theorem raise (sound : heap.Sound trust) {context : Context} {kind : ErrorKind} :
    Careful (Eval.raise held context kind) heap trust returns :=
  Ends.raise fun _ => ⟨.exception _, trust, .refl sound⟩

theorem bind {next : α → Eval β} {returns' : β → Heap → Trust → Prop}
    (first : Careful action heap trust returns)
    (second : ∀ a later wider, Advance heap trust later wider → returns a later wider →
      Careful (next a) later wider returns') :
    Careful (action >>= next) heap trust returns' := by
  refine Ends.bind first fun a later ok => ?_
  obtain ⟨wider, advance, ok⟩ := ok
  refine (second a later wider advance ok).mono (fun _ last ok => ?_) fun _ last failed => ?_
  · obtain ⟨widest, advance', ok⟩ := ok
    exact ⟨widest, advance.trans advance', ok⟩
  · obtain ⟨harmless, widest, advance'⟩ := failed
    exact ⟨harmless, widest, advance.trans advance'⟩

theorem through {next : α → Eval β} (middle : α → Heap → Trust → Prop)
    {returns : β → Heap → Trust → Prop} (first : Careful action heap trust middle)
    (second : ∀ a later wider, Advance heap trust later wider → middle a later wider →
      Careful (next a) later wider returns) :
    Careful (action >>= next) heap trust returns :=
  first.bind second

theorem stop {next : α → Eval β} {returns : β → Heap → Trust → Prop}
    (first : Careful action heap trust fun _ _ _ => False) :
    Careful (action >>= next) heap trust returns :=
  first.bind fun _ _ _ _ impossible => impossible.elim

theorem mono {returns' : α → Heap → Trust → Prop} (careful : Careful action heap trust returns)
    (ok : ∀ a later wider, Advance heap trust later wider → returns a later wider →
      returns' a later wider) :
    Careful action heap trust returns' :=
  Ends.mono careful (fun a later ended => by
    obtain ⟨wider, advance, ended⟩ := ended
    exact ⟨wider, advance, ok a later wider advance ended⟩) fun _ _ failed => failed

theorem map {f : α → β} {returns' : β → Heap → Trust → Prop}
    (careful : Careful action heap trust fun a => returns' (f a)) :
    Careful (f <$> action) heap trust returns' :=
  Ends.map careful

/-- Evaluation in trusted frames. -/
theorem of_stays {owners : List FrameId} {entry : List Value} {after : α → List Value}
    (stays : Eval.Stays action heap heap owners entry after) (sound : heap.Sound trust)
    (inside : ∀ id ∈ owners, trust id) (trusted : ∀ value ∈ entry, heap.Trusts trust value) :
    Careful action heap trust fun a later wider => ∀ value ∈ after a, later.Trusts wider value :=
  Ends.mono stays (fun _ _ stage => Advance.of_stage stage sound inside trusted)
    fun _ _ broken => ⟨broken.1, (Advance.of_stage broken.2 sound inside trusted).imp
      fun _ ended => ended.1⟩

end Careful

namespace Program

variable {names : Namespace} {caller : Option FrameId} {source : Source}

/-- A program in its frame. -/
def Settled (p : Program) (heap : Heap) (trust : Trust) : Prop :=
  trust p.frame ∧ heap.Fits p.frame p.expr

private theorem fits_root {resolved : Resolved} {phrase : Phrase} {callDepth : Nat}
    (accepted : phrase.analyze names = .ok resolved) :
    (heap.alloc resolved.slotCount none caller none callDepth).2.Fits heap.frames.size
      resolved.expr := by
  obtain ⟨resolves, room⟩ := Phrase.resolves_of_analyze accepted
  refine ⟨resolves.scoped.mono fun depth slot seen => ?_, _, Heap.frame?_alloc_self .., ?_⟩
  · obtain ⟨name, found⟩ := seen
    cases found
  · simpa [Heap.fresh] using room.inside

private theorem catching_careful {after : Except (List ProgramError) α → Heap → Trust → Prop}
    (careful : Careful action heap trust fun a => after (.ok a))
    (excepted : ∀ errors later wider, after (.error errors) later wider) :
    Careful (catching action) heap trust after := by
  unfold Careful Ends at careful
  rcases ran : action heap with ⟨(e | d | _) | a, later⟩ <;> rw [ran] at careful
  · have run : catching action heap = (.ok (.error [.exception e]), later) := by
      simp only [catching, ran]
    obtain ⟨-, wider, advance⟩ := careful
    exact Ends.intro run (fun _ same => Except.ok.inj same ▸ ⟨wider, advance, excepted _ _ _⟩)
      fun _ same => by cases same
  · have run : catching action heap = (.error (.defect d), later) := by simp only [catching, ran]
    exact Ends.intro run (fun _ same => by cases same)
      fun _ same => Except.error.inj same ▸ careful
  · have run : catching action heap = (.error .outOfFuel, later) := by simp only [catching, ran]
    exact Ends.intro run (fun _ same => by cases same)
      fun _ same => Except.error.inj same ▸ careful
  · have run : catching action heap = (.ok (.ok a), later) := by simp only [catching, ran]
    exact Ends.intro run (fun _ same => Except.ok.inj same ▸ careful) fun _ same => by cases same

private theorem resolve_careful (sound : heap.Sound trust) {phrase : Phrase} :
    Careful (resolve names held caller phrase) heap trust fun resolved later wider =>
      phrase.analyze names = .ok resolved ∧ heap = later ∧ trust = wider := by
  unfold resolve
  cases analysed : phrase.analyze names with
  | ok resolved => exact .pure sound ⟨rfl, rfl, rfl⟩
  | error fault =>
    have harmless := phrase.harmless_of_analyze analysed
    cases fault with
    | exception e =>
      refine Ends.through (fun _ after => heap = after) (Ends.get rfl) ?_
      rintro current _ rfl
      exact Ends.throw ⟨.exception _, trust, .refl sound⟩
    | defect d => exact absurd rfl (harmless d)
    | outOfFuel => exact Ends.throw ⟨.outOfFuel, trust, .refl sound⟩

theorem compile_careful (sound : heap.Sound trust)
    (known : ∀ id, caller = some id → ∃ frame, heap.frame? id = some frame) :
    Careful (compile names held caller source) heap trust fun result later wider =>
      ∀ p, result = .ok p → p.Settled later wider := by
  unfold compile
  split
  · exact .pure sound fun _ same => by cases same
  rename_i phrase
  refine catching_careful ?_ fun _ _ _ _ same => by cases same
  refine (resolve_careful sound).bind ?_
  rintro resolved _ _ - ⟨accepted, rfl, rfl⟩
  have allocated (callDepth : Nat) :
      Careful (Eval.alloc resolved.slotCount none caller none callDepth) heap trust
        fun id later wider => wider id ∧ later.Fits id resolved.expr := by
    refine Ends.alloc ⟨fun id => trust id ∨ id = heap.frames.size, .of_grows (.alloc ..)
      (fun _ known => .inl known)
      (fun id known => known.imp_right fun same => Nat.le_of_eq same.symm)
      (sound.alloc_trusted fun _ same => by cases same), .inr rfl, fits_root accepted⟩
  refine Careful.through (fun id later wider => wider id ∧ later.Fits id resolved.expr) ?_ ?_
  · unfold Eval.allocRoot
    cases caller with
    | none => exact allocated 0
    | some id =>
      obtain ⟨frame, found⟩ := known id rfl
      refine Ends.through (fun _ after => heap = after)
        (.map (.frame_found found rfl)) ?_
      rintro callDepth _ rfl
      exact allocated callDepth
  · rintro id later wider advance ⟨inside, fits⟩
    exact .pure advance.sound fun p same => by
      obtain rfl := Except.ok.inj same
      exact ⟨inside, fits⟩

end Program

section Evaluating

variable {m : Machine} {evaluate : Evaluator} {value : Value}

/-- Evaluating a program again. -/
theorem Program.Settled.eval_careful {p : Program} {fuel : Nat} (settled : p.Settled heap trust)
    (sound : heap.Sound trust) :
    Careful (p.eval m fuel held) heap trust fun value later wider => later.Trusts wider value := by
  have world : Eval.World heap [p.frame] [] := ⟨trust, sound, by simp [settled.1], by simp⟩
  exact (Careful.of_stays (Eval.upTo_safe m fuel heap _ _ _ world settled.2) sound
    (by simp [settled.1]) (by simp)).mono fun value later wider _ trusted => trusted value (by simp)

variable (safe : Eval.Safe evaluate) (sound : heap.Sound trust)

include safe sound

/-- Reading a field. -/
theorem field?_careful (trusted : heap.Trusts trust value) {name : String} {context : Context} :
    Careful (Eval.field? evaluate held value name context) heap trust fun found later wider =>
      ∀ part ∈ found, later.Trusts wider part := by
  have world : Eval.World heap [] [value] := ⟨trust, sound, by simp, by simpa using trusted⟩
  refine (Careful.of_stays (Eval.stays_field? safe world (.refl heap [] [value]) (by simp)) sound
    (by simp) (by simpa using trusted)).mono fun found later wider _ known part mem => ?_
  exact known part (List.mem_append_left _ (Option.mem_toList.mpr mem))

/-- Calling a function from any frame. -/
theorem call_careful {args : List Value} {caller : FrameId} {site : Location}
    (trusted : heap.Trusts trust value) (given : ∀ arg ∈ args, heap.Trusts trust arg)
    (known : ∃ frame, heap.frame? caller = some frame) :
    Careful (Eval.call m evaluate held value args caller site) heap trust
      fun result later wider => later.Trusts wider result := by
  have entry : ∀ part ∈ value :: args, heap.Trusts trust part := by simpa using ⟨trusted, given⟩
  have world : Eval.World heap [] (value :: args) := ⟨trust, sound, by simp, entry⟩
  exact (Careful.of_stays (Eval.stays_call safe world (.refl heap [] (value :: args)) (by simp)
    (fun arg mem => by simp [mem]) known) sound (by simp) entry).mono
      fun result later wider _ known => known result (by simp)

end Evaluating

section Recognizing

variable {evaluate : Evaluator} {value : Value}

/-- The shape that a recognizer has met can be used. -/
def Recognizer.Settled (r : Recognizer) (heap : Heap) (trust : Trust) : Prop :=
  ∀ shape, r.shape = some shape → ∀ role, heap.Serves trust (shape.function role)

/-- A recognizer that has met no shape. -/
theorem Recognizer.Settled.new (nub : Option Location) :
    (Recognizer.new nub).Settled heap trust := by
  intro shape same
  cases same

/-- A closure that can serve as a function of a shape. -/
private def Fit (heap : Heap) (trust : Trust) (lambda : Lambda) (env : FrameId) : Prop :=
  (lambda.paramCount = 1 ∨ lambda.paramCount = 2) ∧
    heap.Trusts trust (.closure 0 lambda env)

private theorem Fit.advance {lambda : Lambda} {env : FrameId} {later : Heap} {wider : Trust}
    (fit : Fit heap trust lambda env) (advance : Advance heap trust later wider) :
    Fit later wider lambda env :=
  ⟨fit.1, advance.trusts fit.2⟩

private theorem fit_of_closure? {found : Option Value} {lambda : Lambda} {env : FrameId}
    (trusted : ∀ part ∈ found, heap.Trusts trust part)
    (same : found.bind Shape.closure? = some (lambda, env)) : Fit heap trust lambda env := by
  obtain ⟨part, mem, same⟩ := Option.bind_eq_some_iff.mp same
  cases part with
  | closure serial code frame =>
    simp only [Shape.closure?] at same
    split at same
    · rename_i count
      obtain ⟨rfl, rfl⟩ := Prod.mk.inj (Option.some.inj same)
      refine ⟨count, ?_⟩
      cases trusted _ mem with
      | closure known => exact .closure known
    · cases same
  | _ => cases same

/-- A shape function gets a frame that is not among the trusted ones. -/
private theorem capture_careful (sound : heap.Sound trust) {lambda : Lambda} {env : FrameId}
    (fit : Fit heap trust lambda env) :
    Careful (Shape.capture lambda env) heap trust fun function later wider =>
      later.Serves wider function := by
  obtain ⟨count, trusted⟩ := fit
  cases trusted with
  | closure known =>
    obtain ⟨inside, sees⟩ := known
    obtain ⟨frame, found⟩ := sound.found env inside
    refine Ends.through (fun id later => id = heap.frames.size ∧
      (heap.alloc lambda.slotCount (some env) (some env) none frame.depth).2 = later)
      (.allocChild (fun other found' => ?_) fun missing => by simp [found] at missing) ?_
    · obtain rfl := Option.some.inj (found'.symm.trans found)
      exact ⟨rfl, rfl⟩
    rintro _ _ ⟨rfl, rfl⟩
    have grows := Heap.Grows.alloc heap lambda.slotCount (some env) (some env) none frame.depth
    refine .pure ⟨trust, .of_grows grows (fun _ known => known) (fun _ known => .inl known)
      sound.alloc, count, fun known => Nat.lt_irrefl _ (sound.lt_size known), _, env,
      Heap.frame?_alloc_self .., by simp [Heap.fresh], rfl, inside, sees.mono grows.visible⟩

theorem shape_careful (safe : Eval.Safe evaluate) (sound : heap.Sound trust)
    (trusted : heap.Trusts trust value) {context : Context} :
    Careful (Shape.ofValue? evaluate held context value) heap trust fun found later wider =>
      ∀ shape, found = some shape → ∀ role, later.Serves wider (shape.function role) := by
  unfold Shape.ofValue?
  have read {later : Heap} {wider : Trust} (advance : Advance heap trust later wider)
      (name : String) : Careful (Eval.field? evaluate (.value value :: held) value name context)
        later wider fun found later wider => ∀ part ∈ found, later.Trusts wider part :=
    field?_careful safe advance.sound (advance.trusts trusted)
  have nothing {later : Heap} {wider : Trust} (advance : Advance heap trust later wider) :
      Careful (Pure.pure none) later wider fun (found : Option Shape) later wider =>
        ∀ shape, found = some shape → ∀ role, later.Serves wider (shape.function role) :=
    .pure advance.sound fun _ same => by cases same
  refine (read (.refl sound) _).bind fun found₁ heap₁ trust₁ advance₁ parts₁ => ?_
  split
  case h_2 => exact nothing advance₁
  rename_i dist distEnv sameDist
  have fitDist := fit_of_closure? parts₁ sameDist
  refine (read advance₁ _).bind fun found₂ heap₂ trust₂ step₂ parts₂ => ?_
  have advance₂ := advance₁.trans step₂
  split
  case h_2 => exact nothing advance₂
  rename_i colour colourEnv sameColour
  have fitColour := fit_of_closure? parts₂ sameColour
  refine (read advance₂ _).bind fun flat heap₃ trust₃ step₃ _ => ?_
  have advance₃ := advance₂.trans step₃
  refine (read advance₃ _).bind fun solid heap₄ trust₄ step₄ _ => ?_
  have advance₄ := advance₃.trans step₄
  split
  case h_2 => exact nothing advance₄
  split
  case h_2 => exact nothing advance₄
  refine (read advance₄ _).bind fun box heap₅ trust₅ step₅ _ => ?_
  have advance₅ := advance₄.trans step₅
  split
  case h_2 => exact nothing advance₅
  have later := step₃.trans (step₄.trans step₅)
  refine (capture_careful advance₅.sound (fitDist.advance (step₂.trans later))).bind
    fun distFunction heap₆ trust₆ step₆ servesDist => ?_
  refine (capture_careful step₆.sound (fitColour.advance (later.trans step₆))).bind
    fun colourFunction heap₇ trust₇ step₇ servesColour => ?_
  refine .pure step₇.sound fun shape same role => ?_
  obtain rfl := Option.some.inj same
  cases role with
  | dist => exact step₇.serves servesDist
  | colour => exact servesColour

variable {r : Recognizer}

theorem recognize_careful (safe : Eval.Safe evaluate) (sound : heap.Sound trust)
    (trusted : heap.Trusts trust value) (settled : r.Settled heap trust) :
    Careful (r.recognize evaluate held value) heap trust fun found later wider =>
      found.2.Settled later wider := by
  unfold Recognizer.recognize
  by_cases known : r.isShape
  · simp only [known, ↓reduceIte]
    exact .pure sound settled
  simp only [known, Bool.false_eq_true, ↓reduceIte]
  refine (shape_careful safe sound trusted).bind fun found later wider advance serves => ?_
  cases found with
  | some shape => exact .pure advance.sound fun other same => serves other same
  | none =>
    exact .pure advance.sound fun shape same role => advance.serves (settled shape same role)

theorem require_careful (safe : Eval.Safe evaluate) (sound : heap.Sound trust)
    (trusted : heap.Trusts trust value) (settled : r.Settled heap trust) :
    Careful (r.require evaluate held value) heap trust fun r' later wider =>
      r'.Settled later wider := by
  refine (recognize_careful safe sound trusted settled).bind ?_
  rintro ⟨found, r'⟩ later wider advance settled'
  cases found with
  | true => exact .pure advance.sound settled'
  | false => exact .raise advance.sound

end Recognizing

section Sampling

variable {evaluate : Evaluator} {function : ShapeFunction}

/-- The arguments of a shape function at a point and a time. -/
def ShapeFunction.pointArgs (function : ShapeFunction) (p : Point) (t : Float) : List Value :=
  if function.lambda.paramCount = 1 then [.ofNumbers [p.x, p.y, p.z, t]]
  else [.ofNumbers [p.x, p.y, p.z], .num t]

/-- The frames when the function starts: its own frame holds the arguments and nothing else. -/
def ShapeFunction.entered (function : ShapeFunction) (heap : Heap) (p : Point) (t : Float) : Heap :=
  (heap.mapSlots function.frame (·.map fun _ => .empty)).putEach function.frame
    (readies 0 (function.pointArgs p t))

theorem ShapeFunction.length_pointArgs
    (count : function.lambda.paramCount = 1 ∨ function.lambda.paramCount = 2) (p : Point)
    (t : Float) : (function.pointArgs p t).length = function.lambda.paramCount := by
  rcases count with count | count <;> simp [pointArgs, count]

theorem ShapeFunction.pointArgs_plain (p : Point) (t : Float) :
    ∀ arg ∈ function.pointArgs p t, arg.Plain := by
  intro arg mem
  unfold pointArgs at mem
  split at mem
  · obtain rfl := List.mem_singleton.mp mem
    exact .ofNumbers _
  · rcases List.mem_cons.mp mem with rfl | mem
    · exact .ofNumbers _
    · obtain rfl := List.mem_singleton.mp mem
      exact .num t

/-- A call of a shape function evaluates its body in its own frame. -/
theorem Ends.callAt {frame : Frame} {p : Point} {t : Float} {returns : Value → Heap → Prop}
    {fails : Fault → Heap → Prop}
    (count : function.lambda.paramCount = 1 ∨ function.lambda.paramCount = 2)
    (found : heap.frame? function.frame = some frame)
    (inside : function.lambda.paramCount ≤ frame.slots.length)
    (ends : Ends (evaluate (.frame function.frame :: held) function.frame function.lambda.body)
      (function.entered heap p t) returns fails) :
    Ends (Recognizer.callAt evaluate held function p t) heap returns fails := by
  unfold Recognizer.callAt
  refine Ends.through (fun _ after =>
    heap.mapSlots function.frame (·.map fun _ => .empty) = after) (.modify rfl) ?_
  rintro _ _ rfl
  have cleared := Heap.frame?_mapSlots_self (f := (·.map fun _ => Slot.empty)) found
  rcases count with count | count
  · rw [count] at inside
    rw [ShapeFunction.entered, ShapeFunction.pointArgs, if_pos count] at ends
    rw [if_pos count]
    refine Ends.through (fun _ after => _ = after)
      (.store_found cleared (by simp; omega) rfl) ?_
    rintro _ _ rfl
    exact ends
  · rw [count] at inside
    rw [ShapeFunction.entered, ShapeFunction.pointArgs, if_neg (by omega)] at ends
    rw [if_neg (by omega)]
    refine Ends.through (fun _ after => _ = after)
      (.store_found cleared (by simp; omega) rfl) ?_
    rintro _ _ rfl
    refine Ends.through (fun _ after => _ = after)
      (.store_found (Heap.frame?_put_self cleared) (by simp; omega) rfl) ?_
    rintro _ _ rfl
    exact ends

theorem ShapeFunction.frame?_entered {frame : Frame} {p : Point} {t : Float}
    (found : heap.frame? function.frame = some frame) :
    (function.entered heap p t).frame? function.frame =
      some { frame with
        slots := setEach (frame.slots.map fun _ => .empty)
          (readies 0 (function.pointArgs p t)) } :=
  Heap.frame?_putEach_self (Heap.frame?_mapSlots_self found)

theorem ShapeFunction.frame?_entered_ne {id : FrameId} {p : Point} {t : Float}
    (different : function.frame ≠ id) :
    (function.entered heap p t).frame? id = heap.frame? id :=
  (Heap.frame?_putEach_ne different).trans (Heap.frame?_mapSlots_ne different)

theorem ShapeFunction.extends_entered (heap : Heap) (p : Point) (t : Float) :
    heap.Extends (function.entered heap p t) :=
  (Heap.Extends.mapSlots heap function.frame fun _ => List.length_map ..).trans
    (Heap.Grows.putEach _ _ readies_nonempty).extension

/-- Nothing that is trusted changes when a shape function starts. -/
theorem advance_entered (sound : heap.Sound trust) (apart : ¬ trust function.frame) (p : Point)
    (t : Float) : Advance heap trust (function.entered heap p t) trust :=
  .of_agree (function.extends_entered heap p t) sound fun _ known =>
    function.frame?_entered_ne fun same => apart (same ▸ known)

/-- The frame of a shape function can be trusted as well when the function starts. -/
theorem world_entered (sound : heap.Sound trust) (serves : heap.Serves trust function) (p : Point)
    (t : Float) : Eval.World (function.entered heap p t) [function.frame] [] ∧
      (function.entered heap p t).Fits function.frame function.lambda.body := by
  obtain ⟨frame, env, found, size, atParent, inside, sees⟩ := serves.frame
  have advance := advance_entered sound serves.apart p t
  have found' := function.frame?_entered (p := p) (t := t) found
  have args := function.length_pointArgs serves.paramCount p t
  obtain ⟨room, inner⟩ : Room function.lambda.slotCount
      (List.range function.lambda.paramCount ++ function.lambda.body.letSlots) ∧
      function.lambda.body.Scoped ((heap.visible env).enter
        (List.range function.lambda.paramCount)) := by
    cases sees with
    | lambda room inner => exact ⟨room, inner⟩
  have cleared := Heap.frame?_mapSlots_self (f := (·.map fun _ => Slot.empty)) found
  refine ⟨⟨fun id => trust id ∨ id = function.frame, advance.sound.insert found' ?_ ?_, by simp,
    by simp⟩, inner.mono fun depth slot seen => ?_, _, found', fun slot mem => ?_⟩
  · intro parent same
    obtain rfl := Option.some.inj (same.symm.trans atParent)
    exact inside
  · intro slot content holds
    rcases mem_of_getElem?_setEach holds with old | new
    · rw [List.getElem?_map] at old
      obtain ⟨_, -, rfl⟩ := Option.map_eq_some_iff.mp old
      trivial
    · obtain ⟨-, -, arg, mem, rfl⟩ := mem_readies new
      exact (function.pointArgs_plain p t arg mem).holds
  · cases depth with
    | zero =>
      have given : slot ∈ (readies 0 (function.pointArgs p t)).map (·.1) := by
        rw [map_readies, args, ← List.range_eq_range']
        exact seen
      obtain ⟨content, mem, rfl⟩ := List.mem_map.mp given
      refine ⟨_, rfl, Heap.filled_putEach cleared readies_nonempty mem ?_⟩
      simpa [size] using room.inside content.1 (List.mem_append_left _ seen)
    | succ depth =>
      obtain ⟨owner, reached, filled⟩ := advance.visible env depth slot inside seen
      exact ⟨owner, Heap.ancestor?_succ_eq_some_iff.mpr ⟨_, env, found', atParent, reached⟩, filled⟩
  · simpa [size] using room.inside slot (List.mem_append_right _ mem)

variable {r : Recognizer} {role : ShapeRole}

/-- Sampling a function of a shape. -/
theorem sample_careful {result : Value → Except ErrorKind α} {p : Point} {t : Float}
    (safe : Eval.Safe evaluate) (sound : heap.Sound trust) (settled : r.Settled heap trust) :
    Careful (r.sample evaluate held role result p t) heap trust fun _ _ _ => True := by
  unfold Recognizer.sample Recognizer.function
  dsimp only
  split
  · rename_i shape same
    have serves := settled shape same role
    obtain ⟨frame, env, found, size, -, -, sees⟩ := serves.frame
    have room : (shape.function role).lambda.paramCount ≤ frame.slots.length := by
      cases sees with
      | lambda room =>
        by_contra less
        have := room.inside (shape.function role).lambda.slotCount (by simp; omega)
        omega
    obtain ⟨world, fits⟩ := world_entered sound serves p t
    have advance := advance_entered sound serves.apart p t
    refine Ends.through (fun function after => shape.function role = function ∧ heap = after)
      ⟨rfl, rfl⟩ ?_
    rintro _ _ ⟨rfl, rfl⟩
    refine Careful.through (fun _ _ _ => True)
      (Ends.callAt serves.paramCount found room
      ((safe _ _ _ _ world fits).mono (fun value later stage => ?_) fun fault later broken => ?_))
      fun value later wider advance _ => ?_
    · obtain ⟨wider, advance'⟩ := Advance.of_stage_apart stage advance.sound
      exact ⟨wider, advance.trans advance', trivial⟩
    · obtain ⟨wider, advance'⟩ := Advance.of_stage_apart broken.2 advance.sound
      exact ⟨broken.1, wider, advance.trans advance'⟩
    · exact .blaming (fun _ _ => ⟨wider, .refl advance.sound, trivial⟩)
        fun _ _ _ => ⟨.exception _, wider, .refl advance.sound⟩
  · exact Careful.stop (.raise sound)

end Sampling

end Careful

end ShapeLang
