import ShapeLang.Proofs.Denotation.Correspondence
import ShapeLang.Proofs.Denotation.Simulation
import ShapeLang.Proofs.Session.Requests

/-! # What a host finds

A host makes values, reads fields and calls functions. Each time it finds what is denoted, whatever
it asked for before and however that ended. Every request is evaluated at a place of its own, so
that what it makes can be told from everything else.
-/

namespace ShapeLang

/-- Requests for values: they compile nothing, evaluate no program and look for no shapes. -/
def Request.UsesValues : Request → Prop
  | .constant _ | .list _ | .record _ | .item _ _ | .field _ _ _ | .call _ _ _ _ => True
  | _ => False

/-- Requests that name no frame of the program. -/
def Request.NamesNoFrame : Request → Prop
  | .call _ _ caller _ => caller = none
  | _ => True

/-- Exceptions of the same kind. -/
inductive Fault.SameKind : Fault → Fault → Prop
  | exception {e e' : Exception} (kind : e.kind = e'.kind) : SameKind (.exception e) (.exception e')

namespace Session

/-- A call of the host is made from a frame that it names, or from a new frame. -/
theorem ends_callingFrame (heap : Heap) (named : Option FrameId) :
    ∃ depth, (named = none → depth = 0) ∧
      Ends (callingFrame named) heap (fun id later =>
        (∃ frame, later.frame? id = some frame ∧ frame.depth = depth) ∧
          (later = heap ∨ later = (heap.alloc 0 none none none 0).2)) fun _ _ => False := by
  unfold callingFrame caller
  cases known : named.filter fun id => (heap.frame? id).isSome with
  | none =>
    refine ⟨0, fun _ => rfl, ?_⟩
    refine Ends.through (fun found later => found = none ∧ later = heap)
      (Ends.through (fun current later => current = heap ∧ later = heap)
        (Ends.get ⟨rfl, rfl⟩) ?_) ?_
    · rintro _ _ ⟨rfl, rfl⟩
      exact .pure ⟨known, rfl⟩
    · rintro _ _ ⟨rfl, rfl⟩
      refine Ends.through (fun callDepth later => callDepth = 0 ∧ later = _) ⟨rfl, rfl⟩ ?_
      rintro _ _ ⟨rfl, rfl⟩
      exact .alloc ⟨⟨_, Heap.frame?_alloc_self .., rfl⟩, .inr rfl⟩
  | some id =>
    obtain ⟨rfl, there⟩ := Option.filter_eq_some_iff.mp known
    obtain ⟨frame, found⟩ := Option.isSome_iff_exists.mp there
    refine ⟨frame.depth, by simp, ?_⟩
    refine Ends.through (fun found later => found = some id ∧ later = heap)
      (Ends.through (fun current later => current = heap ∧ later = heap)
        (Ends.get ⟨rfl, rfl⟩) ?_) ?_
    · rintro _ _ ⟨rfl, rfl⟩
      exact .pure ⟨known, rfl⟩
    · rintro _ _ ⟨rfl, rfl⟩
      exact .pure ⟨⟨frame, found, rfl⟩, .inl rfl⟩

end Session

namespace Denotation

variable {m : Machine} {busy : List Task} {view wider : View} {heap heap' : Heap} {w : Place}
  {id : FrameId} {env : Env} {value : Value} {value' : Den} {values : List Value} {dens : List Den}
  {k : Nat}

namespace MeansAll

theorem snoc (all : MeansAll busy view w values dens) (means : Means busy view w value value') :
    MeansAll busy view w (values ++ [value]) (dens ++ [value']) := by
  obtain ⟨pairs, rfl, rfl, parts⟩ := all
  refine ⟨pairs ++ [(value, value')], by simp, by simp, fun pair mem => ?_⟩
  rcases List.mem_append.mp mem with mem | mem
  · exact parts pair mem
  · obtain rfl := List.mem_singleton.mp mem
    exact means

/-- Values that mean the same under two views. -/
theorem corresponds {busy' : List Task} {view' : View} {w' : Place} {values' : List Value}
    (all : MeansAll busy view w values dens) (all' : MeansAll busy' view' w' values' dens) :
    List.Forall₂ (Value.Corresponds (SameEnv view view') (SamePlace view view'))
      values values' := by
  rw [List.forall₂_iff_get]
  refine ⟨all.length_eq.trans all'.length_eq.symm, fun i low low' => ?_⟩
  have means := all.getElem? i
  have means' := all'.getElem? i
  rw [List.getElem?_eq_getElem low] at means
  rw [List.getElem?_eq_getElem low'] at means'
  generalize dens[i]? = den at means means'
  cases means with | some means =>
  cases means' with | some means' => exact means.corresponds means'

/-- The values that a host names. -/
theorem named (all : MeansAll busy view w values dens) (args : List Nat) :
    MeansAll busy view w (args.filterMap (values[·]?)) (args.filterMap (dens[·]?)) := by
  induction args with
  | nil => exact .nil
  | cons i args ih =>
    have found := all.getElem? i
    simp only [List.filterMap_cons]
    generalize values[i]? = value at found ⊢
    generalize dens[i]? = value' at found ⊢
    cases found with
    | none => exact ih
    | some means => exact .cons means ih

/-- The fields of a record that a host makes. -/
theorem namedFields (all : MeansAll busy view w values dens) (fields : List (String × Nat)) :
    MeansFields busy view w
      (fields.filterMap fun field => values[field.2]?.map fun value => (field.1, value))
      (fields.filterMap fun field => dens[field.2]?.map fun value => (field.1, value)) := by
  induction fields with
  | nil => exact ⟨[], rfl, rfl, by simp⟩
  | cons field fields ih =>
    have found := all.getElem? field.2
    simp only [List.filterMap_cons]
    generalize values[field.2]? = value at found ⊢
    generalize dens[field.2]? = value' at found ⊢
    cases found with
    | none => exact ih
    | some means => exact .cons means ih

end MeansAll

/-- What a host has after a request, if it has denotations in the place of values and `depth` calls
are around the calls that it makes. -/
def answer (m : Machine) (den : Denoter) (dens : List Den) (depth : Nat) (w : Place) :
    Request → Outcome (List Den)
  | .constant value => pure (dens ++ [.ofPlain value.toValue])
  | .list items => pure (dens ++ [.list (items.filterMap (dens[·]?))])
  | .record fields =>
    pure (dens ++ [.record (fields.filterMap fun field =>
      dens[field.2]?.map fun value => (field.1, value))])
  | .item i index =>
    match dens[i]? with
    | some (.list items) => pure ((items[index]?.map fun item => dens ++ [item]).getD dens)
    | _ => pure dens
  | .field i name _ =>
    match dens[i]? with
    | some value =>
      (fun found => (found.map fun value => dens ++ [value]).getD dens) <$> field? den value name
    | none => pure dens
  | .call i args _ _ =>
    match dens[i]? with
    | some function =>
      (fun value => dens ++ [value]) <$>
        call m den function (args.filterMap (dens[·]?)) depth w
    | none => pure dens
  | _ => pure dens

section Root

/-- Nothing is known but a frame, and none of its definitions was put into its slot. -/
def View.root (id : FrameId) (env : Env) : View where
  env other := if other = id then some env else none
  origin _ := none
  live _ _ := False

theorem View.root_env {other : FrameId} {env' : Env} (known : (root id env).env other = some env') :
    other = id ∧ env = env' := by
  by_cases here : other = id
  · simp only [root, if_pos here, Option.some.injEq] at known
    exact ⟨here, known⟩
  · simp [root, here] at known

/-- Whatever the slots of an outermost frame hold, it is a frame whose definitions can be put into
their slots. -/
theorem Reflects.root {frame : Frame} (found : heap.frame? id = some frame)
    (depth : frame.depth = env.depth) (laid : env.Laid)
    (room : ∀ d ∈ env.definitions, d.slot < frame.slots.length) (outermost : env.parent = none)
    (empty : env.args = []) : Reflects m [] (.root id env) heap := by
  have nothing {other : FrameId} {env' : Env} {d : Definition}
      (defines : (View.root id env).Defines other env' d) : False := defines.live
  constructor
  case frames =>
    intro id other env env' known known' _
    exact (View.root_env known).1.trans (View.root_env known').1.symm
  case origins =>
    intro _ _ _ known
    cases known
  case places => exact fun _ _ _ _ _ _ defines => (nothing defines).elim
  case closures =>
    intro _ _ known
    cases known
  case stands =>
    intro other env' known
    obtain ⟨rfl, rfl⟩ := View.root_env known
    refine ⟨laid, ⟨frame, found, depth, room, ?_⟩, ?_, ?_⟩
    · simp [outermost]
    · simp [outermost]
    · simp [empty]
  case waits => exact fun _ _ _ defines => (nothing defines).elim
  case awake => exact fun _ _ _ _ _ defines => (nothing defines).elim
  case owned => exact fun _ _ live => live.elim
  case underWay => exact fun _ mem => by cases mem

/-- Nothing was made yet. -/
theorem View.free_root (outside : env.name = []) : Free (root id env) heap [] 0 := by
  constructor
  · exact fun _ _ _ defines => defines.live.elim
  · intro i _ x taken inside
    cases taken with
    | frame known =>
      obtain ⟨rfl, rfl⟩ := root_env known
      simp [outside] at inside
    | closure known => cases known
    | definition defines => exact defines.live

end Root

/-- What a host has means denotations, and nothing was made yet at the places from a number on. -/
structure Knows (m : Machine) (view : View) (heap : Heap) (values : List Value) (dens : List Den)
    (k : Nat) : Prop where
  reflects : Reflects m [] view heap
  means : MeansAll [] view [] values dens
  free : Free view heap [] k

namespace Knows

theorem seen (w w' : Place) : Seen [] w w' := fun _ mem => by cases mem

/-- What was known before is still known. -/
theorem later (knows : Knows m view heap values dens k)
    (evolves : Evolves [.part k] heap view heap' wider) (reflects : Reflects m [] wider heap') :
    Knows m wider heap' values dens (k + 1) :=
  ⟨reflects, knows.means.later evolves, knows.free.next evolves⟩

theorem mono {k' : Nat} (knows : Knows m view heap values dens k) (le : k ≤ k') :
    Knows m view heap values dens k' :=
  ⟨knows.reflects, knows.means, knows.free.awake, fun i le' => knows.free.fresh i (le.trans le')⟩

/-- A call that the host makes. -/
theorem agrees_call (knows : Knows m view heap values dens k)
    (means : Means [] view [] value value') {args : List Value} {args' : List Den}
    (all : MeansAll [] view [] args args') (caller : Option FrameId) (site : Location) :
    ∃ depth, (caller = none → depth = 0) ∧ ∀ fuel held,
      Agrees m [] [.part k] heap view
        (do
          let frame ← Session.callingFrame caller
          Eval.call m (Eval.upTo m fuel) held value args frame site)
        (fun n => call m (upTo m n) value' args' depth [.part k])
        fun wider result result' => Means [] wider [.part k] result result' := by
  obtain ⟨depth, outermost, ends⟩ := Session.ends_callingFrame heap caller
  refine ⟨depth, outermost, fun fuel held => Agrees.left (Ends.mono ends ?_ ?_)⟩
  rotate_left
  · exact fun _ _ impossible => impossible
  rintro id after ⟨⟨frame, found, rfl⟩, reached⟩
  have stays : Evolves [.part k] heap view after view ∧ Reflects m [] view after := by
    rcases reached with rfl | rfl
    · exact ⟨.refl, knows.reflects⟩
    · exact knows.reflects.alloc ..
  obtain ⟨evolves, reflects⟩ := stays
  have opened : Open view after [.part k] := by
    have free : Free view heap [] k := knows.free
    refine ⟨(free.opened (Nat.le_refl k)).fresh, ?_⟩
    exact evolves.awake_of (fun _ _ _ defines => defines) (free.opened (Nat.le_refl k)).awake
  exact ⟨view, evolves, Denotation.agrees_call (upTo_simulates m fuel) reflects
    (means.seen (seen _ _)) (all.seen (seen _ _)) found opened⟩

/-- A host finds what is denoted. -/
theorem agrees_answer {s : Session} (fuel : Nat) (held : List Held)
    (knows : Knows m view heap s.values dens k) (request : Request) (uses : request.UsesValues) :
    ∃ depth, (request.NamesNoFrame → depth = 0) ∧
      Agrees m [] [.part k] heap view (s.answer m fuel held request)
        (fun n => answer m (upTo m n) dens depth [.part k] request)
        fun wider s' dens' => MeansAll [] wider [] s'.values dens' := by
  have found (i : Nat) := knows.means.getElem? i
  have idle : Agrees m [] [.part k] heap view (pure s : Eval Session) (fun _ => pure dens)
      fun wider s' dens' => MeansAll [] wider [] s'.values dens' := .pure knows.reflects knows.means
  cases request with
  | constant value =>
    refine ⟨0, fun _ => rfl, .pure knows.reflects (knows.means.snoc (.of_plain ?_))⟩
    exact Constant.toValue_plain value
  | list items =>
    exact ⟨0, fun _ => rfl, .pure knows.reflects (knows.means.snoc (knows.means.named items).list)⟩
  | record fields =>
    exact ⟨0, fun _ => rfl, .pure knows.reflects
      (knows.means.snoc (knows.means.namedFields fields).record)⟩
  | item i index =>
    refine ⟨0, fun _ => rfl, ?_⟩
    have found := found i
    simp only [Session.answer, Session.withValue, answer]
    generalize s.values[i]? = value at found ⊢
    generalize dens[i]? = value' at found ⊢
    cases found with
    | none => exact idle
    | some means =>
      cases means with
      | list items parts =>
        have item := MeansAll.getElem? ⟨items, rfl, rfl, parts⟩ index
        dsimp only
        generalize (items.map (·.1))[index]? = item at item ⊢
        generalize (items.map (·.2))[index]? = item' at item ⊢
        cases item with
        | none => exact idle
        | some means => exact .pure knows.reflects (knows.means.snoc means)
      | _ => exact idle
  | field i name context =>
    refine ⟨0, fun _ => rfl, ?_⟩
    have found := found i
    simp only [Session.answer, Session.withValue, answer]
    generalize s.values[i]? = value at found ⊢
    generalize dens[i]? = value' at found ⊢
    cases found with
    | none => exact idle
    | some means =>
      simp only [map_eq_pure_bind]
      apply (agrees_field? (upTo_simulates m fuel) knows.reflects
        (means.seen (seen [.part k] _))).bind List.suffix_rfl
      intro part part' later wider evolves reflects known
      cases known with
      | none => exact .pure reflects (knows.means.later evolves)
      | some means =>
        exact .pure reflects ((knows.means.later evolves).snoc (means.seen (seen _ _)))
  | call i args caller site =>
    have found := found i
    simp only [Session.answer, Session.withValue, answer]
    generalize s.values[i]? = value at found ⊢
    generalize dens[i]? = value' at found ⊢
    cases found with
    | none => exact ⟨0, fun _ => rfl, idle⟩
    | some means =>
      obtain ⟨depth, outermost, agrees⟩ :=
        knows.agrees_call means (knows.means.named args) caller site
      refine ⟨depth, outermost, ?_⟩
      dsimp only
      rw [← map_bind]
      exact (agrees fuel held).mapLater fun _ _ _ _ evolves means =>
        (knows.means.later evolves).snoc (means.seen (seen _ _))
  | _ => exact uses.elim

end Knows

section Ended

variable {β : Type} {outcomes : Nat → Outcome β} {family : Nat → Outcome (List Den)}
  {fault fault' : Fault}

/-- Nothing is under way between the requests of a host. -/
theorem Needs.diverges (needs : Needs m [] outcomes) : Diverges outcomes := by
  rcases needs with diverges | ⟨task, mem, -⟩
  · exact diverges
  · cases mem

theorem Excused.not_settles {b : β} (excused : Excused m [] outcomes fault)
    (fueled : fault ≠ .outOfFuel) : ¬ Settles outcomes (.ok b) := by
  intro settles
  cases fault with
  | exception e =>
    rcases excused with fails | ⟨-, needs⟩
    · cases settles.unique fails
    · exact settles.not_diverges needs.diverges
  | defect d => exact excused
  | outOfFuel => exact fueled rfl

/-- One request fails in one way. -/
theorem Excused.sameKind (excused : Excused m [] outcomes fault) (fueled : fault ≠ .outOfFuel)
    (excused' : Excused m [] outcomes fault') (fueled' : fault' ≠ .outOfFuel) :
    fault.SameKind fault' := by
  cases fault with
  | defect d => exact excused.elim
  | outOfFuel => exact (fueled rfl).elim
  | exception e =>
    cases fault' with
    | defect d => exact excused'.elim
    | outOfFuel => exact (fueled' rfl).elim
    | exception e' =>
      constructor
      rcases excused with fails | ⟨recursive, needs⟩ <;>
        rcases excused' with fails' | ⟨recursive', needs'⟩
      · exact Except.error.inj (fails.unique fails')
      · exact (fails.not_diverges needs'.diverges).elim
      · exact (fails'.not_diverges needs.diverges).elim
      · exact recursive.trans recursive'.symm

/-- How a turn ends that is not short of fuel, for a host that knew denotations before. -/
inductive Ended (m : Machine) (family : Nat → Outcome (List Den)) (dens : List Den) (k : Nat) :
    Option Fault × Session × Heap → Prop
  | answered {view : View} {heap : Heap} {s : Session} {dens' : List Den}
      (settles : Settles family (.ok dens')) (knows : Knows m view heap s.values dens' k) :
      Ended m family dens k (none, s, heap)
  | failed {view : View} {heap : Heap} {s : Session} {fault : Fault} (fueled : fault ≠ .outOfFuel)
      (excused : Excused m [] family fault) (knows : Knows m view heap s.values dens k) :
      Ended m family dens k (some fault, s, heap)

/-- Two hosts that know the same denotations, in one turn each. -/
theorem Ended.alike {last last' : Option Fault × Session × Heap}
    (ended : Ended m family dens k last) (ended' : Ended m family dens k last') :
    Option.Rel Fault.SameKind last.1 last'.1 ∧ ∃ view view' dens',
      Knows m view last.2.2 last.2.1.values dens' k ∧
        Knows m view' last'.2.2 last'.2.1.values dens' k := by
  cases ended with
  | answered settles knows =>
    cases ended' with
    | answered settles' knows' =>
      obtain rfl := Except.ok.inj (settles.unique settles')
      exact ⟨.none, _, _, _, knows, knows'⟩
    | failed fueled excused => exact (excused.not_settles fueled settles).elim
  | failed fueled excused knows =>
    cases ended' with
    | answered settles' => exact (excused.not_settles fueled settles').elim
    | failed fueled' excused' knows' =>
      exact ⟨.some (excused.sameKind fueled excused' fueled'), _, _, _, knows, knows'⟩

end Ended

end Denotation

end ShapeLang
