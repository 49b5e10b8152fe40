import ShapeLang.Proofs.Reordering.Shapes
import ShapeLang.Proofs.Session.Safety

/-! # Hosts of twin programs

Two hosts that work with twin programs and ask for the same get things that serve the same purpose,
or mistakes of the same kind. Each request leaves both sessions as far as the other.
-/

namespace ShapeLang

/-- Requests for programs, values and shapes: they compile nothing and add to no code. -/
def Request.UsesPrograms : Request → Prop
  | .compile _ _ _ | .inline _ _ _ _ => False
  | _ => True

namespace Reordering

variable {literals : Location → Location → Prop} {layouts wider : Layouts} {heap heap' : Heap}
  {m : Machine} {fuel : Nat} {held held' : List Held} {s s' : Session}

/-- Programs of twin code with the same root frame. -/
def ProgramPartner (literals : Location → Location → Prop) (layouts : Layouts)
    (p p' : Program) : Prop :=
  p.frame = p'.frame ∧ Expr.Twin literals (layouts.sees p.frame) p.expr p'.expr

/-- What two hosts have serves the same purpose. -/
structure SessionPartner (literals : Location → Location → Prop) (layouts : Layouts)
    (s s' : Session) : Prop where
  programs : List.Forall₂ (ProgramPartner literals layouts) s.programs s'.programs
  values : Partners literals layouts s.values s'.values
  recognizers : List.Forall₂ (RecognizerPartner literals layouts) s.recognizers s'.recognizers

/-- What two hosts have, each with its frames. -/
def Coupled (literals : Location → Location → Prop) (layouts : Layouts)
    (state state' : Session × Heap) : Prop :=
  Paired literals layouts state.2 state'.2 ∧ SessionPartner literals layouts state.1 state'.1

namespace SessionPartner

theorem later (partner : SessionPartner literals layouts s s') (later : layouts <+: wider) :
    SessionPartner literals wider s s' :=
  ⟨partner.programs.imp fun _ _ both => ⟨both.1, both.2.mono (Layouts.sees_later later)⟩,
    partner.values.later later, partner.recognizers.imp fun _ _ known => known.later later⟩

theorem addValue (partner : SessionPartner literals layouts s s') {value value' : Value}
    (gained : Partner literals layouts value value') :
    SessionPartner literals layouts (s.addValue value) (s'.addValue value') :=
  ⟨partner.programs, List.rel_append partner.values (.cons gained .nil), partner.recognizers⟩

theorem addFound (partner : SessionPartner literals layouts s s') {found found' : Option Value}
    (gained : Option.Rel (Partner literals layouts) found found') :
    SessionPartner literals layouts ((found.map s.addValue).getD s)
      ((found'.map s'.addValue).getD s') := by
  cases gained with
  | none => exact partner
  | some gained => exact partner.addValue gained

theorem addRecognizer (partner : SessionPartner literals layouts s s') (nub : Option Location) :
    SessionPartner literals layouts (s.addRecognizer (.new nub)) (s'.addRecognizer (.new nub)) :=
  ⟨partner.programs, partner.values, List.rel_append partner.recognizers (.cons .none .nil)⟩

theorem setRecognizer (partner : SessionPartner literals layouts s s') (i : Nat)
    {r r' : Recognizer} (known : RecognizerPartner literals layouts r r') :
    SessionPartner literals layouts (s.setRecognizer i r) (s'.setRecognizer i r') := by
  refine ⟨partner.programs, partner.values, ?_⟩
  have each := partner.recognizers
  simp only [Session.setRecognizer]
  generalize s.recognizers = rs, s'.recognizers = rs' at each ⊢
  induction each generalizing i with
  | nil => exact .nil
  | cons first rest ih =>
    cases i with
    | zero => exact .cons known rest
    | succ i => exact .cons first (ih i)

/-- The values that both hosts name. -/
theorem named (partner : SessionPartner literals layouts s s') (args : List Nat) :
    Partners literals layouts (args.filterMap (s.values[·]?)) (args.filterMap (s'.values[·]?)) := by
  induction args with
  | nil => exact .nil
  | cons i args ih =>
    have found := getElem?_of_forall₂ partner.values i
    simp only [List.filterMap_cons]
    generalize s.values[i]? = value, s'.values[i]? = value' at found ⊢
    cases found with
    | none => exact ih
    | some given => exact .cons given ih

/-- The fields of a record that both hosts make. -/
theorem namedFields (partner : SessionPartner literals layouts s s')
    (fields : List (String × Nat)) :
    FieldPartners literals layouts
      (fields.filterMap fun field => s.values[field.2]?.map fun value => (field.1, value))
      (fields.filterMap fun field => s'.values[field.2]?.map fun value => (field.1, value)) := by
  induction fields with
  | nil => exact ⟨[], rfl, rfl, by simp⟩
  | cons field fields ih =>
    have found := getElem?_of_forall₂ partner.values field.2
    simp only [List.filterMap_cons]
    generalize s.values[field.2]? = value, s'.values[field.2]? = value' at found ⊢
    cases found with
    | none => exact ih
    | some given =>
      obtain ⟨triples, same, same', each⟩ := ih
      exact ⟨(field.1, _, _) :: triples, by simp [same], by simp [same'],
        List.forall_mem_cons.mpr ⟨given, each⟩⟩

end SessionPartner

section Answers

theorem tandem_withValue (paired : Paired literals layouts heap heap')
    (partner : SessionPartner literals layouts s s') (i : Nat) {next next' : Value → Eval Session}
    (each : ∀ value value', Partner literals layouts value value' →
      Tandem literals layouts (next value) (next' value') heap heap' (SessionPartner literals)) :
    Tandem literals layouts (s.withValue i next) (s'.withValue i next') heap heap'
      (SessionPartner literals) := by
  have found := getElem?_of_forall₂ partner.values i
  unfold Session.withValue
  generalize s.values[i]? = value, s'.values[i]? = value' at found ⊢
  cases found with
  | none => exact .pure paired partner
  | some given => exact each _ _ given

theorem tandem_withProgram (paired : Paired literals layouts heap heap')
    (partner : SessionPartner literals layouts s s') (i : Nat) {next next' : Program → Eval Session}
    (each : ∀ p p', ProgramPartner literals layouts p p' →
      Tandem literals layouts (next p) (next' p') heap heap' (SessionPartner literals)) :
    Tandem literals layouts (s.withProgram i next) (s'.withProgram i next') heap heap'
      (SessionPartner literals) := by
  have found := getElem?_of_forall₂ partner.programs i
  unfold Session.withProgram
  generalize s.programs[i]? = p, s'.programs[i]? = p' at found ⊢
  cases found with
  | none => exact .pure paired partner
  | some both => exact each _ _ both

theorem tandem_withRecognizer (paired : Paired literals layouts heap heap')
    (partner : SessionPartner literals layouts s s') (i : Nat)
    {next next' : Recognizer → Eval Session}
    (each : ∀ r r', RecognizerPartner literals layouts r r' →
      Tandem literals layouts (next r) (next' r') heap heap' (SessionPartner literals)) :
    Tandem literals layouts (s.withRecognizer i next) (s'.withRecognizer i next') heap heap'
      (SessionPartner literals) := by
  have found := getElem?_of_forall₂ partner.recognizers i
  unfold Session.withRecognizer
  generalize s.recognizers[i]? = r, s'.recognizers[i]? = r' at found ⊢
  cases found with
  | none => exact .pure paired partner
  | some known => exact each _ _ known

/-- A host's calls are made from the same frame. -/
theorem tandem_callingFrame (paired : Paired literals layouts heap heap')
    (named : Option FrameId) :
    Tandem literals layouts (Session.callingFrame named) (Session.callingFrame named) heap heap'
      fun _ id id' => id = id' := by
  have exist : (named.filter fun id => (heap.frame? id).isSome) =
      named.filter fun id => (heap'.frame? id).isSome := by
    congr 1
    funext id
    rcases paired.frame? id with ⟨missing, missing'⟩ | ⟨frame, frame', found, found', -⟩
    · rw [missing, missing']
    · rw [found, found']
      rfl
  have ran {heap : Heap} : Session.caller named heap =
      (.ok (named.filter fun id => (heap.frame? id).isSome), heap) := rfl
  unfold Session.callingFrame
  refine .steps ran ran ?_
  rw [exist]
  cases named.filter fun id => (heap'.frame? id).isSome with
  | some id => exact .pure paired rfl
  | none =>
    have empty : Matching 0 0 fun _ _ => False :=
      ⟨fun _ _ _ _ impossible => impossible.elim, fun _ _ impossible => impossible.elim⟩
    refine .steps (a := 0) (b := 0) rfl rfl ?_
    refine (tandem_alloc paired empty none none none none none 0).mono ?_
    rintro _ _ _ - ⟨rfl, rfl, rfl⟩
    rfl

theorem tandem_eval (paired : Paired literals layouts heap heap') {p p' : Program}
    (both : ProgramPartner literals layouts p p') :
    Tandem literals layouts (p.eval m fuel held) (p'.eval m fuel held') heap heap'
      (Partner literals) := by
  unfold Program.eval
  rw [← both.1]
  exact upTo_follows m fuel _ _ _ _ _ _ _ _ paired both.2

end Answers

section Turns

variable (distinct : ∀ place place' other other', literals place place' → literals other other' →
  (place = other ↔ place' = other'))
include distinct

/-- Both hosts are answered alike. -/
theorem tandem_answer (paired : Paired literals layouts heap heap') (partner : SessionPartner literals layouts s s')
    (request : Request) (uses : request.UsesPrograms) :
    Tandem literals layouts (s.answer m fuel held request) (s'.answer m fuel held' request) heap
      heap' (SessionPartner literals) := by
  have follows : Follows literals (Eval.upTo m fuel) (Eval.upTo m fuel) := upTo_follows m fuel
  cases request with
  | compile | inline => exact uses.elim
  | eval i =>
    refine tandem_withProgram paired partner i fun p p' both => .map ?_
    exact (tandem_eval paired both).mono fun wider value value' later gained =>
      (partner.later later).addValue gained
  | constant value => exact .pure paired (partner.addValue (.of_plain value.toValue_plain))
  | list items => exact .pure paired (partner.addValue (partner.named items).ofItems)
  | record fields =>
    obtain ⟨triples, same, same', each⟩ := partner.namedFields fields
    simp only [Session.answer, same, same']
    exact .pure paired (partner.addValue (.record triples each))
  | item i index =>
    refine tandem_withValue paired partner i fun value value' given => ?_
    cases given with
    | list items parts =>
      exact .pure paired (partner.addFound (getElem?_of_forall₂ (forall₂_of_pairs parts) index))
    | _ => exact .pure paired partner
  | field i name context =>
    refine tandem_withValue paired partner i fun value value' given => .map ?_
    exact (tandem_field? follows paired given name).mono fun wider found found' later gained =>
      (partner.later later).addFound gained
  | call i args named site =>
    refine tandem_withValue paired partner i fun function function' given => ?_
    refine (tandem_callingFrame paired named).bind ?_
    rintro id _ wider after after' later paired' rfl
    refine .map ((tandem_call follows paired' (given.later later)
      ((partner.named args).later later) id site site).mono ?_)
    exact fun widest value value' later' gained =>
      (partner.later (later.trans later')).addValue gained
  | recognizer nub => exact .pure paired (partner.addRecognizer nub)
  | recognize i j =>
    refine tandem_withRecognizer paired partner i fun r r' known =>
      tandem_withValue paired partner j fun value value' given => .map ?_
    exact (tandem_recognize follows paired known given).mono fun wider found found' later both =>
      (partner.later later).setRecognizer i both.2
  | require i j =>
    refine tandem_withRecognizer paired partner i fun r r' known =>
      tandem_withValue paired partner j fun value value' given => .map ?_
    exact (tandem_require follows paired known given).mono fun wider found found' later both =>
      (partner.later later).setRecognizer i both
  | dist i p t =>
    refine tandem_withRecognizer paired partner i fun r r' known => .map ?_
    exact (tandem_sample follows paired known .dist agreeing_toNumber p t).mono
      fun wider _ _ later _ => partner.later later
  | colour i p t =>
    refine tandem_withRecognizer paired partner i fun r r' known => .map ?_
    exact (tandem_sample follows paired known .colour agreeing_toColour p t).mono
      fun wider _ _ later _ => partner.later later
  | shader i =>
    refine tandem_withRecognizer paired partner i fun r r' known => ?_
    refine (tandem_shader distinct paired known fuel fuel).bind ?_
    rintro ⟨text, fault⟩ ⟨_, fault'⟩ wider after after' later paired' ⟨rfl, like⟩
    cases like with
    | none => exact .pure paired' (partner.later later)
    | some like => exact .throw paired' like

/-- What one turn preserves. -/
theorem Coupled.turn {state state' : Session × Heap}
    (coupled : Coupled literals layouts state state') (t : Turn) (uses : t.request.UsesPrograms) :
    Option.Rel (Fault.Like ErrorKind.Rearranged) (Session.turn m state t).1
        (Session.turn m state' t).1 ∧
      ∃ wider, layouts <+: wider ∧
        Coupled literals wider (Session.turn m state t).2 (Session.turn m state' t).2 := by
  obtain ⟨paired, partner⟩ := coupled
  have answered : Tandem literals layouts (state.1.answer m t.fuel t.held t.request)
      (state'.1.answer m t.fuel t.held t.request) state.2 state'.2 (SessionPartner literals) :=
    tandem_answer distinct paired partner t.request uses
  unfold Tandem at answered
  unfold Session.turn
  generalize state.1.answer m t.fuel t.held t.request state.2 = last,
    state'.1.answer m t.fuel t.held t.request state'.2 = last' at answered ⊢
  cases answered with
  | returned done =>
    obtain ⟨wider, later, paired', partner'⟩ := done
    exact ⟨.none, wider, later, paired', partner'⟩
  | failed failure =>
    obtain ⟨like, wider, later, paired'⟩ := failure
    exact ⟨.some like, wider, later, paired', partner.later later⟩

/-- What any number of turns preserve. -/
theorem Coupled.play {state state' : Session × Heap}
    (coupled : Coupled literals layouts state state') (turns : List Turn)
    (uses : ∀ t ∈ turns, t.request.UsesPrograms) :
    ∃ wider, Coupled literals wider (Session.play m state turns) (Session.play m state' turns) := by
  induction turns generalizing layouts state state' with
  | nil => exact ⟨layouts, coupled⟩
  | cons t turns ih =>
    obtain ⟨first, rest⟩ := List.forall_mem_cons.mp uses
    obtain ⟨-, between, -, coupled'⟩ := coupled.turn distinct t first
    exact ih coupled' rest

end Turns

end Reordering

end ShapeLang
