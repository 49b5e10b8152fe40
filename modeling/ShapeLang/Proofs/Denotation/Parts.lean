import ShapeLang.Proofs.Builtin.Results
import ShapeLang.Proofs.Denotation.Agreement
import ShapeLang.Proofs.Denotation.Forcing
import ShapeLang.Proofs.Denotation.Outline

/-! # Parts of an evaluation that finds what is denoted

Reading a slot, evaluating a list of expressions, running the rounds of a loop and calling a
function agree with what is denoted if the evaluation of the expressions inside does. A definition
is evaluated at its own place, wherever it is needed.
-/

namespace ShapeLang.Denotation

/-- Code of a frame, at a place. -/
structure Sits (busy : List Task) (view : View) (id : FrameId) (env : Env) (w : Place)
    (expr : Expr) : Prop where
  known : view.env id = some env
  sees : expr.Scoped (view.visible busy env w)
  laid : (definitions w expr).Sublist env.definitions
  inside : env.name <:+ w

/-- An evaluator that finds what is denoted. -/
def Simulates (m : Machine) (evaluate : Evaluator) : Prop :=
  ∀ busy view heap held id env w expr, Reflects m busy view heap →
    Sits busy view id env w expr → Open view heap w →
    Agrees m busy w heap view (evaluate held id expr) (fun n => upTo m (n + 1) env w expr)
      fun wider value value' => Means busy wider w value value'

/-- Values that mean denotations one by one. -/
def MeansAll (busy : List Task) (view : View) (w : Place) (values : List Value)
    (dens : List Den) : Prop :=
  ∃ pairs : List (Value × Den), values = pairs.map (·.1) ∧ dens = pairs.map (·.2) ∧
    ∀ pair ∈ pairs, Means busy view w pair.1 pair.2

/-- Fields that mean denotations one by one. -/
def MeansFields (busy : List Task) (view : View) (w : Place) (values : List (String × Value))
    (dens : List (String × Den)) : Prop :=
  ∃ fields : List (String × Value × Den), values = fields.map (fun field => (field.1, field.2.1)) ∧
    dens = fields.map (fun field => (field.1, field.2.2)) ∧
    ∀ field ∈ fields, Means busy view w field.2.1 field.2.2

variable {m : Machine} {busy : List Task} {view view' wider : View} {heap heap' : Heap}
  {w w' x : Place} {id : FrameId} {env : Env} {expr : Expr} {value : Value} {value' : Den}
  {values : List Value} {dens : List Den} {k : Nat} {evaluate : Evaluator} {held : List Held}

section Knowledge

theorem View.visible_seen (seen : Seen busy w' w) (depth slot : Nat)
    (sees : view.visible busy env w depth slot) : view.visible busy env w' depth slot := by
  obtain ⟨id, owner, known, reached, sees⟩ := sees
  refine ⟨id, owner, known, reached, sees.imp ?_ ?_⟩
  · exact fun ⟨low, sees⟩ => ⟨low, seen.trans sees⟩
  · exact fun ⟨d, same, defines, sees⟩ => ⟨d, same, defines, seen.trans sees⟩

/-- What is seen from a frame inside another one. -/
theorem View.visible_outer {outer : Env} (around : env.parent = some outer)
    (seen : Seen busy w' w) (depth slot : Nat) (sees : view.visible busy outer w depth slot) :
    view.visible busy env w' (depth + 1) slot := by
  obtain ⟨id, owner, known, reached, sees⟩ := View.visible_seen seen depth slot sees
  refine ⟨id, owner, known, ?_, sees⟩
  rw [Env.ancestor?, around]
  exact reached

theorem Means.seen (means : Means busy view w value value') (seen : Seen busy w' w) :
    Means busy view w' value value' := by
  have evolves : Evolves w .empty view .empty view := .refl
  exact evolves.passes.means_at (fun _ _ known => ⟨trivial, seen.trans known⟩) means

namespace MeansAll

theorem nil : MeansAll busy view w [] [] := ⟨[], rfl, rfl, by simp⟩

theorem cons (means : Means busy view w value value') (rest : MeansAll busy view w values dens) :
    MeansAll busy view w (value :: values) (value' :: dens) := by
  obtain ⟨pairs, rfl, rfl, parts⟩ := rest
  refine ⟨(value, value') :: pairs, rfl, rfl, fun pair mem => ?_⟩
  rcases List.mem_cons.mp mem with rfl | mem
  · exact means
  · exact parts pair mem

theorem reverse (all : MeansAll busy view w values dens) :
    MeansAll busy view w values.reverse dens.reverse := by
  obtain ⟨pairs, rfl, rfl, parts⟩ := all
  exact ⟨pairs.reverse, by simp, by simp, fun pair mem => parts pair (List.mem_reverse.mp mem)⟩

theorem list (all : MeansAll busy view w values dens) :
    Means busy view w (.ofItems values) (.list dens) := by
  obtain ⟨pairs, rfl, rfl, parts⟩ := all
  exact .list pairs parts

theorem imp (all : MeansAll busy view w values dens)
    (weaker : ∀ value value', Means busy view w value value' → Means busy view' w' value value') :
    MeansAll busy view' w' values dens := by
  obtain ⟨pairs, rfl, rfl, parts⟩ := all
  exact ⟨pairs, rfl, rfl, fun pair mem => weaker _ _ (parts pair mem)⟩

theorem later (all : MeansAll busy view w values dens)
    (evolves : Evolves w' heap view heap' view') : MeansAll busy view' w values dens :=
  all.imp fun _ _ means => means.later evolves

theorem seen (all : MeansAll busy view w values dens) (seen : Seen busy w' w) :
    MeansAll busy view w' values dens :=
  all.imp fun _ _ means => means.seen seen

theorem length_eq (all : MeansAll busy view w values dens) : values.length = dens.length := by
  obtain ⟨pairs, rfl, rfl, -⟩ := all
  simp

/-- An item of a list and the item at the same place. -/
theorem getElem? (all : MeansAll busy view w values dens) (i : Nat) :
    Option.Rel (Means busy view w) values[i]? dens[i]? := by
  obtain ⟨pairs, rfl, rfl, parts⟩ := all
  simp only [List.getElem?_map]
  cases there : pairs[i]? with
  | none => exact .none
  | some pair => exact .some (parts pair (List.mem_of_getElem? there))

end MeansAll

namespace MeansFields

variable {fields : List (String × Value)} {denoted : List (String × Den)} {name : String}

theorem cons (means : Means busy view w value value')
    (rest : MeansFields busy view w fields denoted) :
    MeansFields busy view w ((name, value) :: fields) ((name, value') :: denoted) := by
  obtain ⟨pairs, rfl, rfl, parts⟩ := rest
  refine ⟨(name, value, value') :: pairs, rfl, rfl, fun field mem => ?_⟩
  rcases List.mem_cons.mp mem with rfl | mem
  · exact means
  · exact parts field mem

theorem reverse (all : MeansFields busy view w fields denoted) :
    MeansFields busy view w fields.reverse denoted.reverse := by
  obtain ⟨pairs, rfl, rfl, parts⟩ := all
  exact ⟨pairs.reverse, by simp, by simp, fun field mem => parts field (List.mem_reverse.mp mem)⟩

theorem record (all : MeansFields busy view w fields denoted) :
    Means busy view w (.ofFields fields) (.record denoted) := by
  obtain ⟨pairs, rfl, rfl, parts⟩ := all
  exact .record pairs parts

theorem imp (all : MeansFields busy view w fields denoted)
    (weaker : ∀ value value', Means busy view w value value' → Means busy view' w' value value') :
    MeansFields busy view' w' fields denoted := by
  obtain ⟨pairs, rfl, rfl, parts⟩ := all
  exact ⟨pairs, rfl, rfl, fun pair mem => weaker _ _ (parts pair mem)⟩

end MeansFields

namespace Sits

theorem later (sits : Sits busy view id env w expr) (evolves : Evolves w' heap view heap' view') :
    Sits busy view' id env w expr :=
  ⟨evolves.env id env sits.known, sits.sees.mono (evolves.passes.visible trivial), sits.laid,
    sits.inside⟩

/-- A part of some code. -/
theorem part (sits : Sits busy view id env w expr) {part : Expr} {step : Step}
    (sees : part.Scoped (view.visible busy env w))
    (laid : (definitions (step :: w) part).Sublist (definitions w expr)) :
    Sits busy view id env (step :: w) part := by
  have inside : w <:+ step :: w := List.suffix_cons step w
  exact ⟨sits.known, sees.mono (View.visible_seen (.of_suffix inside)), laid.trans sits.laid,
    sits.inside.trans inside⟩

end Sits

/-- What a part means is known where the whole is. -/
theorem Means.whole {i : Nat} (means : Means busy view (.part i :: w) value value') :
    Means busy view w value value' :=
  means.seen (.cons (by simp))

theorem seen_part (i : Nat) : Seen busy (.part i :: w) w := .of_suffix (List.suffix_cons _ w)

end Knowledge

theorem Simulates.at (simulates : Simulates m evaluate) (reflects : Reflects m busy view heap)
    (sits : Sits busy view id env w expr) (opened : Open view heap w) :
    Agrees m busy w heap view (evaluate held id expr) (fun n => upTo m n env w expr)
      fun wider value value' => Means busy wider w value value' :=
  Agrees.of_succ (simulates busy view heap held id env w expr reflects sits opened) rfl

/-- A part of code that is evaluated at a place. -/
theorem Simulates.part (simulates : Simulates m evaluate) (reflects : Reflects m busy view heap)
    {i : Nat} (sits : Sits busy view id env (.part i :: w) expr) (free : Free view heap w k)
    (le : k ≤ i) :
    Agrees m busy (.part i :: w) heap view (evaluate held id expr)
      (fun n => upTo m n env (.part i :: w) expr)
      fun wider value value' => Means busy wider w value value' :=
  (simulates.at reflects sits (free.opened le)).mono fun _ _ _ means => means.whole

section Reading

theorem Reflects.ancestor (reflects : Reflects m busy view heap) (known : view.env id = some env)
    {depth : Nat} {owner : Env} (reached : env.ancestor? depth = some owner) :
    ∃ at_, heap.ancestor? id depth = some at_ ∧ view.env at_ = some owner := by
  induction depth generalizing id env with
  | zero =>
    obtain rfl := Option.some.inj reached
    exact ⟨id, rfl, known⟩
  | succ depth ih =>
    obtain ⟨frame, found, -, -, parents⟩ := (reflects.stands id env known).frame
    rw [Env.ancestor?] at reached
    cases around : env.parent with
    | none => simp [around] at reached
    | some outer =>
      rw [around] at reached
      obtain ⟨parent, atFrame, known'⟩ := parents outer around
      obtain ⟨at_, reached', known''⟩ := ih known' reached
      exact ⟨at_, Heap.ancestor?_succ_eq_some_iff.mpr ⟨frame, parent, found, atFrame, reached'⟩,
        known''⟩

theorem Env.Laid.read_definition (laid : env.Laid) {d : Definition} (mem : d ∈ env.definitions)
    (den : Denoter) : read den env d.slot = den env d.inner d.expr := by
  have behind : env.args[d.slot]? = none := by
    rw [List.getElem?_eq_none_iff]
    exact laid.apart d mem
  rw [read, behind, definition?_of_mem laid.distinct mem]

theorem Reflects.read_definition (reflects : Reflects m busy view heap) {d : Definition}
    (defines : view.Defines id env d) (den : Denoter) :
    read den env d.slot = den env d.inner d.expr :=
  (reflects.stands id env defines.known).laid.read_definition defines.mem den

/-- Forcing a slot with known contents. -/
theorem ends_force {slot : Nat} {context : Context} {content : Slot}
    {returns : Value → Heap → Prop} {fails : Fault → Heap → Prop}
    (holds : heap.slot? id slot = some content)
    (ready : ∀ value, content = .ready value → returns value heap)
    (pending : ∀ definition, content = .pending definition →
      Ends (evaluate (.frame id :: held) id definition) (heap.put id slot .busy)
        (fun value after => returns value (after.put id slot (.ready value)))
        fun fault after => fails fault (after.put id slot (.pending definition)))
    (busy : ∀ locations, content = .busy →
      fails (.exception ⟨.recursiveDefinition, locations⟩) heap)
    (nonempty : content ≠ .empty) :
    Ends (Eval.force evaluate held id slot context) heap returns fails := by
  have same {frame : Frame} {other : Option Slot} (found : heap.frame? id = some frame)
      (there : frame.slots[slot]? = other) : other = some content := by
    rw [← there, ← Heap.slot?_of_frame? found, holds]
  apply Ends.force
  · exact fun frame value found there => ready value (Option.some.inj (same found there)).symm
  · exact fun frame definition found there =>
      pending definition (Option.some.inj (same found there)).symm
  · exact fun frame locations found there =>
      busy locations (Option.some.inj (same found there)).symm
  · exact fun frame found there => (nonempty (Option.some.inj (same found there)).symm).elim
  · exact fun frame found there => by cases same found there
  · intro missing
    simp [Heap.slot?, missing] at holds

variable {context : Context}

/-- Reading an argument. -/
theorem agrees_argument (reflects : Reflects m busy view heap) (known : view.env id = some env)
    (seen : Seen busy w env.name) {slot : Nat} (low : slot < env.args.length) :
    Agrees m busy w heap view (Eval.force evaluate held id slot context)
      (fun n => read (upTo m n) env slot)
      fun wider value value' => Means busy wider w value value' := by
  have there : env.args[slot]? = some env.args[slot] := List.getElem?_eq_getElem low
  obtain ⟨value, holds, means⟩ := (reflects.stands id env known).args slot _ there
  have reads (n : Nat) : read (upTo m n) env slot = pure env.args[slot] := by rw [read, there]
  simp only [reads]
  refine ends_force holds ?_ (fun _ other => by cases other) (fun _ other => by cases other)
    (by simp)
  intro value' same
  obtain rfl := Slot.ready.inj same
  exact ⟨view, env.args[slot], .refl, reflects, .pure _, means.seen seen⟩

/-- Reading a definition, which may have to be evaluated first. -/
theorem agrees_definition (simulates : Simulates m evaluate)
    (reflects : Reflects m busy view heap) {d : Definition} (defines : view.Defines id env d)
    (seen : Seen busy w d.place) :
    Agrees m busy w heap view (Eval.force evaluate held id d.slot context)
      (fun n => read (upTo m n) env d.slot)
      fun wider value value' => Means busy wider w value value' := by
  simp only [reflects.read_definition defines]
  obtain ⟨sees, content, holds, filling⟩ := reflects.waits id env d defines
  cases filling with
  | done settles means =>
    refine ends_force holds ?_ (fun _ other => by cases other) (fun _ other => by cases other)
      (by simp)
    intro value' same
    obtain rfl := Slot.ready.inj same
    exact ⟨view, _, .refl, reflects, settles, means.seen seen⟩
  | busy mem =>
    refine ends_force holds (fun _ other => by cases other) (fun _ other => by cases other) ?_
      (by simp)
    intro locations _
    refine ⟨⟨view, .refl, reflects⟩, .inr ⟨rfl, .inr ⟨⟨env, d⟩, mem, ?_⟩⟩⟩
    exact fun n result ran => ⟨n, result, Nat.le_refl n, ran⟩
  | asleep =>
    refine ends_force holds (fun _ other => by cases other) ?_ (fun _ other => by cases other)
      (by simp)
    intro definition same
    obtain rfl := Slot.pending.inj same
    have laid := (reflects.stands id env defines.known).laid
    have sits : Sits (⟨env, d⟩ :: busy) view id env d.inner d.expr := by
      refine ⟨defines.known, sees.mono fun depth slot sees => ?_, laid.nested.closed d defines.mem,
        (laid.nested.inside d defines.mem).trans d.place_suffix⟩
      exact View.visible_seen (.of_suffix d.place_suffix) depth slot
        ((reflects.passes_begin defines holds).visible trivial depth slot sees)
    have outside := reflects.outside_begin defines holds
    apply Ends.mono (simulates _ view _ (.frame id :: held) id env d.inner d.expr
      (reflects.begin defines holds) sits (reflects.open_begin defines holds))
    · rintro value after ⟨wider, value', evolves, reflects', settles, means⟩
      have settled : Settles (fun n => upTo m n env d.inner d.expr) (.ok value') :=
        settles.of_succ rfl
      have means := means.finish outside
      exact ⟨wider, value', .finish reflects defines holds evolves,
        reflects'.finish (defines.later evolves) outside settled means, settled, means.seen seen⟩
    · rintro fault after ⟨⟨wider, evolves, reflects'⟩, excused⟩
      exact ⟨⟨wider.without d.inner, .abandon reflects defines holds evolves reflects',
        reflects'.abandon (defines.later evolves) outside⟩, excused.finish⟩

end Reading

section Parts

variable (simulates : Simulates m evaluate) (reflects : Reflects m busy view heap)
include simulates reflects

/-- The field of a record or a module. -/
theorem agrees_field? (means : Means busy view w value value') {name : String} {context : Context} :
    Agrees m busy w heap view (Eval.field? evaluate held value name context)
      (fun n => field? (upTo m n) value' name)
      fun wider found found' => Option.Rel (Means busy wider w) found found' := by
  cases means with
  | record fields parts =>
    have split : (fields.map fun field => (field.1, field.2.1)).lookup name =
          (fields.lookup name).map (·.1) ∧
        (fields.map fun field => (field.1, field.2.2)).lookup name =
          (fields.lookup name).map (·.2) :=
      ⟨lookup_map Prod.fst fields name, lookup_map Prod.snd fields name⟩
    simp only [Eval.field?, field?, split.1, split.2]
    apply Agrees.pure reflects
    cases found : fields.lookup name with
    | none => exact .none
    | some parts' =>
      obtain ⟨before, after, rfl, -⟩ := List.lookup_eq_some_iff.mp found
      exact .some (parts (name, parts') (by simp))
  | @«module» id env fields known seen named =>
    simp only [Eval.field?, field?]
    cases found : fields.lookup name with
    | none => exact .pure reflects .none
    | some slot =>
      obtain ⟨before, after, rfl, -⟩ := List.lookup_eq_some_iff.mp found
      obtain ⟨d, rfl, defines, place⟩ := named (name, slot) (by simp)
      have seen : Seen busy w d.place := by
        rw [place]
        exact seen.trans (.cons (by simp))
      exact ((agrees_definition simulates reflects defines seen).mono
        fun _ _ _ means => Option.Rel.some means).map
  | _ => exact .pure reflects .none

/-- Expressions that are evaluated one after the other. -/
theorem agrees_all (exprs : List Expr) (known : view.env id = some env)
    (sees : ∀ expr ∈ exprs, expr.Scoped (view.visible busy env w))
    (laid : (definitionsAll w exprs).Sublist env.definitions) (inside : env.name <:+ w)
    (opened : Open view heap w) (done : MeansAll busy view w values dens) :
    Agrees m busy w heap view (Eval.evaluateAll evaluate held id values exprs)
      (fun n => denoteAll (upTo m n) env w dens exprs)
      fun wider values dens => MeansAll busy wider w values dens := by
  induction exprs generalizing heap view w values dens with
  | nil => exact .pure reflects done.reverse
  | cons expr exprs ih =>
    have here : w <:+ .part 0 :: w := List.suffix_cons _ w
    have sits : Sits busy view id env (.part 0 :: w) expr :=
      ⟨known, (sees expr (by simp)).mono (View.visible_seen (.of_suffix here)),
        (List.sublist_append_left _ _).trans laid, inside.trans here⟩
    apply (simulates.part reflects sits opened.free (Nat.le_refl 0)).bind here
    intro value value' after wider evolves reflects' means
    have there : w <:+ .part 1 :: w := List.suffix_cons _ w
    have rest := ih reflects' (evolves.env id env known)
      (fun other mem => ((sees other (by simp [mem])).mono
        (evolves.passes.visible trivial)).mono (View.visible_seen (.of_suffix there)))
      ((List.sublist_append_right _ _).trans laid) (inside.trans there)
      ((opened.free.next evolves).opened (Nat.le_refl 1))
      ((MeansAll.cons means (done.later evolves)).seen (seen_part 1))
    exact (rest.outer there).mono fun _ _ _ all => all.seen (.cons (by simp))

/-- The fields of a record. -/
theorem agrees_fields (fields : List (String × Expr)) {known : List (String × Value)}
    {denoted : List (String × Den)} (atId : view.env id = some env)
    (sees : ∀ field ∈ fields, field.2.Scoped (view.visible busy env w))
    (laid : (definitionsFields w fields).Sublist env.definitions) (inside : env.name <:+ w)
    (opened : Open view heap w) (done : MeansFields busy view w known denoted) :
    Agrees m busy w heap view (Eval.evaluateFields evaluate held id known fields)
      (fun n => denoteFields (upTo m n) env w denoted fields)
      fun wider known denoted => MeansFields busy wider w known denoted := by
  induction fields generalizing heap view w known denoted with
  | nil => exact .pure reflects done.reverse
  | cons field fields ih =>
    have here : w <:+ .part 0 :: w := List.suffix_cons _ w
    have sits : Sits busy view id env (.part 0 :: w) field.2 :=
      ⟨atId, (sees field (by simp)).mono (View.visible_seen (.of_suffix here)),
        (List.sublist_append_left _ _).trans laid, inside.trans here⟩
    apply (simulates.part reflects sits opened.free (Nat.le_refl 0)).bind here
    intro value value' after wider evolves reflects' means
    have there : w <:+ .part 1 :: w := List.suffix_cons _ w
    have done' : MeansFields busy wider w ((field.1, value) :: known)
        ((field.1, value') :: denoted) :=
      .cons means (done.imp fun _ _ means => means.later evolves)
    have rest := ih reflects' (evolves.env id env atId)
      (fun other mem => ((sees other (by simp [mem])).mono
        (evolves.passes.visible trivial)).mono (View.visible_seen (.of_suffix there)))
      ((List.sublist_append_right _ _).trans laid) (inside.trans there)
      ((opened.free.next evolves).opened (Nat.le_refl 1))
      (done'.imp fun _ _ means => means.seen (seen_part 1))
    exact (rest.outer there).mono fun _ _ _ all =>
      all.imp fun _ _ means => means.seen (.cons (by simp))

omit simulates reflects in
/-- The definitions of code lie behind the arguments that it is given. -/
theorem laid_body {body : Expr} {slotCount count depth : Nat} {values : List Den}
    {parent : Option Env} (layout : Room slotCount (List.range count ++ body.letSlots))
    (all : values.length = count) :
    (Env.frame w (definitions (.part 0 :: w) body) depth values parent).Laid ∧
      ∀ d ∈ definitions (.part 0 :: w) body, d.slot < slotCount := by
  have slots := map_slot_definitions (.part 0 :: w) body
  have mem_slots {d : Definition} (mem : d ∈ definitions (.part 0 :: w) body) :
      d.slot ∈ body.letSlots := slots ▸ List.mem_map_of_mem mem
  refine ⟨⟨?_, fun d mem => ?_, (nested_definitions (.part 0 :: w) body).cons⟩, fun d mem => ?_⟩
  · exact slots ▸ layout.nodup.of_append_right
  · by_contra low
    refine (List.nodup_append.mp layout.nodup).2.2 d.slot ?_ d.slot (mem_slots mem) rfl
    simpa [← all] using low
  · exact layout.inside d.slot (List.mem_append_right _ (mem_slots mem))

omit simulates reflects in
/-- Code reads its arguments, and what is seen from where it was written. -/
theorem sits_body {outer : Env} {body : Expr} {count depth : Nat} {values : List Den}
    (known : view.env id = some (.frame w (definitions (.part 0 :: w) body) depth values
      (some outer)))
    (seen : Seen busy w x) (inner : body.Scoped ((view.visible busy outer x).enter
      (List.range count))) (all : values.length = count) :
    Sits busy view id (.frame w (definitions (.part 0 :: w) body) depth values (some outer))
      (.part 0 :: w) body := by
  refine ⟨known, inner.mono fun depth slot sees => ?_, List.Sublist.refl _, List.suffix_cons _ w⟩
  cases depth with
  | zero =>
    have low : slot ∈ List.range count := sees
    exact ⟨_, _, known, rfl, .inl ⟨by simpa [all] using low, seen_part 0⟩⟩
  | succ depth => exact View.visible_outer rfl ((seen_part 0).trans seen) depth slot sees

/-- Code that runs in a frame that stands for nothing before, with values in its first slots. -/
theorem agrees_adopt {adopted around : FrameId} {outer : Env} {pairs : List (Value × Den)}
    {body : Expr} {frame : Frame} (opened : Open view heap w) (unknown : view.env adopted = none)
    (found : heap.frame? adopted = some frame) (atParent : frame.parent = some around)
    (known : view.env around = some outer) (seen : Seen busy w x)
    (behind : Seen busy x outer.name)
    (layout : Room frame.slots.length (List.range pairs.length ++ body.letSlots))
    (inner : body.Scoped ((view.visible busy outer x).enter (List.range pairs.length)))
    (stored : ∀ (slot : Nat) value, (pairs.map (·.1))[slot]? = some value →
      heap.slot? adopted slot = some (.ready value))
    (means : ∀ pair ∈ pairs, Means busy view w pair.1 pair.2) :
    Agrees m busy w heap view (evaluate held adopted body)
      (fun n => upTo m n (.frame w (definitions (.part 0 :: w) body) frame.depth
        (pairs.map (·.2)) (some outer)) (.part 0 :: w) body)
      fun wider value value' => Means busy wider w value value' := by
  have count : (pairs.map (·.2)).length = pairs.length := List.length_map ..
  obtain ⟨laid, room⟩ := laid_body layout count
  let new : Env :=
    .frame w (definitions (.part 0 :: w) body) frame.depth (pairs.map (·.2)) (some outer)
  have reflects' : Reflects m busy (view.addEnv adopted new) heap :=
    reflects.adopt opened unknown found atParent known (seen.trans behind) laid room stored means
  have evolves : Evolves w heap view heap (view.addEnv adopted new) := .adopt reflects unknown rfl
  have bare : Bare (view.addEnv adopted new) heap w := opened.bare_adopt reflects unknown
  have inner' := inner.mono (Visibility.enter_mono (evolves.passes.visible trivial))
  have sits := sits_body (View.addEnv_self _ _ _) seen inner' count
  exact Agrees.later evolves
    ((simulates.part reflects' sits bare.free (Nat.le_refl 0)).outer (List.suffix_cons _ w))

/-- Code that runs in a new frame, with values in its first slots. -/
theorem agrees_enter {around caller : FrameId} {outer : Env} {pairs : List (Value × Den)}
    {body : Expr} {slotCount depth : Nat} {site : Option Location} (opened : Open view heap w)
    (known : view.env around = some outer) (seen : Seen busy w x)
    (behind : Seen busy x outer.name)
    (layout : Room slotCount (List.range pairs.length ++ body.letSlots))
    (inner : body.Scoped ((view.visible busy outer x).enter (List.range pairs.length)))
    (means : ∀ pair ∈ pairs, Means busy view w pair.1 pair.2) :
    ∃ wider, Evolves w heap view (heap.enter slotCount around caller site depth
        (readies 0 (pairs.map (·.1)))) wider ∧
      Agrees m busy w (heap.enter slotCount around caller site depth
          (readies 0 (pairs.map (·.1)))) wider (evaluate held heap.frames.size body)
        (fun n => upTo m n (.frame w (definitions (.part 0 :: w) body) depth (pairs.map (·.2))
          (some outer)) (.part 0 :: w) body)
        fun wider value value' => Means busy wider w value value' := by
  have count : (pairs.map (·.2)).length = pairs.length := List.length_map ..
  obtain ⟨laid, room⟩ := laid_body layout count
  obtain ⟨evolves, reflects', bare⟩ :=
    reflects.enter opened known (seen.trans behind) laid layout.length_le room means
  refine ⟨_, evolves, ?_⟩
  have inner' := inner.mono (Visibility.enter_mono (evolves.passes.visible trivial))
  have sits := sits_body (View.addEnv_self _ _ _) seen inner' count
  exact (simulates.part reflects' sits bare.free (Nat.le_refl 0)).outer (List.suffix_cons _ w)

/-- The rounds of a loop. -/
theorem agrees_each {slotCount : Nat} {body : Expr} {items : List Value} {denoted : List Den}
    (known : view.env id = some env) (inside : env.name <:+ w)
    (layout : Room slotCount (0 :: body.letSlots))
    (inner : body.Scoped ((view.visible busy env w).enter [0])) (opened : Open view heap w)
    (all : MeansAll busy view w items denoted) (done : MeansAll busy view w values dens) :
    Agrees m busy w heap view (Eval.evaluateEach evaluate held id slotCount body values items)
      (fun n => denoteEach (upTo m n) env w body dens denoted)
      fun wider values dens => MeansAll busy wider w values dens := by
  obtain ⟨pairs, rfl, rfl, parts⟩ := all
  induction pairs generalizing heap view w values dens with
  | nil => exact .pure reflects done.reverse
  | cons pair pairs ih =>
    have here : w <:+ .part 0 :: w := List.suffix_cons _ w
    have there : w <:+ .part 1 :: w := List.suffix_cons _ w
    have free := opened.free
    have layout' : Room slotCount (List.range [pair].length ++ body.letSlots) := layout
    have inner' : body.Scoped ((view.visible busy env w).enter (List.range [pair].length)) := inner
    obtain ⟨frame, found, depth, -⟩ := (reflects.stands id env known).frame
    obtain ⟨wider, evolves, agrees⟩ := agrees_enter simulates reflects
      (free.opened (Nat.le_refl 0)) known (seen_part 0) (.of_suffix inside) layout' inner'
      (fun other mem => by
        obtain rfl := List.mem_singleton.mp mem
        exact (parts other (by simp)).seen (seen_part 0))
    refine Ends.through (fun round after => round = heap.frames.size ∧
      after = (heap.alloc slotCount (some id) (some id) none env.depth).2)
      (.allocChild (fun frame' found' => ?_) fun missing => ?_) ?_
    · obtain rfl := Option.some.inj (found.symm.trans found')
      exact ⟨rfl, by rw [depth]⟩
    · simp [found] at missing
    rintro _ _ ⟨rfl, rfl⟩
    refine Ends.through (fun _ after => after = heap.enter slotCount id id none env.depth
      (readies 0 [pair.1])) (.store_found (Heap.frame?_alloc_self ..) ?_ rfl) ?_
    · have := layout.inside 0 (by simp)
      simpa [Heap.fresh] using this
    rintro _ _ rfl
    apply Agrees.later (evolves.outer here)
    apply agrees.bind here
    intro value value' after widest evolves' reflects' means
    have all := evolves.trans evolves'
    have inner'' := inner.mono (Visibility.enter_mono fun depth slot sees =>
      View.visible_seen (seen_part 1) depth slot (all.passes.visible trivial depth slot sees))
    have rest := ih reflects' (all.env id env known) (inside.trans there) inner''
      ((free.next all).opened (Nat.le_refl 1))
      (((MeansAll.cons means.whole ((done.later evolves).later evolves'))).seen (seen_part 1))
      (fun other mem => (((parts other (by simp [mem])).later evolves).later evolves').seen
        (seen_part 1))
    exact (rest.outer there).mono fun _ _ _ all => all.seen (.cons (by simp))

/-- A call of a function literal with as many arguments as it takes. -/
theorem agrees_closure {serial : Nat} {lambda : Lambda} {around : FrameId} {outer : Env}
    {site : Location} {frame : Frame} (found : heap.frame? id = some frame)
    (opened : Open view heap w) (atAround : view.env around = some outer) (seen : Seen busy w x)
    (behind : Seen busy x outer.name)
    (layout : Room lambda.slotCount (List.range lambda.paramCount ++ lambda.body.letSlots))
    (inner : lambda.body.Scoped
      ((view.visible busy outer x).enter (List.range lambda.paramCount)))
    (all : MeansAll busy view w values dens) (count : dens.length = lambda.paramCount) :
    Agrees m busy w heap view
      (Eval.call m evaluate held (.closure serial lambda around) values id site)
      (fun n => call m (upTo m n) (.closure x lambda outer) dens frame.depth w)
      fun wider value value' => Means busy wider w value value' := by
  have count' : values.length = lambda.paramCount := all.length_eq.trans count
  simp only [Eval.call, call, count, count', ne_eq, not_true_eq_false, ↓reduceIte]
  by_cases deep : m.maxCallDepth < frame.depth + 1
  · simp only [deep, ↓reduceIte]
    refine Ends.stop
      (.allocCall (fun frame' found' fits => ?_) (fun _ _ _ _ => ?_) fun missing => ?_)
    · obtain rfl := Option.some.inj (found.symm.trans found')
      omega
    · exact ⟨⟨view, .refl, reflects⟩, .inl (Settles.throw _).stop⟩
    · simp [found] at missing
  · simp only [deep, ↓reduceIte]
    obtain ⟨pairs, rfl, rfl, parts⟩ := all
    have length : lambda.paramCount = pairs.length := by simpa using count.symm
    rw [length] at layout inner
    obtain ⟨wider, evolves, agrees⟩ := agrees_enter simulates reflects opened atAround seen behind
      layout inner parts
    refine Ends.through (fun round after => round = heap.frames.size ∧ after =
      (heap.alloc lambda.slotCount (some around) (some id) (some site) (frame.depth + 1)).2)
      (.allocCall (fun frame' found' fits => ?_) (fun frame' _ found' deep' => ?_)
        fun missing => ?_) ?_
    · obtain rfl := Option.some.inj (found.symm.trans found')
      exact ⟨rfl, rfl⟩
    · obtain rfl := Option.some.inj (found.symm.trans found')
      omega
    · simp [found] at missing
    rintro _ _ ⟨rfl, rfl⟩
    refine Ends.through (fun _ after => after = heap.enter lambda.slotCount around id (some site)
      (frame.depth + 1) (readies 0 (pairs.map (·.1))))
      (.storeAll (Heap.frame?_alloc_self ..) ?_ rfl) ?_
    · simpa [Heap.fresh] using layout.length_le
    rintro _ _ rfl
    exact agrees.later evolves

omit simulates in
/-- A call of a builtin function with as many arguments as it takes. -/
theorem agrees_builtin {builtin : Builtin} {site : Location} {depth : Nat}
    (all : MeansAll busy view w values dens) (count : dens.length = builtin.arity) :
    Agrees m busy w heap view (Eval.call m evaluate held (.builtin builtin) values id site)
      (fun n => call m (upTo m n) (.builtin builtin) dens depth w)
      fun wider value value' => Means busy wider w value value' := by
  have count' : values.length = builtin.arity := all.length_eq.trans count
  simp only [Eval.call, call, count, count', ne_eq, not_true_eq_false, ↓reduceIte]
  have complete := Builtin.apply_ne_missing m.arithmetic builtin count'
  have plain := Builtin.apply_plain m.arithmetic builtin values
  have same : builtin.apply m.arithmetic values =
      builtin.apply m.arithmetic (dens.map Den.outline) := by
    obtain ⟨pairs, rfl, rfl, parts⟩ := all
    have alike : Value.AllAlike Eq (SameFrame view) (SameOrigin view)
        (pairs.map fun pair => (pair.1, pair.2.outline)) := by
      intro pair mem
      obtain ⟨pair', mem', rfl⟩ := List.mem_map.mp mem
      exact (parts pair' mem').alike
    have applied := builtin.apply_alike m.arithmetic _ alike (by simpa using count)
      fun _ pair mem => (alike pair mem).shown
    simpa [Function.comp_def] using applied
  rw [← same]
  cases result : builtin.apply m.arithmetic values with
  | ok value => exact .pure reflects (.of_plain (plain value result))
  | error failure =>
    cases failure with
    | mistake kind => exact .raise reflects kind
    | reported kind => exact .raise reflects kind
    | missing => exact (complete result).elim

/-- A call that a frame makes. -/
theorem agrees_call {function : Value} {function' : Den} {site : Location} {frame : Frame}
    (means : Means busy view w function function') (all : MeansAll busy view w values dens)
    (found : heap.frame? id = some frame) (opened : Open view heap w) :
    Agrees m busy w heap view (Eval.call m evaluate held function values id site)
      (fun n => call m (upTo m n) function' dens frame.depth w)
      fun wider value value' => Means busy wider w value value' := by
  have count := all.length_eq
  have told := means.alike.wrongType "function"
  cases means with
  | @closure serial x lambda around outer made atAround seen behind layout inner =>
    by_cases fits : dens.length = lambda.paramCount
    · exact agrees_closure simulates reflects found opened atAround seen behind layout inner all
        fits
    · simp only [Eval.call, call, count, fits, ne_eq, not_false_eq_true, ↓reduceIte]
      exact .stop reflects _
  | builtin builtin =>
    by_cases fits : dens.length = builtin.arity
    · exact agrees_builtin reflects all fits
    · simp only [Eval.call, call, count, fits, ne_eq, not_false_eq_true, ↓reduceIte]
      exact .stop reflects _
  | _ =>
    simp only [Eval.call, call, ← told]
    exact .raise reflects _

end Parts

end ShapeLang.Denotation
