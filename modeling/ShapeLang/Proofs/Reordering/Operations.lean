import ShapeLang.Proofs.Eval.Operations
import ShapeLang.Proofs.Reordering.Frames

/-! # Operations on frames that are laid out differently

Two evaluations that do the same to frames with the same purpose end alike: with values that serve
the same purpose or with mistakes of the same kind, and with frames that still hold the same.
-/

namespace ShapeLang.Reordering

open Eval

variable {literals : Location → Location → Prop} {layouts wider : Layouts} {heap heap' : Heap}
  {α β γ δ : Type}

/-- Two evaluations end alike. What is known of the frames stays known, however they end. -/
def Tandem (literals : Location → Location → Prop) (layouts : Layouts) (action : Eval α)
    (action' : Eval β) (heap heap' : Heap) (post : Layouts → α → β → Prop) : Prop :=
  EndAlike (fun a after b after' => ∃ wider, layouts <+: wider ∧
      Paired literals wider after after' ∧ post wider a b)
    (fun fault after fault' after' => fault.Like ErrorKind.Rearranged fault' ∧
      ∃ wider, layouts <+: wider ∧ Paired literals wider after after')
    (action heap) (action' heap')

/-- What two checks find: something of each value, or mistakes of the same kind. -/
inductive CheckedAlike (found : α → β → Prop) : Except ErrorKind α → Except ErrorKind β → Prop
  | ok {a : α} {b : β} (both : found a b) : CheckedAlike found (.ok a) (.ok b)
  | error {kind kind' : ErrorKind} (same : kind.Rearranged kind') :
      CheckedAlike found (.error kind) (.error kind')

namespace Tandem

variable {action : Eval α} {action' : Eval β} {post : Layouts → α → β → Prop}

theorem pure (paired : Paired literals layouts heap heap') {a : α} {b : β} (ok : post layouts a b) :
    Tandem literals layouts (pure a) (pure b) heap heap' post :=
  .returned ⟨layouts, List.prefix_rfl, paired, ok⟩

theorem throw (paired : Paired literals layouts heap heap') {fault fault' : Fault}
    (like : fault.Like ErrorKind.Rearranged fault') :
    Tandem literals layouts (throw fault : Eval α) (throw fault' : Eval β) heap heap' post :=
  .failed ⟨like, layouts, List.prefix_rfl, paired⟩

theorem defect (paired : Paired literals layouts heap heap') (d d' : Defect) :
    Tandem literals layouts (Eval.defect d : Eval α) (Eval.defect d' : Eval β) heap heap' post :=
  throw paired (.defect d d')

theorem raise (paired : Paired literals layouts heap heap') {held held' : List Held}
    {context context' : Context} {kind kind' : ErrorKind} (same : kind.Rearranged kind') :
    Tandem literals layouts (Eval.raise held context kind : Eval α)
      (Eval.raise held' context' kind' : Eval β) heap heap' post :=
  .failed ⟨.exception same, layouts, List.prefix_rfl, paired⟩

theorem mono {post' : Layouts → α → β → Prop}
    (tandem : Tandem literals layouts action action' heap heap' post)
    (weaker : ∀ wider a b, layouts <+: wider → post wider a b → post' wider a b) :
    Tandem literals layouts action action' heap heap' post' := by
  unfold Tandem at tandem ⊢
  generalize action heap = last, action' heap' = last' at tandem ⊢
  cases tandem with
  | returned done =>
    obtain ⟨wider, later, paired, ok⟩ := done
    exact .returned ⟨wider, later, paired, weaker wider _ _ later ok⟩
  | failed failure => exact .failed failure

/-- What two evaluations do after they have come equally far. -/
theorem from_later (later : layouts <+: wider)
    (tandem : Tandem literals wider action action' heap heap' post) :
    Tandem literals layouts action action' heap heap' post := by
  unfold Tandem at tandem ⊢
  generalize action heap = last, action' heap' = last' at tandem ⊢
  cases tandem with
  | returned done =>
    obtain ⟨widest, later', rest⟩ := done
    exact .returned ⟨widest, later.trans later', rest⟩
  | failed failure =>
    obtain ⟨like, widest, later', paired⟩ := failure
    exact .failed ⟨like, widest, later.trans later', paired⟩

theorem bind {next : α → Eval γ} {next' : β → Eval δ} {post' : Layouts → γ → δ → Prop}
    (first : Tandem literals layouts action action' heap heap' post)
    (second : ∀ a b wider after after', layouts <+: wider → Paired literals wider after after' →
      post wider a b → Tandem literals wider (next a) (next' b) after after' post') :
    Tandem literals layouts (action >>= next) (action' >>= next') heap heap' post' := by
  unfold Tandem at first
  rw [Tandem, bind_run, bind_run]
  generalize action heap = last, action' heap' = last' at first ⊢
  cases first with
  | returned done =>
    obtain ⟨wider, later, paired, ok⟩ := done
    exact (second _ _ wider _ _ later paired ok).from_later later
  | failed failure => exact .failed failure

/-- Nothing follows two evaluations that fail. -/
theorem stop {next : α → Eval γ} {next' : β → Eval δ} {post' : Layouts → γ → δ → Prop}
    (first : Tandem literals layouts action action' heap heap' fun _ _ _ => False) :
    Tandem literals layouts (action >>= next) (action' >>= next') heap heap' post' :=
  first.bind fun _ _ _ _ _ _ _ impossible => impossible.elim

theorem map {f : α → γ} {f' : β → δ} {post' : Layouts → γ → δ → Prop}
    (tandem : Tandem literals layouts action action' heap heap' fun wider a b =>
      post' wider (f a) (f' b)) :
    Tandem literals layouts (f <$> action) (f' <$> action') heap heap' post' := by
  rw [map_eq_pure_bind, map_eq_pure_bind]
  exact tandem.bind fun a b wider after after' _ paired ok => pure paired ok

/-- Both begin with something that is known to return. -/
theorem steps {a : α} {b : β} {after after' : Heap} (ran : action heap = (.ok a, after))
    (ran' : action' heap' = (.ok b, after')) {next : α → Eval γ} {next' : β → Eval δ}
    {post' : Layouts → γ → δ → Prop}
    (rest : Tandem literals layouts (next a) (next' b) after after' post') :
    Tandem literals layouts (action >>= next) (action' >>= next') heap heap' post' := by
  rw [Tandem, bind_run, bind_run, ran, ran']
  exact rest

theorem of_runs {a : α} {b : β} {after after' : Heap} (ran : action heap = (.ok a, after))
    (ran' : action' heap' = (.ok b, after')) (later : layouts <+: wider)
    (paired : Paired literals wider after after') (ok : post wider a b) :
    Tandem literals layouts action action' heap heap' post := by
  rw [Tandem, ran, ran']
  exact .returned ⟨wider, later, paired, ok⟩

/-- A check that finds the same in both evaluations. -/
theorem blaming (paired : Paired literals layouts heap heap') {held held' : List Held}
    {context context' : Context} {result : Except ErrorKind α} {result' : Except ErrorKind β}
    (alike : CheckedAlike (post layouts) result result') :
    Tandem literals layouts (Eval.blaming held context result) (Eval.blaming held' context' result')
      heap heap' post := by
  cases alike with
  | ok both => exact pure paired both
  | error same => exact raise paired same

/-- A check whose result does not depend on the frames. -/
theorem blaming_same (paired : Paired literals layouts heap heap') {held held' : List Held}
    {context context' : Context} {result result' : Except ErrorKind α} (same : result = result') :
    Tandem literals layouts (Eval.blaming held context result) (Eval.blaming held' context' result')
      heap heap' fun _ a b => a = b ∧ result = .ok a := by
  subst same
  refine blaming paired ?_
  cases result with
  | ok a => exact .ok ⟨rfl, rfl⟩
  | error kind => exact .error (.same kind)

end Tandem

section Operations

variable {id : FrameId} {layout : Layout} {slot slot' depth slotCount slotCount' : Nat}
  {held held' : List Held} {context context' : Context} {slots : Nat → Nat → Prop}

theorem frame_ran {frame : Frame} (found : heap.frame? id = some frame) :
    Eval.frame id heap = (.ok frame, heap) :=
  Ends.exact (.frame_found found ⟨rfl, rfl⟩)

/-- Something that is done with a frame, of which only the depth matters. -/
theorem tandem_frame (paired : Paired literals layouts heap heap') (id : FrameId) :
    Tandem literals layouts (Eval.frame id) (Eval.frame id) heap heap' fun wider frame frame' =>
      wider = layouts ∧ frame.depth = frame'.depth := by
  rcases paired.frame? id with ⟨missing, missing'⟩ | ⟨frame, frame', found, found', same⟩
  · have ran {heap : Heap} (missing : heap.frame? id = none) :
        Eval.frame id heap = (.error (.defect .noFrame), heap) := by
      have got : Eval.heap heap = (.ok heap, heap) := rfl
      rw [Eval.frame, bind_run, got]
      simp only [missing]
      rfl
    rw [Tandem, ran missing, ran missing']
    exact .failed ⟨.defect _ _, layouts, List.prefix_rfl, paired⟩
  · exact .of_runs (frame_ran found) (frame_ran found') List.prefix_rfl paired ⟨rfl, same⟩

/-- Both make a frame. -/
theorem tandem_alloc (paired : Paired literals layouts heap heap')
    (matching : Matching slotCount slotCount' slots) (parent caller caller' : Option FrameId)
    (site site' : Option Location) (callDepth : Nat) :
    Tandem literals layouts (Eval.alloc slotCount parent caller site callDepth)
      (Eval.alloc slotCount' parent caller' site' callDepth) heap heap' fun wider id id' =>
        wider = layouts.add ⟨slots, parent⟩ ∧ id = layouts.length ∧ id' = layouts.length :=
  .of_runs rfl rfl (Layouts.later_add _ _)
    (paired.alloc matching parent caller caller' site site' callDepth)
    ⟨rfl, paired.size, paired.size'⟩

theorem tandem_allocChild (paired : Paired literals layouts heap heap')
    (matching : Matching slotCount slotCount' slots) (parent : FrameId) :
    Tandem literals layouts (Eval.allocChild slotCount parent) (Eval.allocChild slotCount' parent)
      heap heap' fun wider id id' => wider = layouts.add ⟨slots, some parent⟩ ∧
        id = layouts.length ∧ id' = layouts.length := by
  refine (tandem_frame paired parent).bind ?_
  rintro frame frame' _ after after' - paired' ⟨rfl, same⟩
  rw [same]
  exact tandem_alloc paired' matching _ _ _ _ _ _

theorem tandem_allocCall {m : Machine} (paired : Paired literals layouts heap heap')
    (matching : Matching slotCount slotCount' slots) (env caller : FrameId)
    (site site' : Location) :
    Tandem literals layouts (Eval.allocCall m held slotCount env caller site)
      (Eval.allocCall m held' slotCount' env caller site') heap heap' fun wider id id' =>
        wider = layouts.add ⟨slots, some env⟩ ∧ id = layouts.length ∧ id' = layouts.length := by
  refine (tandem_frame paired caller).bind ?_
  rintro frame frame' _ after after' - paired' ⟨rfl, same⟩
  rw [same]
  by_cases deep : m.maxCallDepth < frame'.depth + 1
  · simp only [deep, ↓reduceIte]
    exact .stop (.raise paired' (.same _))
  · simp only [deep, ↓reduceIte]
    exact tandem_alloc paired' matching _ _ _ _ _ _

/-- A definition that waits in its slot. -/
def waits (binding : Nat × Expr) : Nat × Slot := (binding.1, .pending binding.2)

/-- Two definitions that wait in their slots. -/
def waiting (binding : (Nat × Expr) × (Nat × Expr)) : (Nat × Slot) × (Nat × Slot) :=
  (waits binding.1, waits binding.2)

/-- Both put definitions into slots of one frame, in any order. -/
theorem tandem_storePending (paired : Paired literals layouts heap heap')
    (bindings : List ((Nat × Expr) × (Nat × Expr))) {others : List (Nat × Expr)}
    (order : (bindings.map (·.2)).Perm others) (distinct : (bindings.map (·.1.1)).Nodup)
    (together : ∀ binding ∈ bindings, layouts.sees id 0 binding.1.1 binding.2.1)
    (twins : ∀ binding ∈ bindings,
      Expr.Twin literals (layouts.sees id) binding.1.2 binding.2.2) :
    Tandem literals layouts (Eval.storePending id (bindings.map (·.1)))
      (Eval.storePending id others) heap heap' fun wider _ _ => wider = layouts := by
  cases bindings with
  | nil =>
    obtain rfl := List.Perm.nil_eq order
    exact .pure paired rfl
  | cons first rest =>
  obtain ⟨layout, there, -⟩ := together first (by simp)
  generalize first :: rest = bindings at *
  obtain ⟨frame, frame', found, found', partner⟩ := paired.frames id layout there
  have together (binding : (Nat × Expr) × (Nat × Expr)) (mem : binding ∈ bindings) :
      layout.slots binding.1.1 binding.2.1 := by
    obtain ⟨layout', there', together⟩ := together binding mem
    obtain rfl := Option.some.inj (Option.some.inj (there.symm.trans there'))
    exact together
  have inside (binding : Nat × Expr) (mem : binding ∈ bindings.map (·.1)) :
      binding.1 < frame.slots.length := by
    obtain ⟨pair, here, rfl⟩ := List.mem_map.mp mem
    obtain ⟨_, _, holds, -⟩ := partner.slots _ _ (together pair here)
    exact (List.getElem?_eq_some_iff.mp holds).1
  have inside' (binding : Nat × Expr) (mem : binding ∈ others) :
      binding.1 < frame'.slots.length := by
    obtain ⟨pair, here, rfl⟩ := List.mem_map.mp (order.symm.subset mem)
    obtain ⟨_, _, -, holds, -⟩ := partner.slots _ _ (together pair here)
    exact (List.getElem?_eq_some_iff.mp holds).1
  refine .of_runs (Ends.exact (.storePending found inside ⟨rfl, rfl⟩))
    (Ends.exact (.storePending found' inside' ⟨rfl, rfl⟩)) List.prefix_rfl ?_ rfl
  have stored : Paired literals layouts
      (heap.putEach id ((bindings.map waiting).map (·.1))) (heap'.putEach id (others.map waits)) :=
    paired.putEach there _ (by simpa [waiting, Function.comp_def] using order.map waits)
      (by simpa [waiting, waits, Function.comp_def] using distinct)
      (List.forall_mem_map.mpr together) (List.forall_mem_map.mpr fun binding mem =>
        .pending (twins binding mem))
  have same : (bindings.map waiting).map (·.1) = (bindings.map (·.1)).map waits := by
    simp [waiting]
  rw [same] at stored
  exact stored

/-- Both put something into one slot. -/
theorem tandem_store (paired : Paired literals layouts heap heap')
    (seen : layouts.sees id 0 slot slot') {content content' : Slot}
    (alike : SlotPartner literals layouts id content content') :
    Tandem literals layouts (Eval.store id slot content) (Eval.store id slot' content') heap heap'
      fun wider _ _ => wider = layouts := by
  obtain ⟨layout, there, together⟩ := seen
  obtain ⟨frame, frame', found, found', partner⟩ := paired.frames id layout there
  obtain ⟨_, _, holds, holds', -⟩ := partner.slots slot slot' together
  exact .of_runs
    (Ends.exact (.store_found found (List.getElem?_eq_some_iff.mp holds).1 ⟨rfl, rfl⟩))
    (Ends.exact (.store_found found' (List.getElem?_eq_some_iff.mp holds').1 ⟨rfl, rfl⟩))
    List.prefix_rfl (paired.put there together alike) rfl

/-- Both put values into consecutive slots. -/
theorem tandem_storeAll (paired : Paired literals layouts heap heap')
    (values : List (Value × Value))
    (seen : ∀ i < values.length, layouts.sees id 0 (slot + i) (slot + i))
    (partners : ∀ value ∈ values, Partner literals layouts value.1 value.2) :
    Tandem literals layouts (Eval.storeAll id slot (values.map (·.1)))
      (Eval.storeAll id slot (values.map (·.2))) heap heap' fun wider _ _ => wider = layouts := by
  induction values generalizing heap heap' slot with
  | nil => exact .pure paired rfl
  | cons value values ih =>
    obtain ⟨first, rest⟩ := List.forall_mem_cons.mp partners
    refine (tandem_store paired (seen 0 (by simp)) (.ready first)).bind ?_
    rintro _ _ _ after after' - paired' rfl
    refine ih paired' (fun i low => ?_) rest
    have here := seen (i + 1) (by simpa using low)
    rwa [Nat.add_comm i 1, ← Nat.add_assoc] at here

/-- What two evaluators make of twin expressions in frames with the same purpose. -/
def Follows (literals : Location → Location → Prop) (evaluate evaluate' : Evaluator) : Prop :=
  ∀ layouts heap heap' held held' id expr expr', Paired literals layouts heap heap' →
    Expr.Twin literals (layouts.sees id) expr expr' →
    Tandem literals layouts (evaluate held id expr) (evaluate' held' id expr') heap heap'
      (Partner literals)

/-- Both evaluate a definition, and keep its value or put it back. -/
theorem tandem_settling {action action' : Eval Value} {definition definition' : Expr}
    (seen : layouts.sees id 0 slot slot')
    (twin : Expr.Twin literals (layouts.sees id) definition definition')
    (tandem : Tandem literals layouts action action' heap heap' (Partner literals)) :
    Tandem literals layouts (Eval.settling id slot definition action)
      (Eval.settling id slot' definition' action') heap heap' (Partner literals) := by
  obtain ⟨layout, there, together⟩ := seen
  unfold Tandem at tandem ⊢
  simp only [Eval.settling]
  generalize action heap = last, action' heap' = last' at tandem ⊢
  cases tandem with
  | returned done =>
    obtain ⟨wider, later, paired, partner⟩ := done
    exact .returned ⟨wider, later,
      paired.put (Layouts.kept later there) together (.ready partner), partner⟩
  | failed failure =>
    obtain ⟨like, wider, later, paired⟩ := failure
    exact .failed ⟨like, wider, later, paired.put (Layouts.kept later there) together
      (.pending (twin.mono (Layouts.sees_later later)))⟩

/-- Both read slots that belong together. -/
theorem tandem_force {evaluate evaluate' : Evaluator} (follows : Follows literals evaluate evaluate')
    (paired : Paired literals layouts heap heap') (seen : layouts.sees id 0 slot slot') :
    Tandem literals layouts (Eval.force evaluate held id slot context)
      (Eval.force evaluate' held' id slot' context') heap heap' (Partner literals) := by
  obtain ⟨layout, there, together⟩ := seen
  obtain ⟨frame, frame', found, found', partner⟩ := paired.frames id layout there
  refine .steps (frame_ran found) (frame_ran found') ?_
  obtain ⟨content, content', holds, holds', alike⟩ := partner.slots slot slot' together
  simp only [holds, holds']
  cases alike with
  | empty => exact .defect paired _ _
  | busy => exact .raise paired (.same _)
  | ready partner => exact .pure paired partner
  | pending twin =>
    refine (tandem_store paired ⟨layout, there, together⟩ .busy).bind ?_
    rintro _ _ _ after after' - paired' rfl
    exact tandem_settling ⟨layout, there, together⟩ twin (follows _ _ _ _ _ _ _ _ paired' twin)

/-- Both make a function of twin literals. -/
theorem tandem_close (paired : Paired literals layouts heap heap') {lambda lambda' : Lambda}
    (twin : Expr.Twin literals (layouts.sees id) lambda.expr lambda'.expr) :
    Tandem literals layouts (Eval.close lambda id) (Eval.close lambda' id) heap heap'
      (Partner literals) := by
  refine .of_runs rfl rfl List.prefix_rfl paired.close ?_
  rw [paired.closures]
  exact .closure twin

end Operations

end ShapeLang.Reordering
