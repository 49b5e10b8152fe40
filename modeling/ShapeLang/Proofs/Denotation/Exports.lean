import ShapeLang.Proofs.Denotation.Correspondence
import ShapeLang.Proofs.Denotation.Host
import ShapeLang.Proofs.Denotation.Outline
import ShapeLang.Proofs.Eval.Termination
import ShapeLang.Proofs.Shader.Exports

/-! # Shader code depends on denotations only

A compilation reads captured slots, and learns from each what it denotes. Two compilations over
frames that reflect the same denotations learn the same, whatever was evaluated before them.
-/

namespace ShapeLang.Denotation

open Shader (Captures)

variable {m : Machine} {view view' : View} {heap heap' : Heap} {w : Place} {k depth slot slot' : Nat}
  {id id' : FrameId} {env : Env} {value value' : Value} {den : Den}

/-- Reading a slot that code in a frame sees. -/
theorem agrees_visible (reflects : Reflects m [] view heap) (known : view.env id = some env)
    (sees : view.visible [] env w depth slot) (w' : Place) :
    ∃ owner at_, heap.ancestor? id depth = some owner ∧ env.ancestor? depth = some at_ ∧
      ∀ fuel held context, Agrees m [] w' heap view
        (Eval.force (Eval.upTo m fuel) held owner slot context) (fun n => read (upTo m n) at_ slot)
        fun wider value value' => Means [] wider w' value value' := by
  obtain ⟨other, at_, knownOwner, reached, sees⟩ := sees
  obtain ⟨owner, found, known'⟩ := reflects.ancestor known reached
  obtain rfl := reflects.frames owner other at_ at_ known' knownOwner rfl
  refine ⟨owner, at_, found, reached, fun fuel held context => ?_⟩
  rcases sees with ⟨low, -⟩ | ⟨d, rfl, defines, -⟩
  · exact agrees_argument reflects knownOwner (.nil _ _) low
  · exact agrees_definition (upTo_simulates m fuel) reflects defines (.nil _ _)

/-- Which slots code in two frames sees through two views: the frames stand for the same. -/
def SeenAlike (view view' : View) (id id' : FrameId) : Pairing := fun depth slot slot' =>
  slot = slot' ∧ ∃ env, view.env id = some env ∧ view'.env id' = some env ∧
    view.visible [] env [] depth slot ∧ view'.visible [] env [] depth slot

/-- What denotes the same is the same in shader code. -/
theorem Means.shows (means : Means [] view w value den) {w' : Place}
    (means' : Means [] view' w' value' den) :
    value.Shows Eq (SeenAlike view view') value' := by
  have numbers : value.numbers? = value'.numbers? :=
    means.alike.numbers?.trans means'.alike.numbers?.symm
  cases means with
  | bool value => cases means' with | bool => exact .bool value
  | num value => cases means' with | num => exact .num value
  | text content => cases means' with | text => exact .text _ _
  | list items parts =>
    generalize same : Den.list (items.map (·.2)) = den' at means'
    cases means' with
    | list => exact .list numbers
    | _ => cases same
  | record fields parts =>
    generalize same : Den.record (fields.map fun field => (field.1, field.2.2)) = den' at means'
    cases means' with
    | record => exact .record _ _ _ _
    | _ => cases same
  | «module» => cases means' with | «module» => exact .module _ _ _ _
  | @closure serial x lambda id env made known seen around layout inner =>
    cases means' with
    | @closure serial' _ _ id' _ made' known' seen' around' layout' inner' =>
      have code : lambda.expr.Scoped fun depth slot =>
          view.visible [] env x depth slot ∧ view'.visible [] env x depth slot :=
        Expr.Scoped.and (.lambda layout inner) (.lambda layout inner')
      refine .closure (code.twin (fun depth slot both => ?_) (by simp [Lambda.expr])
        (by simp [Lambda.expr]))
      exact ⟨rfl, env, known, known', View.visible_seen (.nil _ _) _ _ both.1,
        View.visible_seen (.nil _ _) _ _ both.2⟩
  | builtin function => cases means' with | builtin => exact .builtin function

theorem SeenAlike.later {wider wider' : View} {after after' : Heap}
    (evolves : Evolves w heap view after wider) (evolves' : Evolves w heap' view' after' wider')
    (seen : SeenAlike view view' id id' depth slot slot') :
    SeenAlike wider wider' id id' depth slot slot' := by
  obtain ⟨same, env, known, known', sees, sees'⟩ := seen
  exact ⟨same, env, evolves.env id env known, evolves'.env id' env known',
    evolves.passes.visible trivial depth slot sees, evolves'.passes.visible trivial depth slot sees'⟩

/-- Frames and what they stand for. -/
structure Sight where
  heap : Heap
  view : View

namespace Sight

/-- What is there after evaluations at a place. -/
def Later (w : Place) (sight wider : Sight) : Prop :=
  Evolves w sight.heap sight.view wider.heap wider.view

/-- The frames reflect denotations. -/
structure Holds (m : Machine) (sight : Sight) (heap : Heap) : Prop where
  here : heap = sight.heap
  reflects : Reflects m [] sight.view heap

end Sight

section Instances

/-- Two evaluations that agree with the same denotation, once they are granted fuel enough. -/
theorem Agrees.alongside {action action' : Nat → Eval Value} {family : Nat → Outcome Den}
    (ends : Terminates action heap fun _ _ => True)
    (ends' : Terminates action' heap' fun _ _ => True)
    (agrees : ∀ fuel, Agrees m [] w heap view (action fuel) family
      fun wider value den => Means [] wider w value den)
    (agrees' : ∀ fuel, Agrees m [] w heap' view' (action' fuel) family
      fun wider value den => Means [] wider w value den) :
    Alongside action action' heap heap'
      (fun value after value' after' => ∃ wider wider', Evolves w heap view after wider ∧
        Evolves w heap' view' after' wider' ∧ Reflects m [] wider after ∧
        Reflects m [] wider' after' ∧ ∃ den, Means [] wider w value den ∧ Means [] wider' w value' den)
      fun fault after fault' after' => fault.Like Eq fault' ∧ ∃ wider wider',
        Evolves w heap view after wider ∧ Evolves w heap' view' after' wider' ∧
        Reflects m [] wider after ∧ Reflects m [] wider' after' := by
  obtain ⟨enough, result, after, settled, fueled, -⟩ := ends
  obtain ⟨enough', result', after', settled', fueled', -⟩ := ends'
  refine ⟨max enough enough', (result, after), (result', after'),
    fun fuel le => settled fuel (by omega), fun fuel le => settled' fuel (by omega), ?_⟩
  have ran := settled enough (Nat.le_refl _)
  have ran' := settled' enough' (Nat.le_refl _)
  cases result with
  | ok value =>
    obtain ⟨wider, den, evolves, reflects, settles, means⟩ := (agrees enough).returned ran
    cases result' with
    | ok value' =>
      obtain ⟨wider', den', evolves', reflects', settles', means'⟩ :=
        (agrees' enough').returned ran'
      obtain rfl := Except.ok.inj (settles.unique settles')
      exact .returned ⟨wider, wider', evolves, evolves', reflects, reflects', den, means, means'⟩
    | error fault' =>
      obtain ⟨-, excused⟩ := (agrees' enough').failed ran'
      exact (excused.not_settles (fun same => fueled' (congrArg _ same)) settles).elim
  | error fault =>
    obtain ⟨⟨wider, evolves, reflects⟩, excused⟩ := (agrees enough).failed ran
    have fueled : fault ≠ .outOfFuel := fun same => fueled (congrArg _ same)
    cases result' with
    | ok value' =>
      obtain ⟨-, _, -, -, settles, -⟩ := (agrees' enough').returned ran'
      exact (excused.not_settles fueled settles).elim
    | error fault' =>
      obtain ⟨⟨wider', evolves', reflects'⟩, excused'⟩ := (agrees' enough').failed ran'
      have like : fault.Like Eq fault' := by
        cases excused.sameKind fueled excused' fun same => fueled' (congrArg _ same) with
        | exception kind => exact .exception kind
      exact .failed ⟨like, wider, wider', evolves, evolves', reflects, reflects'⟩

/-- The captured frames of two compilations reflect the same denotations. -/
def captures (m : Machine) (held held' : List Held) (k : Nat) :
    Captures (Eval.upTo m) (Eval.upTo m) held held' where
  World := Sight × Sight
  later sights wider := Sight.Later [.part k] sights.1 wider.1 ∧ Sight.Later [.part k] sights.2 wider.2
  heaps sights heap heap' := sights.1.Holds m heap ∧ sights.2.Holds m heap'
  sees sights := SeenAlike sights.1.view sights.2.view
  kinds := Eq
  literals := Eq
  refl _ := ⟨.refl, .refl⟩
  trans first second := ⟨Evolves.trans first.1 second.1, Evolves.trans first.2 second.2⟩
  kept later seen := seen.later later.1 later.2
  alike _ := rfl
  distinct := by
    rintro _ _ _ _ rfl rfl
    rfl
  reading := by
    rintro sights heap heap' id id' depth slot _ ⟨⟨rfl, reflects⟩, rfl, reflects'⟩
      ⟨rfl, env, known, known', sees, sees'⟩
    obtain ⟨owner, at_, found, reached, agrees⟩ := agrees_visible reflects known sees [.part k]
    obtain ⟨owner', at', found', reached', agrees'⟩ :=
      agrees_visible reflects' known' sees' [.part k]
    obtain rfl := Option.some.inj (reached.symm.trans reached')
    refine ⟨owner, owner', found, found', fun context context' => ?_⟩
    refine (Agrees.alongside (Eval.force_terminates m _ held owner slot context)
      (Eval.force_terminates m _ held' owner' slot context') (agrees · held context)
      (agrees' · held' context')).mono ?_ ?_
    · rintro value after value' after' ⟨wider, wider', evolves, evolves', now, now', den, means, means'⟩
      exact ⟨(⟨after, wider⟩, ⟨after', wider'⟩), ⟨evolves, evolves'⟩, ⟨⟨rfl, now⟩, rfl, now'⟩,
        means.shows means'⟩
    · rintro fault after fault' after' ⟨like, wider, wider', evolves, evolves', now, now'⟩
      exact ⟨like, (⟨after, wider⟩, ⟨after', wider'⟩), ⟨evolves, evolves'⟩, ⟨rfl, now⟩, rfl, now'⟩

/-- Where a read is blamed makes no difference to what is read. -/
theorem force_context (evaluate : Evaluator) (held : List Held) (id : FrameId) (slot : Nat)
    (context context' : Context) (heap : Heap) :
    EndAlike (fun value after value' after' => value = value' ∧ after = after')
      (fun fault after fault' after' => fault.Like Eq fault' ∧ after = after')
      (Eval.force evaluate held id slot context heap)
      (Eval.force evaluate held id slot context' heap) := by
  have same (last : Except Fault Value × Heap) :
      EndAlike (fun value after value' after' => value = value' ∧ after = after')
        (fun fault after fault' after' => fault.Like Eq fault' ∧ after = after') last last := by
    obtain ⟨fault | value, after⟩ := last
    · exact .failed ⟨.refl (fun _ => rfl) fault, rfl⟩
    · exact .returned ⟨rfl, rfl⟩
  rw [Eval.force, Eval.force, bind_run, bind_run]
  rcases Eval.frame id heap with ⟨fault | frame, after⟩
  · exact same _
  · dsimp only
    cases frame.slots[slot]? with
    | none => exact same _
    | some content =>
      cases content with
      | busy => exact .failed ⟨.exception rfl, rfl⟩
      | _ => exact same _

/-- Two compilations over the same frames that are granted the same fuel. -/
def capturesAgain (m : Machine) (fuel : Nat) (held : List Held) (k : Nat) :
    Captures (fun _ => Eval.upTo m fuel) (fun _ => Eval.upTo m fuel) held held where
  World := Sight
  later := Sight.Later [.part k]
  heaps sight heap heap' := heap = heap' ∧ sight.Holds m heap
  sees sight := SeenAlike sight.view sight.view
  kinds := Eq
  literals := Eq
  refl _ := Evolves.refl
  trans := Evolves.trans
  kept later seen := seen.later later later
  alike _ := rfl
  distinct := by
    rintro _ _ _ _ rfl rfl
    rfl
  reading := by
    rintro ⟨_, view⟩ heap _ id id' depth slot _ ⟨rfl, rfl, reflects⟩
      ⟨rfl, env, known, known', sees, -⟩
    obtain rfl := reflects.frames id id' env env known known' rfl
    obtain ⟨owner, at_, found, reached, agrees⟩ := agrees_visible reflects known sees [.part k]
    refine ⟨owner, owner, found, found, fun context context' => Alongside.of_ends ?_⟩
    have agrees := agrees fuel held context
    rcases ran : Eval.force (Eval.upTo m fuel) held owner slot context heap with
      ⟨fault | value, after⟩
    · obtain ⟨⟨wider, evolves, now⟩, -⟩ := agrees.failed ran
      have both := force_context (Eval.upTo m fuel) held owner slot context context' heap
      rw [ran] at both
      generalize Eval.force (Eval.upTo m fuel) held owner slot context' heap = last at both
      cases both with
      | failed failure =>
        obtain ⟨like, rfl⟩ := failure
        exact .failed ⟨like, ⟨after, wider⟩, evolves, rfl, rfl, now⟩
    · obtain ⟨wider, den, evolves, now, -, means⟩ := agrees.returned ran
      have both := force_context (Eval.upTo m fuel) held owner slot context context' heap
      rw [ran] at both
      generalize Eval.force (Eval.upTo m fuel) held owner slot context' heap = last at both
      cases both with
      | returned done =>
        obtain ⟨rfl, rfl⟩ := done
        exact .returned ⟨⟨after, wider⟩, evolves, ⟨rfl, rfl, now⟩, means.shows means⟩

end Instances

end ShapeLang.Denotation
