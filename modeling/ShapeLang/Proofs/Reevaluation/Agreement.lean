import ShapeLang.Proofs.Eval.Operations
import ShapeLang.Proofs.Reevaluation.Roles

/-! # Evaluation that agrees with what is denoted

An evaluation that returns leaves frames that reflect environments, and its value means a
denotation. This is the one that the outcomes settle at, unless they are spoiled; then it is
some denotation, so that evaluation can be followed further nevertheless.
-/

namespace ShapeLang.Reevaluation

open Denotation

variable {α β γ δ : Type} {m : Machine} {lenient : Prop} {busy : List Errand} {heap : Heap}
  {roles wider : Roles} {action : Eval α} {family : Nat → Outcome β} {post : Roles → α → β → Prop}

/-- An evaluation agrees with outcomes for more and more fuel. -/
def Agrees (m : Machine) (lenient : Prop) (busy : List Errand) (heap : Heap) (roles : Roles)
    (action : Eval α) (family : Nat → Outcome β) (post : Roles → α → β → Prop) : Prop :=
  Ends action heap
    (fun a later => ∃ wider b, roles.Within wider ∧ Reflects m lenient busy wider later ∧
      Yields lenient family b ∧ post wider a b)
    fun fault later => (∃ wider, roles.Within wider ∧ Reflects m lenient busy wider later) ∧
      Excused m lenient busy family fault

namespace Agrees

theorem pure (reflects : Reflects m lenient busy roles heap) {a : α} {b : β} (ok : post roles a b) :
    Agrees m lenient busy heap roles (Pure.pure a) (fun _ => Pure.pure b) post :=
  ⟨roles, b, .refl roles, reflects, .pure b, ok⟩

theorem raise (reflects : Reflects m lenient busy roles heap) {held : List Held}
    {context : Context} (kind : ErrorKind) :
    Agrees m lenient busy heap roles (Eval.raise held context kind)
      (fun _ => (throw kind : Outcome β)) post :=
  Ends.raise fun _ => ⟨⟨roles, .refl roles, reflects⟩, .inl (.throw kind)⟩

theorem mono {post' : Roles → α → β → Prop}
    (agrees : Agrees m lenient busy heap roles action family post)
    (weaker : ∀ wider a b, post wider a b → post' wider a b) :
    Agrees m lenient busy heap roles action family post' := by
  apply Ends.mono agrees
  · rintro a later ⟨wider, b, within, reflects, yields, ok⟩
    exact ⟨wider, b, within, reflects, yields, weaker wider a b ok⟩
  · exact fun _ _ failed => failed

/-- An evaluation where frames stand for more than before. -/
theorem widen (within : roles.Within wider)
    (agrees : Agrees m lenient busy heap wider action family post) :
    Agrees m lenient busy heap roles action family post := by
  apply Ends.mono agrees
  · rintro a later ⟨widest, b, within', rest⟩
    exact ⟨widest, b, within.trans within', rest⟩
  · rintro fault later ⟨⟨widest, within', reflects⟩, excused⟩
    exact ⟨⟨widest, within.trans within', reflects⟩, excused⟩

/-- Nothing is said about a value once the outcomes are spoiled. -/
theorem spoil {family' : Nat → Outcome β} (spoiled : Spoiled lenient family')
    (agrees : Agrees m lenient busy heap roles action family post) :
    Agrees m lenient busy heap roles action family' post := by
  apply Ends.mono agrees
  · rintro a later ⟨wider, b, within, reflects, -, ok⟩
    exact ⟨wider, b, within, reflects, .inr spoiled, ok⟩
  · rintro fault later ⟨evolved, -⟩
    refine ⟨evolved, ?_⟩
    cases fault with
    | exception e => exact .inr (.inr spoiled)
    | _ => trivial

/-- Two evaluations one after the other. -/
theorem bind {next : α → Eval γ} {next' : Nat → β → Outcome δ} {post' : Roles → γ → δ → Prop}
    (first : Agrees m lenient busy heap roles action family post)
    (second : ∀ a b later wider, roles.Within wider → Reflects m lenient busy wider later →
      post wider a b → Agrees m lenient busy later wider (next a) (next' · b) post') :
    Agrees m lenient busy heap roles (action >>= next) (fun n => family n >>= next' n) post' := by
  refine Ends.bind (Ends.mono first (fun _ _ ok => ok) ?_) ?_
  · exact fun fault after failed => ⟨failed.1, failed.2.bind⟩
  · rintro a after ⟨wider, b, within, reflects, yields, ok⟩
    apply Ends.mono ((second a b after wider within reflects ok).widen within)
    · rintro c last ⟨widest, d, within', reflects', yields', ok'⟩
      exact ⟨widest, d, within', reflects', yields.bind yields', ok'⟩
    · exact fun fault last failed => ⟨failed.1, failed.2.after yields⟩

/-- Nothing follows a mistake. -/
theorem stop (reflects : Reflects m lenient busy roles heap) {held : List Held} {context : Context}
    (kind : ErrorKind) {next : α → Eval γ} {next' : Nat → β → Outcome δ}
    {post : Roles → γ → δ → Prop} :
    Agrees m lenient busy heap roles (Eval.raise held context kind >>= next)
      (fun n => (throw kind : Outcome β) >>= next' n) post := by
  have first : Agrees m lenient busy heap roles (Eval.raise held context kind)
      (fun _ => (throw kind : Outcome β)) fun _ (_ : α) _ => False := raise reflects kind
  exact first.bind fun _ _ _ _ _ _ impossible => impossible.elim

theorem map {f : α → γ} {g : β → δ} {post' : Roles → γ → δ → Prop}
    (agrees : Agrees m lenient busy heap roles action family
      fun wider a b => post' wider (f a) (g b)) :
    Agrees m lenient busy heap roles (f <$> action) (fun n => g <$> family n) post' := by
  simp only [map_eq_pure_bind]
  exact agrees.bind fun a b _ _ _ reflects ok => .pure reflects ok

/-- A step that only the evaluation over frames makes. -/
theorem left {next : α → Eval γ} {family : Nat → Outcome δ} {post : Roles → γ → δ → Prop}
    (ends : Ends action heap (fun a later => ∃ wider, roles.Within wider ∧
        Agrees m lenient busy later wider (next a) family post)
      fun fault later => (∃ wider, roles.Within wider ∧ Reflects m lenient busy wider later) ∧
        Excused m lenient busy family fault) :
    Agrees m lenient busy heap roles (action >>= next) family post := by
  refine Ends.bind ends ?_
  rintro a after ⟨wider, within, agrees⟩
  exact agrees.widen within

/-- A test of a value and the same test of its denotation. -/
theorem told {held : List Held} {context : Context} {result result' : Except ErrorKind α}
    {next : α → Eval γ} {next' : Nat → α → Outcome δ} {post : Roles → γ → δ → Prop}
    (reflects : Reflects m lenient busy roles heap) (same : result = result')
    (second : ∀ a, Agrees m lenient busy heap roles (next a) (next' · a) post) :
    Agrees m lenient busy heap roles (Eval.blaming held context result >>= next)
      (fun n => expect result' >>= next' n) post := by
  subst same
  cases result with
  | ok a =>
    change Agrees m lenient busy heap roles (Pure.pure a >>= next) (fun n => Pure.pure a >>= next' n)
      post
    simp only [pure_bind]
    exact second a
  | error kind => exact .stop reflects kind

/-- A test at the end. -/
theorem test {held : List Held} {context : Context} {result result' : Except ErrorKind α}
    (reflects : Reflects m lenient busy roles heap) (same : result = result') :
    Agrees m lenient busy heap roles (Eval.blaming held context result) (fun _ => expect result')
      fun _ a a' => result = .ok a ∧ a = a' := by
  subst same
  cases result with
  | ok a => exact .pure reflects ⟨rfl, rfl⟩
  | error kind => exact .raise reflects kind

/-- What is still made of a denotation. -/
theorem mapRight {g : β → δ} {post : Roles → α → δ → Prop}
    (agrees : Agrees m lenient busy heap roles action family fun wider a b => post wider a (g b)) :
    Agrees m lenient busy heap roles action (fun n => g <$> family n) post := by
  have mapped : Agrees m lenient busy heap roles (id <$> action) (fun n => g <$> family n) post :=
    agrees.map
  simpa only [id_map] using mapped

/-- A unit of fuel more or less makes no difference. -/
theorem of_succ (agrees : Agrees m lenient busy heap roles action (fun n => family (n + 1)) post)
    (zero : (family 0).run = none) : Agrees m lenient busy heap roles action family post := by
  apply Ends.mono agrees
  · rintro a later ⟨wider, b, within, reflects, yields, ok⟩
    exact ⟨wider, b, within, reflects, yields.of_succ zero, ok⟩
  · exact fun fault later failed => ⟨failed.1, failed.2.of_succ zero⟩

end Agrees

end ShapeLang.Reevaluation
