import ShapeLang.Proofs.Eval.Operations
import ShapeLang.Proofs.Lexical.Walk

/-! # Two runs that end alike

Evaluation over frames and evaluation by names run side by side. They agree if both give a value,
both stop with the same kind of mistake, or both run out of fuel. Evaluation over frames never
agrees with anything when it meets a defect.
-/

namespace ShapeLang.Lexical

variable {α β γ δ : Type} {eval : Eval α} {walk : Walk β} {heap : Heap} {store : Store}
  {post : α → Heap → β → Store → Prop}

/-- How two computations end, and what holds of their results. -/
inductive EndAlike (post : α → Heap → β → Store → Prop) :
    Except Fault α × Heap → Except Stop β × Store → Prop
  | ok {a b left right} (same : post a left b right) : EndAlike post (.ok a, left) (.ok b, right)
  | mistake {left right} (e : Exception) :
      EndAlike post (.error (.exception e), left) (.error (.mistake e.kind), right)
  | outOfFuel {left right} : EndAlike post (.error .outOfFuel, left) (.error .outOfFuel, right)

/-- Two computations, started in a heap and in a store, end alike. -/
def Agrees (eval : Eval α) (heap : Heap) (walk : Walk β) (store : Store)
    (post : α → Heap → β → Store → Prop) : Prop :=
  EndAlike post (eval heap) (walk store)

namespace Agrees

theorem pure {a : α} {b : β} (same : post a heap b store) :
    Agrees (Pure.pure a) heap (Pure.pure b) store post := .ok same

theorem raise {held : List Held} {context : Context} (kind : ErrorKind) :
    Agrees (Eval.raise held context kind) heap (Lexical.raise kind) store post :=
  .mistake ⟨kind, context.locations heap held⟩

theorem mono {post' : α → Heap → β → Store → Prop} (agrees : Agrees eval heap walk store post)
    (weaker : ∀ a heap b store, post a heap b store → post' a heap b store) :
    Agrees eval heap walk store post' := by
  unfold Agrees at agrees ⊢
  generalize eval heap = left at agrees
  generalize walk store = right at agrees
  cases agrees with
  | ok same => exact .ok (weaker _ _ _ _ same)
  | mistake e => exact .mistake e
  | outOfFuel => exact .outOfFuel

theorem bind {next : α → Eval γ} {next' : β → Walk δ} {post' : γ → Heap → δ → Store → Prop}
    (first : Agrees eval heap walk store post)
    (second : ∀ a heap b store, post a heap b store → Agrees (next a) heap (next' b) store post') :
    Agrees (eval >>= next) heap (walk >>= next') store post' := by
  unfold Agrees at first ⊢
  rw [bind_run, bind_run]
  generalize eval heap = left at first
  generalize walk store = right at first
  cases first with
  | ok same => exact second _ _ _ _ same
  | mistake e => exact .mistake e
  | outOfFuel => exact .outOfFuel

/-- Nothing follows parts that do not return. -/
theorem stop {next : α → Eval γ} {next' : β → Walk δ} {post' : γ → Heap → δ → Store → Prop}
    (agrees : Agrees eval heap walk store fun _ _ _ _ => False) :
    Agrees (eval >>= next) heap (walk >>= next') store post' :=
  agrees.bind fun _ _ _ _ impossible => impossible.elim

/-- An evaluation over frames that is known to fail. -/
theorem fails {kind : ErrorKind}
    (ends : Ends eval heap (fun _ _ => False) fun fault _ =>
      ∃ e, fault = .exception e ∧ e.kind = kind) :
    Agrees eval heap (Lexical.raise kind) store post := by
  unfold Agrees
  unfold Ends at ends
  rcases ran : eval heap with ⟨fault | a, after⟩
  · rw [ran] at ends
    obtain ⟨e, rfl, rfl⟩ := ends
    exact .mistake e
  · rw [ran] at ends
    exact ends.elim

theorem map {f : α → γ} {g : β → δ} {post' : γ → Heap → δ → Store → Prop}
    (agrees : Agrees eval heap walk store fun a heap b store => post' (f a) heap (g b) store) :
    Agrees (f <$> eval) heap (g <$> walk) store post' := by
  rw [map_eq_pure_bind, map_eq_pure_bind]
  exact agrees.bind fun _ _ _ _ same => .pure same

/-- A step that only the evaluation over frames makes. -/
theorem left {next : α → Eval γ} {walk : Walk δ} {post' : γ → Heap → δ → Store → Prop}
    (ends : Ends eval heap (fun a heap => Agrees (next a) heap walk store post')
      fun _ _ => False) : Agrees (eval >>= next) heap walk store post' := by
  unfold Agrees
  rw [bind_run]
  unfold Ends at ends
  rcases ran : eval heap with ⟨_ | a, after⟩
  · rw [ran] at ends
    exact ends.elim
  · rw [ran] at ends
    exact ends

/-- What evaluation by names still makes of its result. -/
theorem right {f : β → δ} {post' : α → Heap → δ → Store → Prop}
    (agrees : Agrees eval heap walk store fun a heap b store => post' a heap (f b) store) :
    Agrees eval heap (walk >>= fun b => Pure.pure (f b)) store post' := by
  unfold Agrees at agrees ⊢
  rw [bind_run]
  generalize eval heap = left at agrees
  generalize walk store = right at agrees
  cases agrees with
  | ok same => exact .ok same
  | mistake e => exact .mistake e
  | outOfFuel => exact .outOfFuel

theorem mapRight {f : β → δ} {post' : α → Heap → δ → Store → Prop}
    (agrees : Agrees eval heap walk store fun a heap b store => post' a heap (f b) store) :
    Agrees eval heap (f <$> walk) store post' := by
  rw [map_eq_pure_bind]
  exact agrees.right

/-- A step in which evaluation by names looks at the scopes. -/
theorem get {next : Store → Walk β} (agrees : Agrees eval heap (next store) store post) :
    Agrees eval heap (MonadState.get >>= next) store post := by
  unfold Agrees
  rw [bind_run]
  exact agrees

/-- A step in which evaluation by names changes the scopes. -/
theorem modifyGet {change : Store → δ × Store} {next : δ → Walk β}
    (agrees : Agrees eval heap (next (change store).1) (change store).2 post) :
    Agrees eval heap (MonadStateOf.modifyGet change >>= next) store post := by
  unfold Agrees
  rw [bind_run]
  exact agrees

/-- What is known of the evaluation over frames alone. -/
theorem and {returns : α → Heap → Prop} {fails : Fault → Heap → Prop}
    (agrees : Agrees eval heap walk store post) (ends : Ends eval heap returns fails) :
    Agrees eval heap walk store fun a heap b store => post a heap b store ∧ returns a heap := by
  unfold Agrees at agrees ⊢
  unfold Ends at ends
  generalize eval heap = left at agrees ends
  generalize walk store = right at agrees
  cases agrees with
  | ok same => exact .ok ⟨same, ends⟩
  | mistake e => exact .mistake e
  | outOfFuel => exact .outOfFuel

theorem blaming {held : List Held} {context : Context} {result result' : Except ErrorKind α}
    {post : α → Heap → α → Store → Prop} (same : result = result')
    (ok : ∀ a, result = .ok a → post a heap a store) :
    Agrees (Eval.blaming held context result) heap (expect result') store post := by
  subst same
  cases result with
  | ok a => exact .pure (ok a rfl)
  | error kind => exact .raise kind

/-- A test of a value that both sides make in the same way. -/
theorem told {held : List Held} {context : Context} {result result' : Except ErrorKind α}
    (same : result = result') :
    Agrees (Eval.blaming held context result) heap (expect result') store
      fun a after a' store' => result = .ok a ∧ a = a' ∧ heap = after ∧ store = store' :=
  .blaming same fun _ made => ⟨made, rfl, rfl, rfl⟩

/-- Keeping the value of a definition. -/
theorem settling {id : FrameId} {slot : Nat} {definition : Expr} {scope : ScopeId} {name : String}
    {body : Phrase} {eval : Eval ShapeLang.Value} {walk : Walk Value}
    {post : ShapeLang.Value → Heap → Value → Store → Prop}
    (agrees : Agrees eval heap walk store fun value heap value' store =>
      post value (heap.put id slot (.ready value)) value' (store.set scope name (.done value'))) :
    Agrees (Eval.settling id slot definition eval) heap (memoizing scope name body walk) store
      post := by
  unfold Agrees Eval.settling memoizing
  unfold Agrees at agrees
  generalize eval heap = left at agrees
  generalize walk store = right at agrees
  cases agrees with
  | ok same => exact .ok same
  | mistake e => exact .mistake e
  | outOfFuel => exact .outOfFuel

end Agrees

end ShapeLang.Lexical
