import ShapeLang.Proofs.Computation

/-! # Two computations side by side

Two computations that are granted fuel, each over a state of its own, are compared by how they end
when the fuel suffices.
-/

namespace ShapeLang

section Alongside

variable {σ τ α β γ δ : Type}

/-- Two results with the states that are left: both computations returned, or both failed. -/
inductive EndAlike (returns : α → σ → β → τ → Prop) (fails : Fault → σ → Fault → τ → Prop) :
    Except Fault α × σ → Except Fault β × τ → Prop
  | returned {a : α} {b : β} {after : σ} {after' : τ} (ok : returns a after b after') :
    EndAlike returns fails (.ok a, after) (.ok b, after')
  | failed {fault fault' : Fault} {after : σ} {after' : τ}
    (error : fails fault after fault' after') :
    EndAlike returns fails (.error fault, after) (.error fault', after')

/-- Two computations end from some amount of fuel on, and end alike. -/
def Alongside (action : Nat → ExceptT Fault (StateM σ) α)
    (action' : Nat → ExceptT Fault (StateM τ) β) (s : σ) (s' : τ)
    (returns : α → σ → β → τ → Prop) (fails : Fault → σ → Fault → τ → Prop) : Prop :=
  ∃ enough last last', (∀ fuel, enough ≤ fuel → action fuel s = last) ∧
    (∀ fuel, enough ≤ fuel → action' fuel s' = last') ∧ EndAlike returns fails last last'

namespace Alongside

variable {action : Nat → ExceptT Fault (StateM σ) α} {action' : Nat → ExceptT Fault (StateM τ) β}
  {s : σ} {s' : τ} {returns : α → σ → β → τ → Prop} {fails : Fault → σ → Fault → τ → Prop}

/-- Computations that need no fuel. -/
theorem of_ends {action : ExceptT Fault (StateM σ) α} {action' : ExceptT Fault (StateM τ) β}
    (ends : EndAlike returns fails (action s) (action' s')) :
    Alongside (fun _ => action) (fun _ => action') s s' returns fails :=
  ⟨0, _, _, fun _ _ => rfl, fun _ _ => rfl, ends⟩

/-- With one amount of fuel that is as good as any other, both computations end alike. -/
theorem ends {action : ExceptT Fault (StateM σ) α} {action' : ExceptT Fault (StateM τ) β}
    (alongside : Alongside (fun _ => action) (fun _ => action') s s' returns fails) :
    EndAlike returns fails (action s) (action' s') := by
  obtain ⟨enough, _, _, ran, ran', alike⟩ := alongside
  obtain rfl := ran enough (Nat.le_refl enough)
  obtain rfl := ran' enough (Nat.le_refl enough)
  exact alike

theorem pure {a : α} {b : β} (ok : returns a s b s') :
    Alongside (fun _ => Pure.pure a) (fun _ => Pure.pure b) s s' returns fails :=
  of_ends (.returned ok)

theorem throw {fault fault' : Fault} (error : fails fault s fault' s') :
    Alongside (fun _ => (MonadExcept.throw fault : ExceptT Fault (StateM σ) α))
      (fun _ => (MonadExcept.throw fault' : ExceptT Fault (StateM τ) β)) s s' returns fails :=
  of_ends (.failed error)

theorem mono {returns' : α → σ → β → τ → Prop} {fails' : Fault → σ → Fault → τ → Prop}
    (alongside : Alongside action action' s s' returns fails)
    (ok : ∀ a after b after', returns a after b after' → returns' a after b after')
    (error : ∀ fault after fault' after', fails fault after fault' after' →
      fails' fault after fault' after') :
    Alongside action action' s s' returns' fails' := by
  obtain ⟨enough, last, last', ran, ran', alike⟩ := alongside
  refine ⟨enough, last, last', ran, ran', ?_⟩
  cases alike with
  | returned done => exact .returned (ok _ _ _ _ done)
  | failed failure => exact .failed (error _ _ _ _ failure)

theorem bind {next : Nat → α → ExceptT Fault (StateM σ) γ}
    {next' : Nat → β → ExceptT Fault (StateM τ) δ} {middle : α → σ → β → τ → Prop}
    {returns : γ → σ → δ → τ → Prop} (first : Alongside action action' s s' middle fails)
    (second : ∀ a after b after', middle a after b after' →
      Alongside (next · a) (next' · b) after after' returns fails) :
    Alongside (fun fuel => action fuel >>= next fuel) (fun fuel => action' fuel >>= next' fuel)
      s s' returns fails := by
  obtain ⟨enough, last, last', ran, ran', alike⟩ := first
  cases alike with
  | failed failure =>
    refine ⟨enough, _, _, fun fuel le => ?_, fun fuel le => ?_, .failed failure⟩
    · dsimp only
      rw [bind_run, ran fuel le]
    · dsimp only
      rw [bind_run, ran' fuel le]
  | returned done =>
    obtain ⟨enough', last, last', ran₂, ran₂', alike⟩ := second _ _ _ _ done
    refine ⟨max enough enough', last, last', fun fuel le => ?_, fun fuel le => ?_, alike⟩
    · dsimp only
      rw [bind_run, ran fuel (Nat.le_trans (Nat.le_max_left ..) le)]
      exact ran₂ fuel (Nat.le_trans (Nat.le_max_right ..) le)
    · dsimp only
      rw [bind_run, ran' fuel (Nat.le_trans (Nat.le_max_left ..) le)]
      exact ran₂' fuel (Nat.le_trans (Nat.le_max_right ..) le)

/-- Nothing follows two computations that fail. -/
theorem stop {next : Nat → α → ExceptT Fault (StateM σ) γ}
    {next' : Nat → β → ExceptT Fault (StateM τ) δ} {returns : γ → σ → δ → τ → Prop}
    (first : Alongside action action' s s' (fun _ _ _ _ => False) fails) :
    Alongside (fun fuel => action fuel >>= next fuel) (fun fuel => action' fuel >>= next' fuel)
      s s' returns fails :=
  first.bind fun _ _ _ _ impossible => impossible.elim

/-- Both computations begin with something that needs no fuel and returns. -/
theorem steps {first : ExceptT Fault (StateM σ) α} {first' : ExceptT Fault (StateM τ) β} {a : α}
    {b : β} {after : σ} {after' : τ} (ran : first s = (.ok a, after))
    (ran' : first' s' = (.ok b, after')) {next : Nat → α → ExceptT Fault (StateM σ) γ}
    {next' : Nat → β → ExceptT Fault (StateM τ) δ} {returns : γ → σ → δ → τ → Prop}
    (rest : Alongside (next · a) (next' · b) after after' returns fails) :
    Alongside (fun fuel => first >>= next fuel) (fun fuel => first' >>= next' fuel) s s' returns
      fails := by
  obtain ⟨enough, last, last', done, done', alike⟩ := rest
  refine ⟨enough, last, last', fun fuel le => ?_, fun fuel le => ?_, alike⟩
  · dsimp only
    rw [bind_run, ran]
    exact done fuel le
  · dsimp only
    rw [bind_run, ran']
    exact done' fuel le

/-- Computations around two others. They keep the result, and change the state before and after. -/
theorem around {ρ θ : Type} {inner : Nat → ExceptT Fault (StateM ρ) α}
    {inner' : Nat → ExceptT Fault (StateM θ) β} {start : ρ} {start' : θ}
    (finish : Except Fault α → ρ → σ) (finish' : Except Fault β → θ → τ)
    (runs : ∀ fuel result after, inner fuel start = (result, after) →
      action fuel s = (result, finish result after))
    (runs' : ∀ fuel result after, inner' fuel start' = (result, after) →
      action' fuel s' = (result, finish' result after))
    (alongside : Alongside inner inner' start start'
      (fun a after b after' => returns a (finish (.ok a) after) b (finish' (.ok b) after'))
      fun fault after fault' after' =>
        fails fault (finish (.error fault) after) fault' (finish' (.error fault') after')) :
    Alongside action action' s s' returns fails := by
  obtain ⟨enough, last, last', ran, ran', alike⟩ := alongside
  refine ⟨enough, (last.1, finish last.1 last.2), (last'.1, finish' last'.1 last'.2),
    fun fuel le => runs fuel _ _ (ran fuel le), fun fuel le => runs' fuel _ _ (ran' fuel le), ?_⟩
  cases alike with
  | returned done => exact .returned done
  | failed failure => exact .failed failure

end Alongside

end Alongside

end ShapeLang
