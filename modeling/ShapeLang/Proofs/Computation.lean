import ShapeLang.Fault

/-! # How computations end

Analysis, evaluation and shader compilation are computations over a state that can fail and that
keep their state when they do. `Ends` says what holds when such a computation returns and what
holds when it fails, and is proved along the structure of the computation.
-/

namespace ShapeLang

section Ends

variable {ε σ α β : Type} {s : σ}

/-- A computation that starts in `s` either returns with `returns` or fails with `fails`. -/
def Ends (action : ExceptT ε (StateM σ) α) (s : σ) (returns : α → σ → Prop)
    (fails : ε → σ → Prop) : Prop :=
  match action s with
  | (.ok a, after) => returns a after
  | (.error fault, after) => fails fault after

variable {action : ExceptT ε (StateM σ) α} {returns : α → σ → Prop} {fails : ε → σ → Prop}

theorem bind_run (action : ExceptT ε (StateM σ) α) (next : α → ExceptT ε (StateM σ) β) (s : σ) :
    (action >>= next) s =
      match action s with
      | (.ok a, after) => next a after
      | (.error fault, after) => (.error fault, after) := by
  rcases ran : action s with ⟨_ | _, after⟩ <;>
    simp only [bind, ExceptT.bind, ExceptT.mk, StateT.bind, ran, ExceptT.bindCont]
  rfl

theorem Ends.intro {result : Except ε α} {after : σ} (ran : action s = (result, after))
    (ok : ∀ a, result = .ok a → returns a after)
    (error : ∀ fault, result = .error fault → fails fault after) :
    Ends action s returns fails := by
  unfold Ends
  rw [ran]
  cases result with
  | ok a => exact ok a rfl
  | error fault => exact error fault rfl

theorem Ends.returned (ends : Ends action s returns fails) {a : α} {after : σ}
    (ran : action s = (.ok a, after)) : returns a after := by
  simpa only [Ends, ran] using ends

theorem Ends.failed (ends : Ends action s returns fails) {fault : ε} {after : σ}
    (ran : action s = (.error fault, after)) : fails fault after := by
  simpa only [Ends, ran] using ends

/-- What holds of how a computation ends, in whichever of the two ways. -/
theorem Ends.outcome (holds : Except ε α → σ → Prop)
    (ends : Ends action s (fun a after => holds (.ok a) after)
      fun fault after => holds (.error fault) after) : holds (action s).1 (action s).2 := by
  rcases ran : action s with ⟨fault | a, after⟩
  · exact ends.failed ran
  · exact ends.returned ran

/-- Computations that run in the same way end in the same way. -/
theorem Ends.congr {action' : ExceptT ε (StateM σ) α} {s' : σ} (same : action s = action' s')
    (ends : Ends action' s' returns fails) : Ends action s returns fails := by
  unfold Ends at ends ⊢
  rwa [same]

/-- A computation whose end is known. -/
theorem Ends.exact {a : α} {after : σ}
    (ends : Ends action s (fun b later => b = a ∧ later = after) fun _ _ => False) :
    action s = (.ok a, after) := by
  rcases ran : action s with ⟨fault | b, later⟩
  · exact (ends.failed ran).elim
  · obtain ⟨rfl, rfl⟩ := ends.returned ran
    rfl

/-- Where a computation returns is remembered, and where it fails is left to be shown. -/
theorem Ends.ran
    (failed : ∀ fault after, action s = (.error fault, after) → fails fault after) :
    Ends action s (fun a after => action s = (.ok a, after)) fails := by
  rcases ran : action s with ⟨fault | a, after⟩
  · exact .intro ran (fun _ same => by cases same) fun fault' same => by
      cases same
      exact failed fault after ran
  · exact .intro ran (fun b same => by cases same; rfl) fun _ same => by cases same

/-- What is true of everything that could be returned. -/
theorem Ends.of_forall (ok : ∀ a after, returns a after) :
    Ends action s returns fun _ _ => True := by
  rcases ran : action s with ⟨fault | a, after⟩
  · exact .intro ran (fun _ same => by cases same) fun _ _ => trivial
  · exact .intro ran (fun b same => ok b after) fun _ same => by cases same

theorem Ends.pure {a : α} (ok : returns a s) : Ends (pure a) s returns fails := ok

theorem Ends.throw {fault : ε} (error : fails fault s) :
    Ends (throw fault : ExceptT ε (StateM σ) α) s returns fails := error

theorem Ends.get {returns : σ → σ → Prop} (ok : returns s s) :
    Ends (MonadState.get : ExceptT ε (StateM σ) σ) s returns fails := ok

theorem Ends.modify {change : σ → σ} {returns : Unit → σ → Prop} (ok : returns () (change s)) :
    Ends (modify change : ExceptT ε (StateM σ) Unit) s returns fails := ok

/-- What the first part returns with is where the second part starts. -/
theorem Ends.bind {next : α → ExceptT ε (StateM σ) β} {middle : α → σ → Prop}
    {returns : β → σ → Prop} (first : Ends action s middle fails)
    (second : ∀ a after, middle a after → Ends (next a) after returns fails) :
    Ends (action >>= next) s returns fails := by
  unfold Ends
  rw [bind_run]
  unfold Ends at first
  rcases ran : action s with ⟨_ | a, after⟩
  · simpa only [ran] using first
  · rw [ran] at first
    exact second a after first

/-- The state between the two parts is described first. -/
theorem Ends.through {next : α → ExceptT ε (StateM σ) β} (middle : α → σ → Prop)
    {returns : β → σ → Prop} (first : Ends action s middle fails)
    (second : ∀ a after, middle a after → Ends (next a) after returns fails) :
    Ends (action >>= next) s returns fails :=
  first.bind second

/-- Nothing follows a part that does not return. -/
theorem Ends.stop {next : α → ExceptT ε (StateM σ) β} {returns : β → σ → Prop}
    (first : Ends action s (fun _ _ => False) fails) : Ends (action >>= next) s returns fails :=
  first.bind fun _ _ impossible => impossible.elim

theorem Ends.map {f : α → β} {returns : β → σ → Prop}
    (ends : Ends action s (fun a after => returns (f a) after) fails) :
    Ends (f <$> action) s returns fails := by
  rw [map_eq_pure_bind]
  exact ends.bind fun _ _ ok => ok

theorem Ends.mono {returns' : α → σ → Prop} {fails' : ε → σ → Prop}
    (ends : Ends action s returns fails)
    (ok : ∀ a after, returns a after → returns' a after)
    (error : ∀ fault after, fails fault after → fails' fault after) :
    Ends action s returns' fails' := by
  unfold Ends at ends ⊢
  rcases ran : action s with ⟨fault | a, after⟩
  · rw [ran] at ends
    exact error fault after ends
  · rw [ran] at ends
    exact ok a after ends

/-- Two facts about one computation. -/
theorem Ends.and {returns' : α → σ → Prop} {fails' : ε → σ → Prop}
    (first : Ends action s returns fails) (second : Ends action s returns' fails') :
    Ends action s (fun a after => returns a after ∧ returns' a after)
      fun fault after => fails fault after ∧ fails' fault after := by
  unfold Ends at first second ⊢
  rcases ran : action s with ⟨fault | a, after⟩
  · rw [ran] at first second
    exact ⟨first, second⟩
  · rw [ran] at first second
    exact ⟨first, second⟩

/-- What leaves the state alone for each item does so for a list of items. -/
theorem Ends.mapM {each : α → ExceptT ε (StateM σ) β}
    (looks : ∀ item, Ends (each item) s (fun _ after => after = s) fails) (items : List α) :
    Ends (items.mapM each) s (fun _ after => after = s) fails := by
  induction items with
  | nil => exact Ends.pure rfl
  | cons item items ih =>
    rw [List.mapM_cons]
    refine (looks item).bind ?_
    rintro _ _ rfl
    refine ih.bind ?_
    rintro _ _ rfl
    exact Ends.pure rfl

end Ends

section Terminates

variable {σ α β : Type} {s : σ}

/-- A computation that is granted fuel ends in the same way from some amount on, and not for lack
of fuel. -/
def Terminates (action : Nat → ExceptT Fault (StateM σ) α) (s : σ) (returns : α → σ → Prop) :
    Prop :=
  ∃ enough result after, (∀ fuel, enough ≤ fuel → action fuel s = (result, after)) ∧
    result ≠ .error .outOfFuel ∧ ∀ a, result = .ok a → returns a after

namespace Terminates

variable {action : Nat → ExceptT Fault (StateM σ) α} {returns : α → σ → Prop}

/-- What needs no fuel ends. -/
theorem of_ends {action : ExceptT Fault (StateM σ) α}
    (ends : Ends action s returns fun fault _ => fault ≠ .outOfFuel) :
    Terminates (fun _ => action) s returns := by
  rcases ran : action s with ⟨fault | a, after⟩
  · refine ⟨0, .error fault, after, fun _ _ => ran, fun same => ?_, fun _ same => by cases same⟩
    exact ends.failed ran (Except.error.inj same)
  · refine ⟨0, .ok a, after, fun _ _ => ran, (fun same => by cases same), fun b same => ?_⟩
    exact Except.ok.inj same ▸ ends.returned ran

theorem bind {next : Nat → α → ExceptT Fault (StateM σ) β} {middle : α → σ → Prop}
    {returns : β → σ → Prop} (first : Terminates action s middle)
    (second : ∀ a after, middle a after → Terminates (next · a) after returns) :
    Terminates (fun fuel => action fuel >>= next fuel) s returns := by
  obtain ⟨enough, result, between, settled, fueled, ok⟩ := first
  cases result with
  | error fault =>
    refine ⟨enough, .error fault, between, fun fuel le => ?_, fun same => ?_, fun _ same => by
      cases same⟩
    · dsimp only
      rw [bind_run, settled fuel le]
    · exact fueled (congrArg Except.error (Except.error.inj same))
  | ok a =>
    obtain ⟨enough', result', after, settled', fueled', ok'⟩ := second a between (ok a rfl)
    refine ⟨max enough enough', result', after, fun fuel le => ?_, fueled', ok'⟩
    dsimp only
    rw [bind_run, settled fuel (Nat.le_trans (Nat.le_max_left ..) le)]
    exact settled' fuel (Nat.le_trans (Nat.le_max_right ..) le)

theorem through {next : Nat → α → ExceptT Fault (StateM σ) β} (middle : α → σ → Prop)
    {returns : β → σ → Prop} (first : Terminates action s middle)
    (second : ∀ a after, middle a after → Terminates (next · a) after returns) :
    Terminates (fun fuel => action fuel >>= next fuel) s returns :=
  first.bind second

theorem stop {next : Nat → α → ExceptT Fault (StateM σ) β} {returns : β → σ → Prop}
    (first : Terminates action s fun _ _ => False) :
    Terminates (fun fuel => action fuel >>= next fuel) s returns :=
  first.bind fun _ _ impossible => impossible.elim

theorem map {f : α → β} {returns : β → σ → Prop}
    (ends : Terminates action s fun a after => returns (f a) after) :
    Terminates (fun fuel => f <$> action fuel) s returns := by
  simp only [map_eq_pure_bind]
  exact ends.bind fun _ _ ok => of_ends (Ends.pure ok)

theorem mono {returns' : α → σ → Prop} (ends : Terminates action s returns)
    (ok : ∀ a after, returns a after → returns' a after) : Terminates action s returns' := by
  obtain ⟨enough, result, after, settled, fueled, returned⟩ := ends
  exact ⟨enough, result, after, settled, fueled, fun a same => ok a after (returned a same)⟩

/-- It does not matter that the first step takes a unit of fuel. -/
theorem of_succ (ends : Terminates (fun fuel => action (fuel + 1)) s returns) :
    Terminates action s returns := by
  obtain ⟨enough, result, after, settled, rest⟩ := ends
  refine ⟨enough + 1, result, after, fun fuel le => ?_, rest⟩
  obtain ⟨less, rfl⟩ : ∃ less, fuel = less + 1 := ⟨fuel - 1, by omega⟩
  exact settled less (by omega)

end Terminates

end Terminates

/-- A fault that is no broken promise of the library. -/
def Fault.Harmless (fault : Fault) : Prop := ∀ d, fault ≠ .defect d

theorem Fault.Harmless.exception (e : Exception) : (Fault.exception e).Harmless := by
  intro d same
  cases same

theorem Fault.Harmless.outOfFuel : Fault.outOfFuel.Harmless := by
  intro d same
  cases same

end ShapeLang
