import ShapeLang.Proofs.Denotation.View
import ShapeLang.Proofs.Eval.Operations

/-! # Evaluation that agrees with denotations

An evaluation over frames agrees with outcomes for more and more fuel if it returns what they settle
at. It may run out of fuel at any time. A definition that is found to depend on itself is another
matter: then there is no outcome at all, or none that does not go through a definition that is
already being evaluated.
-/

namespace ShapeLang.Denotation

variable {α β γ δ : Type} {m : Machine} {busy : List Task} {heap heap' : Heap} {view view' : View}
  {w w₁ w₂ : Place} {action : Eval α} {family : Nat → Outcome β} {post : View → α → β → Prop}

/-- Every outcome has to go through a definition that is being evaluated, with no less fuel, or
there is none. -/
def Needs (m : Machine) (busy : List Task) (family : Nat → Outcome β) : Prop :=
  Diverges family ∨ ∃ task ∈ busy, ∀ n result, (family n).run = some result →
    ∃ less result', less ≤ n ∧
      (upTo m less task.env task.definition.inner task.definition.expr).run = some result'

/-- How an evaluation may fail. -/
def Excused (m : Machine) (busy : List Task) (family : Nat → Outcome β) : Fault → Prop
  | .exception e => Settles family (.error e.kind) ∨
      e.kind = .recursiveDefinition ∧ Needs m busy family
  | .defect _ => False
  | .outOfFuel => True

/-- An evaluation at a place agrees with outcomes, and keeps frames that reflect denotations. -/
def Agrees (m : Machine) (busy : List Task) (w : Place) (heap : Heap) (view : View)
    (action : Eval α) (family : Nat → Outcome β) (post : View → α → β → Prop) : Prop :=
  Ends action heap
    (fun a later => ∃ wider b, Evolves w heap view later wider ∧ Reflects m busy wider later ∧
      Settles family (.ok b) ∧ post wider a b)
    fun fault later => (∃ wider, Evolves w heap view later wider ∧ Reflects m busy wider later) ∧
      Excused m busy family fault

section Excuses

variable {next : Nat → β → Outcome δ}

/-- What a part needs, the whole needs. -/
theorem Needs.bind (needs : Needs m busy family) :
    Needs m busy fun n => family n >>= next n := by
  have part (n : Nat) (result : Except ErrorKind δ)
      (ran : (family n >>= next n).run = some result) :
      ∃ result', (family n).run = some result' := by
    cases here : (family n).run with
    | none => simp [run_bind_none _ here] at ran
    | some result' => exact ⟨result', rfl⟩
  rcases needs with diverges | ⟨task, mem, goes⟩
  · exact .inl fun n => run_bind_none _ (diverges n)
  · refine .inr ⟨task, mem, fun n result ran => ?_⟩
    obtain ⟨result', ran'⟩ := part n result ran
    exact goes n result' ran'

/-- What the rest needs, the whole needs. -/
theorem Needs.after {b : β} (settles : Settles family (.ok b)) (needs : Needs m busy (next · b)) :
    Needs m busy fun n => family n >>= next n := by
  have rest (n : Nat) (result : Except ErrorKind δ)
      (ran : (family n >>= next n).run = some result) : (next n b).run = some result := by
    cases here : (family n).run with
    | none => simp [run_bind_none _ here] at ran
    | some result' =>
      obtain rfl := settles.only n result' here
      rwa [run_bind_ok _ here] at ran
  rcases needs with diverges | ⟨task, mem, goes⟩
  · refine .inl fun n => Option.eq_none_iff_forall_ne_some.mpr fun result ran => ?_
    have stuck := diverges n
    rw [rest n result ran] at stuck
    cases stuck
  · exact .inr ⟨task, mem, fun n result ran => goes n result (rest n result ran)⟩

theorem Needs.of_succ (needs : Needs m busy fun n => family (n + 1))
    (zero : (family 0).run = none) : Needs m busy family := by
  rcases needs with diverges | ⟨task, mem, goes⟩
  · refine .inl fun n => ?_
    cases n with
    | zero => exact zero
    | succ n => exact diverges n
  · refine .inr ⟨task, mem, fun n result ran => ?_⟩
    cases n with
    | zero => simp [zero] at ran
    | succ n =>
      obtain ⟨less, result', le, ran'⟩ := goes n result ran
      exact ⟨less, result', Nat.le_succ_of_le le, ran'⟩

theorem Excused.bind {fault : Fault} (excused : Excused m busy family fault) :
    Excused m busy (fun n => family n >>= next n) fault := by
  cases fault with
  | exception e => exact excused.imp Settles.stop (.imp_right Needs.bind)
  | defect d => exact excused
  | outOfFuel => trivial

theorem Excused.after {fault : Fault} {b : β} (settles : Settles family (.ok b))
    (excused : Excused m busy (next · b) fault) :
    Excused m busy (fun n => family n >>= next n) fault := by
  cases fault with
  | exception e => exact excused.imp settles.bind (.imp_right (Needs.after settles))
  | defect d => exact excused
  | outOfFuel => trivial

theorem Excused.of_succ {fault : Fault} (excused : Excused m busy (fun n => family (n + 1)) fault)
    (zero : (family 0).run = none) : Excused m busy family fault := by
  cases fault with
  | exception e => exact excused.imp (·.of_succ zero) (.imp_right (·.of_succ zero))
  | defect d => exact excused
  | outOfFuel => trivial

/-- A definition that ends in itself has no outcome. -/
theorem Needs.finish {env : Env} {d : Definition}
    (needs : Needs m (⟨env, d⟩ :: busy) fun n => upTo m (n + 1) env d.inner d.expr) :
    Needs m busy fun n => upTo m n env d.inner d.expr := by
  rcases needs with diverges | ⟨task, mem, goes⟩
  · exact Needs.of_succ (.inl diverges) rfl
  · rcases List.mem_cons.mp mem with rfl | mem
    · refine .inl fun n => ?_
      induction n using Nat.strong_induction_on with
      | _ n ih =>
        cases n with
        | zero => rfl
        | succ n =>
          refine Option.eq_none_iff_forall_ne_some.mpr fun result ran => ?_
          obtain ⟨less, result', le, ran'⟩ := goes n result ran
          have stuck := ih less (Nat.lt_succ_of_le le)
          rw [ran'] at stuck
          cases stuck
    · exact Needs.of_succ (.inr ⟨task, mem, goes⟩) rfl

theorem Excused.finish {env : Env} {d : Definition} {fault : Fault}
    (excused : Excused m (⟨env, d⟩ :: busy) (fun n => upTo m (n + 1) env d.inner d.expr) fault) :
    Excused m busy (fun n => upTo m n env d.inner d.expr) fault := by
  cases fault with
  | exception e => exact excused.imp (·.of_succ rfl) (.imp_right Needs.finish)
  | defect d => exact excused
  | outOfFuel => trivial

end Excuses

namespace Agrees

theorem pure (reflects : Reflects m busy view heap) {a : α} {b : β} (ok : post view a b) :
    Agrees m busy w heap view (Pure.pure a) (fun _ => Pure.pure b) post :=
  ⟨view, b, .refl, reflects, .pure b, ok⟩

theorem raise (reflects : Reflects m busy view heap) {held : List Held} {context : Context}
    (kind : ErrorKind) :
    Agrees m busy w heap view (Eval.raise held context kind)
      (fun _ => (throw kind : Outcome β)) post :=
  Ends.raise fun _ => ⟨⟨view, .refl, reflects⟩, .inl (.throw kind)⟩

theorem mono {post' : View → α → β → Prop}
    (agrees : Agrees m busy w heap view action family post)
    (weaker : ∀ wider a b, post wider a b → post' wider a b) :
    Agrees m busy w heap view action family post' := by
  apply Ends.mono agrees
  · rintro a later ⟨wider, b, evolves, reflects, settles, ok⟩
    exact ⟨wider, b, evolves, reflects, settles, weaker wider a b ok⟩
  · exact fun _ _ failed => failed

theorem outer (agrees : Agrees m busy w₁ heap view action family post) (le : w <:+ w₁) :
    Agrees m busy w heap view action family post := by
  apply Ends.mono agrees
  · rintro a later ⟨wider, b, evolves, rest⟩
    exact ⟨wider, b, evolves.outer le, rest⟩
  · rintro fault later ⟨⟨wider, evolves, reflects⟩, excused⟩
    exact ⟨⟨wider, evolves.outer le, reflects⟩, excused⟩

/-- An evaluation that comes after others. -/
theorem later (evolves : Evolves w heap view heap' view')
    (agrees : Agrees m busy w heap' view' action family post) :
    Ends action heap'
      (fun a later => ∃ wider b, Evolves w heap view later wider ∧ Reflects m busy wider later ∧
        Settles family (.ok b) ∧ post wider a b)
      fun fault later => (∃ wider, Evolves w heap view later wider ∧
        Reflects m busy wider later) ∧ Excused m busy family fault := by
  apply Ends.mono agrees
  · rintro a later ⟨wider, b, evolves', rest⟩
    exact ⟨wider, b, evolves.trans evolves', rest⟩
  · rintro fault later ⟨⟨wider, evolves', reflects⟩, excused⟩
    exact ⟨⟨wider, evolves.trans evolves', reflects⟩, excused⟩

/-- Two evaluations one after the other, inside one place. -/
theorem bind {next : α → Eval γ} {next' : Nat → β → Outcome δ} {post' : View → γ → δ → Prop}
    (first : Agrees m busy w₁ heap view action family post) (le : w <:+ w₁)
    (second : ∀ a b heap' view', Evolves w₁ heap view heap' view' → Reflects m busy view' heap' →
      post view' a b → Agrees m busy w heap' view' (next a) (next' · b) post') :
    Agrees m busy w heap view (action >>= next) (fun n => family n >>= next' n) post' := by
  refine Ends.bind (Ends.mono first (fun _ _ ok => ok) ?_) ?_
  · rintro fault after ⟨⟨wider, evolves, reflects⟩, excused⟩
    exact ⟨⟨wider, evolves.outer le, reflects⟩, excused.bind⟩
  · rintro a after ⟨wider, b, evolves, reflects, settles, ok⟩
    apply Ends.mono (later (evolves.outer le) (second a b after wider evolves reflects ok))
    · rintro c last ⟨widest, d, evolves', reflects', settles', ok'⟩
      exact ⟨widest, d, evolves', reflects', settles.bind settles', ok'⟩
    · rintro fault last ⟨evolved, excused⟩
      exact ⟨evolved, excused.after settles⟩

/-- Nothing follows a mistake. -/
theorem stop (reflects : Reflects m busy view heap) {held : List Held} {context : Context}
    (kind : ErrorKind) {next : α → Eval γ} {next' : Nat → β → Outcome δ}
    {post : View → γ → δ → Prop} :
    Agrees m busy w heap view (Eval.raise held context kind >>= next)
      (fun n => (throw kind : Outcome β) >>= next' n) post := by
  have first : Agrees m busy w heap view (Eval.raise held context kind)
      (fun _ => (throw kind : Outcome β)) fun _ (_ : α) _ => False := raise reflects kind
  exact first.bind List.suffix_rfl fun _ _ _ _ _ _ impossible => impossible.elim

theorem map {f : α → γ} {g : β → δ} {post' : View → γ → δ → Prop}
    (agrees : Agrees m busy w heap view action family fun wider a b => post' wider (f a) (g b)) :
    Agrees m busy w heap view (f <$> action) (fun n => g <$> family n) post' := by
  simp only [map_eq_pure_bind]
  exact agrees.bind List.suffix_rfl fun a b _ _ _ reflects ok => .pure reflects ok

/-- What is made of a result may rely on what has become of the frames. -/
theorem mapLater {f : α → γ} {g : β → δ} {post' : View → γ → δ → Prop}
    (agrees : Agrees m busy w heap view action family post)
    (ok : ∀ a b later wider, Evolves w heap view later wider → post wider a b →
      post' wider (f a) (g b)) :
    Agrees m busy w heap view (f <$> action) (fun n => g <$> family n) post' := by
  simp only [map_eq_pure_bind]
  exact agrees.bind List.suffix_rfl fun a b later wider evolves reflects holds =>
    .pure reflects (ok a b later wider evolves holds)

/-- A step that only the evaluation over frames makes. -/
theorem left {next : α → Eval γ} {family : Nat → Outcome δ} {post : View → γ → δ → Prop}
    (ends : Ends action heap (fun a after => ∃ wider, Evolves w heap view after wider ∧
      Agrees m busy w after wider (next a) family post) fun _ _ => False) :
    Agrees m busy w heap view (action >>= next) family post := by
  refine Ends.bind (Ends.mono ends (fun _ _ ok => ok) fun _ _ impossible => impossible.elim) ?_
  rintro a after ⟨wider, evolves, agrees⟩
  exact agrees.later evolves

/-- A test of a value and the same test of its denotation. -/
theorem told {held : List Held} {context : Context} {result result' : Except ErrorKind α}
    {next : α → Eval γ} {next' : Nat → α → Outcome δ} {post : View → γ → δ → Prop}
    (reflects : Reflects m busy view heap) (same : result = result')
    (second : ∀ a, result = .ok a → Agrees m busy w heap view (next a) (next' · a) post) :
    Agrees m busy w heap view (Eval.blaming held context result >>= next)
      (fun n => expect result' >>= next' n) post := by
  subst same
  cases result with
  | ok a =>
    have ran : Settles (fun _ => expect (.ok a : Except ErrorKind α)) (.ok a) := .of_run rfl
    apply Ends.mono (second a rfl)
    · rintro c last ⟨wider, d, evolves, reflects, settles, ok⟩
      exact ⟨wider, d, evolves, reflects, ran.bind settles, ok⟩
    · rintro fault last ⟨evolved, excused⟩
      exact ⟨evolved, excused.after ran⟩
  | error kind =>
    have ran : Settles (fun _ => expect (.error kind : Except ErrorKind α)) (.error kind) :=
      .of_run rfl
    exact Ends.stop (.raise fun _ => ⟨⟨view, .refl, reflects⟩, .inl ran.stop⟩)

/-- A test at the end. -/
theorem test {held : List Held} {context : Context} {result result' : Except ErrorKind α}
    (reflects : Reflects m busy view heap) (same : result = result') :
    Agrees m busy w heap view (Eval.blaming held context result) (fun _ => expect result')
      fun _ a a' => result = .ok a ∧ a = a' := by
  subst same
  cases result with
  | ok a => exact .pure reflects ⟨rfl, rfl⟩
  | error kind => exact .raise reflects kind

/-- What is still made of a denotation. -/
theorem mapRight {g : β → δ} {post : View → α → δ → Prop}
    (agrees : Agrees m busy w heap view action family fun wider a b => post wider a (g b)) :
    Agrees m busy w heap view action (fun n => g <$> family n) post := by
  have mapped : Agrees m busy w heap view (id <$> action) (fun n => g <$> family n) post :=
    agrees.map
  simpa only [id_map] using mapped

/-- A unit of fuel more or less makes no difference. -/
theorem of_succ {family : Nat → Outcome β}
    (agrees : Agrees m busy w heap view action (fun n => family (n + 1)) post)
    (zero : (family 0).run = none) : Agrees m busy w heap view action family post := by
  apply Ends.mono agrees
  · rintro a later ⟨wider, b, evolves, reflects, settles, ok⟩
    exact ⟨wider, b, evolves, reflects, settles.of_succ zero, ok⟩
  · rintro fault later ⟨evolved, excused⟩
    exact ⟨evolved, excused.of_succ zero⟩

end Agrees

end ShapeLang.Denotation
