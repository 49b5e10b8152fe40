import ShapeLang.Proofs.Denotation.View
import ShapeLang.Proofs.Value.Alike

/-! # Values that mean the same

What the same denotation stands for under two views has the same form. Frames correspond if they
stand for the same environment, and functions if they were made at the same place.
-/

namespace ShapeLang

/-- Two values of one form. Their modules have the same fields in corresponding frames, and their
functions come from corresponding evaluations of the same function literal. -/
inductive Value.Corresponds (frames serials : Nat → Nat → Prop) : Value → Value → Prop
  | bool (value : Bool) : Corresponds frames serials (.bool value) (.bool value)
  | num (value : Float) : Corresponds frames serials (.num value) (.num value)
  | text (content : String) : Corresponds frames serials (.text content) (.text content)
  | list (items : List (Value × Value)) {held held' : FrameSet}
      (parts : ∀ item ∈ items, Corresponds frames serials item.1 item.2) :
      Corresponds frames serials (.list (items.map (·.1)) held) (.list (items.map (·.2)) held')
  | record (fields : List (String × Value × Value)) {held held' : FrameSet}
      (parts : ∀ field ∈ fields, Corresponds frames serials field.2.1 field.2.2) :
      Corresponds frames serials (.record (fields.map fun field => (field.1, field.2.1)) held)
        (.record (fields.map fun field => (field.1, field.2.2)) held')
  | module {frame frame' : FrameId} {fields : List (String × Nat)} (known : frames frame frame') :
      Corresponds frames serials (.module frame fields) (.module frame' fields)
  | closure {serial serial' : Nat} {lambda : Lambda} {env env' : FrameId}
      (made : serials serial serial') (known : frames env env') :
      Corresponds frames serials (.closure serial lambda env) (.closure serial' lambda env')
  | builtin (function : Builtin) :
      Corresponds frames serials (.builtin function) (.builtin function)

namespace Denotation

variable {m : Machine} {busy busy' : List Task} {view view' : View} {heap heap' : Heap}
  {w w' : Place} {value value' : Value} {den den' : Den}

/-- Frames that stand for the same environment. -/
def SameEnv (view view' : View) (id id' : FrameId) : Prop :=
  ∃ env, view.env id = some env ∧ view'.env id' = some env

/-- Functions that were made at the same place. -/
def SamePlace (view view' : View) (serial serial' : Nat) : Prop :=
  ∃ x, view.origin serial = some x ∧ view'.origin serial' = some x

theorem Reflects.sameEnv (reflects : Reflects m busy view heap)
    (reflects' : Reflects m busy' view' heap') : Value.OneToOne (SameEnv view view') := by
  rintro a a' b b' ⟨env, known, known'⟩ ⟨other, knownOther, knownOther'⟩
  constructor
  · rintro rfl
    obtain rfl := Option.some.inj (known.symm.trans knownOther)
    exact reflects'.frames a' b' env env known' knownOther' rfl
  · rintro rfl
    obtain rfl := Option.some.inj (known'.symm.trans knownOther')
    exact reflects.frames a b env env known knownOther rfl

theorem Reflects.samePlace (reflects : Reflects m busy view heap)
    (reflects' : Reflects m busy' view' heap') : Value.OneToOne (SamePlace view view') := by
  rintro a a' b b' ⟨x, made, made'⟩ ⟨other, madeOther, madeOther'⟩
  constructor
  · rintro rfl
    obtain rfl := Option.some.inj (made.symm.trans madeOther)
    exact reflects'.origins a' b' x made' madeOther'
  · rintro rfl
    obtain rfl := Option.some.inj (made'.symm.trans madeOther')
    exact reflects.origins a b x made madeOther

/-- Two lists that look the same are made of pairs that look the same. -/
theorem exists_lookalikes {α β : Type} (look : α → β) {items items' : List α}
    (same : items.map look = items'.map look) :
    ∃ both : List (α × α), items = both.map (·.1) ∧ items' = both.map (·.2) ∧
      ∀ pair ∈ both, look pair.1 = look pair.2 := by
  induction items generalizing items' with
  | nil =>
    obtain rfl := List.map_eq_nil_iff.mp same.symm
    exact ⟨[], rfl, rfl, by simp⟩
  | cons item items ih =>
    cases items' with
    | nil => simp at same
    | cons item' items' =>
      obtain ⟨first, rest⟩ := List.cons.inj same
      obtain ⟨both, rfl, rfl, parts⟩ := ih rest
      refine ⟨(item, item') :: both, rfl, rfl, fun pair mem => ?_⟩
      rcases List.mem_cons.mp mem with rfl | mem
      · exact first
      · exact parts pair mem

/-- What means the same under two views corresponds. -/
theorem Means.corresponds (means : Means busy view w value den)
    (means' : Means busy' view' w' value' den) :
    value.Corresponds (SameEnv view view') (SamePlace view view') value' := by
  generalize same : den = den' at means'
  induction means generalizing value' den' with
  | bool value =>
    subst same
    cases means' with
    | bool => exact .bool value
  | num value =>
    subst same
    cases means' with
    | num => exact .num value
  | text content =>
    subst same
    cases means' with
    | text => exact .text content
  | @list items held _ parts =>
    cases means' with
    | @list items' held' parts' =>
      obtain ⟨both, rfl, rfl, looks⟩ := exists_lookalikes Prod.snd (Den.list.inj same)
      let values := both.map fun pair => (pair.1.1, pair.2.1)
      have whole : (Value.list (values.map (·.1)) held).Corresponds
          (SameEnv view view') (SamePlace view view') (.list (values.map (·.2)) held') := by
        refine .list _ fun item mem => ?_
        obtain ⟨pair, mem', rfl⟩ := List.mem_map.mp mem
        exact parts pair.1 (List.mem_map_of_mem mem') _ (looks pair mem')
          (parts' pair.2 (List.mem_map_of_mem mem'))
      simpa [values, Function.comp_def] using whole
    | _ => cases same
  | @record fields held _ parts =>
    cases means' with
    | @record fields' held' parts' =>
      obtain ⟨both, rfl, rfl, looks⟩ :=
        exists_lookalikes (fun field : String × Value × Den => (field.1, field.2.2))
          (Den.record.inj same)
      let names := both.map fun pair => (pair.1.1, pair.1.2.1, pair.2.2.1)
      have whole : (Value.record (names.map fun field => (field.1, field.2.1)) held).Corresponds
          (SameEnv view view') (SamePlace view view')
          (.record (names.map fun field => (field.1, field.2.2)) held') := by
        refine .record _ fun field mem => ?_
        obtain ⟨pair, mem', rfl⟩ := List.mem_map.mp mem
        exact parts pair.1 (List.mem_map_of_mem mem') _
          (Prod.mk.inj (looks pair mem')).2 (parts' pair.2 (List.mem_map_of_mem mem'))
      have named : both.map (fun pair => (pair.1.1, pair.2.2.1)) =
          both.map fun pair => (pair.2.1, pair.2.2.1) :=
        List.map_congr_left fun pair mem => by rw [(Prod.mk.inj (looks pair mem)).1]
      simpa [names, Function.comp_def, named] using whole
    | _ => cases same
  | «module» known =>
    subst same
    cases means' with
    | «module» known' => exact .module ⟨_, known, known'⟩
  | closure made known =>
    subst same
    cases means' with
    | closure made' known' => exact .closure ⟨_, made, made'⟩ ⟨_, known, known'⟩
  | builtin function =>
    subst same
    cases means' with
    | builtin => exact .builtin function

end Denotation

end ShapeLang
