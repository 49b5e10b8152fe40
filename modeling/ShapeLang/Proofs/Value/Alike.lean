import Mathlib.Data.List.Basic
import ShapeLang.Builtin.Apply
import ShapeLang.Eval

/-! # Values that operators cannot tell apart

Operators and builtin functions look at numbers, truth values and texts, and at the form of
everything else. A module they know by its identity and its names, and a function by its identity
and its number of parameters; what lies behind is not looked at.
-/

namespace ShapeLang

/-- Looking up a name among changed entries. -/
theorem lookup_map {α β : Type} (f : α → β) (fields : List (String × α)) (name : String) :
    (fields.map fun field => (field.1, f field.2)).lookup name = (fields.lookup name).map f := by
  induction fields with
  | nil => rfl
  | cons field fields ih =>
    obtain ⟨other, value⟩ := field
    simp only [List.map_cons, List.lookup_cons, ih]
    split <;> rfl

namespace Value

/-- Two values of the same form, whose modules have the same names, belong to the same frames and
whose functions were made by the same evaluations in the sense of three relations. -/
inductive Alike (names : List String → List String → Prop) (same : FrameId → FrameId → Prop)
    (twin : Nat → Nat → Prop) : Value → Value → Prop
  | bool (value : Bool) : Alike names same twin (.bool value) (.bool value)
  | num (value : Float) : Alike names same twin (.num value) (.num value)
  | text (content : String) : Alike names same twin (.text content) (.text content)
  | list (items : List (Value × Value)) {frames frames' : FrameSet}
      (parts : ∀ item ∈ items, Alike names same twin item.1 item.2) :
      Alike names same twin (.list (items.map (·.1)) frames) (.list (items.map (·.2)) frames')
  | record (fields : List (String × Value × Value)) {frames frames' : FrameSet}
      (parts : ∀ field ∈ fields, Alike names same twin field.2.1 field.2.2) :
      Alike names same twin (.record (fields.map fun field => (field.1, field.2.1)) frames)
        (.record (fields.map fun field => (field.1, field.2.2)) frames')
  | module {frame frame' : FrameId} {fields fields' : List (String × Nat)}
      (known : same frame frame') (named : names (fields.map (·.1)) (fields'.map (·.1))) :
      Alike names same twin (.module frame fields) (.module frame' fields')
  | closure {serial serial' : Nat} {lambda lambda' : Lambda} {env env' : FrameId}
      (known : twin serial serial') (count : lambda.paramCount = lambda'.paramCount) :
      Alike names same twin (.closure serial lambda env) (.closure serial' lambda' env')
  | builtin (function : Builtin) : Alike names same twin (.builtin function) (.builtin function)

/-- A relation that no number has to two numbers, nor two numbers to one. -/
def OneToOne (same : Nat → Nat → Prop) : Prop :=
  ∀ a a' b b', same a a' → same b b' → (a = b ↔ a' = b')

namespace Alike

variable {names : List String → List String → Prop} {same : FrameId → FrameId → Prop}
  {twin : Nat → Nat → Prop} {value value' : Value}

theorem typeName (alike : Alike names same twin value value') : value.typeName = value'.typeName := by
  cases alike <;> rfl

theorem wrongType (alike : Alike names same twin value value') (expected : String) :
    wrongType expected value = wrongType expected value' := by
  rw [ShapeLang.wrongType, ShapeLang.wrongType, alike.typeName]

theorem number? (alike : Alike names same twin value value') : value.number? = value'.number? := by
  cases alike <;> rfl

theorem numbers? (alike : Alike names same twin value value') : value.numbers? = value'.numbers? := by
  cases alike with
  | list items parts =>
    simp only [Value.numbers?]
    induction items with
    | nil => rfl
    | cons item items ih =>
      simp only [List.map_cons, List.mapM_cons]
      rw [(parts item (by simp)).number?, ih fun other mem => parts other (by simp [mem])]
  | _ => rfl

theorem toNumber (alike : Alike names same twin value value') :
    Eval.toNumber value = Eval.toNumber value' := by
  cases alike <;> rfl

theorem toBool (alike : Alike names same twin value value') : Eval.toBool value = Eval.toBool value' := by
  cases alike <;> rfl

private theorem mapNumbersItems_eq (f : Float → Float) (items : List (Value × Value))
    (parts : ∀ item ∈ items, mapNumbers f item.1 = mapNumbers f item.2) :
    mapNumbersItems f (items.map (·.1)) = mapNumbersItems f (items.map (·.2)) := by
  induction items with
  | nil => rfl
  | cons item items ih =>
    simp only [List.map_cons, mapNumbersItems]
    rw [parts item (by simp), ih fun other mem => parts other (by simp [mem])]

theorem mapNumbers (f : Float → Float) (alike : Alike names same twin value value') :
    mapNumbers f value = mapNumbers f value' := by
  induction alike with
  | list items _ parts => simp only [Value.mapNumbers, mapNumbersItems_eq f items parts]
  | _ => rfl

private theorem broadcastItems_eq (f : Float → Float → Float) (items others : List (Value × Value))
    (parts : ∀ item ∈ items, ∀ other ∈ others,
      Value.broadcast f item.1 other.1 = Value.broadcast f item.2 other.2) :
    broadcastItems f (items.map (·.1)) (others.map (·.1)) =
      broadcastItems f (items.map (·.2)) (others.map (·.2)) := by
  induction items generalizing others with
  | nil => cases others <;> rfl
  | cons item items ih =>
    cases others with
    | nil => rfl
    | cons other others =>
      simp only [List.map_cons, broadcastItems]
      rw [parts item (by simp) other (by simp), ih others fun item mem other mem' =>
        parts item (by simp [mem]) other (by simp [mem'])]

theorem broadcast (f : Float → Float → Float) {other other' : Value}
    (alike : Alike names same twin value value') (alike' : Alike names same twin other other') :
    broadcast f value other = broadcast f value' other' := by
  induction alike generalizing other other' with
  | @list items frames frames' given parts =>
    have whole : Alike names same twin (.list (items.map (·.1)) frames)
        (.list (items.map (·.2)) frames') := .list items given
    cases alike' with
    | num y => simpa only [Value.broadcast] using whole.mapNumbers (f · y)
    | list others parts' =>
      have each := broadcastItems_eq f items others fun item mem other mem' =>
        parts item mem (parts' other mem')
      simp only [Value.broadcast, List.length_map, each]
    | _ => rfl
  | num x =>
    cases alike' with
    | num y => rfl
    | @list others frames frames' parts' =>
      have whole : Alike names same twin (.list (others.map (·.1)) frames)
          (.list (others.map (·.2)) frames') := .list others parts'
      simpa only [Value.broadcast] using whole.mapNumbers (f x)
    | _ => rfl
  | _ => cases alike' <;> rfl

private theorem equalItems_eq (items others : List (Value × Value))
    (parts : ∀ item ∈ items, ∀ other ∈ others, item.1.equal other.1 = item.2.equal other.2) :
    equalItems (items.map (·.1)) (others.map (·.1)) =
      equalItems (items.map (·.2)) (others.map (·.2)) := by
  induction items generalizing others with
  | nil => cases others <;> rfl
  | cons item items ih =>
    cases others with
    | nil => rfl
    | cons other others =>
      simp only [List.map_cons, equalItems]
      rw [parts item (by simp) other (by simp), ih others fun item mem other mem' =>
        parts item (by simp [mem]) other (by simp [mem'])]

private theorem mem_of_lookup {α : Type} {fields : List (String × α)} {name : String} {found : α}
    (same : fields.lookup name = some found) : ∃ name', (name', found) ∈ fields := by
  obtain ⟨before, after, rfl, -⟩ := List.lookup_eq_some_iff.mp same
  exact ⟨name, by simp⟩

private theorem equalFields_eq (fields others : List (String × Value × Value))
    (parts : ∀ field ∈ fields, ∀ other ∈ others,
      field.2.1.equal other.2.1 = field.2.2.equal other.2.2) :
    equalFields (fields.map fun field => (field.1, field.2.1))
        (others.map fun field => (field.1, field.2.1)) =
      equalFields (fields.map fun field => (field.1, field.2.2))
        (others.map fun field => (field.1, field.2.2)) := by
  induction fields with
  | nil => rfl
  | cons field fields ih =>
    simp only [List.map_cons, equalFields]
    rw [lookup_map Prod.fst, lookup_map Prod.snd, ih fun more mem => parts more (by simp [mem])]
    cases found : others.lookup field.1 with
    | none => rfl
    | some other =>
      obtain ⟨name, mem⟩ := mem_of_lookup found
      simp only [Option.map_some, parts field (by simp) _ mem]

theorem equal (frames : OneToOne same) (functions : OneToOne twin) {other other' : Value}
    (alike : Alike names same twin value value') (alike' : Alike names same twin other other') :
    value.equal other = value'.equal other' := by
  induction alike generalizing other other' with
  | list items _ parts =>
    cases alike' with
    | list others parts' =>
      simp only [Value.equal]
      exact equalItems_eq items others fun item mem other mem' => parts item mem (parts' other mem')
    | _ => rfl
  | record fields _ parts =>
    cases alike' with
    | record others parts' =>
      simp only [Value.equal, List.length_map]
      rw [equalFields_eq fields others fun field mem other mem' =>
        parts field mem (parts' other mem')]
    | _ => rfl
  | «module» known =>
    cases alike' with
    | «module» known' =>
      simp only [Value.equal]
      exact Bool.eq_iff_iff.mpr (by simpa using frames _ _ _ _ known known')
    | _ => rfl
  | closure known =>
    cases alike' with
    | closure known' =>
      simp only [Value.equal]
      exact Bool.eq_iff_iff.mpr (by simpa using functions _ _ _ _ known known')
    | _ => rfl
  | _ => cases alike' <;> rfl

private theorem shownItems_eq (items : List (Value × Value))
    (parts : ∀ item ∈ items, item.1.shown = item.2.shown) :
    shownItems (items.map (·.1)) = shownItems (items.map (·.2)) := by
  induction items with
  | nil => rfl
  | cons item items ih =>
    simp only [List.map_cons, shownItems]
    rw [parts item (by simp), ih fun other mem => parts other (by simp [mem])]

private theorem shownFields_eq (fields : List (String × Value × Value))
    (parts : ∀ field ∈ fields, field.2.1.shown = field.2.2.shown) :
    shownFields (fields.map fun field => (field.1, field.2.1)) =
      shownFields (fields.map fun field => (field.1, field.2.2)) := by
  induction fields with
  | nil => rfl
  | cons field fields ih =>
    simp only [List.map_cons, shownFields]
    rw [parts field (by simp), ih fun other mem => parts other (by simp [mem])]

private theorem map_shown_eq {fields fields' : List (String × Nat)}
    (named : fields.map (·.1) = fields'.map (·.1)) :
    fields.map (·.1 ++ "=...") = fields'.map (·.1 ++ "=...") := by
  have each (fields : List (String × Nat)) :
      fields.map (·.1 ++ "=...") = (fields.map (·.1)).map (· ++ "=...") := by simp
  rw [each, named, ← each]

theorem shown (alike : Alike Eq same twin value value') : value.shown = value'.shown := by
  induction alike with
  | list items _ parts => simp only [Value.shown, shownItems_eq items parts]
  | record fields _ parts => simp only [Value.shown, shownFields_eq fields parts]
  | «module» _ named => simp only [Value.shown, map_shown_eq named]
  | closure _ count => simp only [Value.shown, count]
  | _ => rfl

theorem operate (a : Arithmetic) (op : BinaryOp) (frames : OneToOne same)
    (functions : OneToOne twin) {other other' : Value}
    (alike : Alike names same twin value value') (alike' : Alike names same twin other other') :
    Eval.operate a op value other = Eval.operate a op value' other' := by
  cases op with
  | add => exact alike.broadcast _ alike'
  | subtract => exact alike.broadcast _ alike'
  | multiply => exact alike.broadcast _ alike'
  | divide => exact alike.broadcast _ alike'
  | power => exact alike.broadcast _ alike'
  | equal => simp only [Eval.operate, alike.equal frames functions alike']
  | notEqual => simp only [Eval.operate, alike.equal frames functions alike']
  | _ => simp only [Eval.operate, alike.wrongType]

end Alike

/-- Lists of arguments that operators cannot tell apart. -/
def AllAlike (names : List String → List String → Prop) (same : FrameId → FrameId → Prop)
    (twin : Nat → Nat → Prop) (values : List (Value × Value)) : Prop :=
  ∀ value ∈ values, Alike names same twin value.1 value.2

end Value

namespace Builtin

variable {names : List String → List String → Prop} {same : FrameId → FrameId → Prop}
  {twin : Nat → Nat → Prop}

private theorem ofValue_eq {value value' : Value} (alike : value.Alike names same twin value') :
    Operand.ofValue value = Operand.ofValue value' := by
  unfold Operand.ofValue
  rw [alike.number?, alike.numbers?, alike.wrongType]

private theorem mapM_ofValue_eq {args : List (Value × Value)}
    (alike : Value.AllAlike names same twin args) :
    (args.map (·.1)).mapM Operand.ofValue = (args.map (·.2)).mapM Operand.ofValue := by
  induction args with
  | nil => rfl
  | cons arg args ih =>
    simp only [List.map_cons, List.mapM_cons]
    rw [ofValue_eq (alike arg (by simp)), ih fun other mem => alike other (by simp [mem])]

private theorem total_eq (a : Arithmetic) {items : List (Value × Value)}
    (alike : Value.AllAlike names same twin items) (start : Float) :
    total a start (items.map (·.1)) = total a start (items.map (·.2)) := by
  induction items generalizing start with
  | nil => rfl
  | cons item items ih =>
    obtain ⟨value, value'⟩ := item
    have rest := ih fun other mem => alike other (by simp [mem])
    have first : value.Alike names same twin value' := alike (value, value') (by simp)
    cases first with
    | num x => exact rest _
    | _ => rfl

/-- A builtin function gives the same for arguments that it cannot tell apart. Only `error` quotes
its argument. -/
theorem apply_alike (a : Arithmetic) (builtin : Builtin) (args : List (Value × Value))
    (alike : Value.AllAlike names same twin args) (count : args.length = builtin.arity)
    (quoted : builtin = .error → ∀ arg ∈ args, arg.1.shown = arg.2.shown) :
    builtin.apply a (args.map (·.1)) = builtin.apply a (args.map (·.2)) := by
  have pointwise (f : List Float → Option Float) :
      componentwise f (args.map (·.1)) = componentwise f (args.map (·.2)) := by
    unfold componentwise
    rw [mapM_ofValue_eq alike]
  cases builtin with
  | length =>
    obtain ⟨v, rfl⟩ := List.length_eq_one_iff.mp count
    simp only [apply, List.map_cons, List.map_nil, components, ofValue_eq (alike v (by simp))]
  | dot =>
    obtain ⟨v, w, rfl⟩ := List.length_eq_two.mp count
    simp only [apply, List.map_cons, List.map_nil, components, ofValue_eq (alike v (by simp)),
      ofValue_eq (alike w (by simp)), (alike w (by simp)).wrongType]
  | sum =>
    obtain ⟨v, rfl⟩ := List.length_eq_one_iff.mp count
    obtain ⟨value, value'⟩ := v
    have first : value.Alike names same twin value' := alike (value, value') (by simp)
    cases first with
    | list items parts => simp only [apply, List.map_cons, List.map_nil, total_eq a parts]
    | _ => rfl
  | error =>
    obtain ⟨v, rfl⟩ := List.length_eq_one_iff.mp count
    obtain ⟨value, value'⟩ := v
    have first : value.Alike names same twin value' := alike (value, value') (by simp)
    have told := quoted rfl (value, value') (by simp)
    cases first with
    | text content => rfl
    | _ => simp only [apply, List.map_cons, List.map_nil, told]
  | _ => exact pointwise _

end Builtin

end ShapeLang
