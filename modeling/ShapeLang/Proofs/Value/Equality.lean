import Mathlib
import ShapeLang.Proofs.Value.Data

/-! # Equality of values

Equality compares records in one direction only: each field of the first one is looked up in the
second. Since a record has no name twice, and records of different lengths differ, the other
direction follows. Equality is symmetric and transitive, a value is equal to itself unless something
in it is no number, and the order of fields does not count.
-/

namespace ShapeLang

section Numbers

open Float.Model

/-- What numeric equality looks at: nothing in what is no number, and no sign in a zero. -/
def distinctive? : UnpackedFloat → Option (UnpackedFloat.Sign × Option (Nat × Int))
  | .notANumber => none
  | .infinity sign => some (sign, none)
  | .zero _ => some (.positive, some (0, 0))
  | .finite sign mantissa exponent _ => some (sign, some (mantissa, exponent))

theorem unpacked_beq_iff (u v : UnpackedFloat) :
    u.beq v = true ↔ ∃ seen, distinctive? u = some seen ∧ distinctive? v = some seen := by
  have signs (s t : UnpackedFloat.Sign) : compare s t = .eq ↔ t = s := by
    cases s <;> cases t <;> simp [compare]
  have order (e f : Int) (n k : Nat) :
      (compare e f).then (compare n k) = .eq ↔ k = n ∧ f = e := by
    rw [Ordering.then_eq_eq, compare_eq_iff_eq, compare_eq_iff_eq, and_comm, eq_comm, @eq_comm _ e]
  rw [UnpackedFloat.beq, beq_iff_eq]
  cases u with
  | notANumber => simp [UnpackedFloat.compare, distinctive?]
  | infinity s =>
    cases v with
    | infinity t => simp [UnpackedFloat.compare, distinctive?, signs]
    | _ => cases s <;> simp [UnpackedFloat.compare, distinctive?]
  | zero s =>
    rcases v with ⟨_ | _⟩ | _ | t | ⟨_ | _, k, f, positive⟩ <;>
      simp [UnpackedFloat.compare, distinctive?]
    -- A finite number that is not zero has a mantissa.
    all_goals omega
  | finite s n e positive =>
    rcases v with ⟨_ | _⟩ | _ | t | ⟨_ | _, k, f, positive'⟩ <;> cases s <;>
      simp [UnpackedFloat.compare, distinctive?, order, Ordering.swap_eq_eq]
    all_goals omega

theorem float_beq_iff (x y : Float) : (x == y) = true ↔
    ∃ seen, distinctive? x.toModel.unpack = some seen ∧ distinctive? y.toModel.unpack = some seen :=
  unpacked_beq_iff _ _

theorem float_beq_symm {x y : Float} (same : (x == y) = true) : (y == x) = true := by
  obtain ⟨seen, here, there⟩ := (float_beq_iff x y).mp same
  exact (float_beq_iff y x).mpr ⟨seen, there, here⟩

theorem float_beq_trans {x y z : Float} (first : (x == y) = true) (second : (y == z) = true) :
    (x == z) = true := by
  obtain ⟨seen, here, between⟩ := (float_beq_iff x y).mp first
  obtain ⟨seen', between', there⟩ := (float_beq_iff y z).mp second
  obtain rfl := Option.some.inj (between.symm.trans between')
  exact (float_beq_iff x z).mpr ⟨seen, here, there⟩

theorem float_beq_self_iff (x : Float) : (x == x) = true ↔ x.isNaN = false := by
  rw [float_beq_iff]
  have nan : x.isNaN = x.toModel.unpack.isNaN := rfl
  rw [nan]
  cases x.toModel.unpack <;> simp [distinctive?, UnpackedFloat.isNaN]

end Numbers

namespace Value

/-- A value in which no record has a name twice. Records are tables by their names, so that all
values that there are have this form. -/
inductive Keyed : Value → Prop
  | bool (value : Bool) : Keyed (.bool value)
  | num (x : Float) : Keyed (.num x)
  | text (content : String) : Keyed (.text content)
  | list {items : List Value} {frames : FrameSet} (parts : ∀ item ∈ items, Keyed item) :
      Keyed (.list items frames)
  | record {fields : List (String × Value)} {frames : FrameSet}
      (distinct : (fields.map (·.1)).Nodup) (parts : ∀ field ∈ fields, Keyed field.2) :
      Keyed (.record fields frames)
  | module (frame : FrameId) (fields : List (String × Nat)) : Keyed (.module frame fields)
  | closure (serial : Nat) (lambda : Lambda) (env : FrameId) : Keyed (.closure serial lambda env)
  | builtin (function : Builtin) : Keyed (.builtin function)

/-- A part of a value, reached through lists and records. -/
inductive Reaches : Value → Value → Prop
  | here (value : Value) : Reaches value value
  | item {items : List Value} {frames : FrameSet} {item part : Value} (mem : item ∈ items)
      (inside : Reaches item part) : Reaches (.list items frames) part
  | field {fields : List (String × Value)} {frames : FrameSet} {field : String × Value}
      {part : Value} (mem : field ∈ fields) (inside : Reaches field.2 part) :
      Reaches (.record fields frames) part

/-- Every `num` in the value is a number. -/
def HasNoNaN (value : Value) : Prop := ∀ x, value.Reaches (.num x) → x.isNaN = false

/-- Two values that differ in the order of the fields of records only, at any depth. -/
inductive Reordered : Value → Value → Prop
  | bool (value : Bool) : Reordered (.bool value) (.bool value)
  | num (x : Float) : Reordered (.num x) (.num x)
  | text (content : String) : Reordered (.text content) (.text content)
  | list (items : List (Value × Value)) {frames frames' : FrameSet}
      (parts : ∀ item ∈ items, Reordered item.1 item.2) :
      Reordered (.list (items.map (·.1)) frames) (.list (items.map (·.2)) frames')
  | record (fields : List (String × Value × Value)) {fields' : List (String × Value)}
      {frames frames' : FrameSet} (parts : ∀ field ∈ fields, Reordered field.2.1 field.2.2)
      (order : (fields.map fun field => (field.1, field.2.2)).Perm fields') :
      Reordered (.record (fields.map fun field => (field.1, field.2.1)) frames)
        (.record fields' frames')
  | module (frame : FrameId) (fields : List (String × Nat)) :
      Reordered (.module frame fields) (.module frame fields)
  | closure (serial : Nat) (lambda : Lambda) (env : FrameId) :
      Reordered (.closure serial lambda env) (.closure serial lambda env)
  | builtin (function : Builtin) : Reordered (.builtin function) (.builtin function)

section Parts

variable {as bs cs : List Value} {fields others : List (String × Value)} {frames frames' : FrameSet}

/-- Two lists are equal if they are equally long, and have equal items at each place. -/
theorem equal_list_iff : (list as frames).equal (list bs frames') = true ↔
    as.length = bs.length ∧
      ∀ (i : Nat) (a b : Value), as[i]? = some a → bs[i]? = some b → a.equal b = true := by
  rw [equal]
  induction as generalizing bs with
  | nil => cases bs <;> simp [equalItems]
  | cons a as ih =>
    cases bs with
    | nil => simp [equalItems]
    | cons b bs =>
      rw [equalItems, Bool.and_eq_true, ih, List.length_cons, List.length_cons, Nat.add_right_cancel_iff]
      constructor
      · rintro ⟨first, length, rest⟩
        refine ⟨length, fun i => ?_⟩
        cases i with
        | zero => simpa using first
        | succ i => simpa using rest i
      · rintro ⟨length, each⟩
        exact ⟨each 0 a b rfl rfl, length, fun i => each (i + 1)⟩

/-- The entry of a name that no other entry has. -/
theorem lookup_eq_some_iff {α : Type} {entries : List (String × α)}
    (distinct : (entries.map (·.1)).Nodup) {name : String} {a : α} :
    entries.lookup name = some a ↔ (name, a) ∈ entries := by
  refine ⟨fun found => ?_, lookup_of_mem distinct⟩
  obtain ⟨before, after, rfl, -⟩ := List.lookup_eq_some_iff.mp found
  simp

theorem equalFields_iff (distinct : (others.map (·.1)).Nodup) : equalFields fields others = true ↔
    ∀ field ∈ fields, ∃ b, (field.1, b) ∈ others ∧ field.2.equal b = true := by
  refine ⟨fun same => ?_, equalFields_of_mem distinct⟩
  induction fields with
  | nil => simp
  | cons field fields ih =>
    rw [equalFields, Bool.and_eq_true] at same
    refine List.forall_mem_cons.mpr ⟨?_, ih same.2⟩
    cases found : others.lookup field.1 with
    | none => simp [found] at same
    | some b =>
      simp only [found] at same
      exact ⟨b, (lookup_eq_some_iff distinct).mp found, same.1⟩

/-- Two records are equal if they are equally long, and each field of the first has an equal one of
its name in the second. -/
theorem equal_record_iff (distinct : (others.map (·.1)).Nodup) :
    (record fields frames).equal (record others frames') = true ↔
      fields.length = others.length ∧
        ∀ field ∈ fields, ∃ b, (field.1, b) ∈ others ∧ field.2.equal b = true := by
  rw [equal, Bool.and_eq_true, beq_iff_eq, equalFields_iff distinct]

/-- Of two records of one length, each with different names, the second has the names of the first
only if the first has the names of the second. -/
theorem names_back (distinct : (fields.map (·.1)).Nodup)
    (length : fields.length = others.length)
    (names : ∀ field ∈ fields, field.1 ∈ others.map (·.1)) :
    ∀ other ∈ others, other.1 ∈ fields.map (·.1) := by
  have subset : fields.map (·.1) ⊆ others.map (·.1) := by
    intro name mem
    obtain ⟨field, here, rfl⟩ := List.mem_map.mp mem
    exact names field here
  have perm : (fields.map (·.1)).Perm (others.map (·.1)) :=
    (distinct.subperm subset).perm_of_length_le (by simp [length])
  intro other mem
  exact perm.symm.subset (List.mem_map_of_mem mem)

end Parts

theorem eq_of_mem_of_mem {α : Type} {entries : List (String × α)}
    (distinct : (entries.map (·.1)).Nodup) {name : String} {a b : α} (first : (name, a) ∈ entries)
    (second : (name, b) ∈ entries) : a = b :=
  Option.some.inj ((lookup_of_mem distinct first).symm.trans (lookup_of_mem distinct second))

variable {a b c a' b' : Value}

theorem equal_symm (keyed : a.Keyed) (keyed' : b.Keyed) (same : a.equal b = true) :
    b.equal a = true := by
  induction keyed generalizing b with
  | list _ ih =>
    cases keyed' with
    | list parts' =>
      rw [equal_list_iff] at same ⊢
      exact ⟨same.1.symm, fun i b a there here => ih a (List.mem_of_getElem? here)
        (parts' b (List.mem_of_getElem? there)) (same.2 i a b here there)⟩
    | _ => simp [equal] at same
  | record distinct _ ih =>
    cases keyed' with
    | record distinct' parts' =>
      rw [equal_record_iff distinct'] at same
      obtain ⟨length, each⟩ := same
      rw [equal_record_iff distinct]
      refine ⟨length.symm, fun other mem => ?_⟩
      have back := names_back distinct length (fun field mem => by
        obtain ⟨b, there, -⟩ := each field mem
        exact List.mem_map_of_mem (f := (·.1)) there) other mem
      obtain ⟨field, here, name⟩ := List.mem_map.mp back
      obtain ⟨b, there, same⟩ := each field here
      rw [name] at there
      obtain rfl := eq_of_mem_of_mem distinct' there mem
      exact ⟨field.2, name ▸ here, ih field here (parts' other mem) same⟩
    | _ => simp [equal] at same
  | num x =>
    cases b with
    | num y => exact float_beq_symm same
    | _ => simp [equal] at same
  | bool | text | «module» | closure | builtin =>
    cases b <;> simp [equal] at same ⊢
    all_goals simp [same]

theorem equal_trans (keyed : a.Keyed) (keyed' : b.Keyed) (keyed'' : c.Keyed)
    (first : a.equal b = true) (second : b.equal c = true) : a.equal c = true := by
  induction keyed generalizing b c with
  | list _ ih =>
    cases keyed' with
    | list parts' =>
      cases keyed'' with
      | list parts'' =>
        rw [equal_list_iff] at first second ⊢
        refine ⟨first.1.trans second.1, fun i a c here there => ?_⟩
        obtain ⟨inside, -⟩ := List.getElem?_eq_some_iff.mp here
        have between := List.getElem?_eq_getElem (first.1 ▸ inside)
        exact ih a (List.mem_of_getElem? here) (parts' _ (List.mem_of_getElem? between))
          (parts'' c (List.mem_of_getElem? there)) (first.2 i a _ here between)
          (second.2 i _ c between there)
      | _ => simp [equal] at second
    | _ => simp [equal] at first
  | record _ _ ih =>
    cases keyed' with
    | record distinct' parts' =>
      cases keyed'' with
      | record distinct'' parts'' =>
        rw [equal_record_iff distinct'] at first
        rw [equal_record_iff distinct''] at second ⊢
        refine ⟨first.1.trans second.1, fun field mem => ?_⟩
        obtain ⟨b, between, same⟩ := first.2 field mem
        obtain ⟨c, there, same'⟩ := second.2 _ between
        exact ⟨c, there, ih field mem (parts' _ between) (parts'' _ there) same same'⟩
      | _ => simp [equal] at second
    | _ => simp [equal] at first
  | num x =>
    cases b with
    | num y =>
      cases c with
      | num z => exact float_beq_trans first second
      | _ => simp [equal] at second
    | _ => simp [equal] at first
  | bool | text | «module» | closure | builtin =>
    cases b <;> simp [equal] at first
    all_goals cases c <;> simp [equal] at second ⊢
    all_goals simp [first, second]

theorem equal_self_iff (keyed : a.Keyed) : a.equal a = true ↔ a.HasNoNaN := by
  induction keyed with
  | @list items frames _ ih =>
    have parts : (list items frames).HasNoNaN ↔ ∀ item ∈ items, item.HasNoNaN := by
      refine ⟨fun all item mem x inside => all x (.item mem inside), fun each x inside => ?_⟩
      cases inside with
      | item mem inside => exact each _ mem x inside
    rw [parts, equal_list_iff]
    constructor
    · rintro ⟨-, each⟩ item mem
      obtain ⟨i, here⟩ := List.getElem?_of_mem mem
      exact (ih item mem).mp (each i item item here here)
    · refine fun each => ⟨rfl, fun i item item' here here' => ?_⟩
      obtain rfl := Option.some.inj (here.symm.trans here')
      have mem := List.mem_of_getElem? here
      exact (ih item mem).mpr (each item mem)
  | @record fields frames distinct _ ih =>
    have parts : (record fields frames).HasNoNaN ↔ ∀ field ∈ fields, field.2.HasNoNaN := by
      refine ⟨fun all field mem x inside => all x (.field mem inside), fun each x inside => ?_⟩
      cases inside with
      | field mem inside => exact each _ mem x inside
    rw [parts, equal_record_iff distinct]
    constructor
    · rintro ⟨-, each⟩ field mem
      obtain ⟨b, there, same⟩ := each field mem
      obtain rfl := eq_of_mem_of_mem distinct there mem
      exact (ih field mem).mp same
    · exact fun each => ⟨rfl, fun field mem => ⟨field.2, mem, (ih field mem).mpr (each field mem)⟩⟩
  | num x =>
    have only : (num x).HasNoNaN ↔ x.isNaN = false := by
      refine ⟨fun all => all x (.here _), fun is y inside => ?_⟩
      cases inside with
      | here => exact is
    rw [only]
    exact float_beq_self_iff x
  | bool | text | «module» | closure | builtin =>
    refine ⟨fun _ x inside => ?_, fun _ => by simp [equal]⟩
    cases inside

theorem Reordered.keyed (reordered : a.Reordered a') (keyed : a.Keyed) : a'.Keyed := by
  induction reordered with
  | list items _ ih =>
    cases keyed with
    | list each =>
      refine .list (List.forall_mem_map.mpr fun item mem => ih item mem ?_)
      exact each _ (List.mem_map_of_mem mem)
  | record fields _ order ih =>
    cases keyed with
    | record distinct each =>
      refine .record ((order.map (·.1)).nodup_iff.mp ?_) fun field mem => ?_
      · simpa [Function.comp_def] using distinct
      · obtain ⟨field, here, rfl⟩ := List.mem_map.mp (order.symm.subset mem)
        exact ih field here (each _ (List.mem_map_of_mem (f := fun field => (field.1, field.2.1)) here))
  | _ => exact keyed

section Corresponding

variable {α β : Type}

theorem equal_list_map_iff {items : List α} {others : List β} {g : α → Value} {h : β → Value}
    {frames frames' : FrameSet} :
    (list (items.map g) frames).equal (list (others.map h) frames') = true ↔
      items.length = others.length ∧ ∀ (i : Nat) (item : α) (other : β), items[i]? = some item →
        others[i]? = some other → (g item).equal (h other) = true := by
  rw [equal_list_iff, List.length_map, List.length_map]
  refine and_congr_right fun _ => ⟨fun each i item other here there => ?_,
    fun each i a b here there => ?_⟩
  · exact each i _ _ (by rw [List.getElem?_map, here]; rfl) (by rw [List.getElem?_map, there]; rfl)
  · rw [List.getElem?_map, Option.map_eq_some_iff] at here there
    obtain ⟨item, here, rfl⟩ := here
    obtain ⟨other, there, rfl⟩ := there
    exact each i item other here there

/-- Records whose fields come from other lists in any order. -/
theorem equal_record_perm_iff {fields : List (String × α)} {others : List (String × β)}
    {g : α → Value} {h : β → Value} {as bs : List (String × Value)} {frames frames' : FrameSet}
    (order : (fields.map fun field => (field.1, g field.2)).Perm as)
    (order' : (others.map fun other => (other.1, h other.2)).Perm bs)
    (distinct : (bs.map (·.1)).Nodup) :
    (record as frames).equal (record bs frames') = true ↔
      fields.length = others.length ∧ ∀ field ∈ fields, ∃ other ∈ others, other.1 = field.1 ∧
        (g field.2).equal (h other.2) = true := by
  have length : as.length = fields.length := by rw [← order.length_eq, List.length_map]
  have length' : bs.length = others.length := by rw [← order'.length_eq, List.length_map]
  rw [equal_record_iff distinct, length, length']
  refine and_congr_right fun _ => ⟨fun each field mem => ?_, fun each a mem => ?_⟩
  · obtain ⟨b, there, same⟩ := each _ (order.subset (List.mem_map_of_mem mem))
    obtain ⟨other, mem', is⟩ := List.mem_map.mp (order'.symm.subset there)
    obtain ⟨name, rfl⟩ := Prod.mk.inj is
    exact ⟨other, mem', name, same⟩
  · obtain ⟨field, mem', rfl⟩ := List.mem_map.mp (order.symm.subset mem)
    obtain ⟨other, there, name, same⟩ := each field mem'
    exact ⟨h other.2, order'.subset (List.mem_map.mpr ⟨other, there, by rw [name]⟩), same⟩

end Corresponding

/-- The order of fields does not count on either side. -/
theorem equal_reordered (reordered : a.Reordered a') (reordered' : b.Reordered b')
    (keyed' : b.Keyed) : a.equal b = a'.equal b' := by
  rw [Bool.eq_iff_iff]
  induction reordered generalizing b b' with
  | list items _ ih =>
    cases reordered' with
    | list others parts' =>
      cases keyed' with
      | list keyed' =>
        rw [equal_list_map_iff, equal_list_map_iff]
        refine and_congr_right fun _ => forall_congr' fun i => forall_congr' fun item =>
          forall_congr' fun other => imp_congr_right fun here => imp_congr_right fun there => ?_
        have mem := List.mem_of_getElem? there
        exact ih item (List.mem_of_getElem? here) (parts' other mem)
          (keyed' _ (List.mem_map_of_mem mem))
    | _ => simp [equal]
  | record fields _ order ih =>
    have keyed'' := reordered'.keyed keyed'
    cases reordered' with
    | record others parts' order' =>
      cases keyed' with
      | record distinct keyed' =>
        cases keyed'' with
        | record distinct' =>
          rw [equal_record_perm_iff (.refl _) (.refl _) distinct,
            equal_record_perm_iff order order' distinct']
          refine and_congr_right fun _ => forall₂_congr fun field mem => exists_congr fun other =>
            and_congr_right fun mem' => and_congr_right fun _ => ?_
          exact ih field mem (parts' other mem')
            (keyed' _ (List.mem_map_of_mem (f := fun field => (field.1, field.2.1)) mem'))
    | _ => simp [equal]
  | _ => cases reordered' <;> simp [equal]

/-- Equality of values without a name twice in a record is a partial equivalence. A value is equal
to itself if everything in it that should be a number is one, and only then; and the order of fields
makes no difference, in whatever record of the two values. -/
theorem equality_partialEquivalence (keyed : a.Keyed) (keyed' : b.Keyed) (keyed'' : c.Keyed) :
    a.equal b = b.equal a ∧
    (a.equal b = true → b.equal c = true → a.equal c = true) ∧
    (a.equal a = true ↔ a.HasNoNaN) ∧
    ∀ a' b', a.Reordered a' → b.Reordered b' → a.equal b = a'.equal b' := by
  refine ⟨?_, equal_trans keyed keyed' keyed'', equal_self_iff keyed, ?_⟩
  · exact Bool.eq_iff_iff.mpr ⟨equal_symm keyed keyed', equal_symm keyed' keyed⟩
  · exact fun a' b' reordered reordered' => equal_reordered reordered reordered' keyed'

/-- Two records with zeros of both signs, in different orders, and a list with a part that is no
number. -/
theorem equality_partialEquivalence_zeros : ∃ a b c : Value,
    a = .ofFields [("p", .num 0), ("q", .ofItems [.text "t", .bool true])] ∧
    b = .ofFields [("q", .ofItems [.text "t", .bool true]), ("p", .num (-0))] ∧
    c = .ofItems [.num (0 / 0)] ∧ a.Keyed ∧ b.Keyed ∧ c.Keyed ∧
    a.equal b = b.equal a ∧
    (a.equal b = true → b.equal c = true → a.equal c = true) ∧
    (a.equal a = true ↔ a.HasNoNaN) ∧
    ∀ a' b', a.Reordered a' → b.Reordered b' → a.equal b = a'.equal b' := by
  have texts : (ofItems [.text "t", .bool true]).Keyed := .list (by simp [Keyed.text, Keyed.bool])
  have first : (ofFields [("p", .num 0), ("q", .ofItems [.text "t", .bool true])]).Keyed :=
    .record (by decide) (by simp [Keyed.num, texts])
  have second : (ofFields [("q", .ofItems [.text "t", .bool true]), ("p", .num (-0))]).Keyed :=
    .record (by decide) (by simp [Keyed.num, texts])
  have third : (ofItems [.num (0 / 0)]).Keyed := .list (by simp [Keyed.num])
  exact ⟨_, _, _, rfl, rfl, rfl, first, second, third,
    equality_partialEquivalence first second third⟩

end Value

end ShapeLang
