import ShapeLang.Eval

/-! # What values hold

Functions and modules are the only values that refer to frames; lists and records come with the
frames that their parts refer to. Values that operators and builtin functions make have none of them
inside, whatever they are given.
-/

namespace ShapeLang

namespace Value

/-- Every function and every module inside a value is as given. -/
inductive Holds (closure : Lambda → FrameId → Prop)
    (module : FrameId → List (String × Nat) → Prop) : Value → Prop
  | bool (value : Bool) : Holds closure module (.bool value)
  | num (value : Float) : Holds closure module (.num value)
  | text (content : String) : Holds closure module (.text content)
  | list {items : List Value} {frames : FrameSet}
    (parts : ∀ item ∈ items, Holds closure module item) : Holds closure module (.list items frames)
  | record {fields : List (String × Value)} {frames : FrameSet}
    (parts : ∀ field ∈ fields, Holds closure module field.2) :
    Holds closure module (.record fields frames)
  | module {frame : FrameId} {fields : List (String × Nat)} (same : module frame fields) :
    Holds closure module (.module frame fields)
  | closure {serial : Nat} {lambda : Lambda} {env : FrameId} (same : closure lambda env) :
    Holds closure module (.closure serial lambda env)
  | builtin (function : Builtin) : Holds closure module (.builtin function)

theorem Holds.mono {closure closure' : Lambda → FrameId → Prop}
    {module module' : FrameId → List (String × Nat) → Prop} {value : Value}
    (holds : Holds closure module value)
    (closures : ∀ lambda env, closure lambda env → closure' lambda env)
    (modules : ∀ frame fields, module frame fields → module' frame fields) :
    Holds closure' module' value := by
  induction holds with
  | bool value => exact .bool value
  | num value => exact .num value
  | text content => exact .text content
  | list _ parts => exact .list parts
  | record _ parts => exact .record parts
  | module same => exact .module (modules _ _ same)
  | closure same => exact .closure (closures _ _ same)
  | builtin function => exact .builtin function

/-- A value without functions of the program and without modules. -/
abbrev Plain (value : Value) : Prop := Holds (fun _ _ => False) (fun _ _ => False) value

theorem Plain.holds {closure : Lambda → FrameId → Prop}
    {module : FrameId → List (String × Nat) → Prop} {value : Value} (plain : Plain value) :
    Holds closure module value :=
  plain.mono (fun _ _ impossible => impossible.elim) fun _ _ impossible => impossible.elim

/-- A value that refers to frames of a set only: its parts do, and so do the sets of frames that
come with lists and records. -/
inductive Inside (known : FrameId → Prop) : Value → Prop
  | bool (value : Bool) : Inside known (.bool value)
  | num (value : Float) : Inside known (.num value)
  | text (content : String) : Inside known (.text content)
  | list {items : List Value} {frames : FrameSet} (parts : ∀ item ∈ items, Inside known item)
    (held : ∀ id ∈ frames, known id) : Inside known (.list items frames)
  | record {fields : List (String × Value)} {frames : FrameSet}
    (parts : ∀ field ∈ fields, Inside known field.2) (held : ∀ id ∈ frames, known id) :
    Inside known (.record fields frames)
  | module {frame : FrameId} {fields : List (String × Nat)} (is : known frame) :
    Inside known (.module frame fields)
  | closure {serial : Nat} {lambda : Lambda} {env : FrameId} (is : known env) :
    Inside known (.closure serial lambda env)
  | builtin (function : Builtin) : Inside known (.builtin function)

end Value

namespace FrameSet

variable {a id : FrameId}

theorem mem_unionCons {join : FrameSet → FrameSet} {as bs : FrameSet}
    (joined : ∀ bs, id ∈ join bs → id ∈ as ∨ id ∈ bs) (mem : id ∈ unionCons a join bs) :
    id ∈ a :: as ∨ id ∈ bs := by
  have first {bs : FrameSet} (mem : id ∈ a :: join bs) : id ∈ a :: as ∨ id ∈ bs := by
    rcases List.mem_cons.mp mem with rfl | mem
    · exact .inl List.mem_cons_self
    · exact (joined bs mem).imp_left (List.mem_cons_of_mem a)
  induction bs with
  | nil => exact first mem
  | cons b bs ih =>
    unfold unionCons at mem
    split at mem
    · exact first mem
    split at mem
    · rcases List.mem_cons.mp mem with rfl | mem
      · exact .inr List.mem_cons_self
      · exact (ih mem).imp_right (List.mem_cons_of_mem b)
    · exact (first mem).imp_right (List.mem_cons_of_mem b)

theorem mem_union {as bs : FrameSet} (mem : id ∈ union as bs) : id ∈ as ∨ id ∈ bs := by
  induction as generalizing bs with
  | nil => exact .inr mem
  | cons a as ih => exact mem_unionCons (fun _ joined => ih joined) mem

theorem mem_unions {sets : List FrameSet} (mem : id ∈ unions sets) : ∃ set ∈ sets, id ∈ set := by
  induction sets with
  | nil => cases mem
  | cons set sets ih =>
    rcases mem_union mem with here | later
    · exact ⟨set, List.mem_cons_self, here⟩
    · obtain ⟨other, among, there⟩ := ih later
      exact ⟨other, List.mem_cons_of_mem set among, there⟩

end FrameSet

namespace Value

namespace Inside

variable {known known' : FrameId → Prop} {value : Value}

theorem mono (inside : Inside known value) (wider : ∀ id, known id → known' id) :
    Inside known' value := by
  induction inside with
  | bool value => exact .bool value
  | num value => exact .num value
  | text content => exact .text content
  | list _ held parts => exact .list parts fun id mem => wider id (held id mem)
  | record _ held parts => exact .record parts fun id mem => wider id (held id mem)
  | module is => exact .module (wider _ is)
  | closure is => exact .closure (wider _ is)
  | builtin function => exact .builtin function

theorem frames (inside : Inside known value) : ∀ id ∈ value.frames, known id := by
  cases inside with
  | list _ held => exact held
  | record _ held => exact held
  | module is => exact List.forall_mem_singleton.mpr is
  | closure is => exact List.forall_mem_singleton.mpr is
  | _ => simp [Value.frames]

theorem ofItems {items : List Value} (parts : ∀ item ∈ items, Inside known item) :
    Inside known (ofItems items) := by
  refine .list parts fun id mem => ?_
  obtain ⟨set, among, here⟩ := FrameSet.mem_unions mem
  obtain ⟨item, mem', rfl⟩ := List.mem_map.mp among
  exact (parts item mem').frames id here

theorem ofFields {fields : List (String × Value)} (parts : ∀ field ∈ fields, Inside known field.2) :
    Inside known (ofFields fields) := by
  refine .record parts fun id mem => ?_
  obtain ⟨set, among, here⟩ := FrameSet.mem_unions mem
  obtain ⟨field, mem', rfl⟩ := List.mem_map.mp among
  exact (parts field mem').frames id here

end Inside

/-- A plain value that comes with no frames either. -/
abbrev Detached (value : Value) : Prop := Inside (fun _ => False) value

theorem Detached.inside {known : FrameId → Prop} {value : Value} (detached : Detached value) :
    Inside known value :=
  detached.mono fun _ impossible => impossible.elim

theorem Detached.plain {value : Value} (detached : Detached value) : Plain value := by
  induction detached with
  | bool value => exact .bool value
  | num value => exact .num value
  | text content => exact .text content
  | list _ _ parts => exact .list parts
  | record _ _ parts => exact .record parts
  | module impossible => exact impossible.elim
  | closure impossible => exact impossible.elim
  | builtin function => exact .builtin function

theorem Plain.ofNumbers (xs : List Float) : Plain (ofNumbers xs) := by
  refine .list fun item mem => ?_
  obtain ⟨x, -, rfl⟩ := List.mem_map.mp mem
  exact .num x

/-- A plain value, if there is one at all. -/
def PlainResult {ε : Type} (result : Except ε Value) : Prop :=
  ∀ value, result = .ok value → Plain value

/-- A value that is made from detached parts, if it is made at all. -/
def DetachedResult {ε : Type} (result : Except ε Value) : Prop :=
  ∀ value, result = .ok value → Detached value

def DetachedResults {ε : Type} (result : Except ε (List Value)) : Prop :=
  ∀ values, result = .ok values → ∀ value ∈ values, Detached value

theorem DetachedResult.plain {ε : Type} {result : Except ε Value}
    (detached : DetachedResult result) : PlainResult result :=
  fun value made => (detached value made).plain

theorem DetachedResult.ofItems {ε : Type} {result : Except ε (List Value)}
    (parts : DetachedResults result) : DetachedResult (ofItems <$> result) := by
  intro value made
  cases result with
  | error => cases made
  | ok items =>
    obtain rfl := Except.ok.inj made
    exact .ofItems (parts items rfl)

theorem DetachedResults.cons {ε : Type} {first : Except ε Value} {rest : Except ε (List Value)}
    (head : DetachedResult first) (tail : DetachedResults rest) :
    DetachedResults (do
      let item ← first
      let items ← rest
      pure (item :: items)) := by
  intro values made
  cases first with
  | error => cases made
  | ok item =>
    cases rest with
    | error => cases made
    | ok items =>
      obtain rfl := Except.ok.inj made
      intro value mem
      rcases List.mem_cons.mp mem with rfl | mem
      · exact head _ rfl
      · exact tail _ rfl value mem

mutual

theorem mapNumbers_detached (f : Float → Float) :
    (value : Value) → DetachedResult (mapNumbers f value)
  | num x => fun _ made => Except.ok.inj made ▸ .num (f x)
  | list items _ => .ofItems (mapNumbersItems_detached f items)
  | bool _ | text _ | record _ _ | module _ _ | closure _ _ _ | builtin _ =>
    fun _ made => by cases made

theorem mapNumbersItems_detached (f : Float → Float) :
    (items : List Value) → DetachedResults (mapNumbersItems f items)
  | [] => fun _ made => by
    obtain rfl := Except.ok.inj made
    simp
  | item :: items => .cons (mapNumbers_detached f item) (mapNumbersItems_detached f items)

end

mutual

theorem broadcast_detached (f : Float → Float → Float) :
    (a b : Value) → DetachedResult (broadcast f a b)
  | list as _, list bs _ => by
    rw [broadcast]
    split
    · exact .ofItems (broadcastItems_detached f as bs)
    · exact fun _ made => by cases made
  | a, num y => by
    rw [broadcast]
    exact mapNumbers_detached (f · y) a
  | num x, b => by
    cases b <;> rw [broadcast] <;> first
      | exact mapNumbers_detached _ _
      | simp
  | list _ _, bool _ | list _ _, text _ | list _ _, record _ _ | list _ _, module _ _
  | list _ _, closure _ _ _ | list _ _, builtin _ => by
    intro value made
    simp [broadcast] at made
  | bool _, b | text _, b | record _ _, b | module _ _, b | closure _ _ _, b | builtin _, b => by
    intro value made
    cases b with
    | num y => exact mapNumbers_detached _ _ value (by simpa only [broadcast] using made)
    | _ => simp [broadcast] at made

theorem broadcastItems_detached (f : Float → Float → Float) :
    (as bs : List Value) → DetachedResults (broadcastItems f as bs)
  | a :: as, b :: bs => .cons (broadcast_detached f a b) (broadcastItems_detached f as bs)
  | [], _ | _ :: _, [] => fun _ made => by
    obtain rfl := Except.ok.inj made
    simp

end

end Value

mutual

theorem Constant.toValue_detached : (value : Constant) → value.toValue.Detached
  | .bool b => .bool b
  | .num x => .num x
  | .text content => .text content
  | .list items => .ofItems (Constant.toValues_detached items)
  | .record fields => .ofFields (Constant.toFields_detached fields)
  | .builtin function => .builtin function

theorem Constant.toValues_detached :
    (items : List Constant) → ∀ value ∈ Constant.toValues items, value.Detached
  | [] => by simp [Constant.toValues]
  | item :: items => fun value mem => by
    rcases List.mem_cons.mp mem with rfl | mem
    · exact Constant.toValue_detached item
    · exact Constant.toValues_detached items value mem

theorem Constant.toFields_detached :
    (fields : List (String × Constant)) → ∀ field ∈ Constant.toFields fields, field.2.Detached
  | [] => by simp [Constant.toFields]
  | (_, value) :: fields => fun field mem => by
    rcases List.mem_cons.mp mem with rfl | mem
    · exact Constant.toValue_detached value
    · exact Constant.toFields_detached fields field mem

end

/-- Operators make detached values. -/
theorem Eval.operate_detached (a : Arithmetic) (op : BinaryOp) (left right : Value) :
    Value.DetachedResult (Eval.operate a op left right) := by
  intro value made
  cases op with
  | add => exact Value.broadcast_detached _ _ _ value made
  | subtract => exact Value.broadcast_detached _ _ _ value made
  | multiply => exact Value.broadcast_detached _ _ _ value made
  | divide => exact Value.broadcast_detached _ _ _ value made
  | power => exact Value.broadcast_detached _ _ _ value made
  | equal => exact Except.ok.inj made ▸ .bool _
  | notEqual => exact Except.ok.inj made ▸ .bool _
  | _ => cases made

theorem Value.mapNumbers_plain (f : Float → Float) (value : Value) :
    Value.PlainResult (value.mapNumbers f) :=
  (Value.mapNumbers_detached f value).plain

theorem Constant.toValue_plain (value : Constant) : value.toValue.Plain :=
  (Constant.toValue_detached value).plain

theorem Eval.operate_plain (a : Arithmetic) (op : BinaryOp) (left right : Value) :
    Value.PlainResult (Eval.operate a op left right) :=
  (Eval.operate_detached a op left right).plain

end ShapeLang
