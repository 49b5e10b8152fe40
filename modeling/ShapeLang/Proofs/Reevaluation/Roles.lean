import Mathlib.Data.List.Forall2
import ShapeLang.Proofs.Denotation.Changes
import ShapeLang.Proofs.Denotation.Outline
import ShapeLang.Proofs.Reevaluation.Content

/-! # Frames that play the same roles again

Frames stand for environments. Whenever something is evaluated again, new frames are made for the
environments that other frames stand for already, and definitions that had a value wait anew. So
any number of frames may stand for one environment, and a slot may hold its definition or what that
denotes at any time.
-/

namespace ShapeLang

/-- Everything in an expression that opens a frame lays out its slots without overlap. -/
def Expr.Roomy (expr : Expr) : Prop := expr.Scoped fun _ _ => True

theorem Expr.Scoped.roomy {vis : Visibility} {expr : Expr} (sees : expr.Scoped vis) :
    expr.Roomy :=
  sees.mono fun _ _ _ => trivial

theorem Heap.slot?_put_cases {heap : Heap} {id other : FrameId} {slot slot' : Nat}
    {content holds : Slot} (there : (heap.put id slot content).slot? other slot' = some holds) :
    other = id ∧ slot' = slot ∧ holds = content ∨
      ¬ (other = id ∧ slot' = slot) ∧ heap.slot? other slot' = some holds := by
  by_cases here : other = id ∧ slot' = slot
  · obtain ⟨rfl, rfl⟩ := here
    cases before : heap.slot? other slot' with
    | none =>
      exfalso
      rw [Heap.slot?, Heap.put, Heap.frame?_mapSlots, if_pos rfl] at there
      cases found : heap.frame? other with
      | none => simp [found] at there
      | some frame =>
        rw [Heap.slot?_of_frame? found] at before
        simp [found, List.getElem?_eq_none_iff.mp before] at there
    | some old =>
      rw [Heap.slot?_put_self before] at there
      exact .inl ⟨rfl, rfl, (Option.some.inj there).symm⟩
  · rw [Heap.slot?_put_ne fun same slots => here ⟨same.symm, slots.symm⟩] at there
    exact .inr ⟨here, there⟩

namespace Reevaluation

open Denotation

/-- The environments that frames stand for, as far as they are known. -/
abbrev Roles := FrameId → Option Env

namespace Roles

/-- What frames stand for, they go on to stand for. -/
def Within (roles wider : Roles) : Prop :=
  ∀ id env, roles id = some env → wider id = some env

theorem Within.refl (roles : Roles) : roles.Within roles := fun _ _ => id

theorem Within.trans {roles wider widest : Roles} (first : roles.Within wider)
    (second : wider.Within widest) : roles.Within widest :=
  fun id env known => second id env (first id env known)

def assign (roles : Roles) (id : FrameId) (env : Env) : Roles :=
  fun other => if other = id then some env else roles other

variable {roles : Roles} {id other : FrameId} {env env' : Env}

theorem assign_self : roles.assign id env id = some env := if_pos rfl

theorem assign_cases (known : roles.assign id env other = some env') :
    other = id ∧ env = env' ∨ roles other = some env' := by
  by_cases here : other = id
  · rw [assign, if_pos here] at known
    exact .inl ⟨here, Option.some.inj known⟩
  · rw [assign, if_neg here] at known
    exact .inr known

theorem within_assign (unknown : roles id = none) : roles.Within (roles.assign id env) := by
  intro other env' known
  have different : other ≠ id := by
    rintro rfl
    cases unknown.symm.trans known
  rwa [assign, if_neg different]

end Roles

/-- A value and a denotation have the same form, and modules and functions belong to frames that
stand for the environments there. Their identity is left open. -/
inductive Means (roles : Roles) : Value → Den → Prop
  | bool (value : Bool) : Means roles (.bool value) (.bool value)
  | num (value : Float) : Means roles (.num value) (.num value)
  | text (content : String) : Means roles (.text content) (.text content)
  | list (items : List (Value × Den)) {frames : FrameSet}
      (parts : ∀ item ∈ items, Means roles item.1 item.2) :
      Means roles (.list (items.map (·.1)) frames) (.list (items.map (·.2)))
  | record (fields : List (String × Value × Den)) {frames : FrameSet}
      (parts : ∀ field ∈ fields, Means roles field.2.1 field.2.2) :
      Means roles (.record (fields.map fun field => (field.1, field.2.1)) frames)
        (.record (fields.map fun field => (field.1, field.2.2)))
  | module {id : FrameId} {env : Env} {fields : List (String × Nat)}
      (known : roles id = some env) : Means roles (.module id fields) (.module env fields)
  | closure {serial : Nat} {x : Place} {lambda : Lambda} {id : FrameId} {env : Env}
      (known : roles id = some env)
      (layout : Room lambda.slotCount (List.range lambda.paramCount ++ lambda.body.letSlots))
      (roomy : lambda.body.Roomy) :
      Means roles (.closure serial lambda id) (.closure x lambda env)
  | builtin (function : Builtin) : Means roles (.builtin function) (.builtin function)

/-- Values that mean denotations one by one. -/
abbrev MeansAll (roles : Roles) : List Value → List Den → Prop := List.Forall₂ (Means roles)

/-- Fields that mean denotations one by one. -/
abbrev MeansFields (roles : Roles) : List (String × Value) → List (String × Den) → Prop :=
  List.Forall₂ fun field field' => field.1 = field'.1 ∧ Means roles field.2 field'.2

section Means

variable {roles wider : Roles} {value : Value} {value' : Den} {values : List Value}
  {dens : List Den}

theorem Means.mono (means : Means roles value value') (within : roles.Within wider) :
    Means wider value value' := by
  induction means with
  | bool value => exact .bool value
  | num value => exact .num value
  | text content => exact .text content
  | list items _ parts => exact .list items parts
  | record fields _ parts => exact .record fields parts
  | «module» known => exact .module (within _ _ known)
  | closure known layout roomy => exact .closure (within _ _ known) layout roomy
  | builtin function => exact .builtin function

theorem MeansAll.mono (all : MeansAll roles values dens) (within : roles.Within wider) :
    MeansAll wider values dens :=
  all.imp fun _ _ means => means.mono within

theorem MeansFields.mono {fields : List (String × Value)} {fields' : List (String × Den)}
    (all : MeansFields roles fields fields') (within : roles.Within wider) :
    MeansFields wider fields fields' :=
  all.imp fun _ _ means => ⟨means.1, means.2.mono within⟩

/-- The list of some items. -/
theorem MeansAll.list (all : MeansAll roles values dens) :
    Means roles (.ofItems values) (.list dens) := by
  obtain ⟨pairs, rfl, rfl, parts⟩ : ∃ pairs : List (Value × Den), values = pairs.map (·.1) ∧
      dens = pairs.map (·.2) ∧ ∀ pair ∈ pairs, Means roles pair.1 pair.2 := by
    induction all with
    | nil => exact ⟨[], rfl, rfl, by simp⟩
    | @cons value value' _ _ means _ ih =>
      obtain ⟨pairs, rfl, rfl, parts⟩ := ih
      exact ⟨(value, value') :: pairs, rfl, rfl, by simpa using ⟨means, fun a b => parts (a, b)⟩⟩
  exact .list pairs parts

/-- The record of some fields. -/
theorem MeansFields.record {fields : List (String × Value)} {fields' : List (String × Den)}
    (all : MeansFields roles fields fields') :
    Means roles (.ofFields fields) (.record fields') := by
  obtain ⟨triples, rfl, rfl, parts⟩ : ∃ triples : List (String × Value × Den),
      fields = triples.map (fun field => (field.1, field.2.1)) ∧
      fields' = triples.map (fun field => (field.1, field.2.2)) ∧
      ∀ field ∈ triples, Means roles field.2.1 field.2.2 := by
    induction all with
    | nil => exact ⟨[], rfl, rfl, by simp⟩
    | @cons field field' _ _ means _ ih =>
      obtain ⟨triples, rfl, rfl, parts⟩ := ih
      obtain ⟨name, value⟩ := field
      obtain ⟨name', value'⟩ := field'
      obtain ⟨rfl, means⟩ := means
      exact ⟨(name, value, value') :: triples, rfl, rfl,
        by simpa using ⟨means, fun a b c => parts (a, b, c)⟩⟩
  exact .record triples parts

theorem meansAll_of_pairs {pairs : List (Value × Den)}
    (parts : ∀ pair ∈ pairs, Means roles pair.1 pair.2) :
    MeansAll roles (pairs.map (·.1)) (pairs.map (·.2)) := by
  rw [MeansAll, List.forall₂_map_left_iff, List.forall₂_map_right_iff, List.forall₂_same]
  exact parts

/-- An item of a list and the item at the same place. -/
theorem MeansAll.getElem? (all : MeansAll roles values dens) (i : Nat) :
    Option.Rel (Means roles) values[i]? dens[i]? := by
  induction all generalizing i with
  | nil => exact .none
  | cons means _ ih =>
    cases i with
    | zero => exact .some means
    | succ i => exact ih i

/-- Operators see a value as the outline of what it means. -/
theorem Means.alike (means : Means roles value value') :
    value.Alike Eq (fun _ _ => True) (fun _ _ => True) value'.outline := by
  induction means with
  | bool value => exact .bool value
  | num value => exact .num value
  | text content => exact .text content
  | @list items frames _ parts =>
    have alike : (Value.list ((items.map fun item => (item.1, item.2.outline)).map (·.1))
        frames).Alike Eq (fun _ _ => True) (fun _ _ => True)
        (.list ((items.map fun item => (item.1, item.2.outline)).map (·.2)) []) := by
      refine .list _ fun item mem => ?_
      obtain ⟨item', mem', rfl⟩ := List.mem_map.mp mem
      exact parts item' mem'
    simpa [Den.outline, outlines_eq, Function.comp_def] using alike
  | @record fields frames _ parts =>
    let outlined := fields.map fun field => (field.1, field.2.1, field.2.2.outline)
    have alike : (Value.record (outlined.map fun field => (field.1, field.2.1))
        frames).Alike Eq (fun _ _ => True) (fun _ _ => True)
        (.record (outlined.map fun field => (field.1, field.2.2)) []) := by
      refine .record _ fun field mem => ?_
      obtain ⟨field', mem', rfl⟩ := List.mem_map.mp mem
      exact parts field' mem'
    simpa [outlined, Den.outline, outlineFields_eq, Function.comp_def] using alike
  | «module» => exact .module trivial rfl
  | closure => exact .closure trivial rfl
  | builtin function => exact .builtin function

/-- Plain values mean themselves. -/
theorem Means.of_plain (plain : value.Plain) : Means roles value (.ofPlain value) := by
  induction plain with
  | bool value => exact .bool value
  | num value => exact .num value
  | text content => exact .text content
  | @list items frames _ parts =>
    have means : Means roles (.list ((items.map fun item => (item, Den.ofPlain item)).map (·.1))
        frames) (.list ((items.map fun item => (item, Den.ofPlain item)).map (·.2))) := by
      refine .list _ fun item mem => ?_
      obtain ⟨item', mem', rfl⟩ := List.mem_map.mp mem
      exact parts item' mem'
    simpa [Den.ofPlain, ofPlains_eq, Function.comp_def] using means
  | @record fields frames _ parts =>
    let doubled := fields.map fun field => (field.1, field.2, Den.ofPlain field.2)
    have means : Means roles (.record (doubled.map fun field => (field.1, field.2.1)) frames)
        (.record (doubled.map fun field => (field.1, field.2.2))) := by
      refine .record _ fun field mem => ?_
      obtain ⟨field', mem', rfl⟩ := List.mem_map.mp mem
      exact parts field' mem'
    simpa [doubled, Den.ofPlain, ofPlainFields_eq, Function.comp_def] using means
  | «module» impossible => exact impossible.elim
  | closure impossible => exact impossible.elim
  | builtin function => exact .builtin function

end Means

section Reflects

variable (m : Machine) (lenient : Prop) (busy : List Errand) (roles : Roles)

/-- What a slot can hold in a frame that stands for an environment. -/
inductive Holds (id : FrameId) (env : Env) (slot : Nat) : Slot → Prop
  | empty : Holds id env slot .empty
  | argument {value : Value} {value' : Den} (there : env.args[slot]? = some value')
      (means : Means roles value value') : Holds id env slot (.ready value)
  | pending {d : Denotation.Definition} (mem : d ∈ env.definitions) (here : d.slot = slot) :
      Holds id env slot (.pending d.expr)
  | busy {d : Denotation.Definition} (mem : d ∈ env.definitions) (here : d.slot = slot)
      (underWay : ⟨id, env, d⟩ ∈ busy) : Holds id env slot .busy
  | done {d : Denotation.Definition} {value : Value} {value' : Den} (mem : d ∈ env.definitions)
      (here : d.slot = slot) (means : Means roles value value')
      (yields : Yields lenient (fun n => denote m n env d.inner d.expr) value') :
      Holds id env slot (.ready value)

/-- A frame has the form of an environment. -/
structure Stands (heap : Heap) (id : FrameId) (env : Env) : Prop where
  laid : env.Laid
  roomy : ∀ d ∈ env.definitions, d.expr.Roomy
  frame : ∃ frame, heap.frame? id = some frame ∧ frame.depth = env.depth ∧
    ∀ parent, frame.parent = some parent →
      ∃ outer, env.parent = some outer ∧ roles parent = some outer

/-- Frames have the form of the environments that they stand for, and hold what is denoted there. -/
structure Reflects (heap : Heap) : Prop where
  stands : ∀ id env, roles id = some env → Stands roles heap id env
  holds : ∀ id env slot content, roles id = some env → heap.slot? id slot = some content →
    Holds m lenient busy roles id env slot content

end Reflects

variable {m : Machine} {lenient : Prop} {busy busy' : List Errand} {roles wider : Roles}
  {heap : Heap} {id : FrameId} {env : Env} {slot : Nat} {content : Slot}

theorem Holds.mono (holds : Holds m lenient busy roles id env slot content)
    (within : roles.Within wider) (kept : ∀ errand ∈ busy, errand ∈ busy') :
    Holds m lenient busy' wider id env slot content := by
  cases holds with
  | empty => exact .empty
  | argument there means => exact .argument there (means.mono within)
  | pending mem here => exact .pending mem here
  | busy mem here underWay => exact .busy mem here (kept _ underWay)
  | done mem here means yields => exact .done mem here (means.mono within) yields

theorem Stands.later (stands : Stands roles heap id env) {after : Heap}
    (extension : heap.Extends after) (within : roles.Within wider) : Stands wider after id env := by
  obtain ⟨laid, roomy, frame, found, depth, parents⟩ := stands
  obtain ⟨frame', found', parent', depth', -⟩ := extension.kept id frame found
  refine ⟨laid, roomy, frame', found', depth'.trans depth, fun parent atFrame => ?_⟩
  obtain ⟨outer, around, known⟩ := parents parent (parent'.symm.trans atFrame)
  exact ⟨outer, around, within _ _ known⟩

namespace Reflects

variable (reflects : Reflects m lenient busy roles heap)
include reflects

/-- A frame that stands for something was made before. -/
theorem unknown_size : roles heap.frames.size = none := by
  refine Option.eq_none_iff_forall_ne_some.mpr fun env known => ?_
  obtain ⟨frame, found, -⟩ := (reflects.stands _ env known).frame
  exact Nat.lt_irrefl _ (Heap.lt_size_of_frame? found)

/-- Whatever fits a frame can be put into a slot. -/
theorem put (fits : ∀ env, roles id = some env → Holds m lenient busy roles id env slot content) :
    Reflects m lenient busy roles (heap.put id slot content) := by
  constructor
  · exact fun other env known =>
      (reflects.stands other env known).later (.put heap id slot content) (.refl roles)
  · intro other env slot' content' known there
    rcases Heap.slot?_put_cases there with ⟨rfl, rfl, rfl⟩ | ⟨-, old⟩
    · exact fits env known
    · exact reflects.holds other env slot' content' known old

/-- Functions are made. -/
theorem close (closures : Nat) : Reflects m lenient busy roles { heap with closures } := by
  have extension : heap.Extends { heap with closures } :=
    ⟨Nat.le_refl _, fun _ frame found => ⟨frame, found, rfl, rfl, rfl⟩⟩
  exact ⟨fun id env known => (reflects.stands id env known).later extension (.refl roles),
    reflects.holds⟩

/-- A frame is made that stands for nothing. -/
theorem alloc (slotCount : Nat) (parent caller : Option FrameId) (site : Option Location)
    (depth : Nat) :
    Reflects m lenient busy roles (heap.alloc slotCount parent caller site depth).2 := by
  constructor
  · exact fun id env known => (reflects.stands id env known).later (.alloc ..) (.refl roles)
  · intro id env slot content known there
    obtain ⟨frame, found, -⟩ := (reflects.stands id env known).frame
    refine reflects.holds id env slot content known ?_
    rw [← there, Heap.slot?, Heap.slot?, found,
      Heap.frame?_alloc_of_some heap slotCount parent caller site depth found]

/-- A frame is made for an environment. -/
theorem enter {slotCount : Nat} {parent caller : Option FrameId} {site : Option Location}
    (laid : env.Laid) (roomy : ∀ d ∈ env.definitions, d.expr.Roomy)
    (parents : ∀ around, parent = some around →
      ∃ outer, env.parent = some outer ∧ roles around = some outer) :
    Reflects m lenient busy (roles.assign heap.frames.size env)
      (heap.alloc slotCount parent caller site env.depth).2 := by
  have within : roles.Within (roles.assign heap.frames.size env) :=
    Roles.within_assign reflects.unknown_size
  have made := Heap.frame?_alloc_self heap slotCount parent caller site env.depth
  constructor
  · intro id env' known
    rcases Roles.assign_cases known with ⟨rfl, rfl⟩ | old
    · refine ⟨laid, roomy, _, made, rfl, fun around atFrame => ?_⟩
      obtain ⟨outer, around', known'⟩ := parents around atFrame
      exact ⟨outer, around', within _ _ known'⟩
    · exact (reflects.stands id env' old).later (.alloc ..) within
  · intro id env' slot content known there
    rcases Roles.assign_cases known with ⟨rfl, rfl⟩ | old
    · rw [Heap.slot?_of_frame? made, Heap.fresh] at there
      obtain rfl := List.eq_of_mem_replicate (List.mem_of_getElem? there)
      exact .empty
    · exact ((reflects.alloc slotCount parent caller site env.depth).holds id env' slot content old
        there).mono within fun _ mem => mem

/-- Arguments are put into consecutive slots. -/
theorem storeAll {values : List Value} {dens : List Den} (known : roles id = some env)
    (all : MeansAll roles values dens) (given : ∀ i, dens[i]? = env.args[slot + i]?) :
    Ends (Eval.storeAll id slot values) heap
      (fun _ after => Reflects m lenient busy roles after)
      fun fault after => Reflects m lenient busy roles after ∧ ∃ d, fault = .defect d := by
  induction all generalizing heap slot with
  | nil => exact .pure reflects
  | @cons value value' values dens means all ih =>
    have first : env.args[slot]? = some value' := (given 0).symm
    refine Ends.through (fun _ after => after = heap.put id slot (.ready value))
      (.store (fun _ _ _ => rfl) (fun _ _ _ => ⟨reflects, _, rfl⟩) fun _ => ⟨reflects, _, rfl⟩) ?_
    rintro _ _ rfl
    refine ih (reflects.put fun env' known' => ?_) fun i => ?_
    · obtain rfl := Option.some.inj (known.symm.trans known')
      exact .argument first means
    · have next := given (i + 1)
      rwa [List.getElem?_cons_succ, Nat.add_comm i 1, ← Nat.add_assoc] at next

/-- Definitions are put into their slots, whatever was there. -/
theorem storePending {w : Place} {bindings : List (Nat × Expr)} (known : roles id = some env)
    (laid : ∀ d ∈ group w bindings, d ∈ env.definitions) :
    Ends (Eval.storePending id bindings) heap
      (fun _ after => Reflects m lenient busy roles after)
      fun fault after => Reflects m lenient busy roles after ∧ ∃ d, fault = .defect d := by
  induction bindings generalizing heap with
  | nil => exact .pure reflects
  | cons binding bindings ih =>
    obtain ⟨slot, expr⟩ := binding
    refine Ends.through (fun _ after => after = heap.put id slot (.pending expr))
      (.store (fun _ _ _ => rfl) (fun _ _ _ => ⟨reflects, _, rfl⟩) fun _ => ⟨reflects, _, rfl⟩) ?_
    rintro _ _ rfl
    refine ih (reflects.put fun env' known' => ?_) fun d mem => laid d (List.mem_cons_of_mem _ mem)
    obtain rfl := Option.some.inj (known.symm.trans known')
    have first : (⟨slot, .slot slot :: w, expr⟩ : Denotation.Definition) ∈ env.definitions :=
      laid _ List.mem_cons_self
    exact .pending first rfl

/-- A definition begins. -/
theorem begin {d : Denotation.Definition} (known : roles id = some env) (mem : d ∈ env.definitions) :
    Reflects m lenient (⟨id, env, d⟩ :: busy) roles (heap.put id d.slot .busy) := by
  have more : Reflects m lenient (⟨id, env, d⟩ :: busy) roles heap :=
    ⟨reflects.stands, fun other env' slot content known' there =>
      (reflects.holds other env' slot content known' there).mono (.refl roles)
        fun _ mem => List.mem_cons_of_mem _ mem⟩
  refine more.put fun env' known' => ?_
  obtain rfl := Option.some.inj (known.symm.trans known')
  exact .busy mem rfl List.mem_cons_self

omit reflects in
/-- A definition ends. -/
theorem finish {d : Denotation.Definition} (reflects : Reflects m lenient (⟨id, env, d⟩ :: busy) roles heap)
    (fits : ∀ env, roles id = some env →
      Holds m lenient busy roles id env d.slot content) :
    Reflects m lenient busy roles (heap.put id d.slot content) := by
  constructor
  · exact fun other env' known =>
      (reflects.stands other env' known).later (.put heap id d.slot content) (.refl roles)
  · intro other env' slot content' known there
    rcases Heap.slot?_put_cases there with ⟨rfl, rfl, rfl⟩ | ⟨elsewhere, old⟩
    · exact fits env' known
    · cases reflects.holds other env' slot content' known old with
      | empty => exact .empty
      | argument given means => exact .argument given means
      | pending mem here => exact .pending mem here
      | @busy d' mem here underWay =>
        refine .busy mem here ((List.mem_cons.mp underWay).resolve_left fun same => ?_)
        obtain ⟨rfl, rfl, rfl⟩ := Errand.mk.inj same
        exact elsewhere ⟨rfl, here.symm⟩
      | done mem here means yields => exact .done mem here means yields

/-- Going outwards, frames and environments keep pace. -/
theorem ancestor {depth : Nat} {owner : FrameId} (known : roles id = some env)
    (reached : heap.ancestor? id depth = some owner) :
    ∃ outer, env.ancestor? depth = some outer ∧ roles owner = some outer := by
  induction depth generalizing id env with
  | zero =>
    obtain rfl := Option.some.inj reached
    exact ⟨env, rfl, known⟩
  | succ depth ih =>
    obtain ⟨frame, parent, found, atFrame, reached⟩ := Heap.ancestor?_succ_eq_some_iff.mp reached
    obtain ⟨frame', found', -, parents⟩ := (reflects.stands id env known).frame
    obtain rfl := Option.some.inj (found.symm.trans found')
    obtain ⟨outer, around, known'⟩ := parents parent atFrame
    obtain ⟨outermost, reached', known''⟩ := ih known' reached
    refine ⟨outermost, ?_, known''⟩
    rw [Env.ancestor?, around]
    exact reached'

end Reflects

end Reevaluation

end ShapeLang
