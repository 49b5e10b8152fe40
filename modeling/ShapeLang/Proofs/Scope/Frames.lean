import Mathlib.Data.List.Forall2
import Mathlib.Data.List.Perm.Subperm
import ShapeLang.Proofs.Scope.Resolution

/-! # Frames and what belongs to them

Module literals, functions and the bodies of loops have frames of their own. A phrase tells which
names belong to each frame, and the expression that it is resolved to tells which slots they have.
A frame is filled if names and slots correspond one to one, so that no slot is left over.
-/

namespace ShapeLang

/-- The names that belong to one frame, in the order in which they are written. -/
structure Roster where
  /-- The parameters, the names of the module, or the variable of the loop. -/
  binders : List String
  /-- The names of every `let` that has this frame as its nearest. -/
  lets : List String
deriving DecidableEq, Repr

/-- The slots of one frame: those of its names, and how many there are. -/
structure Allotment where
  binders : List Nat
  lets : List Nat
  slotCount : Nat
deriving DecidableEq, Repr

/-- Each name of a frame has one slot and each slot belongs to one name. The names that are not
from a `let` have the first slots, in order. -/
structure Roster.Fills (roster : Roster) (allotment : Allotment) : Prop where
  inOrder : allotment.binders = List.range roster.binders.length
  counted : allotment.lets.length = roster.lets.length
  bijective : (allotment.binders ++ allotment.lets).Perm (List.range allotment.slotCount)

/-- A frame whose slots are all in use has each of them once. -/
theorem Room.perm_range {slotCount : Nat} {slots : List Nat} (room : Room slotCount slots)
    (full : slots.length = slotCount) : slots.Perm (List.range slotCount) := by
  have within : slots ⊆ List.range slotCount := fun slot mem =>
    List.mem_range.mpr (room.inside slot mem)
  refine (List.subperm_of_subset room.nodup within).perm_of_length_le ?_
  exact Nat.le_of_eq (List.length_range.trans full.symm)

section Pairs

variable {α β γ δ : Type}

theorem flatMap_of_mapM {f : α → Option β} {g : α → List γ} {h : β → List γ}
    (each : ∀ a b, f a = some b → g a = h b) {items : List α} {found : List β}
    (all : items.mapM f = some found) : items.flatMap g = found.flatMap h := by
  induction items generalizing found with
  | nil =>
    cases all
    rfl
  | cons item items ih =>
    rw [List.mapM_cons] at all
    obtain ⟨first, here, all⟩ := Option.bind_eq_some_iff.mp all
    obtain ⟨rest, later, same⟩ := Option.bind_eq_some_iff.mp all
    cases same
    rw [List.flatMap_cons, List.flatMap_cons, each item first here, ih later]

theorem forall₂_flatMap {R : γ → δ → Prop} {f : α → List γ} {g : α → List δ} {items : List α}
    (each : ∀ item ∈ items, List.Forall₂ R (f item) (g item)) :
    List.Forall₂ R (items.flatMap f) (items.flatMap g) := by
  induction items with
  | nil => exact .nil
  | cons item items ih =>
    rw [List.flatMap_cons, List.flatMap_cons]
    apply List.rel_append (each item List.mem_cons_self)
    exact ih fun other mem => each other (List.mem_cons_of_mem item mem)

theorem length_flatMap_congr {f : α → List γ} {g : α → List δ} {items : List α}
    (each : ∀ item ∈ items, (f item).length = (g item).length) :
    (items.flatMap f).length = (items.flatMap g).length := by
  rw [List.length_flatMap, List.length_flatMap, List.map_congr_left each]

end Pairs

namespace Phrase

/-- The names that a group of definitions defines. -/
def groupNames (items : List Phrase) : List String :=
  items.flatMap fun item => (item.binding?.map (·.1)).toList

/-- A target with parameters makes a definition a function. -/
def isHeader : Phrase → Bool
  | call _ (ident _ _) _ => true
  | _ => false

/-- The frame of the function that a definition with a header defines. -/
def headerFrame (lets : List String) : Phrase → List Roster
  | call _ (ident _ _) args =>
    [⟨args.flatMap fun arg => (arg.param?.map (·.name)).toList, lets⟩]
  | _ => []

mutual

/-- The names of every `let` in a phrase that takes its slots from the frame around the phrase. -/
def letNames : Phrase → List String
  | numeral _ _ | boolean _ _ | text _ _ | ident _ _ | module _ _ | lambda _ _ _ => []
  | list _ items => letNamesAll items
  | record _ fields => letNamesFields fields
  | definition _ target definiens => if target.isHeader then [] else definiens.letNames
  | call _ function args => function.letNames ++ letNamesAll args
  | dot _ base _ => base.letNames
  | index _ base place => base.letNames ++ place.letNames
  | unary _ _ operand => operand.letNames
  | binary _ _ left right => left.letNames ++ right.letNames
  | conditional _ condition whenTrue whenFalse =>
    condition.letNames ++ whenTrue.letNames ++ whenFalse.letNames
  | letIn _ definitions body =>
    groupNames definitions ++ letNamesAll definitions ++ body.letNames
  | forEach _ _ items _ => items.letNames

def letNamesAll : List Phrase → List String
  | [] => []
  | phrase :: phrases => phrase.letNames ++ letNamesAll phrases

def letNamesFields : List (Ident × Phrase) → List String
  | [] => []
  | (_, phrase) :: fields => phrase.letNames ++ letNamesFields fields

end

mutual

/-- The frames of the module literals, the functions and the loops in a phrase, in the order in
which these begin. -/
def frames : Phrase → List Roster
  | numeral _ _ | boolean _ _ | text _ _ | ident _ _ => []
  | list _ items => framesAll items
  | record _ fields => framesFields fields
  | module _ items => ⟨groupNames items, letNamesAll items⟩ :: framesAll items
  | definition _ target definiens =>
    target.headerFrame definiens.letNames ++ definiens.frames
  | lambda _ params body => ⟨params.map (·.name), body.letNames⟩ :: body.frames
  | call _ function args => function.frames ++ framesAll args
  | dot _ base _ => base.frames
  | index _ base place => base.frames ++ place.frames
  | unary _ _ operand => operand.frames
  | binary _ _ left right => left.frames ++ right.frames
  | conditional _ condition whenTrue whenFalse =>
    condition.frames ++ whenTrue.frames ++ whenFalse.frames
  | letIn _ definitions body => framesAll definitions ++ body.frames
  | forEach _ item items body => items.frames ++ ⟨[item.name], body.letNames⟩ :: body.frames

def framesAll : List Phrase → List Roster
  | [] => []
  | phrase :: phrases => phrase.frames ++ framesAll phrases

def framesFields : List (Ident × Phrase) → List Roster
  | [] => []
  | (_, phrase) :: fields => phrase.frames ++ framesFields fields

end

@[simp] theorem letNamesAll_eq (phrases : List Phrase) :
    letNamesAll phrases = phrases.flatMap letNames := by
  induction phrases with
  | nil => rfl
  | cons phrase phrases ih => rw [letNamesAll, ih, List.flatMap_cons]

@[simp] theorem letNamesFields_eq (fields : List (Ident × Phrase)) :
    letNamesFields fields = fields.flatMap (·.2.letNames) := by
  induction fields with
  | nil => rfl
  | cons field fields ih => rw [letNamesFields, ih, List.flatMap_cons]

@[simp] theorem framesAll_eq (phrases : List Phrase) :
    framesAll phrases = phrases.flatMap frames := by
  induction phrases with
  | nil => rfl
  | cons phrase phrases ih => rw [framesAll, ih, List.flatMap_cons]

@[simp] theorem framesFields_eq (fields : List (Ident × Phrase)) :
    framesFields fields = fields.flatMap (·.2.frames) := by
  induction fields with
  | nil => rfl
  | cons field fields ih => rw [framesFields, ih, List.flatMap_cons]

/-- A definition has the frames of what it stands for, and takes as many slots. -/
theorem frames_binding? {item : Phrase} {definition : String × Phrase}
    (written : item.binding? = some definition) :
    item.letNames = definition.2.letNames ∧ item.frames = definition.2.frames := by
  unfold binding? at written
  split at written
  · cases written
    exact ⟨rfl, rfl⟩
  · obtain ⟨params, named, rfl⟩ := Option.map_eq_some_iff.mp written
    have header : (_ : List Phrase).flatMap (fun arg => (arg.param?.map (·.name)).toList) =
        params.flatMap fun param => [param.name] :=
      flatMap_of_mapM (fun _ _ found => by rw [found]; rfl) named
    rw [← List.map_eq_flatMap] at header
    constructor
    · rfl
    · rw [frames, headerFrame, header, frames]
      rfl
  · cases written

section Group

variable {items : List Phrase} {definitions : List (String × Phrase)}
  (written : items.mapM binding? = some definitions)
include written

theorem groupNames_bindings : groupNames items = definitions.map (·.1) := by
  rw [List.map_eq_flatMap]
  exact flatMap_of_mapM (fun _ _ found => by rw [found]; rfl) written

theorem letNames_bindings : items.flatMap letNames = definitions.flatMap (·.2.letNames) :=
  flatMap_of_mapM (fun _ _ found => (frames_binding? found).1) written

theorem frames_bindings : items.flatMap frames = definitions.flatMap (·.2.frames) :=
  flatMap_of_mapM (fun _ _ found => (frames_binding? found).2) written

end Group

end Phrase

namespace Expr

mutual

/-- The frames that an expression opens, in the order of its parts. The parameters of a function
and the item of a loop come first in their frames. -/
def frames : Expr → List Allotment
  | constant _ _ | slot _ _ _ => []
  | call _ function args => function.frames ++ framesAll args
  | list _ items => framesAll items
  | record _ fields => framesFields fields
  | module _ slotCount fields definitions =>
    ⟨fields.map (·.2), definitions.flatMap (·.2.letSlots), slotCount⟩ ::
      framesBindings definitions
  | letIn _ bindings body => framesBindings bindings ++ body.frames
  | lambda _ paramCount slotCount body =>
    ⟨List.range paramCount, body.letSlots, slotCount⟩ :: body.frames
  | unary _ _ operand => operand.frames
  | binary _ _ left right => left.frames ++ right.frames
  | conditional _ condition whenTrue whenFalse =>
    condition.frames ++ whenTrue.frames ++ whenFalse.frames
  | dot _ base _ => base.frames
  | index _ base place => base.frames ++ place.frames
  | forEach _ slotCount items body =>
    items.frames ++ ⟨[0], body.letSlots, slotCount⟩ :: body.frames

def framesAll : List Expr → List Allotment
  | [] => []
  | expr :: exprs => expr.frames ++ framesAll exprs

def framesFields : List (String × Expr) → List Allotment
  | [] => []
  | (_, expr) :: fields => expr.frames ++ framesFields fields

def framesBindings : List (Nat × Expr) → List Allotment
  | [] => []
  | (_, expr) :: bindings => expr.frames ++ framesBindings bindings

end

@[simp] theorem framesAll_eq (exprs : List Expr) : framesAll exprs = exprs.flatMap frames := by
  induction exprs with
  | nil => rfl
  | cons expr exprs ih => rw [framesAll, ih, List.flatMap_cons]

@[simp] theorem framesFields_eq (fields : List (String × Expr)) :
    framesFields fields = fields.flatMap (·.2.frames) := by
  induction fields with
  | nil => rfl
  | cons field fields ih => rw [framesFields, ih, List.flatMap_cons]

@[simp] theorem framesBindings_eq (bindings : List (Nat × Expr)) :
    framesBindings bindings = bindings.flatMap (·.2.frames) := by
  induction bindings with
  | nil => rfl
  | cons binding bindings ih => rw [framesBindings, ih, List.flatMap_cons]

/-- Every frame in an expression has as many slots as there are names for it, and the names of
modules have the first slots in order. -/
inductive Full : Expr → Prop
  | constant {location value} : Full (.constant location value)
  | slot {location depth slot} : Full (.slot location depth slot)
  | call {location function args} (head : Full function) (rest : ∀ arg ∈ args, Full arg) :
    Full (.call location function args)
  | list {location items} (parts : ∀ item ∈ items, Full item) : Full (.list location items)
  | record {location fields} (parts : ∀ field ∈ fields, Full field.2) :
    Full (.record location fields)
  | module {location slotCount fields definitions}
    (inOrder : fields.map (·.2) = List.range fields.length)
    (full : fields.length + (definitions.flatMap (·.2.letSlots)).length = slotCount)
    (parts : ∀ definition ∈ definitions, Full definition.2) :
    Full (.module location slotCount fields definitions)
  | letIn {location bindings body} (parts : ∀ binding ∈ bindings, Full binding.2)
    (rest : Full body) : Full (.letIn location bindings body)
  | lambda {location paramCount slotCount body}
    (full : paramCount + body.letSlots.length = slotCount) (inner : Full body) :
    Full (.lambda location paramCount slotCount body)
  | unary {location op operand} (part : Full operand) : Full (.unary location op operand)
  | binary {location op left right} (first : Full left) (second : Full right) :
    Full (.binary location op left right)
  | conditional {location condition whenTrue whenFalse} (first : Full condition)
    (second : Full whenTrue) (third : Full whenFalse) :
    Full (.conditional location condition whenTrue whenFalse)
  | dot {location base name} (part : Full base) : Full (.dot location base name)
  | index {location base place} (first : Full base) (second : Full place) :
    Full (.index location base place)
  | forEach {location slotCount items body} (first : Full items)
    (full : 1 + body.letSlots.length = slotCount) (inner : Full body) :
    Full (.forEach location slotCount items body)

end Expr

/-- A frame that has room for its slots and none to spare is filled. -/
private theorem fills_of_room {roster : Roster} {lets : List Nat} {count slotCount : Nat}
    (binders : roster.binders.length = count) (layout : Room slotCount (List.range count ++ lets))
    (full : count + lets.length = slotCount) (counted : lets.length = roster.lets.length) :
    roster.Fills ⟨List.range count, lets, slotCount⟩ := by
  refine ⟨congrArg List.range binders.symm, counted, layout.perm_range ?_⟩
  rw [List.length_append, List.length_range, full]

variable {names : Namespace} {ribs : Ribs} {phrase : Phrase} {expr : Expr}

/-- Names have as many slots as there are of them. -/
theorem Resolves.length_letSlots (resolves : Resolves names ribs phrase expr) :
    expr.letSlots.length = phrase.letNames.length := by
  induction resolves with
  | list items _ parts =>
    simp only [Expr.letSlots_list, Phrase.letNames, Phrase.letNamesAll_eq, List.flatMap_map]
    exact length_flatMap_congr parts
  | record fields _ parts =>
    simp only [Expr.letSlots_record, Phrase.letNames, Phrase.letNamesFields_eq, List.flatMap_map]
    exact length_flatMap_congr parts
  | call args _ _ head rest =>
    simp only [Expr.letSlots_call, Phrase.letNames, Phrase.letNamesAll_eq, List.flatMap_map,
      List.length_append, head]
    rw [length_flatMap_congr rest]
  | letIn group written _ _ parts rest =>
    simp only [Expr.letSlots_letIn, Phrase.letNames, Phrase.letNamesAll_eq,
      Phrase.groupNames_bindings written, Phrase.letNames_bindings written, List.flatMap_map,
      List.length_append, List.length_map, rest]
    congr 2
    exact length_flatMap_congr parts
  | numeral | boolean | text | slot | constant | «module» | lambda => rfl
  | dot _ part => exact part
  | unary _ part => exact part
  | forEach _ _ _ first _ => exact first
  | index _ _ first second => simp [Phrase.letNames, first, second]
  | binary _ _ first second => simp [Phrase.letNames, first, second]
  | conditional _ _ _ first second third => simp [Phrase.letNames, first, second, third]

/-- The frames of a full expression are filled by the names of its phrase. -/
theorem Resolves.fills (resolves : Resolves names ribs phrase expr) (full : expr.Full) :
    List.Forall₂ Roster.Fills phrase.frames expr.frames := by
  induction resolves with
  | numeral | boolean | text | slot | constant => exact .nil
  | list items _ parts =>
    cases full with | list whole =>
    simp only [Expr.frames, Expr.framesAll_eq, Phrase.frames, Phrase.framesAll_eq,
      List.flatMap_map]
    exact forall₂_flatMap fun item mem => parts item mem (whole _ (List.mem_map_of_mem mem))
  | record fields _ parts =>
    cases full with | record whole =>
    simp only [Expr.frames, Expr.framesFields_eq, Phrase.frames, Phrase.framesFields_eq,
      List.flatMap_map]
    refine forall₂_flatMap fun field mem => parts field mem (whole (field.1.name, field.2.2) ?_)
    exact List.mem_map_of_mem mem
  | @«module» _ _ slotCount items group written layout resolved parts =>
    cases full with | «module» inOrder counted whole =>
    simp only [Expr.frames, Expr.framesBindings_eq, Phrase.frames, Phrase.framesAll_eq,
      Phrase.letNamesAll_eq, Phrase.groupNames_bindings written,
      Phrase.letNames_bindings written, Phrase.frames_bindings written, List.flatMap_map]
    constructor
    · have slots : (group.map Linked.field).map (·.2) = group.map Linked.slot := by
        simp [Linked.field, Function.comp_def]
      rw [List.length_map] at inOrder counted
      rw [inOrder]
      rw [← slots, inOrder] at layout
      refine fills_of_room (by simp) layout ?_ ?_
      · simpa only [List.flatMap_map] using counted
      · exact length_flatMap_congr fun definition mem => (resolved definition mem).length_letSlots
    · exact forall₂_flatMap fun definition mem =>
        parts definition mem (whole _ (List.mem_map_of_mem mem))
  | lambda params layout resolved inner =>
    cases full with | lambda counted whole =>
    refine .cons ?_ (inner whole)
    exact fills_of_room (List.length_map _) layout counted resolved.length_letSlots
  | call args _ _ head rest =>
    cases full with | call headWhole whole =>
    simp only [Expr.frames, Expr.framesAll_eq, Phrase.frames, Phrase.framesAll_eq,
      List.flatMap_map]
    apply List.rel_append (head headWhole)
    exact forall₂_flatMap fun arg mem => rest arg mem (whole _ (List.mem_map_of_mem mem))
  | dot _ part =>
    cases full with | dot whole => exact part whole
  | index _ _ first second =>
    cases full with | index whole whole' => exact List.rel_append (first whole) (second whole')
  | unary _ part =>
    cases full with | unary whole => exact part whole
  | binary _ _ first second =>
    cases full with | binary whole whole' => exact List.rel_append (first whole) (second whole')
  | conditional _ _ _ first second third =>
    cases full with | conditional whole whole' whole'' =>
    exact List.rel_append (List.rel_append (first whole) (second whole')) (third whole'')
  | letIn group written _ _ parts rest =>
    cases full with | letIn whole whole' =>
    simp only [Expr.frames, Expr.framesBindings_eq, Phrase.frames, Phrase.framesAll_eq,
      Phrase.frames_bindings written, List.flatMap_map]
    refine List.rel_append (forall₂_flatMap fun definition mem => ?_) (rest whole')
    exact parts definition mem (whole _ (List.mem_map_of_mem mem))
  | forEach _ layout resolved first inner =>
    cases full with | forEach whole counted whole' =>
    apply List.rel_append (first whole)
    refine .cons ?_ (inner whole')
    exact fills_of_room rfl layout counted resolved.length_letSlots

end ShapeLang
