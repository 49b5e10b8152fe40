import ShapeLang.Proofs.Expr.Twin
import ShapeLang.Proofs.Grammar.Literals
import ShapeLang.Proofs.Reordering.Phrases

/-! # Resolving phrases whose definitions are in another order

The order of definitions decides which slots they get, and in which order the definitions inside
them are met decides further slots. What comes out is the same code in another layout: names that
belong together lead to frames at the same distance, and each frame has one partner at most for each
of its slots.
-/

namespace ShapeLang

open ShapeLang.Expr (Twin)

section Couples

variable {α β : Type}

/-- The first components of the pairs are one list and the second ones another, in any order. -/
structure Couples (pairs : List (α × β)) (as : List α) (bs : List β) : Prop where
  first : (pairs.map (·.1)).Perm as
  second : (pairs.map (·.2)).Perm bs

namespace Couples

variable {pairs others : List (α × β)} {as as' : List α} {bs bs' : List β}

theorem nil : Couples ([] : List (α × β)) [] [] := ⟨.nil, .nil⟩

theorem append (couples : Couples pairs as bs) (couples' : Couples others as' bs') :
    Couples (pairs ++ others) (as ++ as') (bs ++ bs') := by
  refine ⟨?_, ?_⟩
  · rw [List.map_append]
    exact couples.first.append couples'.first
  · rw [List.map_append]
    exact couples.second.append couples'.second

theorem perm (couples : Couples pairs as bs) (order : as.Perm as') (order' : bs.Perm bs') :
    Couples pairs as' bs' :=
  ⟨couples.first.trans order, couples.second.trans order'⟩

theorem mem_left (couples : Couples pairs as bs) {pair : α × β} (mem : pair ∈ pairs) :
    pair.1 ∈ as :=
  couples.first.subset (List.mem_map_of_mem mem)

theorem mem_right (couples : Couples pairs as bs) {pair : α × β} (mem : pair ∈ pairs) :
    pair.2 ∈ bs :=
  couples.second.subset (List.mem_map_of_mem mem)

/-- Where nothing occurs twice, nothing has two partners. -/
theorem oneToOne (couples : Couples pairs as bs) (distinct : as.Nodup) (distinct' : bs.Nodup)
    {a b : α} {a' b' : β} (mem : (a, a') ∈ pairs) (mem' : (b, b') ∈ pairs) : a = b ↔ a' = b' := by
  constructor
  · rintro rfl
    exact congrArg Prod.snd
      (List.inj_on_of_nodup_map (couples.first.nodup_iff.mpr distinct) mem mem' rfl)
  · rintro rfl
    exact congrArg Prod.fst
      (List.inj_on_of_nodup_map (couples.second.nodup_iff.mpr distinct') mem mem' rfl)

end Couples

end Couples

namespace Ribs

/-- A name that is bound by one scope is bound by the other one, and the slots belong together. -/
def Named (own own' : List (String × Nat)) (owned : List (Nat × Nat)) : Prop :=
  ∀ name, Option.Rel (fun slot slot' => (slot, slot') ∈ owned) (own.lookup name) (own'.lookup name)

/-- Scopes in which names lead equally far out. -/
def Alike (ribs ribs' : Ribs) : Prop :=
  ∀ name, Option.Rel (fun place place' => place.1 = place'.1) (resolve? ribs name)
    (resolve? ribs' name)

/-- The slots that some name leads to. -/
def Together (ribs ribs' : Ribs) (depth slot slot' : Nat) : Prop :=
  ∃ name, resolve? ribs name = some (depth, slot) ∧ resolve? ribs' name = some (depth, slot')

variable {ribs ribs' : Ribs} {own own' : List (String × Nat)} {owned : List (Nat × Nat)}
  {opensFrame : Bool}

theorem Alike.cons (alike : Alike ribs ribs') (named : Named own own' owned) :
    Alike (⟨own, opensFrame⟩ :: ribs) (⟨own', opensFrame⟩ :: ribs') := by
  intro name
  have here := named name
  have outer := alike name
  simp only [resolve?]
  generalize own.lookup name = found, own'.lookup name = found' at here ⊢
  cases here with
  | some => exact .some rfl
  | none =>
    generalize resolve? ribs name = place, resolve? ribs' name = place' at outer ⊢
    cases outer with
    | none => exact .none
    | some same => exact .some (by simp only [same])

/-- Where a name leads with one more scope: to a slot of it, or to where it leads outside. -/
theorem Together.cons {depth slot slot' : Nat} (named : Named own own' owned)
    (together : Together (⟨own, opensFrame⟩ :: ribs) (⟨own', opensFrame⟩ :: ribs') depth slot slot') :
    depth = 0 ∧ (slot, slot') ∈ owned ∨ ∃ outer, Together ribs ribs' outer slot slot' ∧
      depth = if opensFrame then outer + 1 else outer := by
  obtain ⟨name, found, found'⟩ := together
  have here := named name
  simp only [resolve?] at found found'
  generalize own.lookup name = inside, own'.lookup name = inside' at here found found'
  cases here with
  | some mem =>
    obtain ⟨rfl, rfl⟩ := Prod.mk.inj (Option.some.inj found)
    obtain ⟨-, rfl⟩ := Prod.mk.inj (Option.some.inj found')
    exact .inl ⟨rfl, mem⟩
  | none =>
    obtain ⟨⟨outer, place⟩, reached, same⟩ := Option.map_eq_some_iff.mp found
    obtain ⟨⟨outer', place'⟩, reached', same'⟩ := Option.map_eq_some_iff.mp found'
    obtain ⟨rfl, rfl⟩ := Prod.mk.inj same
    obtain ⟨same', rfl⟩ := Prod.mk.inj same'
    obtain rfl : outer' = outer := by
      cases opensFrame with
      | true => simpa using same'
      | false => simpa using same'
    exact .inr ⟨outer', ⟨name, reached, reached'⟩, rfl⟩

end Ribs

/-- What is said of two parts of programs holds as soon as their function literals, the slots of
their definitions and the names around them belong together. -/
def Joint (ribs ribs' : Ribs) (places places' : List Location) (slots slots' : List Nat)
    (twins : (Location → Location → Prop) → Pairing → Prop) : Prop :=
  ∃ (literals : List (Location × Location)) (lets : List (Nat × Nat)),
    Couples literals places places' ∧ Couples lets slots slots' ∧ (slots.Nodup →
      ∀ (same : Location → Location → Prop) (pairs : Pairing),
        (∀ literal ∈ literals, same literal.1 literal.2) →
        (∀ slot ∈ lets, pairs 0 slot.1 slot.2) →
        (∀ depth slot slot', Ribs.Together ribs ribs' depth slot slot' → pairs depth slot slot') →
        twins same pairs)

namespace Joint

variable {ribs ribs' : Ribs} {places places' others others' : List Location}
  {slots slots' more more' : List Nat} {twins also : (Location → Location → Prop) → Pairing → Prop}

/-- What depends on names only. -/
theorem of_names (holds : ∀ (same : Location → Location → Prop) (pairs : Pairing),
    (∀ depth slot slot', Ribs.Together ribs ribs' depth slot slot' → pairs depth slot slot') →
    twins same pairs) : Joint ribs ribs' [] [] [] [] twins :=
  ⟨[], [], .nil, .nil, fun _ same pairs _ _ => holds same pairs⟩

theorem mono (joint : Joint ribs ribs' places places' slots slots' twins)
    (imp : ∀ same pairs, twins same pairs → also same pairs) :
    Joint ribs ribs' places places' slots slots' also := by
  obtain ⟨literals, lets, places, slots, holds⟩ := joint
  exact ⟨literals, lets, places, slots, fun distinct same pairs known given names =>
    imp same pairs (holds distinct same pairs known given names)⟩

theorem and (joint : Joint ribs ribs' places places' slots slots' twins)
    (joint' : Joint ribs ribs' others others' more more' also) :
    Joint ribs ribs' (places ++ others) (places' ++ others') (slots ++ more) (slots' ++ more')
      fun same pairs => twins same pairs ∧ also same pairs := by
  obtain ⟨literals, lets, located, given, holds⟩ := joint
  obtain ⟨literals', lets', located', given', holds'⟩ := joint'
  refine ⟨literals ++ literals', lets ++ lets', located.append located', given.append given',
    fun distinct same pairs known slots names => ?_⟩
  obtain ⟨distinct, distinct', -⟩ := List.nodup_append.mp distinct
  rw [List.forall_mem_append] at known slots
  exact ⟨holds distinct same pairs known.1 slots.1 names,
    holds' distinct' same pairs known.2 slots.2 names⟩

theorem perm (joint : Joint ribs ribs' places places' slots slots' twins)
    (order : places'.Perm others') (order' : slots'.Perm more') :
    Joint ribs ribs' places others' slots more' twins := by
  obtain ⟨literals, lets, located, given, holds⟩ := joint
  exact ⟨literals, lets, located.perm (.refl _) order, given.perm (.refl _) order', holds⟩

/-- Many parts. -/
theorem all {ι : Type} {items : List ι} {places places' : ι → List Location}
    {slots slots' : ι → List Nat} {twins : ι → (Location → Location → Prop) → Pairing → Prop}
    (each : ∀ i ∈ items, Joint ribs ribs' (places i) (places' i) (slots i) (slots' i) (twins i)) :
    Joint ribs ribs' (items.flatMap places) (items.flatMap places') (items.flatMap slots)
      (items.flatMap slots') fun same pairs => ∀ i ∈ items, twins i same pairs := by
  induction items with
  | nil => exact of_names fun _ _ _ => by simp
  | cons i items ih =>
    obtain ⟨first, rest⟩ := List.forall_mem_cons.mp each
    simp only [List.flatMap_cons]
    exact (first.and (ih rest)).mono fun _ _ both => List.forall_mem_cons.mpr both

/-- One more function literal. -/
theorem literal {place place' : Location}
    (joint : Joint ribs ribs' places places' slots slots' twins) :
    Joint ribs ribs' (place :: places) (place' :: places') slots slots' fun same pairs =>
      same place place' ∧ twins same pairs := by
  obtain ⟨literals, lets, located, given, holds⟩ := joint
  refine ⟨(place, place') :: literals, lets, ⟨located.first.cons _, located.second.cons _⟩, given,
    fun distinct same pairs known slots names => ?_⟩
  obtain ⟨first, rest⟩ := List.forall_mem_cons.mp known
  exact ⟨first, holds distinct same pairs rest slots names⟩

variable {own own' : List (String × Nat)} {owned : List (Nat × Nat)} {taken taken' : List Nat}
  {slotCount slotCount' : Nat}

/-- Parts that stand in a frame of their own. -/
theorem enter (joint : Joint (⟨own, true⟩ :: ribs) (⟨own', true⟩ :: ribs') places places' slots
      slots' twins) (named : Ribs.Named own own' owned) (couples : Couples owned taken taken')
    (layout : Room slotCount (taken ++ slots)) (layout' : Room slotCount' (taken' ++ slots')) :
    Joint ribs ribs' places places' [] [] fun same pairs => ∃ together : Nat → Nat → Prop,
      Matching slotCount slotCount' together ∧ (∀ slot ∈ owned, together slot.1 slot.2) ∧
        twins same (pairs.enter together) := by
  obtain ⟨literals, lets, located, given, holds⟩ := joint
  have all := couples.append given
  refine ⟨literals, [], located, .nil, fun _ same pairs known _ names => ?_⟩
  refine ⟨fun slot slot' => (slot, slot') ∈ owned ++ lets, ⟨?_, ?_⟩, ?_, ?_⟩
  · exact fun a a' b b' mem mem' => all.oneToOne layout.nodup layout'.nodup mem mem'
  · exact fun slot slot' mem =>
      ⟨layout.inside slot (all.mem_left mem), layout'.inside slot' (all.mem_right mem)⟩
  · exact fun slot mem => List.mem_append_left _ mem
  · refine holds (List.nodup_append.mp layout.nodup).2.1 same _ known
      (fun slot mem => List.mem_append_right _ mem) fun depth slot slot' together => ?_
    rcases together.cons named with ⟨rfl, mem⟩ | ⟨outer, around, rfl⟩
    · exact List.mem_append_left _ mem
    · exact names outer slot slot' around

/-- Parts that stand behind definitions in the same frame. -/
theorem extend (joint : Joint (⟨own, false⟩ :: ribs) (⟨own', false⟩ :: ribs') places places' slots
      slots' twins) (named : Ribs.Named own own' owned) (couples : Couples owned taken taken') :
    Joint ribs ribs' places places' (taken ++ slots) (taken' ++ slots') fun same pairs =>
      taken.Nodup ∧ (∀ slot ∈ owned, pairs 0 slot.1 slot.2) ∧ twins same pairs := by
  obtain ⟨literals, lets, located, given, holds⟩ := joint
  refine ⟨literals, owned ++ lets, located, couples.append given,
    fun distinct same pairs known slots names => ?_⟩
  obtain ⟨distinct, distinct', -⟩ := List.nodup_append.mp distinct
  rw [List.forall_mem_append] at slots
  refine ⟨distinct, slots.1, holds distinct' same pairs known slots.2
    fun depth slot slot' together => ?_⟩
  rcases together.cons named with ⟨rfl, mem⟩ | ⟨outer, around, rfl⟩
  · exact slots.1 _ mem
  · exact names _ slot slot' around

end Joint

section Families

variable {ι : Type} {items : List ι} {same : Location → Location → Prop} {pairs : Pairing}
  {location location' : Location} {expr expr' : ι → Expr}

/-- Twins by the parts of a list. -/
theorem Expr.Twin.listOf (each : ∀ i ∈ items, Twin same pairs (expr i) (expr' i)) :
    Twin same pairs (.list location (items.map expr)) (.list location' (items.map expr')) := by
  have whole : Twin same pairs (.list location ((items.map fun i => (expr i, expr' i)).map (·.1)))
      (.list location' ((items.map fun i => (expr i, expr' i)).map (·.2))) :=
    .list _ (List.forall_mem_map.mpr each)
  rwa [List.map_map, List.map_map] at whole

theorem Expr.Twin.recordOf {name : ι → String}
    (each : ∀ i ∈ items, Twin same pairs (expr i) (expr' i)) :
    Twin same pairs (.record location (items.map fun i => (name i, expr i)))
      (.record location' (items.map fun i => (name i, expr' i))) := by
  let fields := items.map fun i => (name i, expr i, expr' i)
  have whole : Twin same pairs (.record location (fields.map fun field => (field.1, field.2.1)))
      (.record location' (fields.map fun field => (field.1, field.2.2))) :=
    .record _ (List.forall_mem_map.mpr each)
  rwa [List.map_map, List.map_map] at whole

theorem Expr.Twin.callOf {function function' : Expr} (head : Twin same pairs function function')
    (each : ∀ i ∈ items, Twin same pairs (expr i) (expr' i)) :
    Twin same pairs (.call location function (items.map expr))
      (.call location' function' (items.map expr')) := by
  have whole : Twin same pairs
      (.call location function ((items.map fun i => (expr i, expr' i)).map (·.1)))
      (.call location' function' ((items.map fun i => (expr i, expr' i)).map (·.2))) :=
    .call _ head (List.forall_mem_map.mpr each)
  rwa [List.map_map, List.map_map] at whole

end Families

section Groups

variable {items : List (Phrase × Phrase)} {items' : List Phrase} {group group' : List Linked}
  {matched : List (Linked × Linked)}

/-- Two definitions that differ in the order of what is inside. -/
def Linked.Reordered (pair : Linked × Linked) : Prop :=
  pair.1.name = pair.2.name ∧ Phrase.Reordered pair.1.body pair.2.body

/-- The definitions of a group, each with its partner in a group that stands in another order. -/
theorem exists_matched (each : ∀ item ∈ items, Phrase.Reordered item.1 item.2)
    (order : (items.map (·.2)).Perm items')
    (written : (items.map (·.1)).mapM Phrase.binding? = some (group.map Linked.source))
    (written' : items'.mapM Phrase.binding? = some (group'.map Linked.source)) :
    ∃ matched : List (Linked × Linked), group = matched.map (·.1) ∧
      (matched.map (·.2)).Perm group' ∧ ∀ pair ∈ matched, Linked.Reordered pair := by
  obtain ⟨between, definitions', written'', alike, perm⟩ :=
    Phrase.Reordered.bindings each order written
  obtain rfl := Option.some.inj (written'.symm.trans written'')
  obtain ⟨others, perm', rfl⟩ := exists_perm_of_map perm.symm
  rw [List.forall₂_map_left_iff, List.forall₂_map_right_iff] at alike
  obtain ⟨matched, rfl, rfl, partners⟩ := exists_pairs alike
  exact ⟨matched, rfl, perm', partners⟩

/-- The slots of definitions that belong together. -/
def Linked.slots (pair : Linked × Linked) : Nat × Nat := (pair.1.slot, pair.2.slot)

/-- The definitions that belong together, as parts of expressions. -/
def Linked.bindings (pair : Linked × Linked) : (Nat × Expr) × (Nat × Expr) :=
  (pair.1.binding, pair.2.binding)

theorem distinct_matched {matched : List (Linked × Linked)}
    (distinct : (((matched.map (·.1)).map Linked.source).map (·.1)).Nodup) :
    (matched.map (·.1.name)).Nodup := by
  simpa [Linked.source, Function.comp_def] using distinct

theorem perm_matched {α : Type} (order : (matched.map (·.2)).Perm group') (part : Linked → List α) :
    (matched.flatMap fun pair => part pair.2).Perm (group'.flatMap part) := by
  simpa [List.flatMap_map] using order.flatMap_right part

theorem couples_matched (order : (matched.map (·.2)).Perm group') :
    Couples (matched.map Linked.slots) ((matched.map (·.1)).map Linked.slot)
      (group'.map Linked.slot) := by
  refine ⟨.of_eq (by simp [Linked.slots]), ?_⟩
  simpa [Linked.slots, Function.comp_def] using order.map Linked.slot

theorem named_matched (distinct : (matched.map (·.1.name)).Nodup)
    (order : (matched.map (·.2)).Perm group') (partners : ∀ pair ∈ matched, Linked.Reordered pair) :
    Ribs.Named ((matched.map (·.1)).map Linked.field) (group'.map Linked.field)
      (matched.map Linked.slots) := by
  have first {name : String} {slot : Nat}
      (found : ((matched.map (·.1)).map Linked.field).lookup name = some slot) :
      ∃ pair ∈ matched, pair.1.name = name ∧ pair.1.slot = slot := by
    obtain ⟨before, after, split, -⟩ := List.lookup_eq_some_iff.mp found
    have mem : (name, slot) ∈ (matched.map (·.1)).map Linked.field := by simp [split]
    obtain ⟨definition, inside, same⟩ := List.mem_map.mp mem
    obtain ⟨pair, there, rfl⟩ := List.mem_map.mp inside
    exact ⟨pair, there, (Prod.mk.inj same).1, (Prod.mk.inj same).2⟩
  have second {name : String} {slot : Nat} (found : (group'.map Linked.field).lookup name = some slot) :
      ∃ pair ∈ matched, pair.2.name = name ∧ pair.2.slot = slot := by
    obtain ⟨before, after, split, -⟩ := List.lookup_eq_some_iff.mp found
    have mem : (name, slot) ∈ group'.map Linked.field := by simp [split]
    obtain ⟨definition, inside, same⟩ := List.mem_map.mp mem
    obtain ⟨pair, there, rfl⟩ := List.mem_map.mp (order.symm.subset inside)
    exact ⟨pair, there, (Prod.mk.inj same).1, (Prod.mk.inj same).2⟩
  intro name
  cases found : ((matched.map (·.1)).map Linked.field).lookup name with
  | none =>
    cases found' : (group'.map Linked.field).lookup name with
    | none => exact .none
    | some slot' =>
      obtain ⟨pair, mem, rfl, -⟩ := second found'
      have absent := List.lookup_eq_none_iff.mp found pair.1.field
        (List.mem_map_of_mem (List.mem_map_of_mem mem))
      simp [Linked.field, (partners pair mem).1] at absent
  | some slot =>
    obtain ⟨pair, mem, named, rfl⟩ := first found
    cases found' : (group'.map Linked.field).lookup name with
    | none =>
      have absent := List.lookup_eq_none_iff.mp found' pair.2.field
        (List.mem_map_of_mem (order.subset (List.mem_map_of_mem mem)))
      simp [Linked.field, ← named, (partners pair mem).1] at absent
    | some slot' =>
      obtain ⟨other, mem', named', rfl⟩ := second found'
      have same : pair = other := List.inj_on_of_nodup_map distinct mem mem'
        (named.trans (named'.symm.trans (partners other mem').1.symm))
      exact .some (List.mem_map.mpr ⟨pair, mem, by rw [Linked.slots, same]⟩)

theorem map_slot_binding (group : List Linked) :
    (group.map Linked.binding).map (·.1) = group.map Linked.slot := by
  simp [Linked.binding, Function.comp_def]

variable {same : Location → Location → Prop} {pairs : Pairing} {location location' : Location}

private theorem perm_names (order : (matched.map (·.2)).Perm group')
    (partners : ∀ pair ∈ matched, Linked.Reordered pair) :
    (((matched.map (·.1)).map Linked.field).map (·.1)).Perm ((group'.map Linked.field).map (·.1)) := by
  have alike : matched.map (·.1.name) = matched.map (·.2.name) :=
    List.map_congr_left fun pair mem => (partners pair mem).1
  have ordered := order.map Linked.name
  rw [List.map_map] at ordered
  simpa [Linked.field, Function.comp_def, alike] using ordered

private theorem map_bindings :
    (matched.map Linked.bindings).map (·.1) = (matched.map (·.1)).map Linked.binding ∧
      (matched.map Linked.bindings).map (·.2) = (matched.map (·.2)).map Linked.binding := by
  simp [Linked.bindings, Function.comp_def]

private theorem nodup_bindings (distinct : ((matched.map (·.1)).map Linked.slot).Nodup) :
    ((matched.map Linked.bindings).map (·.1.1)).Nodup := by
  simpa [Linked.bindings, Linked.binding, Function.comp_def] using distinct

/-- Modules whose definitions are twins. -/
theorem Expr.Twin.moduleOf {together : Nat → Nat → Prop} {slotCount slotCount' : Nat}
    (order : (matched.map (·.2)).Perm group')
    (partners : ∀ pair ∈ matched, Linked.Reordered pair)
    (named : Ribs.Named ((matched.map (·.1)).map Linked.field) (group'.map Linked.field)
      (matched.map Linked.slots))
    (matching : Matching slotCount slotCount' together)
    (distinct : ((matched.map (·.1)).map Linked.slot).Nodup)
    (own : ∀ slot ∈ matched.map Linked.slots, together slot.1 slot.2)
    (twins : ∀ pair ∈ matched, Twin same (pairs.enter together) pair.1.expr pair.2.expr) :
    Twin same pairs
      (.module location slotCount ((matched.map (·.1)).map Linked.field)
        ((matched.map (·.1)).map Linked.binding))
      (.module location' slotCount' (group'.map Linked.field) (group'.map Linked.binding)) := by
  rw [← map_bindings.1]
  refine .module together _ matching (perm_names order partners) (fun name => ?_)
    (nodup_bindings distinct) ?_ ?_ ?_
  · exact rel_mono (fun _ _ mem => own _ mem) (named name)
  · rw [map_bindings.2]
    exact order.map Linked.binding
  · rw [List.forall_mem_map] at own ⊢
    exact own
  · exact List.forall_mem_map.mpr twins

/-- Definitions that are twins, in front of twins. -/
theorem Expr.Twin.letInOf {body body' : Expr} (order : (matched.map (·.2)).Perm group')
    (distinct : ((matched.map (·.1)).map Linked.slot).Nodup)
    (own : ∀ slot ∈ matched.map Linked.slots, pairs 0 slot.1 slot.2)
    (twins : ∀ pair ∈ matched, Twin same pairs pair.1.expr pair.2.expr)
    (rest : Twin same pairs body body') :
    Twin same pairs (.letIn location ((matched.map (·.1)).map Linked.binding) body)
      (.letIn location' (group'.map Linked.binding) body') := by
  rw [← map_bindings.1]
  refine .letIn _ (nodup_bindings distinct) ?_ ?_ ?_ rest
  · rw [map_bindings.2]
    exact order.map Linked.binding
  · rw [List.forall_mem_map] at own ⊢
    exact own
  · exact List.forall_mem_map.mpr twins

end Groups

section Parameters

/-- The slots of parameters. -/
theorem couples_range (count : Nat) :
    Couples ((List.range count).map fun slot => (slot, slot)) (List.range count)
      (List.range count) := by
  have same : (List.range count).map (fun slot => slot) = List.range count := List.map_id _
  exact ⟨.of_eq (by rwa [List.map_map]), .of_eq (by rwa [List.map_map])⟩

theorem named_parameters (names : List String) :
    Ribs.Named (Rib.ofParameters names).slots (Rib.ofParameters names).slots
      ((List.range names.length).map fun slot => (slot, slot)) := by
  intro name
  cases found : (Rib.ofParameters names).slots.lookup name with
  | none => exact .none
  | some slot =>
    obtain ⟨before, after, split, -⟩ := List.lookup_eq_some_iff.mp found
    have mem : (name, slot) ∈ (Rib.ofParameters names).slots := by simp [split]
    obtain ⟨i, low, same⟩ := List.mem_mapIdx.mp mem
    obtain ⟨-, rfl⟩ := Prod.mk.inj same
    exact .some (List.mem_map.mpr ⟨i, List.mem_range.mpr low, rfl⟩)

end Parameters

namespace Resolves

variable {names : Namespace} {ribs ribs' : Ribs} {phrase phrase' : Phrase} {expr expr' : Expr}
  {bound : String → Prop}

/-- Phrases whose definitions are in another order are resolved to twins. The induction is on how
the first phrase is resolved. -/
theorem joint (resolves : Resolves names ribs phrase expr) (known : phrase.WellFormed bound)
    (reordered : phrase.Reordered phrase') (alike : ribs.Alike ribs')
    (resolves' : Resolves names ribs' phrase' expr') :
    Joint ribs ribs' phrase.literals phrase'.literals expr.letSlots expr'.letSlots
      fun same pairs => Twin same pairs expr expr' := by
  induction resolves generalizing ribs' phrase' expr' bound with
  | numeral =>
    cases reordered with | numeral value =>
    cases resolves'
    exact .of_names fun _ _ _ => .constant _
  | boolean =>
    cases reordered with | boolean value =>
    cases resolves'
    exact .of_names fun _ _ _ => .constant _
  | text =>
    cases reordered with | text content =>
    cases resolves'
    exact .of_names fun _ _ _ => .constant _
  | @slot ribs _ _ _ id found =>
    cases reordered with | @ident _ _ _ id' same =>
    have here := alike id.name
    cases resolves' with
    | slot found' =>
      rw [← same] at found'
      rw [found, found'] at here
      cases here with | some equal =>
      dsimp only at equal
      subst equal
      exact .of_names fun _ _ names => .slot (names _ _ _ ⟨id.name, found, found'⟩)
    | constant free =>
      rw [← same] at free
      rw [found, free] at here
      cases here
  | @constant ribs _ _ id free found =>
    cases reordered with | @ident _ _ _ id' same =>
    have here := alike id.name
    cases resolves' with
    | slot found' =>
      rw [← same] at found'
      rw [free, found'] at here
      cases here
    | constant _ found' =>
      rw [← same] at found'
      obtain rfl := Option.some.inj (found.symm.trans found')
      exact .of_names fun _ _ _ => .constant _
  | list items _ ih =>
    cases known with | list known =>
    obtain ⟨location', items', rfl, each⟩ := reordered.of_list
    cases resolves' with | list others parts' =>
    rw [List.forall₂_map_left_iff, List.forall₂_map_right_iff] at each
    obtain ⟨pairs, rfl, rfl, partners⟩ := exists_pairs each
    have parts := Joint.all fun pair mem => ih pair.1 (List.mem_map_of_mem mem)
      (known _ (List.mem_map_of_mem (List.mem_map_of_mem mem))) (partners pair mem) alike
      (parts' pair.2 (List.mem_map_of_mem mem))
    simp only [Phrase.literals, Phrase.literalsAll_eq, List.flatMap_map, Expr.letSlots_list,
      List.map_map]
    exact parts.mono fun _ _ twins => .listOf twins
  | record fields _ ih =>
    cases known with | record _ known =>
    obtain ⟨location', fields', rfl, each⟩ := reordered.of_record
    generalize written : fields' = written' at resolves'
    cases resolves' with | record others parts' =>
    rw [written, List.forall₂_map_left_iff, List.forall₂_map_right_iff] at each
    obtain ⟨pairs, rfl, rfl, partners⟩ := exists_pairs each
    have parts := Joint.all fun pair mem => ih pair.1 (List.mem_map_of_mem mem)
      (known _ (List.mem_map_of_mem (List.mem_map_of_mem mem))) (partners pair mem).2 alike
      (parts' pair.2 (List.mem_map_of_mem mem))
    simp only [Phrase.literals, Phrase.literalsFields_eq, List.flatMap_map,
      Expr.letSlots_record, List.map_map]
    refine parts.mono fun _ _ twins => ?_
    have names : pairs.map (fun pair => (pair.2.1.name, pair.2.2.2)) =
        pairs.map fun pair => (pair.1.1.name, pair.2.2.2) :=
      List.map_congr_left fun pair mem => by rw [(partners pair mem).1]
    exact (congrArg (Twin _ _ _) (congrArg (Expr.record _) names.symm)) ▸ .recordOf twins
  | «module» group written layout _ ih =>
    cases known with | «module» written₁ distinct known =>
    obtain rfl := Option.some.inj (written.symm.trans written₁)
    cases reordered with | «module» items each order =>
    cases resolves' with | «module» group' written' layout' parts' =>
    obtain ⟨matched, rfl, order', partners⟩ := exists_matched each order written written'
    have named := named_matched (distinct_matched distinct) order' partners
    have parts := Joint.all fun pair mem => ih pair.1 (List.mem_map_of_mem mem)
      (known _ (List.mem_map_of_mem (List.mem_map_of_mem mem))) (partners pair mem).2
      (alike.cons named) (parts' pair.2 (order'.subset (List.mem_map_of_mem mem)))
    have placed := parts.perm (perm_matched order' (·.body.literals))
      (perm_matched order' (·.expr.letSlots))
    rw [List.flatMap_map] at layout
    have entered := placed.enter named (couples_matched order') layout layout'
    simp only [Phrase.literals, Phrase.literalsAll_eq, Phrase.literals_bindings written,
      Phrase.literals_bindings written', List.flatMap_map]
    refine entered.mono ?_
    rintro same pairs ⟨together, matching, own, twins⟩
    exact .moduleOf order' partners named matching
      (List.nodup_append.mp layout.nodup).1 own twins
  | lambda params layout _ ih =>
    cases known with | lambda _ known =>
    cases reordered with | lambda names inner =>
    cases resolves' with | lambda others layout' inner' =>
    rw [← names] at inner'
    have count := congrArg List.length names.symm
    rw [List.length_map, List.length_map] at count
    rw [count] at layout' ⊢
    have named := named_parameters (params.map (·.name))
    rw [List.length_map] at named
    refine (Joint.enter (ih known inner (alike.cons named) inner') named (couples_range _) layout
      layout').literal.mono ?_
    rintro same pairs ⟨literal, together, matching, own, twin⟩
    refine .lambda together literal matching (fun slot low => ?_) twin
    exact own (slot, slot) (List.mem_map.mpr ⟨slot, List.mem_range.mpr low, rfl⟩)
  | call args _ _ ih ih' =>
    cases known with | call knownHead known =>
    obtain ⟨location', function', args', rfl, head, each⟩ := reordered.of_call
    cases resolves' with | call others head' rest' =>
    rw [List.forall₂_map_left_iff, List.forall₂_map_right_iff] at each
    obtain ⟨pairs, rfl, rfl, partners⟩ := exists_pairs each
    have parts := Joint.all fun pair mem => ih' pair.1 (List.mem_map_of_mem mem)
      (known _ (List.mem_map_of_mem (List.mem_map_of_mem mem))) (partners pair mem) alike
      (rest' pair.2 (List.mem_map_of_mem mem))
    simp only [Phrase.literals, Phrase.literalsAll_eq, List.flatMap_map, Expr.letSlots_call,
      List.map_map]
    exact ((ih knownHead head alike head').and parts).mono fun _ _ twins =>
      .callOf twins.1 twins.2
  | dot _ ih =>
    cases known with | dot known =>
    cases reordered with | dot same part =>
    cases resolves' with | dot part' =>
    exact (ih known part alike part').mono fun _ _ twin => same ▸ .dot _ twin
  | index _ _ ih ih' =>
    cases known with | index known known' =>
    cases reordered with | index first second =>
    cases resolves' with | index first' second' =>
    simp only [Phrase.literals, Expr.letSlots_index]
    exact ((ih known first alike first').and (ih' known' second alike second')).mono
      fun _ _ twins => .index twins.1 twins.2
  | unary _ ih =>
    cases known with | unary known =>
    cases reordered with | unary op part =>
    cases resolves' with | unary part' =>
    exact (ih known part alike part').mono fun _ _ twin => .unary twin
  | binary _ _ ih ih' =>
    cases known with | binary known known' =>
    cases reordered with | binary op first second =>
    cases resolves' with | binary first' second' =>
    simp only [Phrase.literals_binary, Expr.letSlots_binary]
    exact ((ih known first alike first').and (ih' known' second alike second')).mono
      fun _ _ twins => .binary twins.1 twins.2
  | conditional _ _ _ ih ih' ih'' =>
    cases known with | conditional known known' known'' =>
    cases reordered with | conditional first second third =>
    cases resolves' with | conditional first' second' third' =>
    simp only [Phrase.literals, Expr.letSlots_conditional]
    exact (((ih known first alike first').and (ih' known' second alike second')).and
      (ih'' known'' third alike third')).mono fun _ _ twins =>
        .conditional twins.1.1 twins.1.2 twins.2
  | letIn group written _ _ ih ih' =>
    cases known with | letIn written₁ distinct known knownBody =>
    obtain rfl := Option.some.inj (written.symm.trans written₁)
    cases reordered with | letIn items each order rest =>
    cases resolves' with | letIn group' written' parts' rest' =>
    obtain ⟨matched, rfl, order', partners⟩ := exists_matched each order written written'
    have named := named_matched (distinct_matched distinct) order' partners
    have parts := Joint.all fun pair mem => ih pair.1 (List.mem_map_of_mem mem)
      (known _ (List.mem_map_of_mem (List.mem_map_of_mem mem))) (partners pair mem).2
      (alike.cons named) (parts' pair.2 (order'.subset (List.mem_map_of_mem mem)))
    have placed := parts.perm (perm_matched order' (·.body.literals))
      (perm_matched order' (·.expr.letSlots))
    have extended := (placed.and (ih' knownBody rest (alike.cons named) rest')).extend named
      (couples_matched order')
    simp only [Phrase.literals, Phrase.literalsAll_eq, Phrase.literals_bindings written,
      Phrase.literals_bindings written', List.flatMap_map, Expr.letSlots_letIn, map_slot_binding,
      List.append_assoc]
    refine extended.mono ?_
    rintro same pairs ⟨taken, own, twins, body⟩
    exact .letInOf order' taken own twins body
  | @forEach _ _ _ _ _ _ _ item _ layout _ ih ih' =>
    cases known with | forEach known known' =>
    cases reordered with | forEach same first inner =>
    cases resolves' with | forEach first' layout' inner' =>
    rw [← same] at inner'
    have named := named_parameters [item.name]
    have loop := Joint.enter (ih' known' inner (alike.cons named) inner') named (couples_range 1)
      layout layout'
    have both := (ih known first alike first').and loop
    simp only [List.append_nil] at both
    refine both.mono ?_
    rintro same pairs ⟨twin, together, matching, own, body⟩
    exact .forEach together twin matching (own (0, 0) (by simp)) body

end Resolves

/-- What belongs together for a whole program: slots of its own frame only. -/
def Pairing.ofRoot (slots : Nat → Nat → Prop) : Pairing := fun depth slot slot' =>
  depth = 0 ∧ slots slot slot'

namespace Phrase

theorem literals_asProgram (phrase : Phrase) : phrase.asProgram.literals = phrase.literals := by
  cases phrase with
  | definition => simp [asProgram, literals]
  | _ => rfl

/-- Programs whose definitions are in another order are resolved to twins. -/
theorem Reordered.twin {names : Namespace} {phrase phrase' : Phrase} {resolved resolved' : Resolved}
    (reordered : Reordered phrase phrase') (distinct : phrase.literals.Nodup)
    (distinct' : phrase'.literals.Nodup) (accepted : phrase.analyze names = .ok resolved)
    (accepted' : phrase'.analyze names = .ok resolved') :
    ∃ (literals : Location → Location → Prop) (slots : Nat → Nat → Prop),
      (∀ place place' other other', literals place place' → literals other other' →
        (place = other ↔ place' = other')) ∧
      Matching resolved.slotCount resolved'.slotCount slots ∧
      Twin literals (.ofRoot slots) resolved.expr resolved'.expr := by
  obtain ⟨resolves, layout⟩ := resolves_of_analyze accepted
  obtain ⟨resolves', layout'⟩ := resolves_of_analyze accepted'
  have known := (accepted_iff_wellFormed names phrase).mp ⟨resolved, accepted⟩
  have names : Ribs.Alike [] [] := fun _ => .none
  obtain ⟨literals, lets, located, given, twins⟩ :=
    resolves.joint known reordered.asProgram names resolves'
  rw [literals_asProgram, literals_asProgram] at located
  refine ⟨fun place place' => (place, place') ∈ literals, fun slot slot' => (slot, slot') ∈ lets,
    fun _ _ _ _ mem mem' => located.oneToOne distinct distinct' mem mem', ⟨?_, ?_⟩, ?_⟩
  · exact fun _ _ _ _ mem mem' => given.oneToOne layout.nodup layout'.nodup mem mem'
  · exact fun slot slot' mem =>
      ⟨layout.inside slot (given.mem_left mem), layout'.inside slot' (given.mem_right mem)⟩
  · refine twins layout.nodup _ _ (fun _ mem => mem) (fun _ mem => ⟨rfl, mem⟩) ?_
    rintro depth slot slot' ⟨name, found, -⟩
    cases found

end Phrase

end ShapeLang
