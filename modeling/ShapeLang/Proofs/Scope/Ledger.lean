import Mathlib.Data.List.Forall2
import Mathlib.Data.List.Nodup
import ShapeLang.Proofs.Scope.Resolution

/-! # How scopes grow during analysis

Analysing a phrase may settle definitions of any scope around it and takes further slots of any
frame, but changes nothing else. The slots in use in a frame are those of its scopes and those of
the `let`s in the definitions that are settled; they stay different from each other, since new
slots are always counted up.
-/

namespace ShapeLang

namespace Definition

/-- The slots of the `let`s in a definition that is analysed. -/
def letSlots (definition : Definition) : List Nat :=
  match definition.progress with
  | .done expr => expr.letSlots
  | _ => []

def field (definition : Definition) : String × Nat := (definition.name, definition.slot)

/-- A definition stays as it is, or is settled. -/
inductive Advances : Definition → Definition → Prop
  | same (definition : Definition) : Advances definition definition
  | settled (name : String) (slot : Nat) (body : Phrase) (expr : Expr) :
    Advances ⟨name, slot, body, .waiting⟩ ⟨name, slot, body, .done expr⟩

namespace Advances

variable {before middle after : Definition}

theorem trans (first : Advances before middle) (second : Advances middle after) :
    Advances before after := by
  cases first with
  | same => exact second
  | settled name slot body expr =>
    cases second with
    | same => exact .settled name slot body expr

theorem field (advances : Advances before after) : after.field = before.field := by
  cases advances <;> rfl

theorem active (advances : Advances before after) (idle : before.progress ≠ .active) :
    after.progress ≠ .active := by
  cases advances with
  | same => exact idle
  | settled => simp

end Advances

end Definition

namespace Scope

def entries (scope : Scope) : List Definition :=
  match scope.binders with
  | .definitions entries _ => entries
  | _ => []

/-- The slots that names of the scope have. -/
def slots (scope : Scope) : List Nat :=
  match scope.binders with
  | .constants _ => []
  | .definitions entries _ => entries.map (·.slot)
  | .parameters slots => slots.map (·.2)

/-- The slots of the `let`s in the definitions that are settled. -/
def letSlots (scope : Scope) : List Nat := scope.entries.flatMap Definition.letSlots

def rib? (scope : Scope) : Option Rib :=
  match scope.binders with
  | .constants _ => none
  | .definitions entries _ => some ⟨entries.map Definition.field, scope.opensFrame⟩
  | .parameters slots => some ⟨slots, scope.opensFrame⟩

end Scope

/-- A group of definitions advances entry by entry. -/
inductive Binders.Advances : Binders → Binders → Prop
  | same (binders : Binders) : Advances binders binders
  | definitions {entries entries' : List Definition} {requests requests' : List String}
    (each : List.Forall₂ Definition.Advances entries entries') :
    Advances (.definitions entries requests) (.definitions entries' requests')

namespace Scopes

def ribs (scopes : Scopes) : Ribs := scopes.filterMap Scope.rib?

/-- The slots of the current frame that are in use. -/
def taken : Scopes → List Nat
  | [] => []
  | scope :: scopes =>
    scope.slots ++ scope.letSlots ++ if scope.opensFrame then [] else taken scopes

/-- The scopes after some analysis. -/
inductive Grown : Scopes → Scopes → Prop
  | nil : Grown [] []
  | cons {binders binders' : Binders} {opensFrame : Bool} {slotCount slotCount' : Nat}
    {before after : Scopes} (advances : binders.Advances binders')
    (counted : slotCount ≤ slotCount')
    (fresh : ∀ slot ∈ Scope.letSlots ⟨binders', opensFrame, slotCount'⟩,
      slot ∈ Scope.letSlots ⟨binders, opensFrame, slotCount⟩ ∨
        Scopes.slotCount (⟨binders, opensFrame, slotCount⟩ :: before) ≤ slot)
    (outer : Grown before after) :
    Grown (⟨binders, opensFrame, slotCount⟩ :: before) (⟨binders', opensFrame, slotCount'⟩ :: after)

end Scopes

theorem forall₂_advances_trans {before middle after : List Definition}
    (first : List.Forall₂ Definition.Advances before middle)
    (second : List.Forall₂ Definition.Advances middle after) :
    List.Forall₂ Definition.Advances before after := by
  induction first generalizing after with
  | nil => exact second
  | cons head _ ih =>
    cases second with
    | cons head' tail' => exact .cons (head.trans head') (ih tail')

namespace Binders.Advances

variable {before middle after : Binders} {opensFrame : Bool} {slotCount slotCount' : Nat}

theorem trans (first : Advances before middle) (second : Advances middle after) :
    Advances before after := by
  cases first with
  | same => exact second
  | definitions each =>
    cases second with
    | same => exact .definitions each
    | definitions each' => exact .definitions (forall₂_advances_trans each each')

theorem entries (advances : Advances before after) :
    List.Forall₂ Definition.Advances (Scope.entries ⟨before, opensFrame, slotCount⟩)
      (Scope.entries ⟨after, opensFrame, slotCount'⟩) := by
  cases advances with
  | same => exact List.forall₂_same.mpr fun definition _ => .same definition
  | definitions each => exact each

theorem map_field {before after : List Definition}
    (each : List.Forall₂ Definition.Advances before after) :
    after.map Definition.field = before.map Definition.field := by
  induction each with
  | nil => rfl
  | cons head _ ih => rw [List.map_cons, List.map_cons, head.field, ih]

theorem rib? (advances : Advances before after) (opensFrame : Bool)
    (slotCount slotCount' : Nat) :
    Scope.rib? ⟨after, opensFrame, slotCount'⟩ = Scope.rib? ⟨before, opensFrame, slotCount⟩ := by
  cases advances with
  | same => rfl
  | definitions each => simp only [Scope.rib?, map_field each]

theorem map_name {before after : List Definition}
    (each : List.Forall₂ Definition.Advances before after) :
    after.map (·.name) = before.map (·.name) := by
  simpa [Function.comp_def, Definition.field] using congrArg (List.map (·.1)) (map_field each)

theorem slots (advances : Advances before after) :
    Scope.slots ⟨after, opensFrame, slotCount'⟩ = Scope.slots ⟨before, opensFrame, slotCount⟩ := by
  cases advances with
  | same => rfl
  | definitions each =>
    simpa [Function.comp_def, Definition.field, Scope.slots] using
      congrArg (List.map (·.2)) (map_field each)

end Binders.Advances

namespace Scopes

namespace Grown

variable {before middle after : Scopes}

theorem refl : (scopes : Scopes) → Grown scopes scopes
  | [] => .nil
  | ⟨binders, _, _⟩ :: scopes =>
    .cons (.same binders) (Nat.le_refl _) (fun _ mem => .inl mem) (refl scopes)

theorem length_eq (grown : Grown before after) : after.length = before.length := by
  induction grown with
  | nil => rfl
  | cons _ _ _ _ ih => rw [List.length_cons, List.length_cons, ih]

theorem ribs_eq (grown : Grown before after) : ribs after = ribs before := by
  induction grown with
  | nil => rfl
  | @cons _ _ opensFrame slotCount slotCount' _ _ advances _ _ _ ih =>
    have rib := advances.rib? opensFrame slotCount slotCount'
    simp only [ribs, List.filterMap_cons, rib] at ih ⊢
    rw [ih]

theorem slotCount_le (grown : Grown before after) : slotCount before ≤ slotCount after := by
  induction grown with
  | nil => exact Nat.le_refl _
  | @cons _ _ opensFrame _ _ _ _ _ counted _ _ ih =>
    simp only [slotCount]
    cases opensFrame with
    | true => exact counted
    | false => exact ih

theorem trans (first : Grown before middle) (second : Grown middle after) :
    Grown before after := by
  induction first generalizing after with
  | nil => exact second
  | cons advances counted fresh outer ih =>
    cases second with
    | cons advances' counted' fresh' outer' =>
      refine .cons (advances.trans advances') (Nat.le_trans counted counted')
        (fun slot mem => ?_) (ih outer')
      rcases fresh' slot mem with old | new
      · exact fresh slot old
      · exact .inr (Nat.le_trans (cons advances counted fresh outer).slotCount_le new)

/-- Slots that are taken later are counted up. -/
theorem taken_fresh (grown : Grown before after) (slot : Nat) (mem : slot ∈ taken after) :
    slot ∈ taken before ∨ slotCount before ≤ slot := by
  induction grown with
  | nil => simp [taken] at mem
  | @cons binders _ opensFrame _ _ _ _ advances _ fresh _ ih =>
    simp only [taken, List.mem_append] at mem ⊢
    rcases mem with (own | inner) | outer
    · rw [advances.slots] at own
      exact .inl (.inl (.inl own))
    · exact (fresh slot inner).imp (fun old => .inl (.inr old)) id
    · cases opensFrame with
      | true => simp at outer
      | false =>
        simp only [Bool.false_eq_true, ↓reduceIte] at outer ⊢
        exact (ih outer).imp .inr id

/-- The scopes further out may grow while the innermost one stays as it is. -/
theorem under (scope : Scope) (grown : Grown before after) :
    Grown (scope :: before) (scope :: after) :=
  .cons (.same _) (Nat.le_refl _) (fun _ mem => .inl mem) grown

end Grown

variable (names : Namespace)

/-- Scopes whose settled definitions are resolved, with different names and different slots. The
outermost scope holds the names of the whole program. -/
inductive Known : Scopes → Prop
  | root (slotCount : Nat) : Known [⟨.constants names, true, slotCount⟩]
  | inner {scope : Scope} {scopes : Scopes} (outer : Known scopes) (binds : scope.rib?.isSome)
    (distinct : (scope.entries.map (·.name)).Nodup)
    (layout : Room (slotCount (scope :: scopes)) (taken (scope :: scopes)))
    (resolved : ∀ entry ∈ scope.entries, ∀ expr, entry.progress = .done expr →
      Resolves names (ribs (scope :: scopes)) entry.body expr) :
    Known (scope :: scopes)

namespace Known

variable {names} {scope : Scope} {scopes before after : Scopes}

theorem layout (known : Known names scopes) : Room (slotCount scopes) (taken scopes) := by
  cases known with
  | root => exact ⟨by simp [taken, Scope.slots, Scope.letSlots, Scope.entries],
      by simp [taken, Scope.slots, Scope.letSlots, Scope.entries]⟩
  | inner _ _ _ layout _ => exact layout

theorem tail (known : Known names (scope :: scopes)) (nonempty : scopes ≠ []) :
    Known names scopes := by
  cases known with
  | root => exact (nonempty rfl).elim
  | inner outer => exact outer

/-- The innermost scope stays known when the scopes around it grow. -/
theorem under (known : Known names (scope :: before)) (nonempty : before ≠ [])
    (grown : Grown before after) (outer : Known names after) : Known names (scope :: after) := by
  cases known with
  | root => exact (nonempty rfl).elim
  | inner _ binds distinct layout resolved =>
    have ribs : ribs (scope :: after) = ribs (scope :: before) := (grown.under scope).ribs_eq
    refine .inner outer binds distinct ?_ (ribs ▸ resolved)
    cases opens : scope.opensFrame with
    | true => simpa [slotCount, taken, opens] using layout
    | false =>
      obtain ⟨nodup, inside⟩ := layout
      simp only [slotCount, taken, opens, Bool.false_eq_true, ↓reduceIte] at nodup inside ⊢
      obtain ⟨nodupOwn, _, apart⟩ := List.nodup_append'.mp nodup
      refine ⟨List.nodup_append'.mpr ⟨nodupOwn, outer.layout.nodup, fun slot own other => ?_⟩,
        fun slot mem => ?_⟩
      · rcases grown.taken_fresh slot other with old | new
        · exact apart own old
        · have := inside slot (List.mem_append_left _ own)
          omega
      · rcases List.mem_append.mp mem with own | other
        · exact Nat.lt_of_lt_of_le (inside slot (List.mem_append_left _ own)) grown.slotCount_le
        · exact outer.layout.inside slot other

/-- Scopes somewhere further out may grow while those inside stay as they are. -/
theorem graft (known : Known names scopes) {n : Nat} (short : n < scopes.length)
    (grown : Grown (scopes.drop n) after) (outer : Known names after) :
    Known names (scopes.take n ++ after) ∧ Grown scopes (scopes.take n ++ after) := by
  induction n generalizing scopes with
  | zero => exact ⟨outer, grown⟩
  | succ n ih =>
    cases scopes with
    | nil => simp at short
    | cons scope scopes =>
      have shorter : n < scopes.length := by simpa using short
      have nonempty : scopes ≠ [] := by rintro rfl; simp at shorter
      obtain ⟨known', grown'⟩ := ih (known.tail nonempty) shorter grown
      exact ⟨known.under nonempty grown' known', grown'.under scope⟩

theorem drop (known : Known names scopes) {n : Nat} (short : n < scopes.length) :
    Known names (scopes.drop n) := by
  induction n generalizing scopes with
  | zero => exact known
  | succ n ih =>
    cases scopes with
    | nil => simp at short
    | cons scope scopes =>
      have shorter : n < scopes.length := by simpa using short
      exact ih (known.tail (by rintro rfl; simp at shorter)) shorter

end Known

/-- Analysis has reached the scopes `after`; the `let`s of what it has made so far have the given
slots. -/
structure Reached (before : Scopes) (slots : List Nat) (after : Scopes) : Prop where
  known : Known names after
  grown : Grown before after
  layout : Room (slotCount after) (slots ++ taken after)
  fresh : ∀ slot ∈ slots, slotCount before ≤ slot

namespace Reached

variable {names} {scopes before middle after : Scopes} {slots slots' : List Nat}

theorem of_grown (known : Known names after) (grown : Grown before after) :
    Reached names before [] after :=
  ⟨known, grown, known.layout, by simp⟩

theorem refl (known : Known names scopes) : Reached names scopes [] scopes :=
  of_grown known (.refl scopes)

theorem trans (first : Reached names before slots middle)
    (second : Reached names middle slots' after) :
    Reached names before (slots ++ slots') after := by
  refine ⟨second.known, first.grown.trans second.grown, ⟨?_, fun slot mem => ?_⟩,
    fun slot mem => ?_⟩
  · obtain ⟨nodup, _, apart⟩ := List.nodup_append'.mp first.layout.nodup
    rw [List.append_assoc]
    refine List.nodup_append'.mpr ⟨nodup, second.layout.nodup, fun slot own other => ?_⟩
    have low := first.layout.inside slot (List.mem_append_left _ own)
    rcases List.mem_append.mp other with later | later
    · exact absurd low (Nat.not_lt.mpr (second.fresh slot later))
    · rcases second.grown.taken_fresh slot later with old | new
      · exact apart own old
      · exact absurd low (Nat.not_lt.mpr new)
  · rw [List.append_assoc, List.mem_append] at mem
    rcases mem with own | later
    · exact Nat.lt_of_lt_of_le (first.layout.inside slot (List.mem_append_left _ own))
        second.grown.slotCount_le
    · exact second.layout.inside slot later
  · rcases List.mem_append.mp mem with own | later
    · exact first.fresh slot own
    · exact Nat.le_trans first.grown.slotCount_le (second.fresh slot later)

end Reached

end Scopes

end ShapeLang
