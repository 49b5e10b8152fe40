import ShapeLang.Proofs.Scope.Defining

/-! # References and parts of phrases

A name leads to the same slot through the scopes of the analysis as through their tables. What is
analysed in sequence gets different slots.
-/

namespace ShapeLang

namespace Scopes

variable {names : Namespace} {scopes : Scopes}

private theorem lookup_field (entries : List Definition) (name : String) :
    (entries.map Definition.field).lookup name =
      (entries.find? (·.name == name)).map (·.slot) := by
  induction entries with
  | nil => rfl
  | cons entry entries ih =>
    rw [List.map_cons, Definition.field, List.lookup_cons, List.find?_cons, ih]
    by_cases same : entry.name = name
    · simp [same]
    · have different : (name == entry.name) = false := by simpa using fun eq => same eq.symm
      have different' : (entry.name == name) = false := by simpa using same
      simp [different, different']

/-- What a name is bound to, in terms of the tables of the scopes. A definition that is found is
one of the scope that was found. -/
def Leads (names : Namespace) (scopes : Scopes) (name : String) : Option Binding → Prop
  | none => Ribs.resolve? scopes.ribs name = none ∧ names.lookup name = none
  | some (.constant value) =>
    Ribs.resolve? scopes.ribs name = none ∧ names.lookup name = some value
  | some (.slot depth slot) => Ribs.resolve? scopes.ribs name = some (depth, slot)
  | some (.definition depth slot inner) =>
    Ribs.resolve? scopes.ribs name = some (depth, slot) ∧ inner < scopes.length ∧
      Defining (scopes.drop inner) ∧ ∃ entry ∈ innermost (scopes.drop inner), entry.name = name

theorem Known.leads (known : Known names scopes) (name : String) :
    Leads names scopes name (resolve? scopes name) := by
  induction known with
  | root slotCount =>
    simp only [resolve?, Scope.find?]
    cases found : names.lookup name with
    | none => exact ⟨rfl, found⟩
    | some value => exact ⟨rfl, found⟩
  | @inner scope scopes outer binds _ _ _ ih =>
    obtain ⟨binders, opensFrame, slotCount⟩ := scope
    have further : ∀ rib, Scope.rib? ⟨binders, opensFrame, slotCount⟩ = some rib →
        rib.slots.lookup name = none → rib.opensFrame = opensFrame →
        Leads names (⟨binders, opensFrame, slotCount⟩ :: scopes) name
          ((resolve? scopes name).map (.fromInside opensFrame)) := by
      intro rib isRib missing opens
      have skip : Ribs.resolve? (ribs (⟨binders, opensFrame, slotCount⟩ :: scopes)) name =
          (Ribs.resolve? (ribs scopes) name).map fun place =>
            (if opensFrame then place.1 + 1 else place.1, place.2) := by
        simp only [ribs, List.filterMap_cons, isRib, Ribs.resolve?, missing, opens]
      cases bound : resolve? scopes name with
      | none => rw [bound] at ih; exact ⟨by rw [skip, ih.1]; rfl, ih.2⟩
      | some binding =>
        rw [bound] at ih
        cases binding with
        | constant value => exact ⟨by rw [skip, ih.1]; rfl, ih.2⟩
        | slot depth slot => exact skip.trans (by rw [show Ribs.resolve? _ name = _ from ih]; rfl)
        | definition depth slot inner =>
          obtain ⟨found, short, rest⟩ := ih
          exact ⟨by rw [skip, found]; rfl, by simpa using short, rest⟩
    cases binders with
    | constants names' => simp [Scope.rib?] at binds
    | parameters slots =>
      simp only [resolve?, Scope.find?]
      cases found : slots.lookup name with
      | none => exact further _ rfl found rfl
      | some slot => simp [Leads, ribs, Scope.rib?, Ribs.resolve?, found]
    | definitions entries requests =>
      simp only [resolve?, Scope.find?]
      have table := lookup_field entries name
      cases found : entries.find? (·.name == name) with
      | none => exact further _ rfl (by rw [table, found]; rfl) rfl
      | some entry =>
        rw [found] at table
        have isName : entry.name = name := by simpa using List.find?_some found
        refine ⟨?_, by simp, ⟨_, _, _, _, _, rfl⟩, entry, List.mem_of_find?_eq_some found, isName⟩
        simp [ribs, Scope.rib?, Ribs.resolve?, table]

end Scopes

namespace Analysis

open Scopes

variable {names : Namespace} {scopes : Scopes}

section Binding

private theorem ends_params (args : List Phrase) :
    Ends (args.mapM fun arg =>
        match arg with
        | .ident _ param => pure param
        | _ => raise .invalidDefinition arg.location : Analysis (List Ident)) scopes
      (fun params after => args.mapM Phrase.param? = some params ∧ scopes = after)
      (Fails scopes) := by
  induction args with
  | nil => exact Ends.pure ⟨rfl, rfl⟩
  | cons arg args ih =>
    rw [List.mapM_cons]
    refine Ends.through (fun param after => arg.param? = some param ∧ scopes = after) ?_ ?_
    · cases arg <;> first
        | exact Ends.pure ⟨rfl, rfl⟩
        | exact Ends.complain (Fails.exception scopes)
    · rintro param _ ⟨first, rfl⟩
      refine ih.bind ?_
      rintro params _ ⟨rest, rfl⟩
      refine Ends.pure ⟨?_, rfl⟩
      rw [List.mapM_cons, first, rest]
      rfl

theorem ends_splitDefinition (location : Location) (target definiens : Phrase) :
    Ends (splitDefinition location target definiens) scopes
      (fun result after => scopes = after ∧
        (Phrase.definition location target definiens).binding? = some (result.1.name, result.2))
      (Fails scopes) := by
  unfold splitDefinition
  split
  · exact Ends.pure ⟨rfl, rfl⟩
  · refine (ends_params _).bind ?_
    rintro params _ ⟨named, rfl⟩
    exact Ends.pure ⟨rfl, by simp [Phrase.binding?, named]⟩
  · exact Ends.complain (Fails.exception scopes)

/-- The definitions of a group are those that are written there, and have different names. -/
theorem ends_collectDefinitions (seen : List String) (items : List Phrase) :
    Ends (collectDefinitions seen items) scopes
      (fun definitions after => scopes = after ∧
        items.mapM Phrase.binding? = some definitions ∧ (definitions.map (·.1)).Nodup ∧
        ∀ name ∈ definitions.map (·.1), name ∉ seen)
      (Fails scopes) := by
  induction items generalizing seen with
  | nil => exact Ends.pure ⟨rfl, rfl, by simp, by simp⟩
  | cons item items ih =>
    cases item with
    | definition location target definiens =>
      simp only [collectDefinitions]
      refine (ends_splitDefinition location target definiens).bind ?_
      rintro ⟨id, body⟩ _ ⟨rfl, named⟩
      dsimp only at named ⊢
      by_cases known : id.name ∈ seen
      · rw [if_pos known]
        exact Ends.stop (.complain (Fails.exception _))
      · rw [if_neg known]
        refine (ih (id.name :: seen)).bind ?_
        rintro rest _ ⟨rfl, written, distinct, fresh⟩
        refine Ends.pure ⟨rfl, ?_, ?_, ?_⟩
        · rw [List.mapM_cons, named, written]
          rfl
        · rw [List.map_cons, List.nodup_cons]
          exact ⟨fun mem => fresh id.name mem List.mem_cons_self, distinct⟩
        · intro name mem
          rcases List.mem_cons.mp mem with rfl | mem
          · exact known
          · exact fun again => fresh name mem (List.mem_cons_of_mem _ again)
    | _ => exact Ends.complain (Fails.exception scopes)

theorem ends_checkParameters (seen : List String) (params : List Ident) :
    Ends (checkParameters seen params) scopes (fun _ after => scopes = after)
      (Fails scopes) := by
  induction params generalizing seen with
  | nil => exact Ends.pure rfl
  | cons param params ih =>
    simp only [checkParameters]
    by_cases known : param.name ∈ seen
    · rw [if_pos known]
      exact Ends.stop (.complain (Fails.exception _))
    · rw [if_neg known]
      exact ih (param.name :: seen)

end Binding

section Parts

variable {analyze : Phrase → Analysis Expr}

/-- Phrases one after the other. -/
theorem ends_analyzeAll (sound : Sound names analyze) (phrases : List Phrase)
    (known : Known names scopes) :
    Ends (phrases.mapM analyze) scopes
      (fun exprs after => ∃ parts : List (Phrase × Expr), phrases = parts.map (·.1) ∧
        exprs = parts.map (·.2) ∧
        (∀ part ∈ parts, Resolves names (ribs scopes) part.1 part.2) ∧
        Reached names scopes (exprs.flatMap Expr.letSlots) after)
      (Fails scopes) := by
  induction phrases generalizing scopes with
  | nil => exact Ends.pure ⟨[], rfl, rfl, by simp, .refl known⟩
  | cons phrase phrases ih =>
    rw [List.mapM_cons]
    refine (sound scopes phrase known).bind ?_
    rintro expr middle ⟨resolves, reached⟩
    refine ((ih reached.known).mono (fun _ _ ok => ok)
      fun _ _ failed => .of_grown reached.grown failed).bind ?_
    rintro _ after ⟨parts, rfl, rfl, resolved, reached'⟩
    refine Ends.pure ⟨(phrase, expr) :: parts, rfl, rfl, ?_, ?_⟩
    · rintro part mem
      rcases List.mem_cons.mp mem with rfl | mem
      · exact resolves
      · exact reached.grown.ribs_eq ▸ resolved part mem
    · rw [List.flatMap_cons]
      exact reached.trans reached'

theorem ends_fields (sound : Sound names analyze) (seen : List String)
    (written : List (Ident × Phrase)) (known : Known names scopes) :
    Ends (fields analyze seen written) scopes
      (fun exprs after => ∃ parts : List (Ident × Phrase × Expr),
        written = parts.map (fun part => (part.1, part.2.1)) ∧
        exprs = parts.map (fun part => (part.1.name, part.2.2)) ∧
        (∀ part ∈ parts, Resolves names (ribs scopes) part.2.1 part.2.2) ∧
        Reached names scopes (exprs.flatMap (·.2.letSlots)) after)
      (Fails scopes) := by
  induction written generalizing scopes seen with
  | nil => exact Ends.pure ⟨[], rfl, rfl, by simp, .refl known⟩
  | cons field rest ih =>
    obtain ⟨id, phrase⟩ := field
    simp only [fields]
    by_cases again : id.name ∈ seen
    · rw [if_pos again]
      exact Ends.stop (.complain (Fails.exception _))
    rw [if_neg again]
    refine (sound scopes phrase known).bind ?_
    rintro expr middle ⟨resolves, reached⟩
    refine ((ih (id.name :: seen) reached.known).mono (fun _ _ ok => ok)
      fun _ _ failed => .of_grown reached.grown failed).bind ?_
    rintro _ after ⟨parts, rfl, rfl, resolved, reached'⟩
    refine Ends.pure ⟨(id, phrase, expr) :: parts, rfl, rfl, ?_, ?_⟩
    · rintro part mem
      rcases List.mem_cons.mp mem with rfl | mem
      · exact resolves
      · exact reached.grown.ribs_eq ▸ resolved part mem
    · rw [List.flatMap_cons]
      exact reached.trans reached'

theorem ends_reference (sound : Sound names analyze) (location : Location) (id : Ident)
    (known : Known names scopes) :
    Ends (reference analyze location id) scopes
      (fun expr after => Resolves names (ribs scopes) (.ident location id) expr ∧
        Reached names scopes expr.letSlots after)
      (Fails scopes) := by
  refine Ends.through (fun found now => scopes = found ∧ scopes = now)
    (.get ⟨rfl, rfl⟩) ?_
  rintro _ _ ⟨rfl, rfl⟩
  have leads := known.leads id.name
  revert leads
  cases Scopes.resolve? scopes id.name with
  | none => exact fun _ => Ends.complain (Fails.exception _)
  | some binding =>
    cases binding with
    | constant value =>
      exact fun leads => Ends.pure ⟨.constant leads.1 leads.2, by simpa using .refl known⟩
    | slot depth slot => exact fun leads => Ends.pure ⟨.slot leads, by simpa using .refl known⟩
    | definition depth slot inner =>
      rintro ⟨found, short, defining, listed⟩
      refine Ends.through (fun _ after => Known names after ∧ Grown scopes after) ?_ ?_
      · refine .outside ((ends_define sound (known.drop short) defining listed).mono ?_ ?_)
        · rintro _ after ⟨known', grown, -⟩
          exact known.graft short grown known'
        · rintro fault after ⟨harmless, length⟩
          refine ⟨harmless, ?_⟩
          rw [List.length_append, List.length_take, length, List.length_drop]
          omega
      · rintro _ after ⟨known', grown⟩
        refine Ends.pure ⟨.slot found, ?_⟩
        rw [Expr.letSlots_slot]
        exact .of_grown known' grown

end Parts

end Analysis

end ShapeLang
