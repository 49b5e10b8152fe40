import ShapeLang.Proofs.Scope.Requests

/-! # Sources of definitions

The definitions of a module can come from anywhere: a source lists their names and is asked for the
definiens of one name at a time. Analysis ends for every source in all scopes. It asks for each name
at most once, and for all names that are listed if it succeeds.
-/

namespace ShapeLang

/-- Where the definitions of a module come from. -/
structure DefinitionSource where
  /-- All names, in the order of the definitions. -/
  names : List String
  /-- What a name that is listed stands for. -/
  definiens : String → Phrase

namespace Scope

/-- The definitions of this scope that were asked for. -/
def requests (scope : Scope) : List String :=
  match scope.binders with
  | .definitions _ requests => requests
  | _ => []

end Scope

namespace DefinitionSource

/-- Gives a slot to a name. A name that has one already keeps its place in the table. -/
def insert (table : List (String × Nat)) (field : String × Nat) : List (String × Nat) :=
  if field.1 ∈ table.map (·.1) then
    table.map fun other => if other.1 == field.1 then field else other
  else table ++ [field]

variable (source : DefinitionSource)

/-- The fields of the module, with their slots. -/
def fields : List (String × Nat) :=
  (source.names.mapIdx fun i name => (name, i)).foldl insert []

def entries : List Definition :=
  source.fields.map fun field => ⟨field.1, field.2, source.definiens field.1, .waiting⟩

/-- The scope of a module whose definitions come from the source. -/
def scope : Scope := ⟨.definitions source.entries [], true, source.entries.length⟩

/-- The size of all that the source has. -/
def size : Nat := (source.entries.map Definition.backlog).sum

/-- Analyses the module, and tells in which order the definitions were asked for. -/
def analyze (fuel : Nat) (scopes : Scopes) : Except Fault ModuleExpr × List String :=
  match Analysis.defineAll (Analysis.exprUpTo fuel) (source.scope :: scopes) with
  | (result, closed :: _) => (result.bind (Analysis.moduleFrom closed), closed.requests)
  | (_, []) => (.error (.defect .noDefinitions), [])

section Fields

variable {table : List (String × Nat)} {field : String × Nat}

theorem names_insert : (insert table field).map (·.1) =
    if field.1 ∈ table.map (·.1) then table.map (·.1) else table.map (·.1) ++ [field.1] := by
  unfold insert
  split
  · rw [List.map_map]
    refine List.map_congr_left fun other _ => ?_
    by_cases same : other.1 = field.1
    · simp [same]
    · simp [same]
  · simp

theorem nodup_insert (distinct : (table.map (·.1)).Nodup) :
    ((insert table field).map (·.1)).Nodup := by
  rw [names_insert]
  split
  · exact distinct
  · rename_i new
    exact List.nodup_append'.mpr ⟨distinct, List.nodup_singleton _, by simpa using new⟩

/-- Names get their places when they are listed first. -/
private theorem names_foldl (listed : List (String × Nat)) {seen : List String}
    (before : table.map (·.1) = seen.eraseDups) (distinct : (table.map (·.1)).Nodup) :
    (listed.foldl insert table).map (·.1) = (seen ++ listed.map (·.1)).eraseDups ∧
      ((listed.foldl insert table).map (·.1)).Nodup := by
  induction listed generalizing table seen with
  | nil => exact ⟨by simpa using before, distinct⟩
  | cons field listed ih =>
    have next : (insert table field).map (·.1) = (seen ++ [field.1]).eraseDups := by
      rw [names_insert, before, List.eraseDups_append]
      by_cases known : field.1 ∈ seen <;> simp [known, List.removeAll, List.eraseDups_cons]
    simpa using ih next (nodup_insert distinct)

private theorem map_mapIdx_fst (names : List String) :
    (names.mapIdx fun i name => (name, i)).map (·.1) = names := by
  apply List.ext_getElem <;> simp

/-- The fields are the names in the order in which they are listed first. -/
theorem names_fields (source : DefinitionSource) :
    source.fields.map (·.1) = source.names.eraseDups ∧ (source.fields.map (·.1)).Nodup := by
  have empty : ([] : List (String × Nat)).map (·.1) = ([] : List String).eraseDups := rfl
  have table := names_foldl (source.names.mapIdx fun i name => (name, i)) empty List.nodup_nil
  rwa [map_mapIdx_fst, List.nil_append] at table

/-- Names that are all different get consecutive slots. -/
theorem fields_of_nodup {source : DefinitionSource} (distinct : source.names.Nodup) :
    source.fields = source.names.mapIdx fun i name => (name, i) := by
  have appended (listed table : List (String × Nat)) (apart : ((table ++ listed).map (·.1)).Nodup) :
      listed.foldl insert table = table ++ listed := by
    induction listed generalizing table with
    | nil => simp
    | cons field listed ih =>
      have new : field.1 ∉ table.map (·.1) := by
        rw [List.map_append, List.map_cons] at apart
        exact fun mem => (List.nodup_append'.mp apart).2.2 mem List.mem_cons_self
      rw [List.foldl_cons, insert, if_neg new, ih _ (by simpa using apart)]
      simp
  exact appended _ [] (by simpa only [List.nil_append, map_mapIdx_fst] using distinct)

end Fields

section Analysing

variable (source : DefinitionSource)

/-- The definitions that the source has, in order. -/
def definitions : List (String × Phrase) := source.names.map fun name => (name, source.definiens name)

theorem scope_of_nodup {source : DefinitionSource} (distinct : source.names.Nodup) :
    source.scope = .ofModule source.definitions := by
  have same : source.entries = Scope.entriesFrom 0 source.definitions := by
    rw [entries, fields_of_nodup distinct]
    apply List.ext_getElem <;> simp [Scope.entriesFrom, definitions]
  have length : source.definitions.length = (Scope.entriesFrom 0 source.definitions).length := by
    simp [Scope.entriesFrom]
  rw [scope, Scope.ofModule, same, length]

theorem size_of_nodup {source : DefinitionSource} (distinct : source.names.Nodup) :
    source.size = (source.definitions.map (·.2.size)).sum := by
  have scope := scope_of_nodup distinct
  have whole := Scopes.backlog_entriesFrom 0 source.definitions.length true source.definitions []
  rw [← Scope.ofModule, ← scope] at whole
  exact whole

theorem map_name_entries : source.entries.map (·.name) = source.fields.map (·.1) := by
  simp [entries, Function.comp_def]

theorem waiting_entries : ∀ entry ∈ source.entries, entry.progress = .waiting := by
  intro entry mem
  obtain ⟨field, -, rfl⟩ := List.mem_map.mp mem
  rfl

/-- Nothing was asked for yet. -/
theorem logged_entries : Logged source.entries [] := by
  refine ⟨?_, ?_, fun entry mem expr settled => ?_⟩
  · rw [map_name_entries]
    exact source.names_fields.2
  · have nothing : source.entries.filter (·.met) = [] :=
      List.filter_eq_nil_iff.mpr fun entry mem => by simp [Definition.met, source.waiting_entries entry mem]
    rw [nothing]
    exact .refl _
  · rw [source.waiting_entries entry mem] at settled
    cases settled

/-- Analysis of a module literal is analysis of what the source has. -/
theorem moduleOf_eq_analyze {source : DefinitionSource} (distinct : source.names.Nodup) (fuel : Nat)
    (scopes : Scopes) :
    (Analysis.moduleOf (Analysis.exprUpTo fuel) source.definitions scopes).1 =
      (source.analyze fuel scopes).1 := by
  unfold analyze
  rw [Analysis.moduleOf, bind_run, Analysis.inside, ← scope_of_nodup distinct]
  rcases Analysis.defineAll (Analysis.exprUpTo fuel) (source.scope :: scopes) with
    ⟨fault | bindings, _ | ⟨closed, outer⟩⟩ <;> rfl

theorem analyzeModule_eq_analyze {source : DefinitionSource} (distinct : source.names.Nodup)
    (names : Namespace) :
    Phrase.analyzeModule names source.definitions =
      source.analyze source.size [.ofNamespace names] := by
  have fuel : source.definitions.foldr (fun definition total => definition.2.size + total) 0 =
      source.size := by
    rw [size_of_nodup distinct]
    induction source.definitions with
    | nil => rfl
    | cons definition definitions ih => rw [List.foldr_cons, ih, List.map_cons, List.sum_cons]
  unfold analyze Phrase.analyzeModule
  rw [fuel, ← scope_of_nodup distinct]
  rfl

end Analysing

/-- The module has the fields of the source, and for each of them one definition: in the slot of the
field, and standing where the definiens stands. -/
structure Describes (source : DefinitionSource) (m : ModuleExpr) : Prop where
  fields : m.fields = source.fields
  names : m.fields.map (·.1) = source.names.eraseDups
  definitions : List.Forall₂ (fun field definition => definition.1 = field.2 ∧
    definition.2.location = (source.definiens field.1).location) m.fields m.definitions

/-- How the analysis of a module ends: with a module for which each definition was asked for once,
or with an exception before that. -/
structure Settles (source : DefinitionSource) (result : Except Fault ModuleExpr)
    (requests : List String) : Prop where
  harmless : ∀ fault, result = .error fault → ∃ e, fault = .exception e
  once : requests.Nodup
  listed : ∀ name ∈ requests, name ∈ source.names
  all : ∀ m, result = .ok m → requests.Perm source.names.eraseDups ∧ source.Describes m

/-- The log of a group of definitions. -/
private theorem once_of_logged {entries : List Definition} {requests : List String}
    (logged : Logged entries requests) :
    requests.Nodup ∧ ∀ name ∈ requests, name ∈ entries.map (·.name) := by
  have part : ((entries.filter (·.met)).map (·.name)).Sublist (entries.map (·.name)) :=
    List.filter_sublist.map _
  constructor
  · exact logged.log.nodup_iff.mpr (logged.distinct.sublist part)
  · exact fun name mem => part.subset (logged.log.mem_iff.mp mem)

/-- The fields of a group that has moved on. -/
private theorem map_field_of_onward {ended : Prop} {before after : List Definition}
    (each : List.Forall₂ (Definition.Onward ended) before after) :
    after.map Definition.field = before.map Definition.field := by
  induction each with
  | nil => rfl
  | cons head _ ih => rw [List.map_cons, List.map_cons, head.field, ih]

private theorem map_field_entries (source : DefinitionSource) :
    source.entries.map Definition.field = source.fields := by
  simp [entries, Definition.field, Function.comp_def]

private theorem map_name_of_onward {ended : Prop} {source : DefinitionSource}
    {entries : List Definition}
    (each : List.Forall₂ (Definition.Onward ended) source.entries entries) :
    entries.map (·.name) = source.names.eraseDups := by
  have fields := (map_field_of_onward each).trans source.map_field_entries
  rw [← source.names_fields.1, ← fields, List.map_map]
  rfl

private theorem mem_names_of_onward {ended : Prop} (source : DefinitionSource)
    {entries : List Definition}
    (each : List.Forall₂ (Definition.Onward ended) source.entries entries) {name : String}
    (mem : name ∈ entries.map (·.name)) : name ∈ source.names :=
  List.mem_eraseDups.mp (map_name_of_onward each ▸ mem)

/-- Where a group of definitions is settled, all of them were asked for. -/
private theorem describes_of_settled {source : DefinitionSource} {entries : List Definition}
    {requests : List String} {bindings : List (Nat × Expr)} (slotCount : Nat)
    (each : List.Forall₂ (Definition.Onward True) source.entries entries)
    (logged : Logged entries requests)
    (settled : List.Forall₂ (fun (entry : Definition) (definition : Nat × Expr) =>
      definition.1 = entry.slot ∧ entry.progress = .done definition.2) entries bindings) :
    requests.Perm source.names.eraseDups ∧
      source.Describes ⟨slotCount, entries.map fun entry => (entry.name, entry.slot), bindings⟩ := by
  have fields : (entries.map fun entry => (entry.name, entry.slot)) = source.fields :=
    (map_field_of_onward each).trans source.map_field_entries
  have bodies : ∀ entry ∈ entries, entry.body = source.definiens entry.name := by
    intro entry mem
    obtain ⟨origin, inside, onward⟩ := exists_of_forall₂_right each mem
    obtain ⟨field, -, rfl⟩ := List.mem_map.mp inside
    rw [onward.body, onward.name]
  constructor
  · have all : entries.filter (·.met) = entries := by
      refine List.filter_eq_self.mpr fun entry mem => ?_
      obtain ⟨definition, -, -, done⟩ := exists_of_forall₂_right settled.flip mem
      simp only [Definition.met, done]
    rw [← map_name_of_onward each, ← all]
    exact logged.log
  · refine ⟨fields, ?_, ?_⟩
    · rw [fields]
      exact source.names_fields.1
    · refine List.forall₂_map_left_iff.mpr ?_
      have both := (List.forall₂_and_left _ _).mpr
        ⟨fun entry mem => And.intro (bodies entry mem) (logged.located entry mem), settled⟩
      refine both.imp fun entry definition ok => ?_
      obtain ⟨⟨body, located⟩, slot, done⟩ := ok
      exact ⟨slot, body ▸ located definition.2 done⟩

/-- Analysis of a module ends, whatever the source has and whatever the scopes around it are, and
has asked for no definition twice. -/
theorem each_requested_once (source : DefinitionSource) (scopes : Scopes) : ∃ result requests,
    (∀ fuel, source.size + scopes.backlog ≤ fuel →
      source.analyze fuel scopes = (result, requests)) ∧
    source.Settles result requests := by
  have completes (fuel : Nat) (enough : source.size + scopes.backlog ≤ fuel) :
      Analysis.Completes (Analysis.defineAll (Analysis.exprUpTo (source.size + scopes.backlog)))
        (Analysis.defineAll (Analysis.exprUpTo fuel)) (source.scope :: scopes) _ :=
    Analysis.completes_defineAll (Analysis.exprUpTo_completing _ enough) ⟨_, _, _, _, _, rfl⟩
      source.logged_entries.distinct
      (fun entry mem => by simp [source.waiting_entries entry mem]) (Nat.le_refl _)
  have ends := (completes _ (Nat.le_refl _)).ends
  refine ⟨(source.analyze (source.size + scopes.backlog) scopes).1,
    (source.analyze (source.size + scopes.backlog) scopes).2, fun fuel enough => ?_, ?_⟩
  · rw [analyze, analyze, (completes fuel enough).same]
  unfold analyze
  rcases ran : Analysis.defineAll (Analysis.exprUpTo (source.size + scopes.backlog))
    (source.scope :: scopes) with ⟨fault | bindings, after⟩
  · obtain ⟨⟨e, rfl⟩, onward⟩ := ends.failed ran
    cases onward with | @cons _ closed _ _ head =>
    obtain ⟨binders, opensFrame, slotCount⟩ := closed
    cases head with | definitions each logged =>
    obtain ⟨once, listed⟩ := once_of_logged (logged source.logged_entries)
    refine ⟨fun _ same => ⟨e, (Except.error.inj same).symm⟩, once, fun name mem => ?_,
      fun _ same => by cases same⟩
    exact source.mem_names_of_onward each (listed name mem)
  · obtain ⟨onward, settled⟩ := ends.returned ran
    cases onward with | @cons _ closed _ _ head =>
    obtain ⟨binders, opensFrame, slotCount⟩ := closed
    cases head with | definitions each logged =>
    have logged' := logged source.logged_entries
    obtain ⟨once, listed⟩ := once_of_logged logged'
    refine ⟨(fun _ same => by cases same), once, fun name mem => ?_, fun m same => ?_⟩
    · exact source.mem_names_of_onward each (listed name mem)
    · obtain rfl := Except.ok.inj same
      exact describes_of_settled slotCount each logged' settled

end DefinitionSource

end ShapeLang
