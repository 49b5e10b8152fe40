import ShapeLang.Proofs.Scope.References

/-! # Analysis resolves names

Analysis of a phrase either fails with an exception, or gives an expression that the phrase is
resolved to, and whose frames have room for all of its slots. It meets no defect.
-/

namespace ShapeLang

namespace Scopes

variable {names : Namespace} {scopes : Scopes}

theorem Known.nonempty (known : Known names scopes) : scopes ≠ [] := by
  rintro rfl
  cases known

section Enter

variable (known : Known names scopes)

theorem entriesFrom_names (base : Nat) (definitions : List (String × Phrase)) :
    (Scope.entriesFrom base definitions).map (·.name) = definitions.map (·.1) := by
  apply List.ext_getElem <;> simp [Scope.entriesFrom]

theorem entriesFrom_source (base : Nat) (definitions : List (String × Phrase)) :
    (Scope.entriesFrom base definitions).map (fun entry => (entry.name, entry.body)) =
      definitions := by
  apply List.ext_getElem <;> simp [Scope.entriesFrom]

theorem entriesFrom_slots (base : Nat) (definitions : List (String × Phrase)) :
    (Scope.entriesFrom base definitions).map (·.slot) = List.range' base definitions.length := by
  apply List.ext_getElem <;> simp [Scope.entriesFrom]

theorem entriesFrom_waiting {base : Nat} {definitions : List (String × Phrase)}
    {entry : Definition} (mem : entry ∈ Scope.entriesFrom base definitions) :
    entry.progress = .waiting := by
  obtain ⟨i, _, rfl⟩ := List.mem_mapIdx.mp mem
  rfl

theorem entriesFrom_letSlots (base : Nat) (definitions : List (String × Phrase)) :
    (Scope.entriesFrom base definitions).flatMap Definition.letSlots = [] := by
  refine List.flatMap_eq_nil_iff.mpr fun entry mem => ?_
  simp [Definition.letSlots, entriesFrom_waiting mem]

include known

theorem Known.ofParameters (params : List String) :
    Known names (.ofParameters params :: scopes) := by
  refine .inner known rfl (by simp [Scope.entries, Scope.ofParameters]) ?_
    (by simp [Scope.entries, Scope.ofParameters])
  have slots : (params.mapIdx fun i name => (name, i)).map (·.2) = List.range params.length := by
    apply List.ext_getElem <;> simp
  have : taken (.ofParameters params :: scopes) = List.range params.length := by
    simp only [taken, Scope.slots, Scope.letSlots, Scope.entries, Scope.ofParameters, slots]
    simp
  rw [this]
  exact ⟨List.nodup_range, fun slot mem => List.mem_range.mp mem⟩

theorem Known.ofModule {definitions : List (String × Phrase)}
    (distinct : (definitions.map (·.1)).Nodup) : Known names (.ofModule definitions :: scopes) := by
  refine .inner known rfl
    (by simpa [Scope.entries, Scope.ofModule, entriesFrom_names] using distinct)
    ?_ fun entry mem expr settled => ?_
  · have : taken (.ofModule definitions :: scopes) = List.range' 0 definitions.length := by
      simp [taken, Scope.slots, Scope.letSlots, Scope.entries, Scope.ofModule, entriesFrom_slots,
        entriesFrom_letSlots]
    rw [this]
    exact ⟨List.nodup_range', fun slot mem => by simpa [slotCount, Scope.ofModule] using mem⟩
  · rw [entriesFrom_waiting mem] at settled
    cases settled

theorem Known.reserve (count : Nat) :
    Known names (reserve count scopes) ∧ Grown scopes (reserve count scopes) ∧
      slotCount (reserve count scopes) = slotCount scopes + count ∧
      taken (reserve count scopes) = taken scopes := by
  induction known with
  | root total =>
    exact ⟨.root _, .cons (.same _) (Nat.le_add_right _ _) (fun _ mem => .inl mem) .nil, rfl, rfl⟩
  | @inner scope scopes outer binds distinct layout resolved ih =>
    obtain ⟨binders, opensFrame, total⟩ := scope
    cases opensFrame with
    | true =>
      refine ⟨.inner outer binds distinct ⟨layout.nodup, fun slot mem => ?_⟩ resolved,
        .cons (.same _) (Nat.le_add_right _ _) (fun _ mem => .inl mem) (.refl scopes), rfl, rfl⟩
      exact Nat.lt_add_right count (layout.inside slot mem)
    | false =>
      obtain ⟨known', grown, total', taken'⟩ := ih
      exact ⟨(Known.inner outer binds distinct layout resolved).under outer.nonempty grown known',
        grown.under _, total', by simp only [Scopes.reserve, taken, taken', Bool.false_eq_true,
          ↓reduceIte]⟩

theorem Known.ofLet {definitions : List (String × Phrase)} {base : Nat}
    (distinct : (definitions.map (·.1)).Nodup)
    (room : slotCount scopes = base + definitions.length)
    (below : ∀ slot ∈ taken scopes, slot < base) :
    Known names (.ofLet base definitions :: scopes) := by
  refine .inner known rfl (by simpa [Scope.entries, Scope.ofLet, entriesFrom_names] using distinct)
    ?_ fun entry mem expr settled => ?_
  · have : taken (.ofLet base definitions :: scopes) =
        List.range' base definitions.length ++ taken scopes := by
      simp [taken, Scope.slots, Scope.letSlots, Scope.entries, Scope.ofLet, entriesFrom_slots,
        entriesFrom_letSlots]
    rw [this]
    have count : slotCount (.ofLet base definitions :: scopes) = slotCount scopes := rfl
    refine ⟨List.nodup_append'.mpr
      ⟨List.nodup_range', known.layout.nodup, fun slot own other => ?_⟩,
      fun slot mem => ?_⟩
    · have := below slot other
      have := (List.mem_range'_1.mp own).1
      omega
    · rw [count]
      rcases List.mem_append.mp mem with own | other
      · have := (List.mem_range'_1.mp own).2
        omega
      · exact known.layout.inside slot other
  · rw [entriesFrom_waiting mem] at settled
    cases settled

end Enter

/-- Leaving a `let`: its slots become slots of what was made in it. -/
private theorem leave_let {binders binders' : Binders} {total total' : Nat}
    {before after : Scopes} {slots : List Nat} (low : Nat)
    (reached : Reached names (⟨binders, false, total⟩ :: before) slots
      (⟨binders', false, total'⟩ :: after))
    (nonempty : after ≠ []) (low_le : low ≤ slotCount before)
    (own : ∀ slot ∈ Scope.slots ⟨binders, false, total⟩, low ≤ slot)
    (unsettled : Scope.letSlots ⟨binders, false, total⟩ = []) :
    Known names after ∧ Grown before after ∧
      Room (slotCount after) (Scope.slots ⟨binders', false, total'⟩ ++
        Scope.letSlots ⟨binders', false, total'⟩ ++ slots ++ taken after) ∧
      ∀ slot ∈ Scope.slots ⟨binders', false, total'⟩ ++
        Scope.letSlots ⟨binders', false, total'⟩ ++ slots, low ≤ slot := by
  obtain ⟨known, grown, layout, fresh⟩ := reached
  cases grown with
  | cons advances counted freshInside outer =>
    have moved : (slots ++ taken (⟨binders', false, total'⟩ :: after)).Perm
        (Scope.slots ⟨binders', false, total'⟩ ++ Scope.letSlots ⟨binders', false, total'⟩ ++
          slots ++ taken after) := by
      refine List.perm_iff_count.mpr fun place => ?_
      simp only [taken, Bool.false_eq_true, ↓reduceIte, List.count_append]
      omega
    refine ⟨known.tail nonempty, outer, ⟨moved.nodup_iff.mp layout.nodup, fun slot mem =>
      layout.inside slot (moved.mem_iff.mpr mem)⟩, fun slot mem => ?_⟩
    rcases List.mem_append.mp mem with mem | mem
    · rcases List.mem_append.mp mem with mem | mem
      · exact own slot (advances.slots ▸ mem)
      · rcases freshInside slot mem with old | new
        · simp [unsettled] at old
        · exact Nat.le_trans low_le new
    · exact Nat.le_trans low_le (fresh slot mem)

theorem advances_settled {group : List Linked} {later : List Definition}
    (each : List.Forall₂ Definition.Advances (group.map Linked.settled) later) :
    later = group.map Linked.settled := by
  induction group generalizing later with
  | nil =>
    cases each
    rfl
  | cons definition group ih =>
    cases each with
    | cons head tail =>
      rw [List.map_cons, ih tail]
      cases head
      rfl

/-- The names and the bodies of definitions never change. -/
theorem map_source {before after : List Definition}
    (each : List.Forall₂ Definition.Advances before after) :
    after.map (fun entry => (entry.name, entry.body)) =
      before.map fun entry => (entry.name, entry.body) := by
  induction each with
  | nil => rfl
  | cons head _ ih =>
    rw [List.map_cons, List.map_cons, ih]
    cases head <;> rfl

end Scopes

namespace Linked

variable (group : List Linked)

@[simp] theorem map_settled_source :
    (group.map settled).map (fun entry => (entry.name, entry.body)) = group.map source := by
  simp [settled, source]

@[simp] theorem map_settled_field :
    (group.map settled).map Definition.field = group.map field := by
  simp [settled, field, Definition.field]

@[simp] theorem map_settled_slot :
    (group.map settled).map (·.slot) = group.map slot := by
  simp [settled]

@[simp] theorem flatMap_settled_letSlots :
    (group.map settled).flatMap Definition.letSlots = group.flatMap (·.expr.letSlots) := by
  rw [List.flatMap_map]
  rfl

end Linked

namespace Analysis

open Scopes

variable {names : Namespace} {scopes : Scopes} {analyze : Phrase → Analysis Expr}

theorem Fails.inside {scope : Scope} {fault : Fault} {after : Scopes}
    (fails : Fails (scope :: scopes) fault after) :
    ∃ closed outer, after = closed :: outer ∧ Fails scopes fault outer := by
  obtain ⟨harmless, length⟩ := fails
  cases after with
  | nil => simp at length
  | cons closed outer => exact ⟨closed, outer, rfl, harmless, by simpa using length⟩

/-- A module literal, given its definitions. -/
theorem ends_moduleOf (sound : Sound names analyze) (known : Known names scopes)
    {definitions : List (String × Phrase)} (distinct : (definitions.map (·.1)).Nodup) :
    Ends (moduleOf analyze definitions) scopes
      (fun result after => ∃ group : List Linked, definitions = group.map Linked.source ∧
        result = ⟨result.slotCount, group.map Linked.field, group.map Linked.binding⟩ ∧
        Room result.slotCount (group.map Linked.slot ++ group.flatMap (·.expr.letSlots)) ∧
        (∀ definition ∈ group, Resolves names (⟨group.map Linked.field, true⟩ :: ribs scopes)
          definition.body definition.expr) ∧
        Reached names scopes [] after)
      (Fails scopes) := by
  refine Ends.through (fun result after => ∃ (group : List Linked) (requests : List String),
      result.1 = group.map Linked.binding ∧
      result.2.binders = .definitions (group.map Linked.settled) requests ∧
      definitions = group.map Linked.source ∧
      Room result.2.slotCount (group.map Linked.slot ++ group.flatMap (·.expr.letSlots)) ∧
      (∀ definition ∈ group, Resolves names (⟨group.map Linked.field, true⟩ :: ribs scopes)
        definition.body definition.expr) ∧
      Reached names scopes [] after) ?_ ?_
  · refine .inside ((ends_defineAll sound (known.ofModule distinct) ⟨_, _, _, _, _, rfl⟩
      fun entry mem => ?_).mono ?_ ?_)
    · rw [entriesFrom_waiting mem]
      simp
    · rintro _ _ ⟨group, requests, opensFrame, slotCount, outer, rfl, rfl, known', grown⟩
      have written := map_source grown.innermost
      simp only [innermost, Scope.entries, Scope.ofModule, Linked.map_settled_source,
        entriesFrom_source] at written
      obtain ⟨rfl, grownOuter⟩ : opensFrame = true ∧ Grown scopes outer := by
        cases grown with
        | cons _ _ _ grownOuter => exact ⟨rfl, grownOuter⟩
      have layout := known'.layout
      simp only [taken, Scopes.slotCount, Scope.slots, Scope.letSlots, Scope.entries,
        Linked.map_settled_slot, Linked.flatMap_settled_letSlots, ↓reduceIte,
        List.append_nil] at layout
      cases known' with
      | inner knownOuter _ _ _ resolved =>
        refine ⟨_, _, rfl, group, requests, rfl, rfl, written.symm, layout,
          fun definition mem => ?_, .of_grown knownOuter grownOuter⟩
        have parts : Resolves names (ribs
            (⟨.definitions (group.map Linked.settled) requests, true, slotCount⟩ :: outer))
            definition.body definition.expr :=
          resolved definition.settled (List.mem_map_of_mem mem) definition.expr rfl
        rw [← grownOuter.ribs_eq]
        simpa only [ribs, List.filterMap_cons, Scope.rib?, Linked.map_settled_field] using parts
    · exact fun _ _ failed => failed.inside
  · rintro ⟨bindings, scope⟩ after ⟨group, requests, rfl, binders, written, layout, parts, reached⟩
    obtain ⟨_, opensFrame, slotCount⟩ := scope
    obtain rfl := binders
    refine Ends.pure ⟨group, written, ?_, layout, parts, reached⟩
    have fields : (group.map Linked.settled).map (fun entry => (entry.name, entry.slot)) =
        group.map Linked.field := Linked.map_settled_field group
    rw [fields]

/-- A `let`, given its definitions and its body. -/
theorem ends_let (sound : Sound names analyze) (known : Known names scopes)
    {definitions : List (String × Phrase)} (distinct : (definitions.map (·.1)).Nodup)
    (body : Phrase) :
    Ends (inside (.ofLet (slotCount scopes) definitions) do
        let bindings ← defineAll analyze
        let body ← analyze body
        pure (bindings, body)) (reserve definitions.length scopes)
      (fun result after => ∃ group : List Linked, definitions = group.map Linked.source ∧
        result.1.1 = group.map Linked.binding ∧
        (∀ definition ∈ group, Resolves names (⟨group.map Linked.field, false⟩ :: ribs scopes)
          definition.body definition.expr) ∧
        Resolves names (⟨group.map Linked.field, false⟩ :: ribs scopes) body result.1.2 ∧
        Reached names scopes (group.map Linked.slot ++ group.flatMap (·.expr.letSlots) ++
          result.1.2.letSlots) after)
      (Fails scopes) := by
  obtain ⟨reserved, grownReserve, room, sameTaken⟩ := known.reserve definitions.length
  have below : ∀ slot ∈ taken (reserve definitions.length scopes), slot < slotCount scopes :=
    fun slot mem => known.layout.inside slot (sameTaken ▸ mem)
  have entered := reserved.ofLet distinct room below
  refine .inside ?_
  refine ((ends_defineAll sound entered ⟨_, _, _, _, _, rfl⟩ fun entry mem => ?_).mono
    (fun _ _ ok => ok) ?_).bind ?_
  · rw [entriesFrom_waiting mem]
    simp
  · intro fault after failed
    obtain ⟨closed, outer, rfl, failed'⟩ := failed.inside
    exact ⟨closed, outer, rfl, .of_grown grownReserve failed'⟩
  rintro _ _ ⟨group, requests, opensFrame, total, outer, rfl, rfl, known', grown⟩
  refine ((sound _ body known').mono (fun _ _ ok => ok) ?_).bind ?_
  · intro fault after failed
    obtain ⟨closed, outer', rfl, failed'⟩ := (failed.of_grown grown).inside
    exact ⟨closed, outer', rfl, .of_grown grownReserve failed'⟩
  rintro expr after ⟨resolves, reached⟩
  have written := map_source grown.innermost
  simp only [innermost, Scope.entries, Scope.ofLet, Linked.map_settled_source,
    entriesFrom_source] at written
  have whole := (Reached.of_grown known' grown).trans reached
  obtain ⟨entries', requests', opensFrame', total', outer', rfl⟩ :=
    reached.grown.defining ⟨_, _, _, _, _, rfl⟩
  obtain rfl := advances_settled reached.grown.innermost
  obtain ⟨rfl, grownOuter⟩ :
      opensFrame = false ∧ Grown (reserve definitions.length scopes) outer := by
    cases grown with
    | cons _ _ _ grownOuter => exact ⟨rfl, grownOuter⟩
  obtain rfl : opensFrame' = false := by
    cases whole.grown
    rfl
  have nonempty : outer' ≠ [] := by
    cases whole.known with
    | inner knownOuter => exact knownOuter.nonempty
  have tables : ribs (⟨.definitions (group.map Linked.settled) requests, false, total⟩ :: outer) =
      ⟨group.map Linked.field, false⟩ :: ribs scopes := by
    rw [← grownReserve.ribs_eq, ← grownOuter.ribs_eq]
    simp only [ribs, List.filterMap_cons, Scope.rib?, Linked.map_settled_field]
  have consecutive : (Scope.ofLet (slotCount scopes) definitions).slots =
      List.range' (slotCount scopes) definitions.length := entriesFrom_slots _ _
  obtain ⟨known'', grown'', layout, fresh⟩ := leave_let (slotCount scopes)
    whole nonempty (by rw [room]; exact Nat.le_add_right _ _)
    (fun slot mem => (List.mem_range'_1.mp (consecutive ▸ mem)).1)
    (entriesFrom_letSlots (slotCount scopes) definitions)
  simp only [Scope.slots, Scope.letSlots, Scope.entries, Linked.map_settled_slot,
    Linked.flatMap_settled_letSlots, List.nil_append] at layout fresh
  cases known' with
  | inner _ _ _ _ resolved =>
    refine Ends.pure ⟨_, _, rfl, group, written.symm, rfl, fun definition mem => ?_, ?_,
      ⟨known'', grownReserve.trans grown'', layout, fresh⟩⟩
    · rw [← tables]
      exact resolved definition.settled (List.mem_map_of_mem mem) definition.expr rfl
    · rw [← tables]
      exact resolves

/-- The body of a function or of a loop, in a frame of its own. -/
theorem ends_body (sound : Sound names analyze) (known : Known names scopes)
    (params : List String) (body : Phrase) :
    Ends (inside (.ofParameters params) (analyze body)) scopes
      (fun result after => Resolves names (Rib.ofParameters params :: ribs scopes) body result.1 ∧
        Room result.2.slotCount (List.range params.length ++ result.1.letSlots) ∧
        Reached names scopes [] after)
      (Fails scopes) := by
  refine .inside ((sound _ body (known.ofParameters params)).mono ?_
    fun _ _ failed => failed.inside)
  rintro expr after ⟨resolves, reached⟩
  have slots : (params.mapIdx fun i name => (name, i)).map (·.2) = List.range params.length := by
    apply List.ext_getElem <;> simp
  obtain ⟨known', grown, layout, fresh⟩ := reached
  cases grown with
  | cons advances counted _ outer =>
    cases advances with
    | same =>
      refine ⟨_, _, rfl, resolves, ?_, .of_grown (known'.tail ?_) outer⟩
      · have moved : (expr.letSlots ++ List.range params.length).Perm
            (List.range params.length ++ expr.letSlots) := List.perm_append_comm
        simp only [taken, Scopes.slotCount, Scope.slots, Scope.letSlots, Scope.entries, slots,
          List.flatMap_nil, List.append_nil, ↓reduceIte] at layout
        exact ⟨moved.nodup_iff.mp layout.nodup, fun slot mem =>
          layout.inside slot (moved.mem_iff.mpr mem)⟩
      · cases known' with
        | inner knownOuter => exact knownOuter.nonempty

/-- What the analysis of a phrase makes of it. -/
def Means (names : Namespace) (scopes : Scopes) (phrase : Phrase) :
    Meaning → Scopes → Prop
  | .expression expr, after =>
    Resolves names (ribs scopes) phrase expr ∧ Reached names scopes expr.letSlots after
  | .definition name definiens, after =>
    phrase.binding? = some (name.name, definiens) ∧ Reached names scopes [] after

theorem step_means (sound : Sound names analyze) (known : Known names scopes) (phrase : Phrase) :
    Ends (step analyze phrase) scopes (Means names scopes phrase) (Fails scopes) := by
  cases phrase with
  | numeral location value => exact Ends.pure ⟨.numeral, by simpa using .refl known⟩
  | boolean location value => exact Ends.pure ⟨.boolean, by simpa using .refl known⟩
  | text location content => exact Ends.pure ⟨.text, by simpa using .refl known⟩
  | ident location id => exact Ends.map (ends_reference sound location id known)
  | list location items =>
    refine (ends_analyzeAll sound items known).bind ?_
    rintro _ after ⟨parts, rfl, rfl, resolved, reached⟩
    exact Ends.pure ⟨.list parts resolved, by simpa using reached⟩
  | record location written =>
    refine (ends_fields sound [] written known).bind ?_
    rintro _ after ⟨parts, rfl, rfl, resolved, reached⟩
    exact Ends.pure ⟨.record parts resolved, by simpa using reached⟩
  | «module» location items =>
    refine (ends_collectDefinitions [] items).bind ?_
    rintro definitions _ ⟨rfl, written, distinct, -⟩
    refine (ends_moduleOf sound known distinct).bind ?_
    rintro ⟨slotCount, fields, bindings⟩ after ⟨group, rfl, same, layout, parts, reached⟩
    obtain ⟨-, rfl, rfl⟩ := ModuleExpr.mk.inj same
    exact Ends.pure ⟨.module group written layout parts, by simpa using reached⟩
  | definition location target definiens =>
    refine (ends_splitDefinition location target definiens).bind ?_
    rintro result _ ⟨rfl, named⟩
    exact Ends.pure ⟨named, .refl known⟩
  | lambda location params body =>
    refine (ends_checkParameters [] params).bind ?_
    rintro _ _ rfl
    refine (ends_body sound known (params.map (·.name)) body).bind ?_
    rintro ⟨expr, scope⟩ after ⟨resolves, layout, reached⟩
    rw [List.length_map] at layout
    exact Ends.pure ⟨.lambda params layout resolves, by simpa using reached⟩
  | call location function args =>
    refine (sound scopes function known).bind ?_
    rintro callee middle ⟨resolves, reached⟩
    refine ((ends_analyzeAll sound args reached.known).mono (fun _ _ ok => ok)
      fun _ _ failed => .of_grown reached.grown failed).bind ?_
    rintro _ after ⟨parts, rfl, rfl, resolved, reached'⟩
    refine Ends.pure ⟨.call parts resolves (reached.grown.ribs_eq ▸ resolved), ?_⟩
    rw [Expr.letSlots_call]
    exact reached.trans reached'
  | dot location base field =>
    refine (sound scopes base known).bind ?_
    rintro expr after ⟨resolves, reached⟩
    exact Ends.pure ⟨.dot resolves, by simpa using reached⟩
  | index location base index =>
    refine (sound scopes base known).bind ?_
    rintro expr middle ⟨resolves, reached⟩
    refine ((sound middle index reached.known).mono (fun _ _ ok => ok)
      fun _ _ failed => .of_grown reached.grown failed).bind ?_
    rintro place after ⟨resolves', reached'⟩
    refine Ends.pure ⟨.index resolves (reached.grown.ribs_eq ▸ resolves'), ?_⟩
    rw [Expr.letSlots_index]
    exact reached.trans reached'
  | unary location op operand =>
    refine (sound scopes operand known).bind ?_
    rintro expr after ⟨resolves, reached⟩
    exact Ends.pure ⟨.unary resolves, by simpa using reached⟩
  | binary location op left right =>
    refine (sound scopes left known).bind ?_
    rintro a middle ⟨resolves, reached⟩
    refine ((sound middle right reached.known).mono (fun _ _ ok => ok)
      fun _ _ failed => .of_grown reached.grown failed).bind ?_
    rintro b after ⟨resolves', reached'⟩
    refine Ends.pure ⟨.binary resolves (reached.grown.ribs_eq ▸ resolves'), ?_⟩
    rw [Expr.letSlots_binary]
    exact reached.trans reached'
  | conditional location condition whenTrue whenFalse =>
    refine (sound scopes condition known).bind ?_
    rintro c first ⟨resolves, reached⟩
    refine ((sound first whenTrue reached.known).mono (fun _ _ ok => ok)
      fun _ _ failed => .of_grown reached.grown failed).bind ?_
    rintro a second ⟨resolves', reached'⟩
    have both := reached.trans reached'
    refine ((sound second whenFalse both.known).mono (fun _ _ ok => ok)
      fun _ _ failed => .of_grown both.grown failed).bind ?_
    rintro b after ⟨resolves'', reached''⟩
    refine Ends.pure ⟨.conditional resolves (reached.grown.ribs_eq ▸ resolves')
      (both.grown.ribs_eq ▸ resolves''), ?_⟩
    rw [Expr.letSlots_conditional]
    exact both.trans reached''
  | letIn location items body =>
    refine (ends_collectDefinitions [] items).bind ?_
    rintro definitions _ ⟨rfl, written, distinct, -⟩
    refine Ends.through (fun found now => scopes = found ∧ scopes = now)
      (.get ⟨rfl, rfl⟩) ?_
    rintro _ _ ⟨rfl, rfl⟩
    refine Ends.through (fun _ now => reserve definitions.length scopes = now)
      (.modify rfl) ?_
    rintro _ _ rfl
    refine (ends_let sound known distinct body).bind ?_
    rintro ⟨⟨bindings, expr⟩, closed⟩ after ⟨group, rfl, rfl, parts, rest, reached⟩
    refine Ends.pure ⟨.letIn group written parts rest, ?_⟩
    simpa [List.flatMap_map, Linked.binding, Function.comp_def] using reached
  | forEach location item list body =>
    refine (sound scopes list known).bind ?_
    rintro items middle ⟨resolves, reached⟩
    refine ((ends_body sound reached.known [item.name] body).mono (fun _ _ ok => ok)
      fun _ _ failed => .of_grown reached.grown failed).bind ?_
    rintro ⟨expr, scope⟩ after ⟨resolves', layout, reached'⟩
    refine Ends.pure ⟨.forEach resolves layout (reached.grown.ribs_eq ▸ resolves'), ?_⟩
    simpa using reached.trans reached'

theorem exprUpTo_sound (names : Namespace) (fuel : Nat) : Sound names (exprUpTo fuel) := by
  induction fuel with
  | zero => exact fun scopes _ _ => Ends.throw ⟨.outOfFuel, rfl⟩
  | succ fuel ih =>
    intro scopes phrase known
    refine (step_means ih known phrase).bind fun meaning after means => ?_
    cases meaning with
    | expression expr => exact Ends.pure means
    | definition name definiens =>
      exact Ends.complain fun e => .of_grown means.2.grown (.exception after e)

end Analysis

/-- A definition that stands alone is a module with one field. -/
def Phrase.asProgram : Phrase → Phrase
  | .definition location target definiens =>
    .module location [.definition location target definiens]
  | phrase => phrase

namespace Analysis

variable {names : Namespace}

theorem ends_program (phrase : Phrase) :
    Ends (program phrase) [.ofNamespace names]
      (fun expr after => Resolves names [] phrase.asProgram expr ∧
        Room (Scopes.slotCount after) expr.letSlots)
      (fun fault _ => fault.Harmless) := by
  have known : Scopes.Known names [.ofNamespace names] := .root 0
  have layout {slots : List Nat} {after : Scopes}
      (reached : Scopes.Reached names [.ofNamespace names] slots after) :
      Room (Scopes.slotCount after) slots :=
    ⟨(List.nodup_append'.mp reached.layout.nodup).1,
      fun slot mem => reached.layout.inside slot (List.mem_append_left _ mem)⟩
  refine ((step_means (exprUpTo_sound names phrase.size) known phrase).mono (fun _ _ ok => ok)
    fun _ _ failed => failed.1).bind fun meaning after means => ?_
  cases meaning with
  | expression expr =>
    obtain ⟨resolves, reached⟩ := means
    refine Ends.pure ⟨?_, layout reached⟩
    cases phrase with
    | definition => cases resolves
    | _ => exact resolves
  | definition name definiens =>
    obtain ⟨named, reached⟩ := means
    refine ((ends_moduleOf (exprUpTo_sound names phrase.size) reached.known (by simp)).mono
      (fun _ _ ok => ok) fun _ _ failed => failed.1).bind ?_
    rintro ⟨slotCount, fields, bindings⟩ later ⟨group, written, same, room, parts, reached'⟩
    obtain ⟨-, rfl, rfl⟩ := ModuleExpr.mk.inj same
    refine Ends.pure ⟨?_, by simpa using layout (reached.trans reached')⟩
    cases phrase with
    | definition location target definiens' =>
      have outermost : Scopes.ribs after = [] := reached.grown.ribs_eq
      refine .module group ?_ room (outermost ▸ parts)
      rw [List.mapM_cons, named, ← written]
      rfl
    | _ => cases named

end Analysis

namespace Phrase

variable {names : Namespace} {phrase : Phrase}

/-- A program that is accepted is resolved, and its frame has room for all of its slots. -/
theorem resolves_of_analyze {resolved : Resolved} (accepted : phrase.analyze names = .ok resolved) :
    Resolves names [] phrase.asProgram resolved.expr ∧
      Room resolved.slotCount resolved.expr.letSlots := by
  unfold analyze at accepted
  rcases ran : Analysis.program phrase [.ofNamespace names] with ⟨_ | expr, after⟩
  · simp [ran, Except.map] at accepted
  · obtain rfl : Resolved.mk expr after.slotCount = resolved := by
      simpa [ran, Except.map] using accepted
    exact (Analysis.ends_program phrase).returned ran

/-- A program that is not accepted makes a mistake; the analysis itself makes none. -/
theorem harmless_of_analyze {fault : Fault} (refused : phrase.analyze names = .error fault) :
    fault.Harmless := by
  unfold analyze at refused
  rcases ran : Analysis.program phrase [.ofNamespace names] with ⟨_ | expr, after⟩
  · obtain rfl : _ = fault := by simpa [ran, Except.map] using refused
    exact (Analysis.ends_program phrase).failed ran
  · simp [ran, Except.map] at refused

end Phrase

end ShapeLang
