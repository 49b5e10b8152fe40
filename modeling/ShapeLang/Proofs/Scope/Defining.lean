import ShapeLang.Scope.Analysis
import ShapeLang.Proofs.Computation
import ShapeLang.Proofs.Scope.Ledger

/-! # Analysing definitions

A definition is analysed in the scopes around it. It ends up settled, unless it is under way
further out, and everything that is settled on the way is resolved. So the definitions of a group
are all settled after each of them was asked for once.
-/

namespace ShapeLang

namespace Ends

variable {α : Type} {scopes : Scopes} {fails : Fault → Scopes → Prop}

theorem complain {returns : α → Scopes → Prop} {kind : ErrorKind} {location : Location}
    (error : ∀ e, fails (.exception e) scopes) :
    Ends (Analysis.raise kind location) scopes returns fails :=
  error _

theorem outside {inner : Nat} {action : Analysis α} {returns : α → Scopes → Prop}
    (ends : Ends action (scopes.drop inner)
      (fun a after => returns a (scopes.take inner ++ after))
      fun fault after => fails fault (scopes.take inner ++ after)) :
    Ends (Analysis.outside inner action) scopes returns fails := by
  unfold Ends Analysis.outside
  unfold Ends at ends
  rcases ran : action (scopes.drop inner) with ⟨_ | _, after⟩ <;> simpa only [ran] using ends

theorem inside {scope : Scope} {action : Analysis α} {returns : α × Scope → Scopes → Prop}
    (ends : Ends action (scope :: scopes)
      (fun a after => ∃ closed outer, after = closed :: outer ∧ returns (a, closed) outer)
      fun fault after => ∃ closed outer, after = closed :: outer ∧ fails fault outer) :
    Ends (Analysis.inside scope action) scopes returns fails := by
  unfold Ends Analysis.inside
  unfold Ends at ends
  rcases ran : action (scope :: scopes) with ⟨_ | _, after⟩
  · rw [ran] at ends
    obtain ⟨closed, outer, rfl, error⟩ := ends
    exact error
  · rw [ran] at ends
    obtain ⟨closed, outer, rfl, ok⟩ := ends
    exact ok

end Ends

namespace Definition.Advances

theorem waiting {before after : Definition} (advances : Advances before after)
    (begun : before.progress ≠ .waiting) : after.progress ≠ .waiting := by
  cases advances with
  | same => exact begun
  | settled => simp

end Definition.Advances

/-- Every entry of the later list comes from an entry of the earlier one. -/
theorem exists_of_forall₂_right {α β : Type} {R : α → β → Prop} {before : List α} {after : List β}
    (each : List.Forall₂ R before after) {b : β} (mem : b ∈ after) :
    ∃ a ∈ before, R a b := by
  induction each with
  | nil => simp at mem
  | cons head _ ih =>
    rcases List.mem_cons.mp mem with rfl | mem
    · exact ⟨_, List.mem_cons_self, head⟩
    · obtain ⟨a, mem', related⟩ := ih mem
      exact ⟨a, List.mem_cons_of_mem _ mem', related⟩

namespace Scopes

/-- The definitions of the innermost scope. -/
def innermost : Scopes → List Definition
  | [] => []
  | scope :: _ => scope.entries

theorem Grown.innermost {before after : Scopes} (grown : Grown before after) :
    List.Forall₂ Definition.Advances before.innermost after.innermost := by
  cases grown with
  | nil => exact .nil
  | cons advances => exact advances.entries

/-- The innermost scope holds definitions. -/
def Defining (scopes : Scopes) : Prop :=
  ∃ entries requests opensFrame slotCount outer,
    scopes = ⟨.definitions entries requests, opensFrame, slotCount⟩ :: outer

theorem Grown.defining {before after : Scopes} (grown : Grown before after)
    (defining : Defining before) : Defining after := by
  obtain ⟨entries, requests, opensFrame, slotCount, outer, rfl⟩ := defining
  cases grown with
  | cons advances =>
    cases advances with
    | same => exact ⟨_, _, _, _, _, rfl⟩
    | definitions => exact ⟨_, _, _, _, _, rfl⟩

end Scopes

/-- The entry of a definition that is settled. -/
def Linked.settled (definition : Linked) : Definition :=
  ⟨definition.name, definition.slot, definition.body, .done definition.expr⟩

namespace Analysis

open Scopes

/-- How analysis may fail: with an exception or for lack of fuel, and with as many scopes as
before. -/
def Fails (scopes : Scopes) (fault : Fault) (after : Scopes) : Prop :=
  fault.Harmless ∧ after.length = scopes.length

theorem Fails.exception (scopes : Scopes) (e : Exception) : Fails scopes (.exception e) scopes :=
  ⟨.exception e, rfl⟩

theorem Fails.of_grown {before middle after : Scopes} {fault : Fault} (grown : Grown before middle)
    (fails : Fails middle fault after) : Fails before fault after :=
  ⟨fails.1, fails.2.trans grown.length_eq⟩

/-- An analyser resolves names, gives out new slots and meets no defect. -/
def Sound (names : Namespace) (analyze : Phrase → Analysis Expr) : Prop :=
  ∀ scopes phrase, Known names scopes →
    Ends (analyze phrase) scopes
      (fun expr after => Resolves names (ribs scopes) phrase expr ∧
        Reached names scopes expr.letSlots after)
      (Fails scopes)

section Define

variable {names : Namespace} {name : String} {slot : Nat} {body : Phrase}
  {before after before' after' : List Definition} {requests requests₁ requests' : List String}
  {opensFrame : Bool} {slotCount slotCount' : Nat} {outer outer' : Scopes}

/-- Only the entry of the name changes, since names are different. -/
theorem map_update {progress : Progress} (next : Progress)
    (distinct : ((before ++ ⟨name, slot, body, progress⟩ :: after).map (·.name)).Nodup) :
    (before ++ ⟨name, slot, body, progress⟩ :: after).map (fun entry =>
        if entry.name == name then { entry with progress := next } else entry) =
      before ++ ⟨name, slot, body, next⟩ :: after := by
  rw [List.map_append, List.map_cons] at distinct ⊢
  obtain ⟨_, nodup, apart⟩ := List.nodup_append'.mp distinct
  have absent := (List.nodup_cons.mp nodup).1
  have keep : ∀ entries : List Definition, (∀ entry ∈ entries, entry.name ≠ name) →
      entries.map (fun entry =>
        if entry.name == name then { entry with progress := next } else entry) = entries := by
    intro entries others
    refine (List.map_congr_left fun entry mem => ?_).trans (List.map_id _)
    simp [others entry mem]
  rw [keep before, keep after]
  · simp
  · rintro entry mem rfl
    exact absent (List.mem_map.mpr ⟨entry, mem, rfl⟩)
  · rintro entry mem rfl
    exact apart (List.mem_map_of_mem mem) List.mem_cons_self

/-- The scopes with one definition of the innermost scope singled out. -/
abbrev around (before : List Definition) (entry : Definition) (after : List Definition)
    (requests : List String) (opensFrame : Bool) (slotCount : Nat) (outer : Scopes) : Scopes :=
  ⟨.definitions (before ++ entry :: after) requests, opensFrame, slotCount⟩ :: outer

/-- A definition that begins to be analysed takes no slots. -/
theorem known_active
    (known : Known names
      (around before ⟨name, slot, body, .waiting⟩ after requests opensFrame slotCount outer)) :
    Known names
      (around before ⟨name, slot, body, .active⟩ after requests' opensFrame slotCount outer) := by
  cases known with
  | inner known _ distinct layout resolved =>
    refine .inner known rfl ?_ ?_ fun entry mem expr settled => ?_
    · simpa [Scope.entries] using distinct
    · simpa [taken, Scope.slots, Scope.letSlots, Scope.entries, Definition.letSlots,
        Scopes.slotCount] using layout
    · have mem' : entry ∈ before ++ ⟨name, slot, body, .waiting⟩ :: after := by
        simp only [Scope.entries, List.mem_append, List.mem_cons] at mem ⊢
        rcases mem with mem | rfl | mem
        · exact .inl mem
        · simp at settled
        · exact .inr (.inr mem)
      simpa [ribs, Scope.rib?, Definition.field] using resolved entry mem' expr settled

/-- A definition under way is settled with an expression that was just made. -/
theorem reached_settled {expr : Expr} (requests : List String)
    (resolves : Resolves names
      (ribs (around before ⟨name, slot, body, .active⟩ after requests₁ opensFrame slotCount outer))
      body expr)
    (reached : Reached names
      (around before ⟨name, slot, body, .active⟩ after requests₁ opensFrame slotCount outer)
      expr.letSlots
      (around before' ⟨name, slot, body, .active⟩ after' requests' opensFrame slotCount' outer'))
    (beforeAdvances : List.Forall₂ Definition.Advances before before')
    (afterAdvances : List.Forall₂ Definition.Advances after after') :
    Known names (around before' ⟨name, slot, body, .done expr⟩ after' requests' opensFrame
        slotCount' outer') ∧
      Grown (around before ⟨name, slot, body, .waiting⟩ after requests opensFrame slotCount outer)
        (around before' ⟨name, slot, body, .done expr⟩ after' requests' opensFrame slotCount'
          outer') := by
  obtain ⟨known, grown, layout, fresh⟩ := reached
  have sameRibs := grown.ribs_eq
  have moved : (expr.letSlots ++ taken
      (around before' ⟨name, slot, body, .active⟩ after' requests' opensFrame slotCount'
        outer')).Perm
      (taken (around before' ⟨name, slot, body, .done expr⟩ after' requests' opensFrame slotCount'
        outer')) := by
    refine List.perm_iff_count.mpr fun place => ?_
    simp only [taken, Scope.slots, Scope.letSlots, Scope.entries, Definition.letSlots,
      List.map_append, List.map_cons, List.flatMap_append, List.flatMap_cons, List.count_append,
      List.count_nil]
    omega
  cases grown with
  | cons advances counted freshBefore grownOuter =>
    refine ⟨?_, .cons (.definitions ?_) counted (fun place mem => ?_) grownOuter⟩
    · cases known with
      | inner known _ distinct _ resolved =>
        refine .inner known rfl (by simpa [Scope.entries] using distinct)
          ⟨moved.nodup_iff.mp layout.nodup, fun place mem => ?_⟩ fun entry mem other settled => ?_
        · exact layout.inside place (moved.mem_iff.mpr mem)
        · simp only [Scope.entries, List.mem_append, List.mem_cons] at mem
          have sameRibs' : ribs (around before' ⟨name, slot, body, .done expr⟩ after' requests'
              opensFrame slotCount' outer') = ribs (around before' ⟨name, slot, body, .active⟩
              after' requests' opensFrame slotCount' outer') := by
            simp [ribs, Scope.rib?, Definition.field]
          rw [sameRibs']
          rcases mem with mem | rfl | mem
          · exact resolved entry (by simp [Scope.entries, mem]) other settled
          · obtain rfl : expr = other := by simpa using settled
            rw [sameRibs]
            exact resolves
          · exact resolved entry (by simp [Scope.entries, mem]) other settled
    · exact List.rel_append beforeAdvances (.cons (.settled name slot body expr) afterAdvances)
    · simp only [Scope.letSlots, Scope.entries, List.flatMap_append, List.flatMap_cons,
        List.mem_append, Definition.letSlots, List.not_mem_nil, false_or] at mem freshBefore ⊢
      rcases mem with mem | mem | mem
      · exact freshBefore place (.inl mem)
      · exact .inr (fresh place mem)
      · exact freshBefore place (.inr mem)

/-- Splitting a list along its entries. -/
theorem split_around {later : List Definition} {entry : Definition}
    (each : List.Forall₂ Definition.Advances (before ++ entry :: after) later) :
    ∃ before' entry' after', later = before' ++ entry' :: after' ∧
      List.Forall₂ Definition.Advances before before' ∧ entry.Advances entry' ∧
      List.Forall₂ Definition.Advances after after' := by
  induction before generalizing later with
  | nil =>
    cases each with
    | cons head tail => exact ⟨[], _, _, rfl, .nil, head, tail⟩
  | cons first before ih =>
    cases each with
    | cons head tail =>
      obtain ⟨before', entry', after', rfl, early, this, late⟩ := ih tail
      exact ⟨_ :: before', entry', after', rfl, .cons head early, this, late⟩

theorem eq_of_name {chosen entry : Definition}
    (distinct : ((before ++ chosen :: after).map (·.name)).Nodup)
    (mem : entry ∈ before ++ chosen :: after) (same : entry.name = chosen.name) :
    entry = chosen :=
  List.inj_on_of_nodup_map distinct mem (by simp) same

theorem ends_entries {fails : Fault → Scopes → Prop} (entries : List Definition) :
    Ends Analysis.entries (⟨.definitions entries requests, opensFrame, slotCount⟩ :: outer)
      (fun found now => found = entries ∧
        now = ⟨.definitions entries requests, opensFrame, slotCount⟩ :: outer) fails :=
  ⟨rfl, rfl⟩

theorem distinct_names {entries : List Definition}
    (known : Known names (⟨.definitions entries requests, opensFrame, slotCount⟩ :: outer)) :
    (entries.map (·.name)).Nodup := by
  cases known with
  | inner _ _ distinct => exact distinct

/-- Asking for a definition of the innermost scope. -/
theorem ends_define {analyze : Phrase → Analysis Expr} {scopes : Scopes}
    (sound : Sound names analyze) (known : Known names scopes) (defining : Defining scopes)
    (listed : ∃ entry ∈ scopes.innermost, entry.name = name) :
    Ends (define analyze name) scopes
      (fun _ after => Known names after ∧ Grown scopes after ∧
        ∀ entry ∈ after.innermost, entry.name = name → entry.progress ≠ .waiting)
      (Fails scopes) := by
  obtain ⟨entries, requests, opensFrame, slotCount, outer, rfl⟩ := defining
  obtain ⟨listedEntry, mem, named⟩ := listed
  have distinct := distinct_names known
  refine (ends_entries entries).bind ?_
  rintro _ _ ⟨rfl, rfl⟩
  cases found : List.find? (fun entry : Definition => entry.name == name) _ with
  | none => exact absurd named (by simpa using List.find?_eq_none.mp found listedEntry mem)
  | some entry =>
    obtain ⟨isName, before, after, rfl, _⟩ := List.find?_eq_some_iff_append.mp found
    obtain ⟨entryName, slot, body, progress⟩ := entry
    obtain rfl : entryName = name := by simpa using isName
    have settled (begun : progress ≠ .waiting) : ∀ entry ∈ Scopes.innermost (around before
        ⟨entryName, slot, body, progress⟩ after requests opensFrame slotCount outer),
        entry.name = entryName → entry.progress ≠ .waiting := fun entry mem same => by
      rwa [eq_of_name distinct mem same]
    cases progress with
    | active => exact .pure ⟨known, .refl _, settled (by simp)⟩
    | done expr => exact .pure ⟨known, .refl _, settled (by simp)⟩
    | waiting =>
      refine Ends.through (fun _ now => now = around before
        ⟨entryName, slot, body, .active⟩ after (requests ++ [entryName]) opensFrame slotCount
        outer) (.modify ?_) ?_
      · simp only [around, map_update .active distinct]
      rintro _ _ rfl
      refine (sound _ body (known_active known)).bind ?_
      rintro expr now ⟨resolves, reached⟩
      obtain ⟨entries', requests', opensFrame', slotCount', outer', rfl⟩ :=
        reached.grown.defining ⟨_, _, _, _, _, rfl⟩
      obtain rfl : opensFrame' = opensFrame := by
        cases reached.grown with
        | cons => rfl
      obtain ⟨before', entry', after', rfl, beforeAdvances, advances, afterAdvances⟩ :=
        split_around reached.grown.innermost
      obtain rfl : entry' = ⟨entryName, slot, body, .active⟩ := by
        cases advances
        rfl
      refine Ends.modify ?_
      obtain ⟨known', grown'⟩ :=
        reached_settled requests resolves reached beforeAdvances afterAdvances
      simp only [map_update (.done expr) (distinct_names reached.known), List.append_nil]
      refine ⟨known', grown', fun entry mem same => ?_⟩
      rw [eq_of_name (distinct_names known') mem same]
      simp

end Define

section DefineAll

variable {names : Namespace} {analyze : Phrase → Analysis Expr} {scopes : Scopes}

theorem ends_defineEach (sound : Sound names analyze) (todo : List Definition)
    (known : Known names scopes) (defining : Defining scopes)
    (listed : ∀ wanted ∈ todo, ∃ entry ∈ scopes.innermost, entry.name = wanted.name) :
    Ends (todo.forM fun entry => define analyze entry.name) scopes
      (fun _ after => Known names after ∧ Grown scopes after ∧
        ∀ entry ∈ after.innermost, entry.name ∈ todo.map (·.name) → entry.progress ≠ .waiting)
      (Fails scopes) := by
  induction todo generalizing scopes with
  | nil => exact Ends.pure ⟨known, .refl _, by simp⟩
  | cons wanted todo ih =>
    change Ends (define analyze wanted.name >>= fun _ => todo.forM _) _ _ _
    refine (ends_define sound known defining (listed wanted (by simp))).bind ?_
    rintro _ middle ⟨known, grown, begun⟩
    have stillListed : ∀ wanted ∈ todo, ∃ entry ∈ middle.innermost, entry.name = wanted.name := by
      intro wanted mem
      obtain ⟨entry, inside, same⟩ := listed wanted (by simp [mem])
      have names := Binders.Advances.map_name grown.innermost
      have inNames : wanted.name ∈ middle.innermost.map (·.name) :=
        names ▸ List.mem_map.mpr ⟨entry, inside, same⟩
      exact List.mem_map.mp inNames
    refine (ih known (grown.defining defining) stillListed).mono ?_
      fun _ _ failed => .of_grown grown failed
    rintro _ after ⟨known', grown', begun'⟩
    refine ⟨known', grown.trans grown', fun entry mem asked => ?_⟩
    rcases List.mem_cons.mp asked with first | later
    · obtain ⟨origin, mem', advances⟩ := exists_of_forall₂_right grown'.innermost mem
      have sameName : entry.name = origin.name := congrArg Prod.fst advances.field
      exact advances.waiting (begun origin mem' (sameName.symm.trans first))
    · exact begun' entry mem later

private theorem exists_group {entries : List Definition}
    (settled : ∀ entry ∈ entries, ∃ expr, entry.progress = .done expr) :
    ∃ group : List Linked, entries = group.map Linked.settled := by
  induction entries with
  | nil => exact ⟨[], rfl⟩
  | cons entry entries ih =>
    obtain ⟨expr, done⟩ := settled entry (by simp)
    obtain ⟨group, rfl⟩ := ih fun other mem => settled other (by simp [mem])
    refine ⟨⟨entry.name, entry.slot, entry.body, expr⟩ :: group, ?_⟩
    rw [List.map_cons, Linked.settled, ← done]

private theorem ends_collect {fails : Fault → Scopes → Prop} (group : List Linked) :
    Ends ((group.map Linked.settled).mapM fun entry =>
        match entry.progress with
        | .done expr => pure (entry.slot, expr)
        | _ => throw (.defect (.unanalysedDefinition entry.name)) : Analysis (List (Nat × Expr)))
      scopes
      (fun bindings after => bindings = group.map Linked.binding ∧ after = scopes) fails := by
  induction group with
  | nil => exact Ends.pure ⟨rfl, rfl⟩
  | cons definition group ih =>
    rw [List.map_cons, List.mapM_cons]
    refine Ends.through (fun binding after => binding = definition.binding ∧
      after = scopes) (.pure ⟨rfl, rfl⟩) ?_
    rintro _ _ ⟨rfl, rfl⟩
    refine ih.bind ?_
    rintro _ _ ⟨rfl, rfl⟩
    exact Ends.pure ⟨rfl, rfl⟩

/-- All definitions of a scope in which none is under way. -/
theorem ends_defineAll (sound : Sound names analyze) (known : Known names scopes)
    (defining : Defining scopes) (idle : ∀ entry ∈ scopes.innermost, entry.progress ≠ .active) :
    Ends (defineAll analyze) scopes
      (fun bindings after => ∃ (group : List Linked) (requests : List String) (opensFrame : Bool)
          (slotCount : Nat) (outer : Scopes),
        after = ⟨.definitions (group.map Linked.settled) requests, opensFrame, slotCount⟩ :: outer ∧
        bindings = group.map Linked.binding ∧ Known names after ∧ Grown scopes after)
      (Fails scopes) := by
  obtain ⟨entries, requests, opensFrame, slotCount, outer, rfl⟩ := defining
  refine (ends_entries entries).bind ?_
  rintro _ _ ⟨rfl, rfl⟩
  refine (ends_defineEach sound _ known ⟨_, _, _, _, _, rfl⟩
    fun wanted mem => ⟨wanted, mem, rfl⟩).bind ?_
  rintro _ after ⟨known', grown, begun⟩
  obtain ⟨entries', requests', opensFrame', slotCount', outer', rfl⟩ :=
    grown.defining ⟨_, _, _, _, _, rfl⟩
  have settled : ∀ entry ∈ entries', ∃ expr, entry.progress = .done expr := by
    intro entry mem
    obtain ⟨origin, mem', advances⟩ := exists_of_forall₂_right grown.innermost mem
    have sameName : entry.name = origin.name := congrArg Prod.fst advances.field
    have waited := begun entry mem (sameName ▸ List.mem_map_of_mem mem')
    have idle' := advances.active (idle origin mem')
    cases progress : entry.progress with
    | waiting => exact (waited progress).elim
    | active => exact (idle' progress).elim
    | done expr => exact ⟨expr, rfl⟩
  obtain ⟨group, rfl⟩ := exists_group settled
  refine (ends_entries (group.map Linked.settled)).bind ?_
  rintro _ _ ⟨rfl, rfl⟩
  refine (ends_collect group).mono ?_ fun _ _ failed => failed
  rintro _ _ ⟨rfl, rfl⟩
  exact ⟨group, requests', opensFrame', slotCount', outer', rfl, rfl, known', grown⟩

end DefineAll

end Analysis

end ShapeLang
