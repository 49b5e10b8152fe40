import ShapeLang.Proofs.Scope.Soundness
import ShapeLang.Proofs.Scope.WellFormed

/-! # Analysis accepts the well-formed programs

Definitions are checked when they are asked for, from whatever place inside their scope, and a
definition that is asked for while it is under way is not checked again. Two statements about the
scopes carry the proof that no order skips or invents a mistake. Definitions that are settled are
well-formed: so what is accepted is well-formed. And as long as all definitions that still wait are
well-formed, a refusal has its reason in the phrase itself.

The fuel is bounded in the same way: a phrase needs no more than its own size and the sizes of the
definitions that wait around it.
-/

namespace ShapeLang

namespace Definition

/-- The size of what is left to do for a definition. -/
def backlog (definition : Definition) : Nat :=
  match definition.progress with
  | .waiting => definition.body.size
  | _ => 0

theorem Advances.body {before after : Definition} (advances : Advances before after) :
    after.body = before.body := by
  cases advances <;> rfl

theorem Advances.backlog_le {before after : Definition} (advances : Advances before after) :
    after.backlog ≤ before.backlog := by
  cases advances with
  | same => exact Nat.le_refl _
  | settled => exact Nat.zero_le _

theorem Advances.still_waiting {before after : Definition} (advances : Advances before after)
    (waits : after.progress = .waiting) : before.progress = .waiting := by
  cases advances with
  | same => exact waits
  | settled => cases waits

end Definition

/-- A definition is settled. -/
def Progress.Settled : Progress → Prop
  | .done _ => True
  | _ => False

namespace Scopes

/-- A name is bound, to a definition, to a parameter or to a constant. -/
def binds (scopes : Scopes) (name : String) : Prop := (scopes.resolve? name).isSome = true

theorem binds_cons (scope : Scope) (scopes : Scopes) (name : String) :
    binds (scope :: scopes) name ↔ (scope.find? name).isSome ∨ binds scopes name := by
  unfold binds
  rw [resolve?]
  cases scope.find? name with
  | none => simp
  | some binding => simp

theorem binds_definitions (entries : List Definition) (requests : List String) (opensFrame : Bool)
    (slotCount : Nat) (outer : Scopes) :
    binds (⟨.definitions entries requests, opensFrame, slotCount⟩ :: outer) =
      within (entries.map (·.name)) (binds outer) := by
  funext name
  rw [binds_cons, within]
  simp [Scope.find?, List.find?_isSome]

theorem binds_parameters (params : List String) (outer : Scopes) :
    binds (.ofParameters params :: outer) = within params (binds outer) := by
  have named : ∀ (slots : List (String × Nat)) (name : String),
      (slots.lookup name).isSome ↔ name ∈ slots.map (·.1) := by
    intro slots name
    induction slots with
    | nil => simp
    | cons slot slots ih =>
      rw [List.lookup_cons, List.map_cons, List.mem_cons]
      split
      · rename_i same
        simp [beq_iff_eq.mp same]
      · rename_i different
        rw [ih]
        simp [ne_of_beq_false different]
  have names : (params.mapIdx fun i name => (name, i)).map (·.1) = params := by
    apply List.ext_getElem <;> simp
  funext name
  rw [binds_cons, within]
  simp only [Scope.find?, Scope.ofParameters, Option.isSome_map, named, names]

theorem binds_ofLet (base : Nat) (definitions : List (String × Phrase)) (outer : Scopes) :
    binds (.ofLet base definitions :: outer) = within (definitions.map (·.1)) (binds outer) := by
  rw [Scope.ofLet, binds_definitions, entriesFrom_names]

/-- Analysis binds no names and forgets none. -/
theorem Grown.binds_eq {before after : Scopes} (grown : Grown before after) :
    after.binds = before.binds := by
  induction grown with
  | nil => rfl
  | @cons binders binders' opensFrame slotCount slotCount' before after advances _ _ _ ih =>
    cases advances with
    | same =>
      funext name
      rw [binds_cons, binds_cons, ih]
      rfl
    | definitions each =>
      rw [binds_definitions, binds_definitions, ih, Binders.Advances.map_name each]

/-- The definitions in some state are well-formed where they stand. -/
def Fine (when : Progress → Prop) : Scopes → Prop
  | [] => True
  | scope :: scopes =>
    (∀ entry ∈ scope.entries, when entry.progress →
      entry.body.WellFormed (binds (scope :: scopes))) ∧ Fine when scopes

/-- The size of all definitions that wait. -/
def backlog : Scopes → Nat
  | [] => 0
  | scope :: scopes => (scope.entries.map Definition.backlog).sum + backlog scopes

theorem Fine.drop {when : Progress → Prop} {scopes : Scopes} (fine : Fine when scopes) (n : Nat) :
    Fine when (scopes.drop n) := by
  induction n generalizing scopes with
  | zero => exact fine
  | succ n ih =>
    cases scopes with
    | nil => trivial
    | cons scope scopes => exact ih fine.2

theorem backlog_drop_le (scopes : Scopes) (n : Nat) : backlog (scopes.drop n) ≤ backlog scopes := by
  induction n generalizing scopes with
  | zero => exact Nat.le_refl _
  | succ n ih =>
    cases scopes with
    | nil => exact Nat.le_refl _
    | cons scope scopes => exact Nat.le_trans (ih scopes) (Nat.le_add_left _ _)

/-- The scopes further in are as fine as before. -/
theorem Fine.graft {when : Progress → Prop} {scopes after : Scopes} (fine : Fine when scopes)
    {n : Nat} (grown : Grown (scopes.drop n) after) (outer : Fine when after) :
    Fine when (scopes.take n ++ after) := by
  have same (n : Nat) (scopes : Scopes) (grown : Grown (scopes.drop n) after) :
      binds (scopes.take n ++ after) = binds scopes := by
    induction n generalizing scopes with
    | zero => exact grown.binds_eq
    | succ n ih =>
      cases scopes with
      | nil => exact grown.binds_eq
      | cons scope scopes =>
        funext name
        rw [List.take_succ_cons, List.cons_append, binds_cons, binds_cons, ih scopes grown]
  induction n generalizing scopes with
  | zero => exact outer
  | succ n ih =>
    cases scopes with
    | nil => exact outer
    | cons scope scopes =>
      refine ⟨fun entry mem state => ?_, ih fine.2 grown⟩
      have whole := same (n + 1) (scope :: scopes) grown
      exact whole ▸ fine.1 entry mem state

/-- The definitions that still wait have waited before. -/
theorem Grown.fine_waiting {before after : Scopes} (grown : Grown before after)
    (fine : Fine (· = .waiting) before) : Fine (· = .waiting) after := by
  induction grown with
  | nil => trivial
  | @cons binders binders' opensFrame slotCount slotCount' before after advances counted fresh outer
    ih =>
    refine ⟨fun entry mem waits => ?_, ih fine.2⟩
    have entrywise : List.Forall₂ Definition.Advances
        (Scope.entries ⟨binders, opensFrame, slotCount⟩)
        (Scope.entries ⟨binders', opensFrame, slotCount'⟩) := advances.entries
    obtain ⟨origin, mem', advanced⟩ := exists_of_forall₂_right entrywise mem
    rw [(Grown.cons advances counted fresh outer).binds_eq, advanced.body]
    exact fine.1 origin mem' (advanced.still_waiting waits)

theorem Grown.backlog_le {before after : Scopes} (grown : Grown before after) :
    backlog after ≤ backlog before := by
  have entrywise {before after : List Definition}
      (each : List.Forall₂ Definition.Advances before after) :
      (after.map Definition.backlog).sum ≤ (before.map Definition.backlog).sum := by
    induction each with
    | nil => exact Nat.le_refl _
    | cons head _ ih =>
      have := head.backlog_le
      simp only [List.map_cons, List.sum_cons]
      omega
  induction grown with
  | nil => exact Nat.le_refl _
  | @cons binders binders' opensFrame slotCount slotCount' before after advances _ _ _ ih =>
    have each : List.Forall₂ Definition.Advances
        (Scope.entries ⟨binders, opensFrame, slotCount⟩)
        (Scope.entries ⟨binders', opensFrame, slotCount'⟩) := advances.entries
    exact Nat.add_le_add (entrywise each) ih

/-- Nothing around a phrase stands in the way of its analysis: the definitions that wait are
well-formed, and the fuel is enough for them and for what has the given size. -/
structure Allows (fuel : Nat) (scopes : Scopes) (size : Nat) : Prop where
  fine : Fine (· = .waiting) scopes
  enough : size + backlog scopes ≤ fuel

namespace Allows

variable {fuel size size' : Nat} {scopes after : Scopes}

theorem later (allows : Allows fuel scopes size) (grown : Grown scopes after) :
    Allows fuel after size :=
  ⟨grown.fine_waiting allows.fine,
    Nat.le_trans (Nat.add_le_add_left grown.backlog_le size) allows.enough⟩

theorem mono (allows : Allows fuel scopes size) (le : size' ≤ size) : Allows fuel scopes size' :=
  ⟨allows.fine, Nat.le_trans (Nat.add_le_add_right le _) allows.enough⟩

theorem drop (allows : Allows fuel scopes size) (n : Nat) : Allows fuel (scopes.drop n) size :=
  ⟨allows.fine.drop n,
    Nat.le_trans (Nat.add_le_add_left (backlog_drop_le scopes n) size) allows.enough⟩

theorem pred (allows : Allows (fuel + 1) scopes (size + 1)) : Allows fuel scopes size :=
  ⟨allows.fine, by have := allows.enough; omega⟩

end Allows

theorem Fine.reserve {when : Progress → Prop} {names : Namespace} {scopes : Scopes}
    (fine : Fine when scopes) (known : Known names scopes) (count : Nat) :
    Fine when (reserve count scopes) := by
  induction scopes with
  | nil => exact fine
  | cons scope scopes ih =>
    have binds := (known.reserve count).2.1.binds_eq
    obtain ⟨binders, opensFrame, slotCount⟩ := scope
    cases opensFrame with
    | true => exact ⟨fun entry mem state => binds ▸ fine.1 entry mem state, fine.2⟩
    | false =>
      refine ⟨fun entry mem state => binds ▸ fine.1 entry mem state, ?_⟩
      cases known with
      | inner outer => exact ih fine.2 outer

/-- Entering the scope of a group of definitions. -/
theorem fine_entriesFrom {when : Progress → Prop} {base slotCount : Nat} {opensFrame : Bool}
    {definitions : List (String × Phrase)} {outer : Scopes} (fine : Fine when outer)
    (bodies : when .waiting → ∀ definition ∈ definitions,
      definition.2.WellFormed (within (definitions.map (·.1)) (binds outer))) :
    Fine when (⟨.definitions (Scope.entriesFrom base definitions) [], opensFrame, slotCount⟩ ::
      outer) := by
  refine ⟨fun entry mem state => ?_, fine⟩
  rw [binds_definitions, entriesFrom_names]
  have source : (entry.name, entry.body) ∈ definitions := by
    rw [← entriesFrom_source base definitions]
    exact List.mem_map_of_mem (f := fun entry : Definition => (entry.name, entry.body)) mem
  exact bodies (entriesFrom_waiting mem ▸ state) _ source

theorem backlog_entriesFrom (base slotCount : Nat) (opensFrame : Bool)
    (definitions : List (String × Phrase)) (outer : Scopes) :
    backlog (⟨.definitions (Scope.entriesFrom base definitions) [], opensFrame, slotCount⟩ ::
      outer) = (definitions.map (·.2.size)).sum + backlog outer := by
  have sizes : (Scope.entriesFrom base definitions).map Definition.backlog =
      definitions.map (·.2.size) := by
    apply List.ext_getElem <;> simp [Scope.entriesFrom, Definition.backlog]
  rw [backlog, Scope.entries, sizes]

theorem fine_around {when : Progress → Prop} {before after : List Definition} {name : String}
    {slot : Nat} {body : Phrase} {progress : Progress} {requests : List String} {opensFrame : Bool}
    {slotCount : Nat} {outer : Scopes} :
    Fine when (Analysis.around before ⟨name, slot, body, progress⟩ after requests opensFrame
        slotCount outer) ↔
      (∀ entry ∈ before ++ after, when entry.progress → entry.body.WellFormed
        (within ((before ++ ⟨name, slot, body, .waiting⟩ :: after).map (·.name)) (binds outer))) ∧
      (when progress → body.WellFormed
        (within ((before ++ ⟨name, slot, body, .waiting⟩ :: after).map (·.name)) (binds outer))) ∧
      Fine when outer := by
  have names : (before ++ (⟨name, slot, body, progress⟩ : Definition) :: after).map (·.name) =
      (before ++ ⟨name, slot, body, .waiting⟩ :: after).map (·.name) := by simp
  rw [Fine, binds_definitions, names]
  simp only [Scope.entries, List.mem_append, List.mem_cons]
  constructor
  · rintro ⟨all, outer⟩
    exact ⟨fun entry mem => all entry (mem.imp_right .inr), all _ (.inr (.inl rfl)), outer⟩
  · rintro ⟨others, chosen, outer⟩
    refine ⟨fun entry mem => ?_, outer⟩
    rcases mem with mem | rfl | mem
    · exact others entry (.inl mem)
    · exact chosen
    · exact others entry (.inr mem)

end Scopes

namespace Analysis

open Scopes

variable {names : Namespace} {scopes : Scopes} {fuel : Nat} {analyze : Phrase → Analysis Expr}

section Headers

/-- A header of a function has parameters only. -/
private theorem ends_headers (args : List Phrase) :
    Ends (args.mapM fun arg =>
        match arg with
        | .ident _ param => pure param
        | _ => raise .invalidDefinition arg.location : Analysis (List Ident)) scopes
      (fun _ _ => True) fun _ _ => args.mapM Phrase.param? = none := by
  induction args with
  | nil => exact Ends.pure trivial
  | cons arg args ih =>
    rw [List.mapM_cons, List.mapM_cons]
    cases arg with
    | ident location param =>
      refine Ends.through (fun _ after => scopes = after) (.pure rfl) ?_
      rintro _ _ rfl
      refine (ih.mono (fun _ _ ok => ok) fun _ _ none => ?_).bind fun _ _ _ => Ends.pure trivial
      rw [none]
      rfl
    | _ => exact Ends.stop (.complain fun _ => rfl)

theorem decides_splitDefinition (location : Location) (target definiens : Phrase) :
    Ends (splitDefinition location target definiens) scopes (fun _ _ => True)
      fun _ _ => (Phrase.definition location target definiens).binding? = none := by
  unfold splitDefinition
  split
  · exact Ends.pure trivial
  · refine ((ends_headers _).mono (fun _ _ ok => ok) fun _ _ none => ?_).bind fun _ _ _ =>
      Ends.pure trivial
    simp [Phrase.binding?, none]
  · rename_i other unnamed
    refine Ends.complain fun _ => ?_
    unfold Phrase.binding?
    split
    · rename_i same
      cases same
      exact (other _ _ rfl).elim
    · rename_i same
      cases same
      exact (unnamed _ _ _ _ rfl).elim
    · rfl

theorem decides_collectDefinitions (seen : List String) (items : List Phrase) :
    Ends (collectDefinitions seen items) scopes (fun _ _ => True) fun _ _ =>
      ¬ ∃ definitions, items.mapM Phrase.binding? = some definitions ∧
        (definitions.map (·.1)).Nodup ∧ ∀ name ∈ definitions.map (·.1), name ∉ seen := by
  induction items generalizing seen with
  | nil => exact Ends.pure trivial
  | cons item items ih =>
    -- What a group consists of, if its first item is one of its definitions.
    have parts {definitions : List (String × Phrase)}
        (written : (item :: items).mapM Phrase.binding? = some definitions) :
        ∃ first rest, item.binding? = some first ∧ items.mapM Phrase.binding? = some rest ∧
          definitions = first :: rest := by
      rw [List.mapM_cons] at written
      obtain ⟨first, head, written⟩ := Option.bind_eq_some_iff.mp written
      obtain ⟨rest, tail, same⟩ := Option.bind_eq_some_iff.mp written
      exact ⟨first, rest, head, tail, (Option.some.inj same).symm⟩
    cases item with
    | definition location target definiens =>
      simp only [collectDefinitions]
      refine (((ends_splitDefinition location target definiens).and
        (decides_splitDefinition location target definiens)).mono (fun _ _ ok => ok.1)
        fun _ _ failed => ?_).bind ?_
      · rintro ⟨definitions, written, -⟩
        obtain ⟨first, rest, head, -, -⟩ := parts written
        rw [failed.2] at head
        cases head
      rintro ⟨id, body⟩ _ ⟨rfl, named⟩
      have same {definitions : List (String × Phrase)} (written : List.mapM Phrase.binding?
          (.definition location target definiens :: items) = some definitions) :
          ∃ rest, items.mapM Phrase.binding? = some rest ∧
            definitions = (id.name, body) :: rest := by
        obtain ⟨first, rest, head, tail, rfl⟩ := parts written
        rw [named] at head
        exact ⟨rest, tail, by rw [Option.some.inj head]⟩
      dsimp only
      by_cases known : id.name ∈ seen
      · rw [if_pos known]
        refine Ends.stop (.complain fun _ => ?_)
        rintro ⟨definitions, written, -, fresh⟩
        obtain ⟨rest, -, rfl⟩ := same written
        exact fresh id.name (by simp) known
      · rw [if_neg known]
        refine ((ih (id.name :: seen)).mono (fun _ _ ok => ok) fun _ _ failed => ?_).bind
          fun _ _ _ => Ends.pure trivial
        rintro ⟨definitions, written, distinct, fresh⟩
        obtain ⟨rest, tail, rfl⟩ := same written
        rw [List.map_cons, List.nodup_cons] at distinct
        refine failed ⟨rest, tail, distinct.2, fun name mem => ?_⟩
        rw [List.mem_cons, not_or]
        exact ⟨fun again => distinct.1 (again ▸ mem), fresh name (List.mem_cons_of_mem _ mem)⟩
    | _ =>
      refine Ends.complain fun _ => ?_
      rintro ⟨definitions, written, -⟩
      obtain ⟨first, rest, head, -⟩ := parts written
      cases head

theorem decides_checkParameters (seen : List String) (params : List Ident) :
    Ends (checkParameters seen params) scopes
      (fun _ _ => (params.map (·.name)).Nodup ∧ ∀ param ∈ params, param.name ∉ seen)
      fun _ _ => ¬ ((params.map (·.name)).Nodup ∧ ∀ param ∈ params, param.name ∉ seen) := by
  induction params generalizing seen with
  | nil => exact Ends.pure (by simp)
  | cons param params ih =>
    simp only [checkParameters]
    by_cases known : param.name ∈ seen
    · rw [if_pos known]
      exact Ends.stop (.complain fun _ ok => ok.2 param (by simp) known)
    · rw [if_neg known]
      have split : ((param :: params).map (·.name)).Nodup ∧
            (∀ other ∈ param :: params, other.name ∉ seen) ↔
          (params.map (·.name)).Nodup ∧ ∀ other ∈ params, other.name ∉ param.name :: seen := by
        simp only [List.map_cons, List.nodup_cons, List.mem_map, List.mem_cons, not_or,
          forall_eq_or_imp, known, not_false_eq_true, true_and]
        grind
      simp only [split]
      exact ih (param.name :: seen)

end Headers

/-- An analyser accepts what is well-formed, as long as nothing around stands in the way, and leaves
well-formed whatever it settles. -/
def Decides (names : Namespace) (fuel : Nat) (analyze : Phrase → Analysis Expr) : Prop :=
  ∀ scopes phrase, Known names scopes → Fine Progress.Settled scopes →
    Ends (analyze phrase) scopes
      (fun _ after => phrase.WellFormed scopes.binds ∧ Fine Progress.Settled after)
      fun _ _ => ¬ (phrase.WellFormed scopes.binds ∧ Allows fuel scopes phrase.size)

variable (sound : Sound names analyze) (decides : Decides names fuel analyze)
  (known : Known names scopes) (fine : Fine Progress.Settled scopes)
include sound decides known fine

section Define

theorem decides_define {name : String} (defining : Defining scopes)
    (listed : ∃ entry ∈ scopes.innermost, entry.name = name) :
    Ends (define analyze name) scopes (fun _ after => Fine Progress.Settled after)
      fun _ _ => ¬ Allows fuel scopes 0 := by
  obtain ⟨entries', requests, opensFrame, slotCount, outer, rfl⟩ := defining
  obtain ⟨listedEntry, mem, named⟩ := listed
  have distinct := distinct_names known
  refine (ends_entries entries').bind ?_
  rintro _ _ ⟨rfl, rfl⟩
  cases found : List.find? (fun entry : Definition => entry.name == name) _ with
  | none => exact absurd named (by simpa using List.find?_eq_none.mp found listedEntry mem)
  | some entry =>
    obtain ⟨isName, before, after, rfl, _⟩ := List.find?_eq_some_iff_append.mp found
    obtain ⟨entryName, slot, body, progress⟩ := entry
    obtain rfl : entryName = name := by simpa using isName
    cases progress with
    | active => exact .pure fine
    | done expr => exact .pure fine
    | waiting =>
      refine Ends.through (fun _ now => now = around before
        ⟨entryName, slot, body, .active⟩ after (requests ++ [entryName]) opensFrame slotCount
        outer) (.modify ?_) ?_
      · simp only [around, map_update .active distinct]
      rintro _ _ rfl
      obtain ⟨others, -, fineOuter⟩ := fine_around.mp fine
      have begun : Known names (around before ⟨entryName, slot, body, .active⟩ after
          (requests ++ [entryName]) opensFrame slotCount outer) := known_active known
      have fine' : Fine Progress.Settled (around before ⟨entryName, slot, body, .active⟩ after
          (requests ++ [entryName]) opensFrame slotCount outer) :=
        fine_around.mpr ⟨others, fun impossible => impossible.elim, fineOuter⟩
      refine (((sound _ body begun).and (decides _ body begun fine')).mono (fun _ _ ok => ok)
        fun _ _ failed => ?_).bind ?_
      · -- The definition was well-formed and counted as long as it waited.
        intro allows
        obtain ⟨waits, own, outerWaits⟩ := fine_around.mp allows.fine
        refine failed.2 ⟨?_, fine_around.mpr ⟨waits, (fun same => by cases same), outerWaits⟩, ?_⟩
        · rw [binds_definitions]
          simpa using own rfl
        · have enough := allows.enough
          simp only [Scopes.backlog, Scope.entries, List.map_append, List.map_cons,
            List.sum_append, List.sum_cons, Definition.backlog] at enough ⊢
          omega
      rintro expr now ⟨⟨resolves, reached⟩, wellFormed, fineNow⟩
      obtain ⟨entries'', requests', opensFrame', slotCount', outer', rfl⟩ :=
        reached.grown.defining ⟨_, _, _, _, _, rfl⟩
      obtain ⟨before', entry', after', rfl, beforeAdvances, advances, afterAdvances⟩ :=
        split_around reached.grown.innermost
      obtain rfl : entry' = ⟨entryName, slot, body, .active⟩ := by
        cases advances
        rfl
      refine Ends.modify ?_
      simp only [map_update (.done expr) (distinct_names reached.known)]
      obtain ⟨othersNow, -, outerNow⟩ := fine_around.mp fineNow
      refine fine_around.mpr ⟨othersNow, fun _ => ?_, outerNow⟩
      rw [← reached.grown.binds_eq, binds_definitions] at wellFormed
      simpa using wellFormed

theorem decides_defineEach (todo : List Definition) (defining : Defining scopes)
    (listed : ∀ wanted ∈ todo, ∃ entry ∈ scopes.innermost, entry.name = wanted.name) :
    Ends (todo.forM fun entry => define analyze entry.name) scopes
      (fun _ after => Fine Progress.Settled after) fun _ _ => ¬ Allows fuel scopes 0 := by
  induction todo generalizing scopes with
  | nil => exact Ends.pure fine
  | cons wanted todo ih =>
    change Ends (define analyze wanted.name >>= fun _ => todo.forM _) _ _ _
    refine (((ends_define sound known defining (listed wanted (by simp))).and
      (decides_define sound decides known fine defining (listed wanted (by simp)))).mono
      (fun _ _ ok => ok) fun _ _ failed => failed.2).bind ?_
    rintro _ middle ⟨⟨known', grown, -⟩, fine'⟩
    refine (ih known' fine' (grown.defining defining) fun wanted mem => ?_).mono
      (fun _ _ ok => ok) fun _ _ failed allows => failed (allows.later grown)
    obtain ⟨entry, inside, same⟩ := listed wanted (by simp [mem])
    have inNames : wanted.name ∈ middle.innermost.map (·.name) :=
      Binders.Advances.map_name grown.innermost ▸ List.mem_map.mpr ⟨entry, inside, same⟩
    exact List.mem_map.mp inNames

omit sound decides known fine in
/-- Nothing but a definition that was not settled keeps a group from being collected. -/
private theorem ends_collected (entries : List Definition) :
    Ends (entries.mapM fun entry =>
        match entry.progress with
        | .done expr => pure (entry.slot, expr)
        | _ => throw (.defect (.unanalysedDefinition entry.name)) : Analysis (List (Nat × Expr)))
      scopes (fun _ after => scopes = after) fun fault _ => ¬ fault.Harmless := by
  induction entries with
  | nil => exact Ends.pure rfl
  | cons entry entries ih =>
    rw [List.mapM_cons]
    refine Ends.through (fun _ after => scopes = after) ?_ ?_
    · split
      · exact Ends.pure rfl
      · exact Ends.throw fun harmless => harmless _ rfl
    · rintro _ _ rfl
      refine ih.bind ?_
      rintro _ _ rfl
      exact Ends.pure rfl

theorem decides_defineAll (defining : Defining scopes)
    (idle : ∀ entry ∈ scopes.innermost, entry.progress ≠ .active) :
    Ends (defineAll analyze) scopes (fun _ after => Fine Progress.Settled after)
      fun _ _ => ¬ Allows fuel scopes 0 := by
  have outcome : Ends (defineAll analyze) scopes (fun _ after => Fine Progress.Settled after)
      fun fault _ => ¬ fault.Harmless ∨ ¬ Allows fuel scopes 0 := by
    obtain ⟨entries', requests, opensFrame, slotCount, outer, rfl⟩ := defining
    refine (ends_entries entries').bind ?_
    rintro entries' _ ⟨rfl, rfl⟩
    have listed : ∀ wanted ∈ entries', ∃ entry ∈ entries', entry.name = wanted.name :=
      fun wanted mem => ⟨wanted, mem, rfl⟩
    refine (((ends_defineEach sound entries' known ⟨_, _, _, _, _, rfl⟩ listed).and
      (decides_defineEach sound decides known fine entries' ⟨_, _, _, _, _, rfl⟩ listed)).mono
      (fun _ _ ok => ok) fun _ _ failed => .inr failed.2).bind ?_
    rintro _ after ⟨⟨-, grown, -⟩, fine'⟩
    obtain ⟨entries'', requests', opensFrame', slotCount', outer', rfl⟩ :=
      grown.defining ⟨_, _, _, _, _, rfl⟩
    refine (ends_entries entries'').bind ?_
    rintro entries'' _ ⟨rfl, rfl⟩
    refine (ends_collected _).mono ?_ fun _ _ defect => .inl defect
    rintro _ _ rfl
    exact fine'
  exact ((ends_defineAll sound known defining idle).and outcome).mono (fun _ _ ok => ok.2)
    fun _ _ failed => failed.2.elim (fun defect => (defect failed.1.1).elim) id

end Define

section Groups

omit sound decides known fine in
theorem wellFormed_settled {group : List Linked} {requests : List String} {opensFrame : Bool}
    {slotCount : Nat} {outer : Scopes}
    (fine : Fine Progress.Settled
      (⟨.definitions (group.map Linked.settled) requests, opensFrame, slotCount⟩ :: outer)) :
    ∀ definition ∈ group.map Linked.source,
      definition.2.WellFormed (within ((group.map Linked.source).map (·.1)) outer.binds) := by
  intro definition mem
  obtain ⟨linked, inside, rfl⟩ := List.mem_map.mp mem
  have body := fine.1 linked.settled (List.mem_map_of_mem inside) trivial
  rw [binds_definitions] at body
  simpa [Linked.settled, Linked.source, Function.comp_def] using body

theorem decides_moduleOf {definitions : List (String × Phrase)}
    (distinct : (definitions.map (·.1)).Nodup) :
    Ends (moduleOf analyze definitions) scopes
      (fun _ after => (∀ definition ∈ definitions,
        definition.2.WellFormed (within (definitions.map (·.1)) scopes.binds)) ∧
        Fine Progress.Settled after)
      fun _ _ => ¬ ((∀ definition ∈ definitions,
        definition.2.WellFormed (within (definitions.map (·.1)) scopes.binds)) ∧
        Allows fuel scopes (definitions.map (·.2.size)).sum) := by
  have entered := known.ofModule distinct
  have fineEntered : Fine Progress.Settled (.ofModule definitions :: scopes) :=
    fine_entriesFrom fine fun impossible => impossible.elim
  have idle : ∀ entry ∈ innermost (.ofModule definitions :: scopes),
      entry.progress ≠ .active := fun entry mem => by
    rw [entriesFrom_waiting mem]
    simp
  have outcome : Ends (moduleOf analyze definitions) scopes
      (fun _ after => (∀ definition ∈ definitions,
        definition.2.WellFormed (within (definitions.map (·.1)) scopes.binds)) ∧
        Fine Progress.Settled after)
      fun fault _ => ¬ fault.Harmless ∨ ¬ ((∀ definition ∈ definitions,
        definition.2.WellFormed (within (definitions.map (·.1)) scopes.binds)) ∧
        Allows fuel scopes (definitions.map (·.2.size)).sum) := by
    refine Ends.through (fun _ after => (∀ definition ∈ definitions,
        definition.2.WellFormed (within (definitions.map (·.1)) scopes.binds)) ∧
        Fine Progress.Settled after) (Ends.inside ?_) ?_
    · refine ((ends_defineAll sound entered ⟨_, _, _, _, _, rfl⟩ idle).and
        (decides_defineAll sound decides entered fineEntered ⟨_, _, _, _, _, rfl⟩ idle)).mono ?_ ?_
      · rintro _ _ ⟨⟨group, requests, opensFrame, slotCount, outer, rfl, rfl, -, grown⟩, fine'⟩
        have written := map_source grown.innermost
        simp only [innermost, Scope.entries, Scope.ofModule, Linked.map_settled_source,
          entriesFrom_source] at written
        have grownOuter : Grown scopes outer := by
          cases grown with
          | cons _ _ _ grownOuter => exact grownOuter
        refine ⟨_, _, rfl, ?_, fine'.2⟩
        rw [← written, ← grownOuter.binds_eq]
        exact wellFormed_settled fine'
      · rintro fault after ⟨failed, refused⟩
        obtain ⟨closed, outer, rfl, -⟩ := failed.inside
        refine ⟨closed, outer, rfl, .inr ?_⟩
        rintro ⟨bodies, allows⟩
        refine refused ⟨fine_entriesFrom allows.fine fun _ => bodies, ?_⟩
        rw [Scope.ofModule, backlog_entriesFrom]
        have := allows.enough
        omega
    · rintro ⟨bindings, ⟨binders, opensFrame, slotCount⟩⟩ after ok
      have defect : ¬ (Fault.defect .noDefinitions).Harmless := fun harmless => harmless _ rfl
      cases binders with
      | definitions entries requests => exact ok
      | constants names => exact .inl defect
      | parameters slots => exact .inl defect
  exact ((ends_moduleOf sound known distinct).and outcome).mono (fun _ _ ok => ok.2)
    fun _ _ failed => failed.2.elim (fun defect => (defect failed.1.1).elim) id

theorem decides_let {definitions : List (String × Phrase)}
    (distinct : (definitions.map (·.1)).Nodup) (body : Phrase) :
    Ends (inside (.ofLet (slotCount scopes) definitions) do
        let bindings ← defineAll analyze
        let body ← analyze body
        pure (bindings, body)) (reserve definitions.length scopes)
      (fun _ after => (∀ definition ∈ definitions,
        definition.2.WellFormed (within (definitions.map (·.1)) scopes.binds)) ∧
        body.WellFormed (within (definitions.map (·.1)) scopes.binds) ∧
        Fine Progress.Settled after)
      fun _ _ => ¬ ((∀ definition ∈ definitions,
        definition.2.WellFormed (within (definitions.map (·.1)) scopes.binds)) ∧
        body.WellFormed (within (definitions.map (·.1)) scopes.binds) ∧
        Allows fuel scopes ((definitions.map (·.2.size)).sum + body.size)) := by
  obtain ⟨reserved, grownReserve, room, sameTaken⟩ := known.reserve definitions.length
  have below : ∀ slot ∈ taken (reserve definitions.length scopes), slot < slotCount scopes :=
    fun slot mem => known.layout.inside slot (sameTaken ▸ mem)
  have entered := reserved.ofLet distinct room below
  have fineEntered : Fine Progress.Settled
      (.ofLet (slotCount scopes) definitions :: reserve definitions.length scopes) :=
    fine_entriesFrom (fine.reserve known _) fun impossible => impossible.elim
  have idle : ∀ entry ∈ innermost
      (.ofLet (slotCount scopes) definitions :: reserve definitions.length scopes),
      entry.progress ≠ .active := fun entry mem => by
    rw [entriesFrom_waiting mem]
    simp
  -- Nothing stands in the way of the group, nor of the body after it.
  have allowed (bodies : ∀ definition ∈ definitions,
        definition.2.WellFormed (within (definitions.map (·.1)) scopes.binds))
      (allows : Allows fuel scopes ((definitions.map (·.2.size)).sum + body.size)) :
      Allows fuel (.ofLet (slotCount scopes) definitions :: reserve definitions.length scopes)
        body.size := by
    have later := allows.later grownReserve
    refine ⟨fine_entriesFrom later.fine fun _ => grownReserve.binds_eq ▸ bodies, ?_⟩
    rw [Scope.ofLet, backlog_entriesFrom]
    have := later.enough
    omega
  refine .inside ?_
  refine (((ends_defineAll sound entered ⟨_, _, _, _, _, rfl⟩ idle).and
    (decides_defineAll sound decides entered fineEntered ⟨_, _, _, _, _, rfl⟩ idle)).mono
    (fun _ _ ok => ok) ?_).bind ?_
  · rintro fault after ⟨failed, refused⟩
    obtain ⟨closed, outer, rfl, -⟩ := failed.inside
    refine ⟨closed, outer, rfl, ?_⟩
    rintro ⟨bodies, -, allows⟩
    exact refused ((allowed bodies allows).mono (Nat.zero_le _))
  rintro _ _ ⟨⟨group, requests, opensFrame, total, outer, rfl, rfl, known', grown⟩, fine'⟩
  have written := map_source grown.innermost
  simp only [innermost, Scope.entries, Scope.ofLet, Linked.map_settled_source,
    entriesFrom_source] at written
  have inner : binds (⟨.definitions (group.map Linked.settled) requests, opensFrame, total⟩ ::
      outer) = within (definitions.map (·.1)) scopes.binds := by
    rw [grown.binds_eq, binds_ofLet, grownReserve.binds_eq]
  have bodies : ∀ definition ∈ definitions,
      definition.2.WellFormed (within (definitions.map (·.1)) scopes.binds) := by
    have settled := wellFormed_settled fine'
    have sameOuter : outer.binds = scopes.binds := by
      cases grown with
      | cons _ _ _ grownOuter => rw [grownOuter.binds_eq, grownReserve.binds_eq]
    rwa [written, sameOuter] at settled
  refine (((sound _ body known').and (decides _ body known' fine')).mono (fun _ _ ok => ok)
    ?_).bind ?_
  · rintro fault after ⟨failed, refused⟩
    obtain ⟨closed, outer', rfl, -⟩ := failed.inside
    refine ⟨closed, outer', rfl, ?_⟩
    rintro ⟨bodies, rest, allows⟩
    exact refused ⟨inner ▸ rest, (allowed bodies allows).later grown⟩
  rintro expr after ⟨⟨-, reached⟩, rest, fineAfter⟩
  obtain ⟨entries', requests', opensFrame', total', outer', rfl⟩ :=
    reached.grown.defining ⟨_, _, _, _, _, rfl⟩
  exact Ends.pure ⟨_, _, rfl, bodies, inner ▸ rest, fineAfter.2⟩

theorem decides_body (params : List String) (body : Phrase) :
    Ends (inside (.ofParameters params) (analyze body)) scopes
      (fun _ after => body.WellFormed (within params scopes.binds) ∧ Fine Progress.Settled after)
      fun _ _ => ¬ (body.WellFormed (within params scopes.binds) ∧
        Allows fuel scopes body.size) := by
  have entered := known.ofParameters params
  have none {when : Progress → Prop} {scopes : Scopes} (fine : Fine when scopes) :
      Fine when (.ofParameters params :: scopes) :=
    ⟨fun entry mem => by simp [Scope.entries, Scope.ofParameters] at mem, fine⟩
  refine .inside (((sound _ body entered).and (decides _ body entered (none fine))).mono ?_ ?_)
  · rintro expr after ⟨⟨-, reached⟩, wellFormed, fine'⟩
    rw [binds_parameters] at wellFormed
    cases reached.grown with
    | cons => exact ⟨_, _, rfl, wellFormed, fine'.2⟩
  · rintro fault after ⟨failed, refused⟩
    obtain ⟨closed, outer, rfl, -⟩ := failed.inside
    refine ⟨closed, outer, rfl, ?_⟩
    rintro ⟨wellFormed, allows⟩
    refine refused ⟨?_, none allows.fine, ?_⟩
    · rwa [binds_parameters]
    · simpa [backlog, Scope.entries, Scope.ofParameters] using allows.enough

end Groups

section Parts

theorem decides_reference (location : Location) (id : Ident) :
    Ends (reference analyze location id) scopes
      (fun _ after => scopes.binds id.name ∧ Fine Progress.Settled after)
      fun _ _ => ¬ (scopes.binds id.name ∧ Allows fuel scopes 0) := by
  refine Ends.through (fun found now => scopes = found ∧ scopes = now)
    (.get ⟨rfl, rfl⟩) ?_
  rintro _ _ ⟨rfl, rfl⟩
  have leads := known.leads id.name
  have bound : scopes.binds id.name ↔ (scopes.resolve? id.name).isSome := Iff.rfl
  revert leads
  cases found : Scopes.resolve? scopes id.name with
  | none =>
    rw [found] at bound
    exact fun _ => Ends.complain fun _ ok => by simpa using bound.mp ok.1
  | some binding =>
    have isBound : scopes.binds id.name := bound.mpr (by rw [found]; rfl)
    cases binding with
    | constant value => exact fun _ => Ends.pure ⟨isBound, fine⟩
    | slot depth slot => exact fun _ => Ends.pure ⟨isBound, fine⟩
    | definition depth slot inner =>
      rintro ⟨-, short, defining, listed⟩
      refine Ends.through (fun _ after => Fine Progress.Settled after) (.outside ?_)
        fun _ after fine' => Ends.pure ⟨isBound, fine'⟩
      refine ((ends_define sound (known.drop short) defining listed).and
        (decides_define sound decides (known.drop short) (fine.drop inner) defining listed)).mono
        ?_ ?_
      · rintro _ after ⟨⟨-, grown, -⟩, fine'⟩
        exact fine.graft grown fine'
      · exact fun _ _ failed ok => failed.2 (ok.2.drop inner)

theorem decides_analyzeAll (phrases : List Phrase) :
    Ends (phrases.mapM analyze) scopes
      (fun _ after => (∀ phrase ∈ phrases, phrase.WellFormed scopes.binds) ∧
        Fine Progress.Settled after)
      fun _ _ => ¬ ((∀ phrase ∈ phrases, phrase.WellFormed scopes.binds) ∧
        Allows fuel scopes (Phrase.sizeAll phrases)) := by
  induction phrases generalizing scopes with
  | nil => exact Ends.pure ⟨by simp, fine⟩
  | cons phrase phrases ih =>
    rw [List.mapM_cons]
    refine (((sound scopes phrase known).and (decides scopes phrase known fine)).mono
      (fun _ _ ok => ok) fun _ _ failed ok => failed.2
        ⟨ok.1 phrase (by simp), ok.2.mono (Nat.le_add_right _ _)⟩).bind ?_
    rintro expr middle ⟨⟨-, reached⟩, first, fine'⟩
    have same := reached.grown.binds_eq
    refine ((ih reached.known fine').mono (fun _ _ ok => ok) fun _ _ failed ok => failed
      ⟨fun other mem => same ▸ ok.1 other (by simp [mem]),
        (ok.2.mono (Nat.le_add_left _ _)).later reached.grown⟩).bind ?_
    rintro _ after ⟨rest, fine''⟩
    refine Ends.pure ⟨fun other mem => ?_, fine''⟩
    rcases List.mem_cons.mp mem with rfl | mem
    · exact first
    · exact same ▸ rest other mem

theorem decides_fields (seen : List String) (written : List (Ident × Phrase)) :
    Ends (fields analyze seen written) scopes
      (fun _ after => (∀ field ∈ written, field.2.WellFormed scopes.binds) ∧
        (written.map (·.1.name)).Nodup ∧ (∀ field ∈ written, field.1.name ∉ seen) ∧
        Fine Progress.Settled after)
      fun _ _ => ¬ ((∀ field ∈ written, field.2.WellFormed scopes.binds) ∧
        (written.map (·.1.name)).Nodup ∧ (∀ field ∈ written, field.1.name ∉ seen) ∧
        Allows fuel scopes (Phrase.sizeFields written)) := by
  induction written generalizing scopes seen with
  | nil => exact Ends.pure ⟨by simp, by simp, by simp, fine⟩
  | cons field rest ih =>
    obtain ⟨id, phrase⟩ := field
    simp only [fields]
    by_cases again : id.name ∈ seen
    · rw [if_pos again]
      exact Ends.stop (.complain fun _ ok => ok.2.2.1 (id, phrase) (by simp) again)
    rw [if_neg again]
    refine (((sound scopes phrase known).and (decides scopes phrase known fine)).mono
      (fun _ _ ok => ok) fun _ _ failed ok => failed.2
        ⟨ok.1 (id, phrase) (by simp), ok.2.2.2.mono (Nat.le_add_right _ _)⟩).bind ?_
    rintro expr middle ⟨⟨-, reached⟩, first, fine'⟩
    have same := reached.grown.binds_eq
    have split : ((id, phrase) :: rest).map (·.1.name) = id.name :: rest.map (·.1.name) := rfl
    refine ((ih reached.known fine' (id.name :: seen)).mono (fun _ _ ok => ok) ?_).bind ?_
    · rintro _ _ failed ⟨parts, distinct, fresh, allows⟩
      rw [split, List.nodup_cons] at distinct
      refine failed ⟨fun other mem => same ▸ parts other (by simp [mem]), distinct.2,
        fun other mem => ?_, (allows.mono (Nat.le_add_left _ _)).later reached.grown⟩
      rw [List.mem_cons, not_or]
      exact ⟨fun equal => distinct.1 (equal ▸ List.mem_map_of_mem (f := (·.1.name)) mem),
        fresh other (by simp [mem])⟩
    · rintro _ after ⟨parts, distinct, fresh, fine''⟩
      refine Ends.pure ⟨fun other mem => ?_, ?_, fun other mem => ?_, fine''⟩
      · rcases List.mem_cons.mp mem with rfl | mem
        · exact first
        · exact same ▸ parts other mem
      · rw [split, List.nodup_cons]
        refine ⟨fun mem => ?_, distinct⟩
        obtain ⟨other, inside, equal⟩ := List.mem_map.mp mem
        exact fresh other inside (by simp [equal])
      · rcases List.mem_cons.mp mem with rfl | mem
        · exact again
        · exact fun mem' => fresh other mem (List.mem_cons_of_mem _ mem')

end Parts

omit sound decides known fine in
/-- The definitions of a group, and the phrases that it consists of. -/
private theorem group_allowed {items : List Phrase} {definitions : List (String × Phrase)} {size : Nat}
    (written : items.mapM Phrase.binding? = some definitions)
    (allows : Allows (fuel + 1) scopes (Phrase.sizeAll items + size + 1)) :
    Allows fuel scopes ((definitions.map (·.2.size)).sum + size) :=
  allows.pred.mono (Nat.add_le_add_right (Phrase.size_bindings written) size)

/-- Whatever stands for an expression is well-formed, and what is refused is not. -/
theorem step_decides (phrase : Phrase) :
    Ends (step analyze phrase) scopes
      (fun meaning after => Fine Progress.Settled after ∧
        ∀ expr, meaning = .expression expr → phrase.WellFormed scopes.binds)
      fun _ _ => ¬ (phrase.WellFormed scopes.binds ∧ Allows (fuel + 1) scopes phrase.size) := by
  have part (phrase : Phrase) := (sound scopes phrase known).and (decides scopes phrase known fine)
  cases phrase with
  | numeral location value => exact Ends.pure ⟨fine, fun _ _ => .numeral⟩
  | boolean location value => exact Ends.pure ⟨fine, fun _ _ => .boolean⟩
  | text location content => exact Ends.pure ⟨fine, fun _ _ => .text⟩
  | ident location id =>
    exact Ends.map ((decides_reference sound decides known fine location id).mono
      (fun _ _ ok => ⟨ok.2, fun _ _ => .ident ok.1⟩)
      fun _ _ failed ⟨.ident bound, allows⟩ => failed ⟨bound, allows.pred⟩)
  | list location items =>
    refine ((decides_analyzeAll sound decides known fine items).mono (fun _ _ ok => ok)
      fun _ _ failed ⟨.list parts, allows⟩ => failed ⟨parts, allows.pred⟩).bind ?_
    exact fun _ _ ok => Ends.pure ⟨ok.2, fun _ _ => .list ok.1⟩
  | record location written =>
    refine ((decides_fields sound decides known fine [] written).mono (fun _ _ ok => ok)
      fun _ _ failed ⟨.record distinct parts, allows⟩ =>
        failed ⟨parts, distinct, by simp, allows.pred⟩).bind ?_
    exact fun _ _ ok => Ends.pure ⟨ok.2.2.2, fun _ _ => .record ok.2.1 ok.1⟩
  | «module» location items =>
    refine (((ends_collectDefinitions [] items).and (decides_collectDefinitions [] items)).mono
      (fun _ _ ok => ok.1) fun _ _ failed ⟨.module written distinct _, _⟩ =>
        failed.2 ⟨_, written, distinct, by simp⟩).bind ?_
    rintro definitions _ ⟨rfl, written, distinct, -⟩
    refine ((decides_moduleOf sound decides known fine distinct).mono (fun _ _ ok => ok) ?_).bind
      fun _ _ ok => Ends.pure ⟨ok.2, fun _ _ => .module written distinct ok.1⟩
    rintro _ _ failed ⟨wellFormed, allows⟩
    cases wellFormed with
    | «module» written' _ parts =>
      obtain rfl := Option.some.inj (written.symm.trans written')
      have allowed : Allows fuel scopes ((definitions.map (·.2.size)).sum + 0) :=
        group_allowed written allows
      exact failed ⟨parts, allowed⟩
  | definition location target definiens =>
    refine ((ends_splitDefinition location target definiens).mono (fun _ _ ok => ok)
      fun _ _ _ ok => nomatch ok.1).bind ?_
    rintro result _ ⟨rfl, -⟩
    exact Ends.pure ⟨fine, fun _ same => by cases same⟩
  | lambda location params body =>
    refine (((ends_checkParameters [] params).and (decides_checkParameters [] params)).mono
      (fun _ _ ok => ok) ?_).bind ?_
    · rintro _ _ failed ⟨wellFormed, -⟩
      cases wellFormed with
      | lambda distinct _ => exact failed.2 ⟨distinct, by simp⟩
    rintro _ _ ⟨rfl, distinct, -⟩
    refine ((decides_body sound decides known fine (params.map (·.name)) body).mono
      (fun _ _ ok => ok) ?_).bind ?_
    · rintro _ _ failed ⟨wellFormed, allows⟩
      cases wellFormed with
      | lambda _ inner => exact failed ⟨inner, allows.pred⟩
    exact fun _ _ ok => Ends.pure ⟨ok.2, fun _ _ => .lambda distinct ok.1⟩
  | call location function args =>
    refine ((part function).mono (fun _ _ ok => ok) fun _ _ failed ⟨.call head _, allows⟩ =>
      failed.2 ⟨head, allows.pred.mono (Nat.le_add_right _ _)⟩).bind ?_
    rintro callee middle ⟨⟨-, reached⟩, head, fine'⟩
    have same := reached.grown.binds_eq
    refine ((decides_analyzeAll sound decides reached.known fine' args).mono (fun _ _ ok => ok)
      fun _ _ failed ⟨.call _ rest, allows⟩ => failed
        ⟨same ▸ rest, (allows.pred.mono (Nat.le_add_left _ _)).later reached.grown⟩).bind ?_
    exact fun _ _ ok => Ends.pure ⟨ok.2, fun _ _ => .call head (same ▸ ok.1)⟩
  | dot location base field =>
    refine ((part base).mono (fun _ _ ok => ok.2) fun _ _ failed ⟨.dot part, allows⟩ =>
      failed.2 ⟨part, allows.pred⟩).bind ?_
    exact fun _ _ ok => Ends.pure ⟨ok.2, fun _ _ => .dot ok.1⟩
  | index location base index =>
    refine ((part base).mono (fun _ _ ok => ok) fun _ _ failed ⟨.index first _, allows⟩ =>
      failed.2 ⟨first, allows.pred.mono (Nat.le_add_right _ _)⟩).bind ?_
    rintro expr middle ⟨⟨-, reached⟩, first, fine'⟩
    have same := reached.grown.binds_eq
    refine ((decides _ index reached.known fine').mono (fun _ _ ok => ok)
      fun _ _ failed ⟨.index _ second, allows⟩ => failed
        ⟨same ▸ second, (allows.pred.mono (Nat.le_add_left _ _)).later reached.grown⟩).bind ?_
    exact fun _ _ ok => Ends.pure ⟨ok.2, fun _ _ => .index first (same ▸ ok.1)⟩
  | unary location op operand =>
    refine ((part operand).mono (fun _ _ ok => ok.2) fun _ _ failed ⟨.unary part, allows⟩ =>
      failed.2 ⟨part, allows.pred⟩).bind ?_
    exact fun _ _ ok => Ends.pure ⟨ok.2, fun _ _ => .unary ok.1⟩
  | binary location op left right =>
    refine ((part left).mono (fun _ _ ok => ok) fun _ _ failed ⟨.binary first _, allows⟩ =>
      failed.2 ⟨first, allows.pred.mono (Nat.le_add_right _ _)⟩).bind ?_
    rintro a middle ⟨⟨-, reached⟩, first, fine'⟩
    have same := reached.grown.binds_eq
    refine ((decides _ right reached.known fine').mono (fun _ _ ok => ok)
      fun _ _ failed ⟨.binary _ second, allows⟩ => failed
        ⟨same ▸ second, (allows.pred.mono (Nat.le_add_left _ _)).later reached.grown⟩).bind ?_
    exact fun _ _ ok => Ends.pure ⟨ok.2, fun _ _ => .binary first (same ▸ ok.1)⟩
  | conditional location condition whenTrue whenFalse =>
    refine ((part condition).mono (fun _ _ ok => ok)
      fun _ _ failed ⟨.conditional first _ _, allows⟩ =>
        failed.2 ⟨first, allows.pred.mono (by omega)⟩).bind ?_
    rintro c middle ⟨⟨-, reached⟩, first, fine'⟩
    have same := reached.grown.binds_eq
    refine (((sound _ whenTrue reached.known).and (decides _ whenTrue reached.known fine')).mono
      (fun _ _ ok => ok) fun _ _ failed ⟨.conditional _ second _, allows⟩ => failed.2
        ⟨same ▸ second, (allows.pred.mono (by omega)).later reached.grown⟩).bind ?_
    rintro a later ⟨⟨-, reached'⟩, second, fine''⟩
    have grown := reached.grown.trans reached'.grown
    have same' := grown.binds_eq
    refine ((decides _ whenFalse reached'.known fine'').mono (fun _ _ ok => ok)
      fun _ _ failed ⟨.conditional _ _ third, allows⟩ => failed
        ⟨same' ▸ third, (allows.pred.mono (Nat.le_add_left _ _)).later grown⟩).bind ?_
    exact fun _ _ ok => Ends.pure
      ⟨ok.2, fun _ _ => .conditional first (same ▸ second) (same' ▸ ok.1)⟩
  | letIn location items body =>
    refine (((ends_collectDefinitions [] items).and (decides_collectDefinitions [] items)).mono
      (fun _ _ ok => ok.1) fun _ _ failed ⟨.letIn written distinct _ _, _⟩ =>
        failed.2 ⟨_, written, distinct, by simp⟩).bind ?_
    rintro definitions _ ⟨rfl, written, distinct, -⟩
    refine Ends.through (fun found now => scopes = found ∧ scopes = now)
      (.get ⟨rfl, rfl⟩) ?_
    rintro _ _ ⟨rfl, rfl⟩
    refine Ends.through (fun _ now => reserve definitions.length scopes = now) (.modify rfl) ?_
    rintro _ _ rfl
    refine ((decides_let sound decides known fine distinct body).mono (fun _ _ ok => ok) ?_).bind
      fun _ _ ok => Ends.pure ⟨ok.2.2, fun _ _ => .letIn written distinct ok.1 ok.2.1⟩
    rintro _ _ failed ⟨wellFormed, allows⟩
    cases wellFormed with
    | letIn written' _ parts rest =>
      obtain rfl := Option.some.inj (written.symm.trans written')
      exact failed ⟨parts, rest, group_allowed written allows⟩
  | forEach location item list body =>
    refine ((part list).mono (fun _ _ ok => ok) fun _ _ failed ⟨.forEach first _, allows⟩ =>
      failed.2 ⟨first, allows.pred.mono (Nat.le_add_right _ _)⟩).bind ?_
    rintro items middle ⟨⟨-, reached⟩, first, fine'⟩
    have same := reached.grown.binds_eq
    refine ((decides_body sound decides reached.known fine' [item.name] body).mono
      (fun _ _ ok => ok) fun _ _ failed ⟨.forEach _ inner, allows⟩ => failed
        ⟨same ▸ inner, (allows.pred.mono (Nat.le_add_left _ _)).later reached.grown⟩).bind ?_
    exact fun _ _ ok => Ends.pure ⟨ok.2, fun _ _ => .forEach first (same ▸ ok.1)⟩

omit sound decides known fine in
theorem exprUpTo_decides (names : Namespace) (fuel : Nat) :
    Decides names fuel (exprUpTo fuel) := by
  induction fuel with
  | zero =>
    refine fun scopes phrase _ _ => Ends.throw fun ok => ?_
    have := ok.2.enough
    have : 0 < phrase.size := by cases phrase <;> simp [Phrase.size]
    omega
  | succ fuel ih =>
    intro scopes phrase known fine
    refine (((step_means (exprUpTo_sound names fuel) known phrase).and
      (step_decides (exprUpTo_sound names fuel) ih known fine phrase)).mono (fun _ _ ok => ok)
      fun _ _ failed => failed.2).bind ?_
    rintro meaning after ⟨means, fine', wellFormed⟩
    cases meaning with
    | expression expr => exact Ends.pure ⟨wellFormed expr rfl, fine'⟩
    | definition name definiens =>
      -- Only definitions have this meaning, and none of them is an expression.
      refine Ends.complain fun _ ok => ?_
      obtain ⟨wellFormed, -⟩ := ok
      have named := means.1
      cases wellFormed <;> cases named

omit sound decides known fine in
/-- A program is accepted exactly if it is well-formed. -/
theorem program_decides (names : Namespace) (phrase : Phrase) :
    Ends (program phrase) [.ofNamespace names]
      (fun _ _ => phrase.asProgram.WellFormed fun name => (names.lookup name).isSome)
      fun _ _ => ¬ phrase.asProgram.WellFormed fun name => (names.lookup name).isSome := by
  have known : Scopes.Known names [.ofNamespace names] := .root 0
  have fine {when : Progress → Prop} : Fine when [.ofNamespace names] :=
    ⟨fun _ mem => by simp [Scope.entries, Scope.ofNamespace] at mem, trivial⟩
  have bound : Scopes.binds [.ofNamespace names] = fun name => (names.lookup name).isSome = true := by
    funext name
    rw [binds_cons]
    simp [binds, resolve?, Scope.find?, Scope.ofNamespace]
  have allows (size : Nat) : Allows size [.ofNamespace names] size := ⟨fine, Nat.le_refl _⟩
  have sound := exprUpTo_sound names phrase.size
  have decides := exprUpTo_decides names phrase.size
  have stepped := (step_means sound known phrase).and (step_decides sound decides known fine phrase)
  rw [bound] at stepped
  unfold program meaning
  by_cases alone : ∃ location target definiens, phrase = .definition location target definiens
  · obtain ⟨location, target, definiens, rfl⟩ := alone
    have whole {definition : String × Phrase} (written : [Phrase.definition location target
        definiens].mapM Phrase.binding? = some [definition]) :
        (Phrase.definition location target definiens).asProgram.WellFormed
            (fun name => (names.lookup name).isSome) ↔
          definition.2.WellFormed (within [definition.1] fun name => (names.lookup name).isSome) := by
      constructor
      · intro wellFormed
        cases wellFormed with
        | «module» written' _ parts =>
          obtain rfl := Option.some.inj (written.symm.trans written')
          exact parts definition (by simp)
      · exact fun body => .module written (by simp) (by simpa using body)
    have split : Ends (step (exprUpTo (Phrase.definition location target definiens).size)
        (.definition location target definiens)) [.ofNamespace names] (fun _ _ => True)
        fun _ _ => (Phrase.definition location target definiens).binding? = none :=
      (decides_splitDefinition location target definiens).bind fun _ _ _ => Ends.pure trivial
    refine ((stepped.and split).mono (fun _ _ ok => ok.1) fun _ _ failed wellFormed => ?_).bind ?_
    · cases wellFormed with
      | «module» written =>
        rw [List.mapM_cons, failed.2] at written
        cases written
    rintro meaning after ⟨means, fine', -⟩
    cases meaning with
    | expression expr =>
      have impossible := means.1
      cases impossible
    | definition name body =>
      obtain ⟨named, reached⟩ := means
      have written : [Phrase.definition location target definiens].mapM Phrase.binding? =
          some [(name.name, body)] := by
        rw [List.mapM_cons, named]
        rfl
      rw [whole written]
      have same : after.binds = fun name => (names.lookup name).isSome = true :=
        reached.grown.binds_eq.trans bound
      have alone : ([(name.name, body)].map (·.1)).Nodup := by simp
      refine ((decides_moduleOf sound decides reached.known fine' alone).mono
        (fun _ _ ok => ok) ?_).bind fun _ _ ok => Ends.pure ?_
      · rintro _ _ failed wellFormed
        refine failed ⟨by simpa [same] using wellFormed, ((allows _).mono ?_).later reached.grown⟩
        simpa using Phrase.size_binding? named
      · simpa [same] using ok.1
  · have same : phrase.asProgram = phrase := by
      cases phrase with
      | definition => exact (alone ⟨_, _, _, rfl⟩).elim
      | _ => rfl
    rw [same]
    refine (stepped.mono (fun _ _ ok => ok) fun _ _ failed ok => failed.2
      ⟨ok, (allows (phrase.size + 1)).mono (Nat.le_succ _)⟩).bind ?_
    rintro meaning after ⟨means, -, wellFormed⟩
    cases meaning with
    | expression expr => exact Ends.pure (wellFormed expr rfl)
    | definition name definiens =>
      have named := means.1
      cases phrase with
      | definition => exact (alone ⟨_, _, _, rfl⟩).elim
      | _ => cases named

end Analysis

namespace Phrase

/-- A program is accepted if and only if it is well-formed. Where a definition stands alone, it
counts as a module with that definition. -/
theorem accepted_iff_wellFormed (names : Namespace) (phrase : Phrase) :
    (∃ resolved, phrase.analyze names = .ok resolved) ↔
      phrase.asProgram.WellFormed fun name => (names.lookup name).isSome := by
  have decides := Analysis.program_decides names phrase
  unfold analyze
  rcases ran : Analysis.program phrase [.ofNamespace names] with ⟨fault | expr, after⟩
  · refine ⟨fun accepted => ?_, fun ok => absurd ok (decides.failed ran)⟩
    obtain ⟨_, same⟩ := accepted
    cases same
  · exact ⟨fun _ => decides.returned ran, fun _ => ⟨_, rfl⟩⟩

end Phrase

end ShapeLang
