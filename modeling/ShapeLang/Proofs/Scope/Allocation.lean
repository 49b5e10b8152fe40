import ShapeLang.Program
import ShapeLang.Proofs.Scope.Frames
import ShapeLang.Proofs.Scope.Soundness

/-! # No slot is left over

A frame counts its slots up while phrases in it are analysed, also when the analysis was begun
elsewhere because a name was met. A counted slot is idle as long as neither a binder of a scope
nor a `let` of a settled definition has it. Analysing a phrase leaves exactly the slots of the
`let`s in its expression idle in the current frame, and none in the frames further out.
So when a frame is closed, all of its slots are in use.
-/

namespace ShapeLang

/-- Number of slots that a scope and the `let`s in its settled definitions have. -/
def Scope.used (scope : Scope) : Nat := scope.slots.length + scope.letSlots.length

namespace Definition

/-- If a definition is settled, its expression leaves no slot over. -/
def Full (definition : Definition) : Prop := ∀ expr, definition.progress = .done expr → expr.Full

variable {name : String} {slot : Nat} {body : Phrase}

theorem Full.active : Full ⟨name, slot, body, .active⟩ := fun _ settled => by cases settled

theorem Full.done {expr : Expr} (full : expr.Full) : Full ⟨name, slot, body, .done expr⟩ :=
  fun _ settled => Progress.done.inj settled ▸ full

end Definition

namespace Scopes

/-- Adds to the first count. -/
def bump (count : Int) (counts : List Int) : List Int := counts.modifyHead (· + count)

/-- The number of idle slots of each frame, the innermost first. -/
def idle : Scopes → List Int
  | [] => []
  | scope :: scopes =>
    if scope.opensFrame then ((scope.slotCount : Int) - scope.used) :: idle scopes
    else bump (-scope.used) (idle scopes)

/-- What settled definitions are resolved to leaves no slot over. -/
def Full (scopes : Scopes) : Prop := ∀ scope ∈ scopes, ∀ entry ∈ scope.entries, entry.Full

@[simp] theorem bump_cons (count first : Int) (counts : List Int) :
    bump count (first :: counts) = (first + count) :: counts := rfl

@[simp] theorem bump_bump (count more : Int) (counts : List Int) :
    bump more (bump count counts) = bump (count + more) counts := by
  cases counts with
  | nil => rfl
  | cons first counts => simp [Int.add_assoc]

@[simp] theorem bump_zero (counts : List Int) : bump 0 counts = counts := by
  cases counts with
  | nil => rfl
  | cons first counts => simp

theorem eq_bump_of_bump {count : Int} {counts counts' : List Int}
    (same : bump (-count) counts = counts') : counts = bump count counts' := by
  rw [← same, bump_bump, Int.add_left_neg, bump_zero]

theorem idle_reserve (count : Nat) (scopes : Scopes) :
    idle (reserve count scopes) = bump count (idle scopes) := by
  induction scopes with
  | nil => rfl
  | cons scope scopes ih =>
    obtain ⟨binders, opensFrame, slotCount⟩ := scope
    cases opensFrame with
    | true =>
      have same : Scope.used ⟨binders, true, slotCount + count⟩ =
          Scope.used ⟨binders, true, slotCount⟩ := rfl
      simp only [reserve, idle, ↓reduceIte, bump_cons, same]
      congr 1
      push_cast
      omega
    | false =>
      simp only [reserve, idle, Bool.false_eq_true, ↓reduceIte, ih, bump_bump]
      congr 1
      omega

theorem used_entriesFrom (base : Nat) (definitions : List (String × Phrase)) (opensFrame : Bool)
    (slotCount : Nat) :
    Scope.used ⟨.definitions (Scope.entriesFrom base definitions) [], opensFrame, slotCount⟩ =
      definitions.length := by
  change ((Scope.entriesFrom base definitions).map (·.slot)).length +
    ((Scope.entriesFrom base definitions).flatMap Definition.letSlots).length = _
  rw [entriesFrom_slots, entriesFrom_letSlots]
  simp

theorem idle_ofModule (definitions : List (String × Phrase)) (scopes : Scopes) :
    idle (.ofModule definitions :: scopes) = 0 :: idle scopes := by
  simp [idle, Scope.ofModule, used_entriesFrom]

theorem idle_ofParameters (params : List String) (scopes : Scopes) :
    idle (.ofParameters params :: scopes) = 0 :: idle scopes := by
  simp [idle, Scope.used, Scope.slots, Scope.letSlots, Scope.entries, Scope.ofParameters]

/-- The slots that are reserved for a `let` are in use inside it. -/
theorem idle_ofLet (base : Nat) (definitions : List (String × Phrase)) (scopes : Scopes) :
    idle (.ofLet base definitions :: reserve definitions.length scopes) = idle scopes := by
  simp only [idle, Scope.ofLet, Bool.false_eq_true, ↓reduceIte, used_entriesFrom, idle_reserve,
    bump_bump, Int.add_right_neg, bump_zero]

/-- A group of settled definitions has a slot for each and those of the `let`s in them. -/
theorem used_settled (group : List Linked) (requests : List String) (opensFrame : Bool)
    (slotCount : Nat) :
    Scope.used ⟨.definitions (group.map Linked.settled) requests, opensFrame, slotCount⟩ =
      group.length + (group.flatMap (·.expr.letSlots)).length := by
  simp [Scope.used, Scope.slots, Scope.letSlots, Scope.entries]

section Around

variable {name : String} {slot : Nat} {body : Phrase} {before after : List Definition}
  (requests requests' : List String) {opensFrame : Bool} {slotCount : Nat} {outer : Scopes}

open Analysis in
theorem idle_active :
    idle (around before ⟨name, slot, body, .active⟩ after requests opensFrame slotCount outer) =
      idle (around before ⟨name, slot, body, .waiting⟩ after requests' opensFrame slotCount
        outer) := by
  simp [idle, Scope.used, Scope.slots, Scope.letSlots, Scope.entries, Definition.letSlots]

open Analysis in
/-- The slots of the `let`s in a definition are no longer idle when it is settled. -/
theorem idle_done (expr : Expr) :
    idle (around before ⟨name, slot, body, .done expr⟩ after requests opensFrame slotCount outer) =
      bump (-expr.letSlots.length) (idle (around before ⟨name, slot, body, .active⟩ after requests'
        opensFrame slotCount outer)) := by
  cases opensFrame with
  | true =>
    simp [idle, Scope.used, Scope.slots, Scope.letSlots, Scope.entries, Definition.letSlots]
    omega
  | false =>
    simp [idle, Scope.used, Scope.slots, Scope.letSlots, Scope.entries, Definition.letSlots]
    congr 1
    omega

end Around

/-- Scopes further out that are as idle as before leave everything as idle as before. -/
theorem idle_graft {scopes after : Scopes} {n : Nat}
    (same : idle after = idle (scopes.drop n)) : idle (scopes.take n ++ after) = idle scopes := by
  induction n generalizing scopes with
  | zero => exact same
  | succ n ih =>
    cases scopes with
    | nil => simpa using same
    | cons scope scopes =>
      rw [List.take_succ_cons, List.cons_append, idle, idle, ih same]

/-- Analysis has reached the scopes `after`, and what it has made so far takes so many slots of
the current frame. -/
structure Counted (before : Scopes) (count : Nat) (after : Scopes) : Prop where
  full : after.Full
  idle : after.idle = bump count before.idle

namespace Counted

variable {scopes before middle after : Scopes} {count more : Nat}

theorem refl (full : scopes.Full) : Counted scopes 0 scopes := ⟨full, by simp⟩

theorem trans (first : Counted before count middle) (second : Counted middle more after) :
    Counted before (count + more) after := by
  refine ⟨second.full, ?_⟩
  rw [second.idle, first.idle, bump_bump]
  simp

theorem graft (full : scopes.Full) {n : Nat} (counted : Counted (scopes.drop n) 0 after) :
    Counted scopes 0 (scopes.take n ++ after) := by
  refine ⟨fun scope mem => ?_, ?_⟩
  · rcases List.mem_append.mp mem with inner | outer
    · exact full scope (List.mem_of_mem_take inner)
    · exact counted.full scope outer
  · have same : Scopes.idle after = Scopes.idle (scopes.drop n) := by simpa using counted.idle
    simpa using idle_graft same

end Counted

theorem Grown.listed {before after : Scopes} (grown : Grown before after) {name : String}
    (listed : ∃ entry ∈ before.innermost, entry.name = name) :
    ∃ entry ∈ after.innermost, entry.name = name := by
  obtain ⟨entry, inside, same⟩ := listed
  have names := Binders.Advances.map_name grown.innermost
  have mem : name ∈ after.innermost.map (·.name) := names ▸ List.mem_map.mpr ⟨entry, inside, same⟩
  exact List.mem_map.mp mem

theorem Full.tail {scope : Scope} {scopes : Scopes} (full : Full (scope :: scopes)) : scopes.Full :=
  fun other mem => full other (List.mem_cons_of_mem _ mem)

/-- A scope in which nothing is settled. -/
theorem Full.enter {scope : Scope} {scopes : Scopes} (full : scopes.Full)
    (unsettled : ∀ entry ∈ scope.entries, entry.progress = .waiting) :
    Full (scope :: scopes) := by
  intro other mem entry inside expr settled
  rcases List.mem_cons.mp mem with rfl | mem
  · rw [unsettled entry inside] at settled
    cases settled
  · exact full other mem entry inside expr settled

theorem Full.reserve {scopes : Scopes} (full : scopes.Full) (count : Nat) :
    (reserve count scopes).Full := by
  induction scopes with
  | nil => exact full
  | cons scope scopes ih =>
    rw [Scopes.reserve]
    split
    · intro other mem
      rcases List.mem_cons.mp mem with rfl | mem
      · exact full scope List.mem_cons_self
      · exact full other (List.mem_cons_of_mem _ mem)
    · intro other mem
      rcases List.mem_cons.mp mem with rfl | mem
      · exact full other List.mem_cons_self
      · exact ih full.tail other mem

open Analysis in
theorem full_around {before after : List Definition} {entry : Definition} {requests : List String}
    {opensFrame : Bool} {slotCount : Nat} {outer : Scopes} :
    Full (around before entry after requests opensFrame slotCount outer) ↔
      (∀ other ∈ before, other.Full) ∧ entry.Full ∧ (∀ other ∈ after, other.Full) ∧
        outer.Full := by
  simp only [Full, Scope.entries, List.forall_mem_cons, List.forall_mem_append, and_assoc]

theorem Full.settled {group : List Linked} {requests : List String} {opensFrame : Bool}
    {slotCount : Nat} {outer : Scopes}
    (full : Full (⟨.definitions (group.map Linked.settled) requests, opensFrame, slotCount⟩ ::
      outer)) : ∀ definition ∈ group, definition.expr.Full :=
  fun definition mem => full _ List.mem_cons_self definition.settled (List.mem_map_of_mem mem) _ rfl

end Scopes

namespace Analysis

open Scopes

variable {α : Type} {names : Namespace} {scopes : Scopes} {analyze : Phrase → Analysis Expr}

/-- What holds if a computation returns. -/
abbrev Yields (action : Analysis α) (scopes : Scopes) (returns : α → Scopes → Prop) : Prop :=
  Ends action scopes returns fun _ _ => True

/-- An analyser leaves no slot over. -/
def Counts (names : Namespace) (analyze : Phrase → Analysis Expr) : Prop :=
  ∀ scopes phrase, Known names scopes → scopes.Full →
    Yields (analyze phrase) scopes fun expr after =>
      expr.Full ∧ Counted scopes expr.letSlots.length after

theorem Yields.beside {action : Analysis α} {returns returns' : α → Scopes → Prop}
    {fails : Fault → Scopes → Prop} (yields : Yields action scopes returns')
    (ends : Ends action scopes returns fails) :
    Yields action scopes fun a after => returns a after ∧ returns' a after :=
  (ends.and yields).mono (fun _ _ ok => ok) fun _ _ _ => trivial

/-- However a computation fails inside a scope, it fails. -/
theorem Yields.inside {scope : Scope} {action : Analysis α} {returns : α × Scope → Scopes → Prop}
    (yields : Yields action (scope :: scopes)
      fun a after => ∃ closed outer, after = closed :: outer ∧ returns (a, closed) outer) :
    Yields (inside scope action) scopes returns := by
  unfold Yields Ends Analysis.inside
  rcases ran : action (scope :: scopes) with ⟨fault | a, after⟩
  · cases after <;> trivial
  · obtain ⟨closed, outer, rfl, ok⟩ := yields.returned ran
    exact ok

section Steps

variable (sound : Sound names analyze) (counts : Counts names analyze)
include sound counts

theorem yields_analyze (phrase : Phrase) (known : Known names scopes) (full : scopes.Full) :
    Yields (analyze phrase) scopes fun expr after =>
      Reached names scopes expr.letSlots after ∧ expr.Full ∧
        Counted scopes expr.letSlots.length after :=
  ((counts scopes phrase known full).beside (sound scopes phrase known)).mono
    (fun _ _ ok => ⟨ok.1.2, ok.2⟩) fun _ _ ok => ok

/-- Asking for a definition of the innermost scope. -/
theorem yields_define {name : String} (known : Known names scopes) (full : scopes.Full)
    (defining : Defining scopes) (listed : ∃ entry ∈ scopes.innermost, entry.name = name) :
    Yields (define analyze name) scopes fun _ after => Counted scopes 0 after := by
  obtain ⟨entries, requests, opensFrame, slotCount, outer, rfl⟩ := defining
  obtain ⟨listedEntry, mem, named⟩ := listed
  have distinct := distinct_names known
  refine (ends_entries entries).bind ?_
  rintro _ _ ⟨rfl, rfl⟩
  cases found : List.find? (fun entry : Definition => entry.name == name) _ with
  | none => exact absurd named (by simpa using List.find?_eq_none.mp found listedEntry mem)
  | some entry =>
    obtain ⟨isName, before, after, rfl, _⟩ := List.find?_eq_some_iff_append.mp found
    obtain ⟨entryName, slot, body, progress⟩ := entry
    obtain rfl : entryName = name := by simpa using isName
    cases progress with
    | active => exact .pure (.refl full)
    | done expr => exact .pure (.refl full)
    | waiting =>
      refine Ends.through (fun _ now => now = around before
        ⟨entryName, slot, body, .active⟩ after (requests ++ [entryName]) opensFrame slotCount
        outer) (.modify ?_) ?_
      · simp only [around, map_update .active distinct]
      rintro _ _ rfl
      obtain ⟨early, -, late, around'⟩ := full_around.mp full
      have begun : Full (around before ⟨entryName, slot, body, .active⟩ after
          (requests ++ [entryName]) opensFrame slotCount outer) :=
        full_around.mpr ⟨early, .active, late, around'⟩
      refine (yields_analyze sound counts body (known_active known) begun).bind ?_
      rintro expr now ⟨reached, whole, counted⟩
      obtain ⟨entries', requests', opensFrame', slotCount', outer', rfl⟩ :=
        reached.grown.defining ⟨_, _, _, _, _, rfl⟩
      obtain rfl : opensFrame' = opensFrame := by
        cases reached.grown with
        | cons => rfl
      obtain ⟨before', entry', after', rfl, beforeAdvances, advances, afterAdvances⟩ :=
        split_around reached.grown.innermost
      obtain rfl : entry' = ⟨entryName, slot, body, .active⟩ := by
        cases advances
        rfl
      refine Ends.modify ?_
      simp only [map_update (.done expr) (distinct_names reached.known), List.append_nil]
      constructor
      · obtain ⟨early', -, late', outer''⟩ := full_around.mp counted.full
        exact full_around.mpr ⟨early', .done whole, late', outer''⟩
      · rw [idle_done requests' requests', counted.idle, idle_active _ requests, bump_bump,
          Int.add_right_neg]
        simp

theorem yields_defineEach (todo : List Definition) (known : Known names scopes)
    (full : scopes.Full) (defining : Defining scopes)
    (listed : ∀ wanted ∈ todo, ∃ entry ∈ scopes.innermost, entry.name = wanted.name) :
    Yields (todo.forM fun entry => define analyze entry.name) scopes
      fun _ after => Counted scopes 0 after := by
  induction todo generalizing scopes with
  | nil => exact Ends.pure (.refl full)
  | cons wanted todo ih =>
    change Yields (define analyze wanted.name >>= fun _ => todo.forM _) _ _
    have here := listed wanted List.mem_cons_self
    refine ((yields_define sound counts known full defining here).beside
      (ends_define sound known defining here)).bind ?_
    rintro _ middle ⟨⟨known', grown, -⟩, counted⟩
    refine (ih known' counted.full (grown.defining defining) fun other mem => ?_).mono
      (fun _ _ counted' => counted.trans counted') fun _ _ failed => failed
    exact grown.listed (listed other (List.mem_cons_of_mem _ mem))

/-- All definitions of a scope. -/
theorem yields_defineAll (known : Known names scopes) (full : scopes.Full)
    (defining : Defining scopes) :
    Yields (defineAll analyze) scopes fun _ after => Counted scopes 0 after := by
  obtain ⟨entries, requests, opensFrame, slotCount, outer, rfl⟩ := defining
  refine (ends_entries entries).bind ?_
  rintro _ _ ⟨rfl, rfl⟩
  refine ((yields_defineEach sound counts _ known full ⟨_, _, _, _, _, rfl⟩
    fun wanted mem => ⟨wanted, mem, rfl⟩).beside
    (ends_defineEach sound _ known ⟨_, _, _, _, _, rfl⟩ fun wanted mem => ⟨wanted, mem, rfl⟩)).bind ?_
  rintro _ after ⟨⟨-, grown, -⟩, counted⟩
  obtain ⟨entries', requests', opensFrame', slotCount', outer', rfl⟩ :=
    grown.defining ⟨_, _, _, _, _, rfl⟩
  refine (ends_entries entries').bind ?_
  rintro _ _ ⟨rfl, rfl⟩
  refine (Ends.mapM (fun entry => ?_) _).mono ?_ fun _ _ failed => failed
  · cases entry.progress with
    | done expr => exact Ends.pure rfl
    | _ => exact Ends.throw trivial
  · rintro _ _ rfl
    exact counted

/-- Phrases one after the other. -/
theorem yields_analyzeAll (phrases : List Phrase) (known : Known names scopes)
    (full : scopes.Full) :
    Yields (phrases.mapM analyze) scopes fun exprs after =>
      (∀ expr ∈ exprs, expr.Full) ∧ Counted scopes (exprs.flatMap Expr.letSlots).length after := by
  induction phrases generalizing scopes with
  | nil => exact Ends.pure ⟨by simp, .refl full⟩
  | cons phrase phrases ih =>
    rw [List.mapM_cons]
    refine (yields_analyze sound counts phrase known full).bind ?_
    rintro expr middle ⟨reached, whole, counted⟩
    refine (ih reached.known counted.full).bind ?_
    rintro exprs after ⟨wholes, counted'⟩
    refine Ends.pure ⟨List.forall_mem_cons.mpr ⟨whole, wholes⟩, ?_⟩
    rw [List.flatMap_cons, List.length_append]
    exact counted.trans counted'

theorem yields_fields (seen : List String) (written : List (Ident × Phrase))
    (known : Known names scopes) (full : scopes.Full) :
    Yields (fields analyze seen written) scopes fun exprs after =>
      (∀ field ∈ exprs, field.2.Full) ∧
        Counted scopes (exprs.flatMap (·.2.letSlots)).length after := by
  induction written generalizing scopes seen with
  | nil => exact Ends.pure ⟨by simp, .refl full⟩
  | cons field rest ih =>
    obtain ⟨id, phrase⟩ := field
    simp only [fields]
    by_cases again : id.name ∈ seen
    · rw [if_pos again]
      exact Ends.stop (.complain fun _ => trivial)
    rw [if_neg again]
    refine (yields_analyze sound counts phrase known full).bind ?_
    rintro expr middle ⟨reached, whole, counted⟩
    refine (ih (id.name :: seen) reached.known counted.full).bind ?_
    rintro exprs after ⟨wholes, counted'⟩
    refine Ends.pure ⟨List.forall_mem_cons.mpr ⟨whole, wholes⟩, ?_⟩
    rw [List.flatMap_cons, List.length_append]
    exact counted.trans counted'

theorem yields_reference (location : Location) (id : Ident) (known : Known names scopes)
    (full : scopes.Full) :
    Yields (reference analyze location id) scopes fun expr after =>
      expr.Full ∧ Counted scopes expr.letSlots.length after := by
  refine Ends.through (fun found now => scopes = found ∧ scopes = now) (.get ⟨rfl, rfl⟩) ?_
  rintro _ _ ⟨rfl, rfl⟩
  have leads := known.leads id.name
  revert leads
  cases Scopes.resolve? scopes id.name with
  | none => exact fun _ => Ends.complain fun _ => trivial
  | some binding =>
    cases binding with
    | constant value => exact fun _ => Ends.pure ⟨.constant, .refl full⟩
    | slot depth slot => exact fun _ => Ends.pure ⟨.slot, .refl full⟩
    | definition depth slot inner =>
      rintro ⟨-, short, defining, listed⟩
      have outer : Full (scopes.drop inner) := fun scope mem =>
        full scope (List.mem_of_mem_drop mem)
      refine Ends.through (fun _ after => Counted scopes 0 after) ?_ ?_
      · refine .outside ((yields_define sound counts (known.drop short) outer defining
          listed).mono ?_ fun _ _ failed => failed)
        exact fun _ _ counted => counted.graft full
      · exact fun _ _ counted => Ends.pure ⟨.slot, counted⟩

/-- The frame of a module is full: no slot is idle in it when it is closed. -/
theorem yields_moduleOf (known : Known names scopes) (full : scopes.Full)
    {definitions : List (String × Phrase)} (distinct : (definitions.map (·.1)).Nodup) :
    Yields (moduleOf analyze definitions) scopes fun result after =>
      result.fields.map (·.2) = List.range result.fields.length ∧
      result.fields.length + (result.definitions.flatMap (·.2.letSlots)).length =
        result.slotCount ∧
      (∀ definition ∈ result.definitions, definition.2.Full) ∧ Counted scopes 0 after := by
  have entered := known.ofModule distinct
  have begun : Full (.ofModule definitions :: scopes) :=
    full.enter fun _ mem => entriesFrom_waiting mem
  refine Ends.through (fun result after => ∃ (group : List Linked) (requests : List String),
      result.1 = group.map Linked.binding ∧
      result.2.binders = .definitions (group.map Linked.settled) requests ∧
      group.map Linked.slot = List.range group.length ∧
      group.length + (group.flatMap (·.expr.letSlots)).length = result.2.slotCount ∧
      (∀ definition ∈ group, definition.expr.Full) ∧ Counted scopes 0 after) ?_ ?_
  · refine Yields.inside (((yields_defineAll sound counts entered begun ⟨_, _, _, _, _, rfl⟩).beside
      (ends_defineAll sound entered ⟨_, _, _, _, _, rfl⟩ fun entry mem => ?_)).mono ?_
      fun _ _ failed => failed)
    · rw [entriesFrom_waiting mem]
      simp
    · rintro _ _ ⟨⟨group, requests, opensFrame, slotCount, outer, rfl, rfl, -, grown⟩, counted⟩
      cases grown with | cons advances _ _ _ =>
      have slots : Scope.slots ⟨.definitions (group.map Linked.settled) requests, true, slotCount⟩ =
          (Scope.ofModule definitions).slots := advances.slots
      have inOrder : group.map Linked.slot = List.range' 0 definitions.length := by
        rw [← Linked.map_settled_slot group]
        exact slots.trans (entriesFrom_slots 0 definitions)
      have size : group.length = definitions.length := by
        simpa using congrArg List.length inOrder
      have idle := counted.idle
      rw [idle_ofModule, Scopes.idle, used_settled] at idle
      obtain ⟨own, others⟩ := List.cons.inj idle
      refine ⟨_, outer, rfl, group, requests, rfl, rfl, ?_, ?_, counted.full.settled,
        counted.full.tail, ?_⟩
      · rw [inOrder, size, List.range_eq_range']
      · dsimp only at own ⊢
        omega
      · simpa using others
  · rintro ⟨bindings, scope⟩ after ⟨group, requests, rfl, binders, inOrder, count, whole, counted⟩
    obtain ⟨_, opensFrame, slotCount⟩ := scope
    obtain rfl := binders
    refine Ends.pure ⟨?_, ?_, ?_, counted⟩
    · simpa [Function.comp_def, Linked.settled] using inOrder
    · simpa [List.flatMap_map, Linked.binding] using count
    · intro definition mem
      obtain ⟨origin, inside, rfl⟩ := List.mem_map.mp mem
      exact whole origin inside

/-- A `let` takes a slot for each of its names and those of its parts. -/
theorem yields_let (known : Known names scopes) (full : scopes.Full)
    {definitions : List (String × Phrase)} (distinct : (definitions.map (·.1)).Nodup)
    (body : Phrase) :
    Yields (inside (.ofLet (slotCount scopes) definitions) do
        let bindings ← defineAll analyze
        let body ← analyze body
        pure (bindings, body)) (reserve definitions.length scopes)
      fun result after => (∀ binding ∈ result.1.1, binding.2.Full) ∧ result.1.2.Full ∧
        Counted scopes (result.1.1.length + (result.1.1.flatMap (·.2.letSlots)).length +
          result.1.2.letSlots.length) after := by
  obtain ⟨reserved, -, room, sameTaken⟩ := known.reserve definitions.length
  have below : ∀ slot ∈ taken (reserve definitions.length scopes), slot < slotCount scopes :=
    fun slot mem => known.layout.inside slot (sameTaken ▸ mem)
  have entered := reserved.ofLet distinct room below
  have begun : Full (.ofLet (slotCount scopes) definitions :: reserve definitions.length scopes) :=
    (full.reserve _).enter fun _ mem => entriesFrom_waiting mem
  refine Yields.inside ?_
  refine ((yields_defineAll sound counts entered begun ⟨_, _, _, _, _, rfl⟩).beside
    (ends_defineAll sound entered ⟨_, _, _, _, _, rfl⟩ fun entry mem => ?_)).bind ?_
  · rw [entriesFrom_waiting mem]
    simp
  rintro _ _ ⟨⟨group, requests, opensFrame, total, outer, rfl, rfl, known', grown⟩, counted⟩
  refine (yields_analyze sound counts body known' counted.full).bind ?_
  rintro expr after ⟨reached, whole, counted'⟩
  obtain ⟨entries', requests', opensFrame', total', outer', rfl⟩ :=
    reached.grown.defining ⟨_, _, _, _, _, rfl⟩
  obtain rfl := advances_settled reached.grown.innermost
  obtain rfl : opensFrame' = false := by
    cases grown.trans reached.grown
    rfl
  have idle := (counted.trans counted').idle
  rw [idle_ofLet, Scopes.idle, used_settled] at idle
  refine Ends.pure ⟨_, _, rfl, ?_, whole, counted'.full.tail, ?_⟩
  · intro binding mem
    obtain ⟨definition, inside, rfl⟩ := List.mem_map.mp mem
    exact counted.full.settled definition inside
  · have outermost := eq_bump_of_bump idle
    rw [bump_bump] at outermost
    rw [outermost]
    congr 1
    simp [List.flatMap_map, Linked.binding]
    omega

/-- The frame of a function or of a loop is full when it is closed. -/
theorem yields_body (known : Known names scopes) (full : scopes.Full) (params : List String)
    (body : Phrase) :
    Yields (inside (.ofParameters params) (analyze body)) scopes fun result after =>
      result.1.Full ∧ params.length + result.1.letSlots.length = result.2.slotCount ∧
        Counted scopes 0 after := by
  refine Yields.inside ((yields_analyze sound counts body (known.ofParameters params)
    (full.enter fun entry mem => by cases mem)).mono ?_ fun _ _ failed => failed)
  rintro expr after ⟨reached, whole, counted⟩
  cases reached.grown with | cons advances _ _ _ =>
  cases advances with | same =>
  have idle := counted.idle
  rw [idle_ofParameters] at idle
  refine ⟨_, _, rfl, whole, ?_, counted.full.tail, ?_⟩
  · have own := (List.cons.inj idle).1
    simp [Scope.used, Scope.slots, Scope.letSlots, Scope.entries] at own
    dsimp only
    omega
  · simpa using (List.cons.inj idle).2

omit sound counts in
/-- What the analysis of a phrase leaves idle. -/
def Leaves (scopes : Scopes) : Meaning → Scopes → Prop
  | .expression expr, after => expr.Full ∧ Counted scopes expr.letSlots.length after
  | .definition _ _, after => Counted scopes 0 after

theorem step_counts (phrase : Phrase) (known : Known names scopes) (full : scopes.Full) :
    Yields (step analyze phrase) scopes (Leaves scopes) := by
  have part {scopes : Scopes} (phrase : Phrase) (known : Known names scopes)
      (full : scopes.Full) := yields_analyze sound counts phrase known full
  cases phrase with
  | numeral location value => exact Ends.pure ⟨.constant, .refl full⟩
  | boolean location value => exact Ends.pure ⟨.constant, .refl full⟩
  | text location content => exact Ends.pure ⟨.constant, .refl full⟩
  | ident location id => exact Ends.map (yields_reference sound counts location id known full)
  | list location items =>
    refine (yields_analyzeAll sound counts items known full).bind ?_
    rintro exprs after ⟨whole, counted⟩
    exact Ends.pure ⟨.list whole, by simpa using counted⟩
  | record location written =>
    refine (yields_fields sound counts [] written known full).bind ?_
    rintro exprs after ⟨whole, counted⟩
    exact Ends.pure ⟨.record whole, by simpa using counted⟩
  | «module» location items =>
    refine Ends.bind ((ends_collectDefinitions [] items).mono (fun _ _ ok => ok)
      fun _ _ _ => trivial) ?_
    rintro definitions _ ⟨rfl, written, distinct, -⟩
    refine (yields_moduleOf sound counts known full distinct).bind ?_
    rintro ⟨slotCount, fields, bindings⟩ after ⟨inOrder, count, whole, counted⟩
    exact Ends.pure ⟨.module inOrder count whole, counted⟩
  | definition location target definiens =>
    refine Ends.bind ((ends_splitDefinition location target definiens).mono (fun _ _ ok => ok)
      fun _ _ _ => trivial) ?_
    rintro result _ ⟨rfl, -⟩
    exact Ends.pure (.refl full)
  | lambda location params body =>
    refine Ends.bind ((ends_checkParameters [] params).mono (fun _ _ ok => ok)
      fun _ _ _ => trivial) ?_
    rintro _ _ rfl
    refine (yields_body sound counts known full (params.map (·.name)) body).bind ?_
    rintro ⟨expr, scope⟩ after ⟨whole, count, counted⟩
    rw [List.length_map] at count
    exact Ends.pure ⟨.lambda count whole, counted⟩
  | call location function args =>
    refine (part function known full).bind ?_
    rintro callee middle ⟨reached, whole, counted⟩
    refine (yields_analyzeAll sound counts args reached.known counted.full).bind ?_
    rintro exprs after ⟨wholes, counted'⟩
    refine Ends.pure ⟨.call whole wholes, ?_⟩
    rw [Expr.letSlots_call, List.length_append]
    exact counted.trans counted'
  | dot location base field =>
    refine (part base known full).bind ?_
    rintro expr after ⟨-, whole, counted⟩
    exact Ends.pure ⟨.dot whole, counted⟩
  | index location base index =>
    refine (part base known full).bind ?_
    rintro expr middle ⟨reached, whole, counted⟩
    refine (part index reached.known counted.full).bind ?_
    rintro place after ⟨-, whole', counted'⟩
    refine Ends.pure ⟨.index whole whole', ?_⟩
    rw [Expr.letSlots_index, List.length_append]
    exact counted.trans counted'
  | unary location op operand =>
    refine (part operand known full).bind ?_
    rintro expr after ⟨-, whole, counted⟩
    exact Ends.pure ⟨.unary whole, counted⟩
  | binary location op left right =>
    refine (part left known full).bind ?_
    rintro a middle ⟨reached, whole, counted⟩
    refine (part right reached.known counted.full).bind ?_
    rintro b after ⟨-, whole', counted'⟩
    refine Ends.pure ⟨.binary whole whole', ?_⟩
    rw [Expr.letSlots_binary, List.length_append]
    exact counted.trans counted'
  | conditional location condition whenTrue whenFalse =>
    refine (part condition known full).bind ?_
    rintro c first ⟨reached, whole, counted⟩
    refine (part whenTrue reached.known counted.full).bind ?_
    rintro a second ⟨reached', whole', counted'⟩
    refine (part whenFalse reached'.known counted'.full).bind ?_
    rintro b after ⟨-, whole'', counted''⟩
    refine Ends.pure ⟨.conditional whole whole' whole'', ?_⟩
    rw [Expr.letSlots_conditional, List.length_append, List.length_append]
    exact (counted.trans counted').trans counted''
  | letIn location items body =>
    refine Ends.bind ((ends_collectDefinitions [] items).mono (fun _ _ ok => ok)
      fun _ _ _ => trivial) ?_
    rintro definitions _ ⟨rfl, -, distinct, -⟩
    refine Ends.through (fun found now => scopes = found ∧ scopes = now) (.get ⟨rfl, rfl⟩) ?_
    rintro _ _ ⟨rfl, rfl⟩
    refine Ends.through (fun _ now => reserve definitions.length scopes = now) (.modify rfl) ?_
    rintro _ _ rfl
    refine (yields_let sound counts known full distinct body).bind ?_
    rintro ⟨⟨bindings, expr⟩, closed⟩ after ⟨wholes, whole, counted⟩
    refine Ends.pure ⟨.letIn wholes whole, ?_⟩
    rw [Expr.letSlots_letIn, List.length_append, List.length_append, List.length_map]
    exact counted
  | forEach location item list body =>
    refine (part list known full).bind ?_
    rintro items middle ⟨reached, whole, counted⟩
    refine (yields_body sound counts reached.known counted.full [item.name] body).bind ?_
    rintro ⟨expr, scope⟩ after ⟨whole', count, counted'⟩
    exact Ends.pure ⟨.forEach whole count whole', counted.trans counted'⟩

end Steps

theorem exprUpTo_counts (names : Namespace) (fuel : Nat) : Counts names (exprUpTo fuel) := by
  induction fuel with
  | zero => exact fun scopes _ _ _ => Ends.throw trivial
  | succ fuel ih =>
    intro scopes phrase known full
    refine (step_counts (exprUpTo_sound names fuel) ih phrase known full).bind ?_
    intro meaning after leaves
    cases meaning with
    | expression expr => exact Ends.pure leaves
    | definition name definiens => exact Ends.complain fun _ => trivial

/-- A program leaves no slot of its frames over. -/
theorem program_counts (names : Namespace) (phrase : Phrase) :
    Yields (program phrase) [.ofNamespace names] fun expr after =>
      expr.Full ∧ expr.letSlots.length = Scopes.slotCount after := by
  have known : Scopes.Known names [.ofNamespace names] := .root 0
  have full : Scopes.Full [.ofNamespace names] := by
    simp [Scopes.Full, Scope.entries, Scope.ofNamespace]
  have sound := exprUpTo_sound names phrase.size
  have counts := exprUpTo_counts names phrase.size
  have root {count : Nat} {after : Scopes} (grown : Scopes.Grown [.ofNamespace names] after)
      (counted : Counted [.ofNamespace names] count after) : count = Scopes.slotCount after := by
    cases grown with | cons advances _ _ outer =>
    cases advances with | same =>
    cases outer with | nil =>
    have idle := (List.cons.inj counted.idle).1
    simp [Scope.used, Scope.slots, Scope.letSlots, Scope.entries, Scope.ofNamespace] at idle
    simp [Scopes.slotCount]
    omega
  refine ((step_counts sound counts phrase known full).beside
    (step_means sound known phrase)).bind ?_
  rintro meaning after ⟨means, leaves⟩
  cases meaning with
  | expression expr => exact Ends.pure ⟨leaves.1, root means.2.grown leaves.2⟩
  | definition name definiens =>
    have reached := means.2
    refine ((yields_moduleOf sound counts reached.known leaves.full (by simp)).beside
      (ends_moduleOf sound reached.known (by simp))).bind ?_
    rintro ⟨slotCount, fields, bindings⟩ later
      ⟨⟨group, written, same, room, parts, reached'⟩, inOrder, count, whole, counted⟩
    refine Ends.pure ⟨.module inOrder count whole, ?_⟩
    exact root (reached.trans reached').grown (leaves.trans counted)

end Analysis

namespace Phrase

variable {names : Namespace} {phrase : Phrase} {resolved : Resolved}

theorem full_of_analyze (accepted : phrase.analyze names = .ok resolved) :
    resolved.expr.Full ∧ resolved.expr.letSlots.length = resolved.slotCount := by
  unfold analyze at accepted
  rcases ran : Analysis.program phrase [.ofNamespace names] with ⟨fault | expr, after⟩
  · simp [ran, Except.map] at accepted
  · obtain rfl : _ = resolved := by simpa [ran, Except.map] using accepted
    exact (Analysis.program_counts names phrase).returned ran

/-- An accepted program is resolved to an expression whose frames are filled: in the outermost
frame and in that of every module literal, function and loop, the names that belong to the frame
have all of its slots, one each. Names are resolved by these slots. -/
theorem slots_biject (accepted : phrase.analyze names = .ok resolved) :
    Resolves names [] phrase.asProgram resolved.expr ∧
      List.Forall₂ Roster.Fills (⟨[], phrase.asProgram.letNames⟩ :: phrase.asProgram.frames)
        (⟨[], resolved.expr.letSlots, resolved.slotCount⟩ :: resolved.expr.frames) := by
  obtain ⟨resolves, room⟩ := resolves_of_analyze accepted
  obtain ⟨full, count⟩ := full_of_analyze accepted
  refine ⟨resolves, .cons ⟨rfl, resolves.length_letSlots, ?_⟩ (resolves.fills full)⟩
  exact room.perm_range count

/-- The name `b` is met inside the definition of `a`, so that `c` has its slot before `p`. -/
def framed : Source := ⟨"framed", "let a = b + (let p = 1 in p); b = (let c = 2 in c); " ++
  "f(x, y) = let z = y in z in for (i in [a]) let d = i in \x7bm = f(d, m); n = let e = m in e\x7d"⟩

theorem slots_biject_framed : ∃ phrase resolved,
    framed.phrase = .ok phrase ∧ phrase.analyze [] = .ok resolved ∧
    (phrase.asProgram.letNames, resolved.expr.letSlots) =
      (["a", "b", "f", "p", "c"], [0, 1, 2, 4, 3]) ∧
    phrase.asProgram.frames = [⟨["x", "y"], ["z"]⟩, ⟨["i"], ["d"]⟩, ⟨["m", "n"], ["e"]⟩] ∧
    List.Forall₂ Roster.Fills (⟨[], phrase.asProgram.letNames⟩ :: phrase.asProgram.frames)
      (⟨[], resolved.expr.letSlots, resolved.slotCount⟩ :: resolved.expr.frames) := by
  have run : (framed.phrase.toOption.bind fun phrase =>
      (phrase.analyze []).toOption.map fun resolved =>
        ((phrase.asProgram.letNames, resolved.expr.letSlots), phrase.asProgram.frames)) =
      some ((["a", "b", "f", "p", "c"], [0, 1, 2, 4, 3]),
        [⟨["x", "y"], ["z"]⟩, ⟨["i"], ["d"]⟩, ⟨["m", "n"], ["e"]⟩]) := by decide +kernel
  rcases parsed : framed.phrase with errors | phrase
  · simp [parsed, Except.toOption] at run
  rcases accepted : phrase.analyze [] with fault | resolved
  · simp [parsed, accepted, Except.toOption] at run
  simp only [parsed, accepted, Except.toOption, Option.bind_some, Option.map_some,
    Option.some.injEq, Prod.mk.injEq] at run
  exact ⟨phrase, resolved, rfl, accepted, Prod.ext run.1.1 run.1.2, run.2,
    (slots_biject accepted).2⟩

end Phrase

end ShapeLang
