import ShapeLang.Proofs.Scope.Acceptance

/-! # Definitions are asked for once

The analysis of a phrase jumps to definitions of all scopes around it. Whatever these scopes are
and however the analysis ends, it only moves on: a definition that was asked for is never waiting
again, and what is asked for is written down. If it ends well, nothing that it began is left under
way. Each definition that waits pays for its own analysis, which bounds the nesting.
-/

namespace ShapeLang

namespace Definition

/-- The definition was asked for. -/
def met (definition : Definition) : Bool :=
  match definition.progress with
  | .waiting => false
  | _ => true

/-- What may become of a definition; nothing is left under way once analysis has ended well. -/
structure Onward (ended : Prop) (before after : Definition) : Prop where
  field : after.field = before.field
  body : after.body = before.body
  met : before.met → after.met
  finishes : ended → after.progress = .active → before.progress = .active

namespace Onward

variable {ended ended' : Prop} {before middle after : Definition}

theorem refl (definition : Definition) : Onward ended definition definition :=
  ⟨rfl, rfl, id, fun _ => id⟩

theorem trans (first : Onward ended before middle) (second : Onward ended middle after) :
    Onward ended before after :=
  ⟨second.field.trans first.field, second.body.trans first.body,
    fun asked => second.met (first.met asked),
    fun done active => first.finishes done (second.finishes done active)⟩

theorem weaken (onward : Onward ended before after) (weaker : ended' → ended) :
    Onward ended' before after :=
  { onward with finishes := fun done => onward.finishes (weaker done) }

theorem name (onward : Onward ended before after) : after.name = before.name :=
  congrArg Prod.fst onward.field

theorem backlog_le (onward : Onward ended before after) : after.backlog ≤ before.backlog := by
  have asked := onward.met
  have body := onward.body
  unfold Definition.backlog
  cases waits : before.progress with
  | waiting =>
    cases after.progress with
    | waiting => rw [body]
    | _ => exact Nat.zero_le _
  | _ =>
    cases still : after.progress with
    | waiting => simp [Definition.met, waits, still] at asked
    | _ => exact Nat.le_refl _

end Onward

end Definition

/-- A group of definitions with different names, and the log of those that were asked for: each of
them once. What is settled stands where its definition stands. -/
structure Logged (entries : List Definition) (requests : List String) : Prop where
  distinct : (entries.map (·.name)).Nodup
  log : requests.Perm ((entries.filter (·.met)).map (·.name))
  located : ∀ entry ∈ entries, ∀ expr, entry.progress = .done expr →
    expr.location = entry.body.location

/-- What may become of what a scope binds. -/
inductive Binders.Onward (ended : Prop) : Binders → Binders → Prop
  | constants (names : Namespace) : Onward ended (.constants names) (.constants names)
  | parameters (slots : List (String × Nat)) : Onward ended (.parameters slots) (.parameters slots)
  | definitions {entries entries' : List Definition} {requests requests' : List String}
    (each : List.Forall₂ (Definition.Onward ended) entries entries')
    (logged : Logged entries requests → Logged entries' requests') :
    Onward ended (.definitions entries requests) (.definitions entries' requests')

theorem forall₂_onward_trans {ended : Prop} {before middle after : List Definition}
    (first : List.Forall₂ (Definition.Onward ended) before middle)
    (second : List.Forall₂ (Definition.Onward ended) middle after) :
    List.Forall₂ (Definition.Onward ended) before after := by
  induction first generalizing after with
  | nil => exact second
  | cons head _ ih =>
    cases second with
    | cons head' tail' => exact .cons (head.trans head') (ih tail')

namespace Binders.Onward

variable {ended ended' : Prop} {before middle after : Binders}

theorem refl (binders : Binders) : Onward ended binders binders := by
  cases binders with
  | constants names => exact .constants names
  | parameters slots => exact .parameters slots
  | definitions entries requests =>
    exact .definitions (List.forall₂_same.mpr fun entry _ => .refl entry) id

theorem trans (first : Onward ended before middle) (second : Onward ended middle after) :
    Onward ended before after := by
  cases first with
  | constants => exact second
  | parameters => exact second
  | definitions each logged =>
    cases second with
    | definitions each' logged' =>
      exact .definitions (forall₂_onward_trans each each') fun before => logged' (logged before)

theorem weaken (onward : Onward ended before after) (weaker : ended' → ended) :
    Onward ended' before after := by
  cases onward with
  | constants names => exact .constants names
  | parameters slots => exact .parameters slots
  | definitions each logged => exact .definitions (each.imp fun _ _ head => head.weaken weaker) logged

end Binders.Onward

namespace Scopes

/-- What may become of the scopes around a phrase. -/
def Onward (ended : Prop) : Scopes → Scopes → Prop :=
  List.Forall₂ fun before after => before.binders.Onward ended after.binders

namespace Onward

variable {ended ended' : Prop} {before middle after scopes : Scopes}

theorem refl (scopes : Scopes) : Onward ended scopes scopes :=
  List.forall₂_same.mpr fun scope _ => .refl scope.binders

theorem trans (first : Onward ended before middle) (second : Onward ended middle after) :
    Onward ended before after := by
  unfold Onward at *
  induction first generalizing after with
  | nil => exact second
  | cons head _ ih =>
    cases second with
    | cons head' tail' => exact .cons (head.trans head') (ih tail')

theorem weaken (onward : Onward ended before after) (weaker : ended' → ended) :
    Onward ended' before after :=
  List.Forall₂.imp (fun _ _ head => head.weaken weaker) onward

theorem graft {n : Nat} (onward : Onward ended (scopes.drop n) after) :
    Onward ended scopes (scopes.take n ++ after) := by
  have whole : Onward ended (scopes.take n ++ scopes.drop n) (scopes.take n ++ after) :=
    List.rel_append (refl (scopes.take n)) onward
  rwa [List.take_append_drop] at whole

theorem reserve (count : Nat) (scopes : Scopes) : Onward ended scopes (scopes.reserve count) := by
  induction scopes with
  | nil => exact .nil
  | cons scope scopes ih =>
    unfold Scopes.reserve
    split
    · exact .cons (.refl scope.binders) (refl scopes)
    · exact .cons (.refl scope.binders) ih

theorem backlog_le (onward : Onward ended before after) : backlog after ≤ backlog before := by
  have entrywise {before after : List Definition}
      (each : List.Forall₂ (Definition.Onward ended) before after) :
      (after.map Definition.backlog).sum ≤ (before.map Definition.backlog).sum := by
    induction each with
    | nil => exact Nat.le_refl _
    | cons head _ ih =>
      have := head.backlog_le
      simp only [List.map_cons, List.sum_cons]
      omega
  unfold Onward at onward
  induction onward with
  | nil => exact Nat.le_refl _
  | @cons scope scope' _ _ head _ ih =>
    obtain ⟨binders, opensFrame, slotCount⟩ := scope
    obtain ⟨binders', opensFrame', slotCount'⟩ := scope'
    cases head with
    | constants => exact Nat.add_le_add_left ih _
    | parameters => exact Nat.add_le_add_left ih _
    | definitions each => exact Nat.add_le_add (entrywise each) ih

theorem innermost (onward : Onward ended before after) :
    List.Forall₂ (Definition.Onward ended) before.innermost after.innermost := by
  cases onward with
  | nil => exact .nil
  | @cons scope scope' _ _ head =>
    obtain ⟨binders, opensFrame, slotCount⟩ := scope
    obtain ⟨binders', opensFrame', slotCount'⟩ := scope'
    cases head with
    | constants => exact .nil
    | parameters => exact .nil
    | definitions each => exact each

theorem defining (onward : Onward ended before after) (defining : Defining before) :
    Defining after := by
  obtain ⟨entries, requests, opensFrame, slotCount, outer, rfl⟩ := defining
  cases onward with
  | @cons _ scope' _ _ head =>
    obtain ⟨binders', opensFrame', slotCount'⟩ := scope'
    cases head with
    | definitions => exact ⟨_, _, _, _, _, rfl⟩

theorem names (onward : Onward ended before after) :
    after.innermost.map (·.name) = before.innermost.map (·.name) := by
  have each := onward.innermost
  generalize before.innermost = entries, after.innermost = entries' at each
  induction each with
  | nil => rfl
  | cons head _ ih => rw [List.map_cons, List.map_cons, head.name, ih]

end Onward

/-- A definition that a name is bound to is one of the scope that was found. -/
theorem definition_of_resolve? {scopes : Scopes} {name : String} {depth slot inner : Nat}
    (found : resolve? scopes name = some (.definition depth slot inner)) :
    Defining (scopes.drop inner) ∧ ∃ entry ∈ innermost (scopes.drop inner), entry.name = name := by
  induction scopes generalizing depth inner with
  | nil => cases found
  | cons scope scopes ih =>
    obtain ⟨binders, opensFrame, slotCount⟩ := scope
    have further (outside : (resolve? scopes name).map (Binding.fromInside opensFrame) =
        some (Binding.definition depth slot inner)) :
        Defining ((⟨binders, opensFrame, slotCount⟩ :: scopes : Scopes).drop inner) ∧
          ∃ entry ∈ innermost ((⟨binders, opensFrame, slotCount⟩ :: scopes : Scopes).drop inner),
            entry.name = name := by
      obtain ⟨binding, bound, same⟩ := Option.map_eq_some_iff.mp outside
      cases binding with
      | definition depth' slot' inner' =>
        simp only [Binding.fromInside, Binding.definition.injEq] at same
        obtain ⟨-, rfl, rfl⟩ := same
        exact ih bound
      | _ => cases same
    rw [resolve?] at found
    cases binders with
    | constants names =>
      simp only [Scope.find?] at found
      cases bound : names.lookup name with
      | none => exact further (by simpa only [bound, Option.map_none] using found)
      | some value => simp [bound] at found
    | parameters slots =>
      simp only [Scope.find?] at found
      cases bound : slots.lookup name with
      | none => exact further (by simpa only [bound, Option.map_none] using found)
      | some value => simp [bound] at found
    | definitions entries requests =>
      simp only [Scope.find?] at found
      cases bound : entries.find? (·.name == name) with
      | none => exact further (by simpa only [bound, Option.map_none] using found)
      | some entry =>
        simp only [bound, Option.map_some, Option.some.injEq, Binding.definition.injEq] at found
        obtain ⟨-, -, rfl⟩ := found
        exact ⟨⟨_, _, _, _, _, rfl⟩, entry, List.mem_of_find?_eq_some bound,
          by simpa using List.find?_some bound⟩

end Scopes

namespace Analysis

open Scopes

variable {α β : Type}

/-- Two computations over scopes, which are granted different fuel, do the same. They move on and
end with a result or with an exception. -/
structure Completes (action action' : Analysis α) (scopes : Scopes)
    (returns : α → Scopes → Prop) : Prop where
  same : action scopes = action' scopes
  ends : Ends action scopes (fun a after => Onward True scopes after ∧ returns a after)
    fun fault after => (∃ e, fault = .exception e) ∧ Onward False scopes after

namespace Completes

variable {action action' : Analysis α} {scopes : Scopes} {returns : α → Scopes → Prop}

theorem pure {a : α} (ok : returns a scopes) :
    Completes (pure a) (pure a) scopes returns :=
  ⟨rfl, Ends.pure ⟨.refl scopes, ok⟩⟩

theorem complain {kind : ErrorKind} {location : Location} :
    Completes (raise kind location) (raise kind location) scopes returns :=
  ⟨rfl, Ends.complain fun e => ⟨⟨e, rfl⟩, .refl scopes⟩⟩

theorem mono {returns' : α → Scopes → Prop} (completes : Completes action action' scopes returns)
    (ok : ∀ a after, returns a after → returns' a after) :
    Completes action action' scopes returns' :=
  ⟨completes.same, completes.ends.mono (fun a after done => ⟨done.1, ok a after done.2⟩)
    fun _ _ failed => failed⟩

theorem bind {next next' : α → Analysis β} {returns' : β → Scopes → Prop}
    (first : Completes action action' scopes returns)
    (second : ∀ a after, Onward True scopes after → returns a after →
      Completes (next a) (next' a) after returns') :
    Completes (action >>= next) (action' >>= next') scopes returns' := by
  constructor
  · rw [bind_run, bind_run, ← first.same]
    rcases ran : action scopes with ⟨fault | a, after⟩
    · rfl
    · obtain ⟨onward, ok⟩ := first.ends.returned ran
      exact (second a after onward ok).same
  · refine first.ends.bind fun a after done => ?_
    refine (second a after done.1 done.2).ends.mono (fun b last rest => ?_) fun fault last rest => ?_
    · exact ⟨done.1.trans rest.1, rest.2⟩
    · exact ⟨rest.1, (done.1.weaken fun _ => trivial).trans rest.2⟩

/-- Nothing follows a complaint. -/
theorem stop {next next' : α → Analysis β} {returns' : β → Scopes → Prop}
    (first : Completes action action' scopes fun _ _ => False) :
    Completes (action >>= next) (action' >>= next') scopes returns' :=
  first.bind fun _ _ _ impossible => impossible.elim

theorem map {f : α → β} {returns' : β → Scopes → Prop}
    (completes : Completes action action' scopes fun a => returns' (f a)) :
    Completes (f <$> action) (f <$> action') scopes returns' := by
  rw [map_eq_pure_bind, map_eq_pure_bind]
  exact completes.bind fun _ _ _ ok => .pure ok

theorem outside {inner : Nat} {returns : α → Prop}
    (completes : Completes action action' (scopes.drop inner) fun a _ => returns a) :
    Completes (outside inner action) (outside inner action') scopes fun a _ => returns a := by
  constructor
  · unfold Analysis.outside
    rw [completes.same]
  · refine .outside (completes.ends.mono (fun a after done => ?_) fun fault after failed => ?_)
    · exact ⟨done.1.graft, done.2⟩
    · exact ⟨failed.1, failed.2.graft⟩

theorem inside {scope : Scope} {returns : α → Scopes → Prop}
    (completes : Completes action action' (scope :: scopes) returns) :
    Completes (inside scope action) (inside scope action') scopes fun result after =>
      scope.binders.Onward True result.2.binders ∧ returns result.1 (result.2 :: after) := by
  constructor
  · unfold Analysis.inside
    rw [completes.same]
  · refine .inside (completes.ends.mono (fun a after done => ?_) fun fault after failed => ?_)
    · obtain ⟨onward, ok⟩ := done
      cases onward with
      | cons head tail => exact ⟨_, _, rfl, tail, head, ok⟩
    · obtain ⟨harmless, onward⟩ := failed
      cases onward with
      | cons head tail => exact ⟨_, _, rfl, harmless, tail⟩

end Completes

/-- A computation that only looks, and may complain. -/
abbrev Looks (action : Analysis α) (scopes : Scopes) : Prop :=
  Ends action scopes (fun _ after => after = scopes)
    fun fault after => (∃ e, fault = .exception e) ∧ after = scopes

theorem Looks.completes {action : Analysis α} {scopes : Scopes} (looks : Looks action scopes) :
    Completes action action scopes fun _ after => after = scopes := by
  refine ⟨rfl, looks.mono ?_ ?_⟩
  · rintro a _ rfl
    exact ⟨.refl _, rfl⟩
  · rintro fault _ ⟨raised, rfl⟩
    exact ⟨raised, .refl _⟩

/-- An analyser asks for definitions as it should, if it is granted fuel for the phrase and for
whatever waits around it. -/
def Completing (fuel : Nat) (analyze analyze' : Phrase → Analysis Expr) : Prop :=
  ∀ scopes phrase, phrase.size + backlog scopes ≤ fuel →
    Completes (analyze phrase) (analyze' phrase) scopes fun expr _ =>
      expr.location = phrase.location

section Define

variable {entries : List Definition} {requests : List String} {name : String} {slot : Nat}
  {body : Phrase} {next : Progress}

/-- The entries of a name get on. -/
def update (name : String) (next : Progress) (entry : Definition) : Definition :=
  if entry.name == name then { entry with progress := next } else entry

@[simp]
theorem update_field (entry : Definition) : (update name next entry).field = entry.field := by
  unfold update
  split <;> rfl

@[simp]
theorem update_name (entry : Definition) : (update name next entry).name = entry.name :=
  congrArg Prod.fst (update_field entry)

@[simp]
theorem update_body (entry : Definition) : (update name next entry).body = entry.body := by
  unfold update
  split <;> rfl

theorem update_of_ne {entry : Definition} (different : entry.name ≠ name) :
    update name next entry = entry := by
  unfold update
  rw [if_neg (by simpa using different)]

theorem update_of_eq {entry : Definition} (same : entry.name = name) :
    update name next entry = { entry with progress := next } := by
  unfold update
  rw [if_pos (by simpa using same)]

/-- A definition pays for its analysis when it is asked for. -/
theorem backlog_update (mem : ⟨name, slot, body, .waiting⟩ ∈ entries) :
    body.size + ((entries.map (update name .active)).map Definition.backlog).sum ≤
      (entries.map Definition.backlog).sum := by
  have falls (entry : Definition) : (update name .active entry).backlog ≤ entry.backlog := by
    unfold update
    split
    · exact Nat.zero_le _
    · exact Nat.le_refl _
  have all (entries : List Definition) :
      ((entries.map (update name .active)).map Definition.backlog).sum ≤
        (entries.map Definition.backlog).sum := by
    induction entries with
    | nil => exact Nat.le_refl _
    | cons entry entries ih =>
      have := falls entry
      simp only [List.map_cons, List.sum_cons]
      omega
  obtain ⟨before, after, rfl⟩ := List.append_of_mem mem
  have first := all before
  have last := all after
  simp only [List.map_append, List.map_cons, List.sum_append, List.sum_cons, Definition.backlog,
    update_of_eq, List.map_map] at first last ⊢
  omega

/-- A definition that begins to be analysed is written down. -/
theorem logged_begun (logged : Logged entries requests)
    (found : entries.find? (·.name == name) = some ⟨name, slot, body, .waiting⟩) :
    Logged (entries.map (update name .active)) (requests ++ [name]) := by
  obtain ⟨distinct, log, located⟩ := logged
  obtain ⟨-, before, after, rfl, -⟩ := List.find?_eq_some_iff_append.mp found
  have updated : (before ++ ⟨name, slot, body, .waiting⟩ :: after).map (update name .active) =
      before ++ ⟨name, slot, body, .active⟩ :: after := map_update .active distinct
  rw [updated]
  refine ⟨by simpa using distinct, ?_, fun entry mem expr settled => ?_⟩
  · simp only [List.filter_append, List.filter_cons, Definition.met, Bool.false_eq_true,
      ↓reduceIte, List.map_append, List.map_cons] at log ⊢
    calc (requests ++ [name]).Perm (name :: requests) := List.perm_append_singleton name requests
      _ |>.Perm _ := (log.cons name).trans List.perm_middle.symm
  · simp only [List.mem_append, List.mem_cons] at mem located
    rcases mem with mem | rfl | mem
    · exact located entry (.inl mem) expr settled
    · cases settled
    · exact located entry (.inr (.inr mem)) expr settled

/-- A definition that was asked for is settled. -/
theorem logged_settled {expr : Expr} (logged : Logged entries requests)
    (asked : ∀ entry ∈ entries, entry.name = name →
      entry.met ∧ expr.location = entry.body.location) :
    Logged (entries.map (update name (.done expr))) requests := by
  obtain ⟨distinct, log, located⟩ := logged
  have met : (entries.map (update name (.done expr))).filter (·.met) =
      (entries.filter (·.met)).map (update name (.done expr)) := by
    rw [List.filter_map]
    congr 1
    refine List.filter_congr fun entry mem => ?_
    by_cases same : entry.name = name
    · rw [Function.comp_apply, update_of_eq same, (asked entry mem same).1]
      rfl
    · simp [update_of_ne same]
  constructor
  · simpa [Function.comp_def] using distinct
  · rw [met, List.map_map]
    simpa [Function.comp_def] using log
  · intro entry' mem other settled
    obtain ⟨entry, inside, rfl⟩ := List.mem_map.mp mem
    by_cases same : entry.name = name
    · rw [update_of_eq same] at settled
      obtain rfl : expr = other := by simpa using settled
      rw [update_body]
      exact (asked entry inside same).2
    · rw [update_of_ne same] at settled ⊢
      exact located entry inside other settled

theorem read_entries (opensFrame : Bool) (slotCount : Nat) (outer : Scopes) :
    Analysis.entries (⟨.definitions entries requests, opensFrame, slotCount⟩ :: outer) =
      (.ok entries, ⟨.definitions entries requests, opensFrame, slotCount⟩ :: outer) := rfl

/-- What asking for a definition that waits comes down to. -/
theorem define_waiting (analyze : Phrase → Analysis Expr) (requests : List String)
    (opensFrame : Bool) (slotCount : Nat) (outer : Scopes)
    (found : entries.find? (·.name == name) = some ⟨name, slot, body, .waiting⟩) :
    define analyze name (⟨.definitions entries requests, opensFrame, slotCount⟩ :: outer) =
      (analyze body >>= fun expr => updateEntry name (.done expr) [])
        (⟨.definitions (entries.map (update name .active)) (requests ++ [name]), opensFrame,
          slotCount⟩ :: outer) := by
  rw [define, bind_run, read_entries]
  simp only [found]
  rfl

theorem onward_begun (entry : Definition) :
    entry.Onward False (update name .active entry) := by
  refine ⟨update_field entry, update_body entry, fun asked => ?_, fun impossible => impossible.elim⟩
  unfold update
  split
  · rfl
  · exact asked

theorem onward_settled {before after : Definition} {expr : Expr}
    (onward : Definition.Onward True (update name .active before) after) :
    before.Onward True (update name (.done expr) after) := by
  have sameName : after.name = before.name := by rw [onward.name, update_name]
  by_cases same : after.name = name
  · refine ⟨?_, ?_, fun _ => ?_, fun _ active => ?_⟩
    · rw [update_field, onward.field, update_field]
    · rw [update_body, onward.body, update_body]
    · rw [update_of_eq same]
      rfl
    · rw [update_of_eq same] at active
      cases active
  · rw [update_of_ne same]
    rwa [update_of_ne (sameName ▸ same)] at onward

end Define

section Steps

variable {fuel : Nat} {analyze analyze' : Phrase → Analysis Expr} {scopes : Scopes}
  (completing : Completing fuel analyze analyze')
include completing

theorem completes_define {name : String} (defining : Defining scopes)
    (listed : ∃ entry ∈ scopes.innermost, entry.name = name) (enough : backlog scopes ≤ fuel) :
    Completes (define analyze name) (define analyze' name) scopes fun _ after =>
      (scopes.innermost.map (·.name)).Nodup →
        ∀ entry ∈ after.innermost, entry.name = name → entry.met := by
  obtain ⟨entries, requests, opensFrame, slotCount, outer, rfl⟩ := defining
  obtain ⟨listedEntry, mem, named⟩ := listed
  cases found : entries.find? (·.name == name) with
  | none => exact absurd named (by simpa using List.find?_eq_none.mp found listedEntry mem)
  | some entry =>
    have inside := List.mem_of_find?_eq_some found
    have isName : entry.name = name := by simpa using List.find?_some found
    obtain ⟨entryName, slot, body, progress⟩ := entry
    obtain rfl : entryName = name := isName
    have idle (asked : Definition.met ⟨entryName, slot, body, progress⟩)
        (nothing : ∀ analyze, define analyze entryName
          (⟨.definitions entries requests, opensFrame, slotCount⟩ :: outer) =
          (.ok (), ⟨.definitions entries requests, opensFrame, slotCount⟩ :: outer)) :
        Completes (define analyze entryName) (define analyze' entryName)
          (⟨.definitions entries requests, opensFrame, slotCount⟩ :: outer) fun _ after =>
          (entries.map (·.name)).Nodup →
            ∀ entry ∈ after.innermost, entry.name = entryName → entry.met := by
      refine ⟨(nothing analyze).trans (nothing analyze').symm, ?_⟩
      unfold Ends
      rw [nothing]
      refine ⟨.refl _, fun distinct entry mem same => ?_⟩
      rw [List.inj_on_of_nodup_map distinct mem inside same]
      exact asked
    cases progress with
    | active =>
      refine idle rfl fun analyze => ?_
      simp only [define, bind_run, read_entries, found]
      rfl
    | done expr =>
      refine idle rfl fun analyze => ?_
      simp only [define, bind_run, read_entries, found]
      rfl
    | waiting =>
      have whole (analyze : Phrase → Analysis Expr) :=
        define_waiting analyze requests opensFrame slotCount outer found
      have pays := backlog_update inside
      have part := completing
        (⟨.definitions (entries.map (update entryName .active)) (requests ++ [entryName]),
          opensFrame, slotCount⟩ :: outer) body (by
            simp only [Scopes.backlog, Scope.entries] at enough ⊢
            omega)
      have begins : Onward False (⟨.definitions entries requests, opensFrame, slotCount⟩ :: outer)
          (⟨.definitions (entries.map (update entryName .active)) (requests ++ [entryName]),
            opensFrame, slotCount⟩ :: outer) := by
        refine .cons (.definitions ?_ fun before => logged_begun before found)
          (Onward.refl outer)
        exact List.forall₂_map_right_iff.mpr (List.forall₂_same.mpr fun entry _ => onward_begun entry)
      constructor
      · rw [whole, whole, bind_run, bind_run, part.same]
      unfold Ends
      rw [whole]
      refine Ends.bind (part.ends.mono (fun _ _ ok => ok) fun fault after failed => ?_) ?_
      · exact ⟨failed.1, begins.trans failed.2⟩
      rintro expr after ⟨onward, located⟩
      cases onward with | @cons _ scope' _ outer' head tail =>
      obtain ⟨binders', opensFrame', slotCount'⟩ := scope'
      cases head with | @definitions _ entries' _ requests' each logged =>
      have asked (distinct : (entries.map (·.name)).Nodup) : ∀ entry ∈ entries',
          entry.name = entryName → entry.met ∧ expr.location = entry.body.location := by
        intro entry mem same
        obtain ⟨_, mem', head⟩ := exists_of_forall₂_right each mem
        obtain ⟨origin, mem'', rfl⟩ := List.mem_map.mp mem'
        have sameName : origin.name = entryName := by rw [← same, head.name, update_name]
        constructor
        · exact head.met (by rw [update_of_eq sameName]; rfl)
        · rw [head.body, update_body, List.inj_on_of_nodup_map distinct mem'' inside sameName]
          exact located
      refine Ends.modify ⟨.cons (.definitions ?_ fun before => ?_) tail, fun _ entry mem same => ?_⟩
      · have entrywise := List.forall₂_map_left_iff.mp each
        exact List.forall₂_map_right_iff.mpr (entrywise.imp fun _ _ head => onward_settled head)
      · rw [List.append_nil]
        exact logged_settled (logged (logged_begun before found)) (asked before.distinct)
      · obtain ⟨origin, mem', rfl⟩ := List.mem_map.mp mem
        change (update entryName (.done expr) origin).name = entryName at same
        change (update entryName (.done expr) origin).met
        rw [update_of_eq (update_name origin ▸ same)]
        rfl

theorem completes_defineEach (todo : List Definition) (defining : Defining scopes)
    (listed : ∀ wanted ∈ todo, ∃ entry ∈ scopes.innermost, entry.name = wanted.name)
    (enough : backlog scopes ≤ fuel) :
    Completes (todo.forM fun entry => define analyze entry.name)
      (todo.forM fun entry => define analyze' entry.name) scopes fun _ after =>
      (scopes.innermost.map (·.name)).Nodup →
        ∀ entry ∈ after.innermost, entry.name ∈ todo.map (·.name) → entry.met := by
  induction todo generalizing scopes with
  | nil => exact .pure fun _ _ _ mem => by simp at mem
  | cons wanted todo ih =>
    change Completes (define analyze wanted.name >>= fun _ => todo.forM _)
      (define analyze' wanted.name >>= fun _ => todo.forM _) _ _
    refine (completes_define completing defining (listed wanted (by simp)) enough).bind ?_
    intro _ middle onward asked
    have rest := ih (onward.defining defining) (fun wanted mem => ?_)
      (Nat.le_trans onward.backlog_le enough)
    · refine ⟨rest.same, rest.ends.mono ?_ fun _ _ failed => failed⟩
      rintro _ after ⟨later, met⟩
      refine ⟨later, fun distinct entry mem named => ?_⟩
      rcases List.mem_cons.mp named with same | named
      · obtain ⟨origin, inside, head⟩ := exists_of_forall₂_right later.innermost mem
        exact head.met (asked distinct origin inside (head.name.symm.trans same))
      · exact met (onward.names ▸ distinct) entry mem named
    · obtain ⟨entry, inside, same⟩ := listed wanted (by simp [mem])
      have named : wanted.name ∈ middle.innermost.map (·.name) :=
        onward.names ▸ List.mem_map.mpr ⟨entry, inside, same⟩
      exact List.mem_map.mp named

omit completing in
private theorem completes_entries (defining : Defining scopes) :
    Completes entries entries scopes fun found after => found = scopes.innermost ∧ after = scopes := by
  obtain ⟨entries, requests, opensFrame, slotCount, outer, rfl⟩ := defining
  exact ⟨rfl, .refl _, rfl, rfl⟩

omit completing in
/-- The definitions of a group that are all settled are collected. -/
private theorem completes_collected (entries : List Definition)
    (settled : ∀ entry ∈ entries, ∃ expr, entry.progress = .done expr) :
    Completes (entries.mapM fun entry =>
        match entry.progress with
        | .done expr => pure (entry.slot, expr)
        | _ => throw (.defect (.unanalysedDefinition entry.name)) : Analysis (List (Nat × Expr)))
      (entries.mapM fun entry =>
        match entry.progress with
        | .done expr => pure (entry.slot, expr)
        | _ => throw (.defect (.unanalysedDefinition entry.name))) scopes
      fun definitions after => after = scopes ∧ List.Forall₂ (fun (entry : Definition) definition =>
        definition.1 = entry.slot ∧ entry.progress = .done definition.2) entries definitions := by
  induction entries with
  | nil => exact .pure ⟨rfl, .nil⟩
  | cons entry entries ih =>
    obtain ⟨expr, done⟩ := settled entry (by simp)
    rw [List.mapM_cons]
    simp only [done]
    have first : Completes (pure (entry.slot, expr) : Analysis (Nat × Expr))
        (pure (entry.slot, expr)) scopes
        fun found after => found = (entry.slot, expr) ∧ after = scopes := .pure ⟨rfl, rfl⟩
    refine first.bind ?_
    rintro _ _ - ⟨rfl, rfl⟩
    refine (ih fun entry mem => settled entry (by simp [mem])).bind ?_
    rintro definitions _ - ⟨rfl, each⟩
    exact .pure ⟨rfl, .cons ⟨rfl, done⟩ each⟩

/-- All definitions of a group of which none is under way. -/
theorem completes_defineAll (defining : Defining scopes)
    (distinct : (scopes.innermost.map (·.name)).Nodup)
    (idle : ∀ entry ∈ scopes.innermost, entry.progress ≠ .active) (enough : backlog scopes ≤ fuel) :
    Completes (defineAll analyze) (defineAll analyze') scopes fun definitions after =>
      List.Forall₂ (fun (entry : Definition) definition =>
        definition.1 = entry.slot ∧ entry.progress = .done definition.2)
        after.innermost definitions := by
  refine (completes_entries defining).bind ?_
  rintro _ _ - ⟨rfl, rfl⟩
  refine (completes_defineEach completing _ defining (fun wanted mem => ⟨wanted, mem, rfl⟩)
    enough).bind ?_
  intro _ after onward met
  refine (completes_entries (onward.defining defining)).bind ?_
  rintro _ _ - ⟨rfl, rfl⟩
  refine (completes_collected _ fun entry mem => ?_).mono ?_
  · obtain ⟨origin, inside, head⟩ := exists_of_forall₂_right onward.innermost mem
    have asked := met distinct entry mem (onward.names ▸ List.mem_map_of_mem mem)
    have finishes := head.finishes trivial
    unfold Definition.met at asked
    cases state : entry.progress with
    | waiting => simp [state] at asked
    | active => exact absurd (finishes state) (idle origin inside)
    | done expr => exact ⟨expr, rfl⟩
  · rintro definitions _ ⟨rfl, each⟩
    exact each

theorem completes_reference (location : Location) (id : Ident) (enough : backlog scopes ≤ fuel) :
    Completes (reference analyze location id) (reference analyze' location id) scopes
      fun expr _ => expr.location = location := by
  have read : Completes Analysis.scopes Analysis.scopes scopes
      fun found after => found = scopes ∧ after = scopes :=
    ⟨rfl, .refl scopes, rfl, rfl⟩
  refine read.bind ?_
  rintro _ _ - ⟨rfl, rfl⟩
  cases bound : Scopes.resolve? _ id.name with
  | none => exact .complain
  | some binding =>
    cases binding with
    | constant value => exact .pure rfl
    | slot depth slot => exact .pure rfl
    | definition depth slot inner =>
      obtain ⟨defining, listed⟩ := definition_of_resolve? bound
      have asked := completes_define completing defining listed
        (Nat.le_trans (backlog_drop_le _ inner) enough)
      exact (asked.mono fun _ _ _ => trivial).outside.bind fun _ _ _ _ => .pure rfl

/-- Phrases one after the other. -/
theorem completes_analyzeAll (phrases : List Phrase)
    (enough : Phrase.sizeAll phrases + backlog scopes ≤ fuel) :
    Completes (phrases.mapM analyze) (phrases.mapM analyze') scopes fun _ _ => True := by
  induction phrases generalizing scopes with
  | nil => exact .pure trivial
  | cons phrase phrases ih =>
    rw [List.mapM_cons, List.mapM_cons]
    rw [Phrase.sizeAll] at enough
    refine (completing scopes phrase (by omega)).bind fun expr middle onward _ => ?_
    have less := onward.backlog_le
    exact (ih (by omega)).bind fun _ _ _ _ => .pure trivial

theorem completes_fields (seen : List String) (written : List (Ident × Phrase))
    (enough : Phrase.sizeFields written + backlog scopes ≤ fuel) :
    Completes (fields analyze seen written) (fields analyze' seen written) scopes
      fun _ _ => True := by
  induction written generalizing scopes seen with
  | nil => exact .pure trivial
  | cons field rest ih =>
    obtain ⟨id, phrase⟩ := field
    rw [Phrase.sizeFields] at enough
    simp only [fields]
    by_cases again : id.name ∈ seen
    · simp only [again, ↓reduceIte]
      exact .stop .complain
    simp only [again, ↓reduceIte]
    refine (completing scopes phrase (by omega)).bind fun expr middle onward _ => ?_
    have less := onward.backlog_le
    exact (ih (id.name :: seen) (by omega)).bind fun _ _ _ _ => .pure trivial

/-- The definitions of a module, in a scope of their own. -/
theorem completes_moduleOf {definitions : List (String × Phrase)}
    (distinct : (definitions.map (·.1)).Nodup)
    (enough : (definitions.map (·.2.size)).sum + backlog scopes ≤ fuel) :
    Completes (moduleOf analyze definitions) (moduleOf analyze' definitions) scopes
      fun _ _ => True := by
  have all : Completes (defineAll analyze) (defineAll analyze') (.ofModule definitions :: scopes) _ :=
    completes_defineAll completing ⟨_, _, _, _, _, rfl⟩ (by simpa [innermost, Scope.entries, Scope.ofModule, entriesFrom_names]
      using distinct)
    (fun entry mem => by simp [entriesFrom_waiting mem])
    (by rwa [Scope.ofModule, backlog_entriesFrom])
  refine all.inside.bind ?_
  rintro ⟨bindings, ⟨binders, opensFrame, slotCount⟩⟩ after - ⟨onward, -⟩
  cases onward with
  | definitions => exact .pure trivial

/-- The definitions and the body of a `let`. -/
theorem completes_let {definitions : List (String × Phrase)}
    (distinct : (definitions.map (·.1)).Nodup) (base : Nat) (body : Phrase)
    (enough : (definitions.map (·.2.size)).sum + body.size + backlog scopes ≤ fuel) :
    Completes
      (inside (.ofLet base definitions) do
        let bindings ← defineAll analyze
        let body ← analyze body
        pure (bindings, body))
      (inside (.ofLet base definitions) do
        let bindings ← defineAll analyze'
        let body ← analyze' body
        pure (bindings, body)) scopes fun _ _ => True := by
  have entered : backlog (.ofLet base definitions :: scopes) =
      (definitions.map (·.2.size)).sum + backlog scopes := by
    rw [Scope.ofLet, backlog_entriesFrom]
  have all : Completes (defineAll analyze) (defineAll analyze') (.ofLet base definitions :: scopes) _ :=
    completes_defineAll completing ⟨_, _, _, _, _, rfl⟩ (by simpa [innermost, Scope.entries, Scope.ofLet, entriesFrom_names]
      using distinct)
    (fun entry mem => by simp [entriesFrom_waiting mem]) (by omega)
  refine Completes.mono (.inside (?_ : Completes _ _ _ fun _ _ => True)) fun _ _ _ => trivial
  refine all.bind fun bindings middle onward _ => ?_
  have less := onward.backlog_le
  exact (completing middle body (by omega)).bind fun _ _ _ _ => .pure trivial

/-- The body of a function or of a loop. -/
theorem completes_body (params : List String) (body : Phrase)
    (enough : body.size + backlog scopes ≤ fuel) :
    Completes (inside (.ofParameters params) (analyze body))
      (inside (.ofParameters params) (analyze' body)) scopes fun _ _ => True := by
  have entered : backlog (.ofParameters params :: scopes) = backlog scopes :=
    Nat.zero_add (backlog scopes)
  exact (completing (.ofParameters params :: scopes) body (by omega)).inside.mono
    fun _ _ _ => trivial

end Steps

section Checks

variable {scopes : Scopes}

theorem looks_splitDefinition (location : Location) (target definiens : Phrase) :
    Looks (splitDefinition location target definiens) scopes := by
  unfold splitDefinition
  split
  · exact Ends.pure rfl
  · refine Ends.bind (Ends.mapM (fun arg => ?_) _) ?_
    · cases arg <;> first
        | exact Ends.pure rfl
        | exact Ends.complain fun e => ⟨⟨e, rfl⟩, rfl⟩
    · rintro _ _ rfl
      exact Ends.pure rfl
  · exact Ends.complain fun e => ⟨⟨e, rfl⟩, rfl⟩

theorem looks_collectDefinitions (seen : List String) (items : List Phrase) :
    Looks (collectDefinitions seen items) scopes := by
  induction items generalizing seen with
  | nil => exact Ends.pure rfl
  | cons item items ih =>
    cases item with
    | definition location target definiens =>
      simp only [collectDefinitions]
      refine (looks_splitDefinition location target definiens).bind ?_
      rintro ⟨id, body⟩ _ rfl
      dsimp only
      split
      · exact Ends.stop (.complain fun e => ⟨⟨e, rfl⟩, rfl⟩)
      · refine (ih (id.name :: seen)).bind ?_
        rintro _ _ rfl
        exact Ends.pure rfl
    | _ => exact Ends.complain fun e => ⟨⟨e, rfl⟩, rfl⟩

theorem looks_checkParameters (seen : List String) (params : List Ident) :
    Looks (checkParameters seen params) scopes := by
  induction params generalizing seen with
  | nil => exact Ends.pure rfl
  | cons param params ih =>
    simp only [checkParameters]
    split
    · exact Ends.stop (.complain fun e => ⟨⟨e, rfl⟩, rfl⟩)
    · exact ih (param.name :: seen)

theorem completes_collectDefinitions (items : List Phrase) :
    Completes (collectDefinitions [] items) (collectDefinitions [] items) scopes
      fun definitions after => after = scopes ∧ (definitions.map (·.1)).Nodup ∧
        (definitions.map (·.2.size)).sum ≤ Phrase.sizeAll items := by
  refine ⟨rfl, ((looks_collectDefinitions [] items).and (ends_collectDefinitions [] items)).mono
    ?_ ?_⟩
  · rintro definitions _ ⟨rfl, -, written, distinct, -⟩
    exact ⟨.refl _, rfl, distinct, Phrase.size_bindings written⟩
  · rintro fault _ ⟨⟨raised, rfl⟩, -⟩
    exact ⟨raised, .refl _⟩

end Checks

section Phrases

variable {fuel : Nat} {analyze analyze' : Phrase → Analysis Expr} {scopes : Scopes}

private theorem completes_made {expr : Expr} {location : Location}
    (stands : expr.location = location) :
    Completes (pure (Meaning.expression expr)) (pure (Meaning.expression expr)) scopes
      fun meaning _ => ∀ other, meaning = .expression other → other.location = location := by
  refine .pure ?_
  rintro _ ⟨⟩
  exact stands

/-- The analysis of a phrase for which there is fuel, and for all that waits around it. -/
theorem step_completes (completing : Completing fuel analyze analyze') (phrase : Phrase)
    (enough : phrase.size + backlog scopes ≤ fuel + 1) :
    Completes (step analyze phrase) (step analyze' phrase) scopes fun meaning _ =>
      ∀ expr, meaning = .expression expr → expr.location = phrase.location := by
  cases phrase with
  | numeral location value => exact completes_made rfl
  | boolean location value => exact completes_made rfl
  | text location content => exact completes_made rfl
  | ident location id =>
    simp only [Phrase.size] at enough
    refine .map ((completes_reference completing location id (by omega)).mono ?_)
    rintro expr _ stands _ same
    cases same
    exact stands
  | list location items =>
    simp only [Phrase.size] at enough
    exact (completes_analyzeAll completing items (by omega)).bind fun _ _ _ _ => completes_made rfl
  | record location written =>
    simp only [Phrase.size] at enough
    exact (completes_fields completing [] written (by omega)).bind fun _ _ _ _ => completes_made rfl
  | «module» location items =>
    simp only [Phrase.size] at enough
    refine (completes_collectDefinitions items).bind ?_
    rintro definitions _ - ⟨rfl, distinct, less⟩
    exact (completes_moduleOf completing distinct (by omega)).bind fun _ _ _ _ =>
      completes_made rfl
  | definition location target definiens =>
    refine (looks_splitDefinition location target definiens).completes.bind ?_
    exact fun _ _ _ _ => .pure fun _ same => by cases same
  | lambda location params body =>
    simp only [Phrase.size] at enough
    refine (looks_checkParameters [] params).completes.bind fun _ middle onward _ => ?_
    have inner : body.size + backlog middle ≤ fuel := by have := onward.backlog_le; omega
    refine (completes_body completing (params.map (·.name)) body inner).bind ?_
    rintro ⟨expr, scope⟩ _ - -
    exact completes_made rfl
  | call location function args =>
    simp only [Phrase.size] at enough
    refine (completing scopes function (by omega)).bind fun callee middle onward _ => ?_
    have less := onward.backlog_le
    exact (completes_analyzeAll completing args (by omega)).bind fun _ _ _ _ => completes_made rfl
  | dot location base field =>
    simp only [Phrase.size] at enough
    exact (completing scopes base (by omega)).bind fun _ _ _ _ => completes_made rfl
  | index location base index =>
    simp only [Phrase.size] at enough
    refine (completing scopes base (by omega)).bind fun expr middle onward _ => ?_
    have less := onward.backlog_le
    exact (completing middle index (by omega)).bind fun _ _ _ _ => completes_made rfl
  | unary location op operand =>
    simp only [Phrase.size] at enough
    exact (completing scopes operand (by omega)).bind fun _ _ _ _ => completes_made rfl
  | binary location op left right =>
    simp only [Phrase.size] at enough
    refine (completing scopes left (by omega)).bind fun a middle onward _ => ?_
    have less := onward.backlog_le
    exact (completing middle right (by omega)).bind fun _ _ _ _ => completes_made rfl
  | conditional location condition whenTrue whenFalse =>
    simp only [Phrase.size] at enough
    refine (completing scopes condition (by omega)).bind fun c middle onward _ => ?_
    have less := onward.backlog_le
    refine (completing middle whenTrue (by omega)).bind fun a later onward' _ => ?_
    have less' := onward'.backlog_le
    exact (completing later whenFalse (by omega)).bind fun _ _ _ _ => completes_made rfl
  | letIn location items body =>
    simp only [Phrase.size] at enough
    refine (completes_collectDefinitions items).bind ?_
    rintro definitions _ - ⟨rfl, distinct, less⟩
    refine (Looks.completes (Ends.get rfl)).bind ?_
    rintro found middle - rfl
    have reserved : Completes (modify (Scopes.reserve definitions.length) : Analysis Unit)
        (modify (Scopes.reserve definitions.length)) middle fun _ _ => True :=
      ⟨rfl, .reserve _ middle, trivial⟩
    refine reserved.bind fun _ later onward _ => ?_
    have less' := onward.backlog_le
    refine (completes_let completing distinct found.slotCount body (by omega)).bind ?_
    rintro ⟨⟨bindings, expr⟩, scope⟩ _ - -
    exact completes_made rfl
  | forEach location item list body =>
    simp only [Phrase.size] at enough
    refine (completing scopes list (by omega)).bind fun items middle onward _ => ?_
    have less := onward.backlog_le
    refine (completes_body completing [item.name] body (by omega)).bind ?_
    rintro ⟨expr, scope⟩ _ - -
    exact completes_made rfl

/-- It does not matter how much more fuel there is than what is needed. -/
theorem exprUpTo_completing (fuel : Nat) {more : Nat} (le : fuel ≤ more) :
    Completing fuel (exprUpTo fuel) (exprUpTo more) := by
  induction fuel generalizing more with
  | zero =>
    intro scopes phrase enough
    have : 0 < phrase.size := by cases phrase <;> simp [Phrase.size]
    omega
  | succ fuel ih =>
    obtain ⟨more, rfl⟩ : ∃ less, more = less + 1 := ⟨more - 1, by omega⟩
    intro scopes phrase enough
    refine (step_completes (ih (Nat.le_of_succ_le_succ le)) phrase enough).bind ?_
    intro meaning after _ stands
    cases meaning with
    | expression expr => exact .pure (stands expr rfl)
    | definition name definiens => exact .complain

end Phrases

end Analysis

end ShapeLang
