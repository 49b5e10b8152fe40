import ShapeLang.Proofs.Grammar.Reading

/-! # What failures report

A parser reports the furthest token at which it failed to read, with the alternatives that it met
there. `Faithful` says in what sense this report is right. Each alternative could have come next in
some sentence, and did not; and two texts with a common beginning, in the first of which the parser
does not get past it, are told apart only by a token that is among the alternatives for the first.
The second part needs no grammar: where nothing past the common beginning is read, all decisions are
alike until a token of the second text is read, and there the first one failed.

The two texts may be read to different depths, so this is about two parsers, each with a bound for
what it reads. One theorem per combinator hands the property on.
-/

namespace ShapeLang

open Grammar

namespace Expected

/-- What an alternative stands for: some tokens, or the end of the text. An alternative that names a
kind of phrase stands for the tokens that such a phrase can start with. -/
def Covers : Expected → Option Token → Prop
  | symbol s, next => next = some (.symbol s)
  | endOfInput, next => next = none
  | expression, next => ∃ token more tree, next = some token ∧
      Derives .expression (token :: more) tree
  | identifier, next => ∃ name, next = some (.ident name)
  | literal, next => ∃ token tree, next = some token ∧ Literal token tree

/-- What stands for a token does not stand for the end of the text. -/
theorem not_covers_none {e : Expected} (some : ∃ t, e.Covers (some t)) : ¬ e.Covers none := by
  obtain ⟨t, covers⟩ := some
  cases e with
  | endOfInput => cases covers
  | symbol => exact fun impossible => nomatch impossible
  | identifier => rintro ⟨name, impossible⟩; cases impossible
  | expression => rintro ⟨token, more, tree, impossible, -⟩; cases impossible
  | literal => rintro ⟨token, tree, impossible, -⟩; cases impossible

end Expected

namespace Miss

variable {first second : Option Miss} {m : Miss} {e : Expected}

theorem mem_union {es fs : List Expected} : e ∈ union es fs ↔ e ∈ es ∨ e ∈ fs := by
  unfold union
  induction fs generalizing es with
  | nil => simp
  | cons f fs ih =>
    rw [List.foldl_cons, ih]
    by_cases known : f ∈ es
    · simp only [known, ↓reduceIte, List.mem_cons]
      constructor
      · rintro (mem | mem)
        · exact .inl mem
        · exact .inr (.inr mem)
      · rintro (mem | rfl | mem)
        · exact .inl mem
        · exact .inl known
        · exact .inr mem
    · simp [known, or_assoc]

/-- A merged report is one of the two, or both of them at the same token. -/
theorem merge_eq_some (merged : merge first second = some m) :
    first = some m ∨ second = some m ∨ ∃ a b, first = some a ∧ second = some b ∧
      a.remaining = m.remaining ∧ b.remaining = m.remaining ∧
      m.expected = union a.expected b.expected := by
  cases first with
  | none => cases second <;> exact .inr (.inl merged)
  | some a =>
    cases second with
    | none => exact .inl merged
    | some b =>
      simp only [merge] at merged
      split at merged
      · exact .inl merged
      · split at merged
        · exact .inr (.inl merged)
        · cases merged
          exact .inr (.inr ⟨a, b, rfl, rfl, rfl, by dsimp only; omega, rfl⟩)

/-- The merged report is not behind either one. -/
theorem exists_merge (first second : Option Miss) (here : first = some m ∨ second = some m) :
    ∃ further, merge first second = some further ∧ further.remaining ≤ m.remaining := by
  rcases here with rfl | rfl
  · cases second with
    | none => exact ⟨m, rfl, Nat.le_refl _⟩
    | some b =>
      simp only [merge]
      split
      · exact ⟨m, rfl, Nat.le_refl _⟩
      · split
        · exact ⟨b, rfl, by omega⟩
        · exact ⟨_, rfl, Nat.le_refl _⟩
  · cases first with
    | none => exact ⟨m, rfl, Nat.le_refl _⟩
    | some a =>
      simp only [merge]
      split
      · exact ⟨a, rfl, by omega⟩
      · split
        · exact ⟨m, rfl, Nat.le_refl _⟩
        · exact ⟨_, rfl, by dsimp only; omega⟩

/-- No failure is reported past the token with `k` tokens left. -/
def Within (k : Nat) (miss : Option Miss) : Prop := ∀ m, miss = some m → k ≤ m.remaining

/-- The alternative is reported at the token with `k` tokens left. -/
def Notes (miss : Option Miss) (k : Nat) (e : Expected) : Prop :=
  ∃ m, miss = some m ∧ m.remaining = k ∧ e ∈ m.expected

theorem Within.of_merge {k : Nat} (within : Within k (merge first second)) :
    Within k first ∧ Within k second := by
  constructor
  · intro m here
    obtain ⟨further, merged, le⟩ := exists_merge first second (.inl here)
    exact Nat.le_trans (within further merged) le
  · intro m here
    obtain ⟨further, merged, le⟩ := exists_merge first second (.inr here)
    exact Nat.le_trans (within further merged) le

/-- What is reported at the furthest token is among the merged alternatives. -/
theorem Notes.merge {k : Nat} (within : Within k (merge first second))
    (notes : Notes first k e ∨ Notes second k e) : Notes (merge first second) k e := by
  obtain ⟨below, below'⟩ := within.of_merge
  rcases notes with ⟨m, rfl, rfl, mem⟩ | ⟨m, rfl, rfl, mem⟩
  · cases second with
    | none => exact ⟨m, rfl, rfl, mem⟩
    | some b =>
      have le := below' b rfl
      simp only [Miss.merge]
      split
      · exact ⟨m, rfl, rfl, mem⟩
      · rw [if_neg (by omega)]
        exact ⟨_, rfl, rfl, mem_union.mpr (.inl mem)⟩
  · cases first with
    | none => exact ⟨m, rfl, rfl, mem⟩
    | some a =>
      have le := below a rfl
      simp only [Miss.merge]
      rw [if_neg (by omega)]
      split
      · exact ⟨m, rfl, rfl, mem⟩
      · exact ⟨_, rfl, by dsimp only; omega, mem_union.mpr (.inr mem)⟩

end Miss

namespace Parser

variable {α β : Type}

/-- The alternative, reported with `k` of the tokens left, could have come next in a sentence of the
language, and does not come next. -/
def Genuine (lang : List Token → Prop) (tokens : List Token) (k : Nat) (e : Expected) : Prop :=
  ∃ read after, tokens = read ++ after ∧ after.length = k ∧ (∃ t, e.Covers (some t)) ∧
    ¬ e.Covers after.head? ∧ ∀ t, e.Covers (some t) → ∃ more, lang (read ++ t :: more)

/-- A report of genuine alternatives, of which there is at least one. -/
def Reports (lang : List Token → Prop) (tokens : List Token) (miss : Option Miss) : Prop :=
  ∀ m, miss = some m → m.expected ≠ [] ∧ ∀ e ∈ m.expected, Genuine lang tokens m.remaining e

/-- The same result, with different tokens left after a common beginning. -/
inductive Agree (v w : List Lexeme) : Option (α × Cursor) → Option (α × Cursor) → Prop
  | failed : Agree v w none none
  | read (a : α) (u : List Lexeme) (stop : Nat) :
    Agree v w (some (a, ⟨u ++ v, stop⟩)) (some (a, ⟨u ++ w, stop⟩))

/-- Nothing of the last `k` tokens was read. -/
structure Stays (k : Nat) (reply : Reply α) : Prop where
  miss : Miss.Within k reply.miss
  outcome : ∀ a next, reply.outcome = some (a, next) → k ≤ next.rest.length

/-- The report is right for texts with fewer tokens than the bound; compared with another parser on
texts with fewer tokens than another bound. -/
structure Faithful (n n' : Nat) (p p' : Parser α) (lang : List Token → Prop) : Prop where
  onward : ∀ cursor a next, (p cursor).outcome = some (a, next) →
    next.rest.length ≤ cursor.rest.length
  reported : ∀ cursor, cursor.rest.length < n → (p cursor).outcome = none →
    ∃ m, (p cursor).miss = some m
  reports : ∀ cursor, cursor.rest.length < n → Reports lang cursor.tokens (p cursor).miss
  coherent : ∀ u v w stop, (u ++ v).length < n → (u ++ w).length < n' →
    Stays v.length (p ⟨u ++ v, stop⟩) →
    Agree v w (p ⟨u ++ v, stop⟩).outcome (p' ⟨u ++ w, stop⟩).outcome ∨
      ∃ e, Miss.Notes (p ⟨u ++ v, stop⟩).miss v.length e ∧ e.Covers (w.head?.map (·.token))

section Reports

variable {lang more : List Token → Prop} {tokens : List Token} {miss first second : Option Miss}

theorem Genuine.mono {k : Nat} {e : Expected} (genuine : Genuine lang tokens k e)
    (imp : ∀ ts, lang ts → ∃ us, more (ts ++ us)) : Genuine more tokens k e := by
  obtain ⟨read, after, split, left, some, other, viable⟩ := genuine
  refine ⟨read, after, split, left, some, other, fun t covers => ?_⟩
  obtain ⟨us, sentence⟩ := viable t covers
  obtain ⟨vs, whole⟩ := imp _ sentence
  exact ⟨us ++ vs, by simpa using whole⟩

/-- What is read first comes in front. -/
theorem Genuine.after {k : Nat} {e : Expected} (before : List Token)
    (genuine : Genuine (fun ts => lang (before ++ ts)) tokens k e) :
    Genuine lang (before ++ tokens) k e := by
  obtain ⟨read, after, rfl, left, some, other, viable⟩ := genuine
  refine ⟨before ++ read, after, by simp, left, some, other, fun t covers => ?_⟩
  obtain ⟨us, sentence⟩ := viable t covers
  exact ⟨us, by simpa using sentence⟩

theorem Genuine.le {k : Nat} {e : Expected} (genuine : Genuine lang tokens k e) :
    k ≤ tokens.length := by
  obtain ⟨read, after, rfl, rfl, -⟩ := genuine
  simp

theorem Reports.le (reports : Reports lang tokens miss) {m : Miss} (here : miss = some m) :
    m.remaining ≤ tokens.length := by
  obtain ⟨some, all⟩ := reports m here
  obtain ⟨e, es, is⟩ := List.exists_cons_of_ne_nil some
  exact (all e (by simp [is])).le

theorem Reports.mono (reports : Reports lang tokens miss)
    (imp : ∀ ts, lang ts → ∃ us, more (ts ++ us)) : Reports more tokens miss := by
  intro m here
  obtain ⟨some, all⟩ := reports m here
  exact ⟨some, fun e mem => (all e mem).mono imp⟩

theorem Reports.after (before : List Token)
    (reports : Reports (fun ts => lang (before ++ ts)) tokens miss) :
    Reports lang (before ++ tokens) miss := by
  intro m here
  obtain ⟨some, all⟩ := reports m here
  exact ⟨some, fun e mem => (all e mem).after before⟩

theorem Reports.merge (left : Reports lang tokens first) (right : Reports lang tokens second) :
    Reports lang tokens (Miss.merge first second) := by
  intro m merged
  rcases Miss.merge_eq_some merged with here | here | ⟨a, b, here, here', at_a, at_b, both⟩
  · exact left m here
  · exact right m here
  · obtain ⟨some, all⟩ := left a here
    obtain ⟨-, all'⟩ := right b here'
    rw [both]
    refine ⟨fun empty => some ?_, fun e mem => ?_⟩
    · refine List.eq_nil_iff_forall_not_mem.mpr fun e mem => ?_
      exact List.not_mem_nil (empty ▸ Miss.mem_union.mpr (.inl mem))
    · rcases Miss.mem_union.mp mem with mem | mem
      · exact at_a ▸ all e mem
      · exact at_b ▸ all' e mem

theorem Reports.none : Reports lang tokens none := fun _ impossible => nomatch impossible

end Reports

section Sequence

variable {n n' : Nat} {p p' q q' : Parser α} {f f' : α → Parser β}
  {lang whole : List Token → Prop} {reads : List Token → α → Prop}

theorem bind_eq (p : Parser α) (f : α → Parser β) (cursor : Cursor) :
    (p >>= f) cursor =
      match p cursor with
      | ⟨some (a, next), miss⟩ => ⟨(f a next).outcome, Miss.merge miss (f a next).miss⟩
      | ⟨none, miss⟩ => ⟨none, miss⟩ := rfl

theorem Faithful.lessen {k k' : Nat} (faithful : Faithful n n' p p' lang) (le : k ≤ n)
    (le' : k' ≤ n') : Faithful k k' p p' lang where
  onward := faithful.onward
  reported := fun cursor short => faithful.reported cursor (by omega)
  reports := fun cursor short => faithful.reports cursor (by omega)
  coherent := fun u v w stop short short' =>
    faithful.coherent u v w stop (by omega) (by omega)

/-- The language may be a part of a larger one, in which its sentences are completed. -/
theorem Faithful.mono (faithful : Faithful n n' p p' lang)
    (imp : ∀ ts, lang ts → ∃ us, whole (ts ++ us)) : Faithful n n' p p' whole where
  onward := faithful.onward
  reported := faithful.reported
  reports := fun cursor short => (faithful.reports cursor short).mono imp
  coherent := faithful.coherent

theorem Faithful.pure (a : α) : Faithful n n' (Pure.pure a) (Pure.pure a) lang where
  onward := by
    intro cursor b next run
    cases run
    exact Nat.le_refl _
  reported := fun cursor short failed => nomatch failed
  reports := fun cursor short => .none
  coherent := fun u v w stop _ _ _ => .inl (.read a u stop)

/-- What comes second is read after fewer tokens, and completes what comes first. -/
theorem Faithful.bind (first : Faithful n n' p p' lang) (sound : Sound p reads)
    (completes : ∀ ts, lang ts → ∃ us, whole (ts ++ us))
    (second : ∀ ts a, reads ts a → Faithful (n - ts.length) (n' - ts.length) (f a) (f' a)
      fun us => whole (ts ++ us)) :
    Faithful n n' (p >>= f) (p' >>= f') whole := by
  -- Where the first part stops, seen from where it starts.
  have between {cursor next : Cursor} {a : α} {miss : Option Miss}
      (ran : p cursor = ⟨some (a, next), miss⟩) : ∃ ts, reads ts a ∧
        cursor.tokens = ts ++ next.tokens ∧ cursor.rest.length = ts.length + next.rest.length := by
    obtain ⟨ts, split, holds⟩ := sound (congrArg Reply.outcome ran)
    have lengths := congrArg List.length split
    simp only [Cursor.tokens, List.length_map, List.length_append] at lengths
    exact ⟨ts, holds, split, lengths⟩
  constructor
  case onward =>
    intro cursor b last run
    rw [bind_eq] at run
    rcases ran : p cursor with ⟨_ | ⟨a, next⟩, miss⟩
    · simp [ran] at run
    · simp only [ran] at run
      obtain ⟨ts, holds, -, length⟩ := between ran
      have := (second ts a holds).onward next b last run
      omega
  case reported =>
    intro cursor short failed
    rw [bind_eq] at failed ⊢
    rcases ran : p cursor with ⟨_ | ⟨a, next⟩, miss⟩
    · obtain ⟨m, here⟩ := first.reported cursor short (congrArg Reply.outcome ran)
      rw [ran] at here
      exact ⟨m, here⟩
    · simp only [ran] at failed ⊢
      obtain ⟨ts, holds, -, length⟩ := between ran
      obtain ⟨m, here⟩ := (second ts a holds).reported next (by omega) failed
      obtain ⟨further, merged, -⟩ := Miss.exists_merge miss _ (.inr here)
      exact ⟨further, merged⟩
  case reports =>
    intro cursor short
    have earlier := (first.reports cursor short).mono completes
    rw [bind_eq]
    rcases ran : p cursor with ⟨_ | ⟨a, next⟩, miss⟩
    · rwa [ran] at earlier
    · rw [ran] at earlier
      obtain ⟨ts, holds, split, length⟩ := between ran
      have later := ((second ts a holds).reports next (by omega)).after ts
      rw [← split] at later
      exact earlier.merge later
  case coherent =>
    intro u v w stop short short' stays
    have alike := first.coherent u v w stop short short'
    rw [bind_eq] at stays ⊢
    rw [bind_eq]
    rcases ran : p ⟨u ++ v, stop⟩ with ⟨_ | ⟨a, next⟩, miss⟩
    · simp only [ran] at stays alike ⊢
      rcases alike ⟨stays.miss, fun _ _ run => by cases run⟩ with agree | expects
      · rcases ran' : p' ⟨u ++ w, stop⟩ with ⟨outcome', miss'⟩
        rw [ran'] at agree
        cases agree
        exact .inl .failed
      · exact .inr expects
    · simp only [ran] at stays alike ⊢
      obtain ⟨ts, holds, split, length⟩ := between ran
      dsimp only at length
      have later := second ts a holds
      obtain ⟨within, within'⟩ := stays.miss.of_merge
      have here : v.length ≤ next.rest.length := by
        by_contra past
        cases result : (f a next).outcome with
        | some final =>
          obtain ⟨b, last⟩ := final
          have := later.onward next b last result
          have := stays.outcome b last result
          omega
        | none =>
          obtain ⟨m, noted⟩ := later.reported next (by omega) result
          have := (later.reports next (by omega)).le noted
          have := within' m noted
          rw [Cursor.tokens, List.length_map] at *
          omega
      rcases alike ⟨within, fun b last run => by cases run; exact here⟩ with agree | ⟨e, notes, covers⟩
      · rcases ran' : p' ⟨u ++ w, stop⟩ with ⟨outcome', miss'⟩
        rw [ran'] at agree
        obtain ⟨rest, stop'⟩ := next
        cases agree with
        | read _ u₂ _ =>
          simp only [List.length_append] at length short short'
          rcases later.coherent u₂ v w stop' (by rw [List.length_append]; omega)
            (by rw [List.length_append]; omega) ⟨within', stays.outcome⟩ with agree | ⟨e, notes, covers⟩
          · exact .inl agree
          · exact .inr ⟨e, .merge stays.miss (.inr notes), covers⟩
      · exact .inr ⟨e, .merge stays.miss (.inl notes), covers⟩

theorem Faithful.map {g : α → β} (faithful : Faithful n n' p p' lang)
    (sound : Sound p fun _ _ => True) : Faithful n n' (g <$> p) (g <$> p') lang :=
  faithful.bind sound (fun _ sentence => ⟨[], by simpa using sentence⟩) fun _ _ _ => .pure _

end Sequence

section Alternatives

variable {n n' : Nat} {p p' q q' : Parser α} {lang : List Token → Prop}

theorem orElse_eq (p q : Parser α) (cursor : Cursor) :
    orElse p q cursor =
      match p cursor with
      | ⟨some result, miss⟩ => ⟨some result, miss⟩
      | ⟨none, miss⟩ => ⟨(q cursor).outcome, Miss.merge miss (q cursor).miss⟩ := rfl

theorem Faithful.orElse (first : Faithful n n' p p' lang) (second : Faithful n n' q q' lang) :
    Faithful n n' (orElse p q) (orElse p' q') lang := by
  constructor
  case onward =>
    intro cursor a next run
    rw [orElse_outcome, Option.or_eq_some_iff] at run
    rcases run with run | ⟨-, run⟩
    · exact first.onward cursor a next run
    · exact second.onward cursor a next run
  case reported =>
    intro cursor short failed
    rw [orElse_eq] at failed ⊢
    rcases ran : p cursor with ⟨_ | result, miss⟩
    · simp only [ran] at failed ⊢
      obtain ⟨m, here⟩ := second.reported cursor short failed
      obtain ⟨further, merged, -⟩ := Miss.exists_merge miss _ (.inr here)
      exact ⟨further, merged⟩
    · simp [ran] at failed
  case reports =>
    intro cursor short
    have earlier := first.reports cursor short
    rw [orElse_eq]
    rcases ran : p cursor with ⟨_ | result, miss⟩
    · rw [ran] at earlier
      exact earlier.merge (second.reports cursor short)
    · rwa [ran] at earlier
  case coherent =>
    intro u v w stop short short' stays
    have alike := first.coherent u v w stop short short'
    rw [orElse_eq] at stays ⊢
    rw [orElse_eq]
    rcases ran : p ⟨u ++ v, stop⟩ with ⟨_ | result, miss⟩
    · simp only [ran] at stays alike ⊢
      obtain ⟨within, within'⟩ := stays.miss.of_merge
      rcases alike ⟨within, fun _ _ run => by cases run⟩ with agree | ⟨e, notes, covers⟩
      · rcases ran' : p' ⟨u ++ w, stop⟩ with ⟨outcome', miss'⟩
        rw [ran'] at agree
        cases agree
        rcases second.coherent u v w stop short short' ⟨within', stays.outcome⟩ with
          agree | ⟨e, notes, covers⟩
        · exact .inl agree
        · exact .inr ⟨e, .merge stays.miss (.inr notes), covers⟩
      · exact .inr ⟨e, .merge stays.miss (.inl notes), covers⟩
    · simp only [ran] at stays alike ⊢
      rcases alike stays with agree | expects
      · rcases ran' : p' ⟨u ++ w, stop⟩ with ⟨outcome', miss'⟩
        rw [ran'] at agree
        obtain ⟨a, next⟩ := result
        cases agree
        exact .inl (.read ..)
      · exact .inr expects

theorem Faithful.optional (faithful : Faithful n n' p p' lang) (sound : Sound p fun _ _ => True) :
    Faithful n n' (optional p) (optional p') lang :=
  (faithful.map sound).orElse (.pure none)

/-- The label may stand for whatever was reported at the first token, and then it is right. -/
theorem Faithful.labelled {label : Expected} (faithful : Faithful n n' p p' lang)
    (starts : ∃ t, label.Covers (some t))
    (stands : ∀ t, label.Covers (some t) ↔ ∃ more, lang (t :: more))
    (missed : ∀ cursor m, cursor.rest.length < n → (p cursor).miss = some m →
      m.remaining = cursor.rest.length → ¬ label.Covers cursor.tokens.head?) :
    Faithful n n' (labelled label p) (labelled label p') lang := by
  constructor
  case onward => exact faithful.onward
  case reported =>
    intro cursor short failed
    obtain ⟨m, here⟩ := faithful.reported cursor short failed
    exact ⟨_, by rw [Parser.labelled, here]; rfl⟩
  case reports =>
    intro cursor short m labelled
    obtain ⟨m', here, is⟩ := Option.map_eq_some_iff.mp labelled
    obtain ⟨some, all⟩ := faithful.reports cursor short m' here
    split at is
    · rename_i start
      subst is
      refine ⟨by simp, fun e mem => ?_⟩
      obtain rfl := List.mem_singleton.mp mem
      refine ⟨[], cursor.tokens, rfl, ?_, starts, missed cursor m' short here start,
        fun t covers => (stands t).mp covers⟩
      rw [start, Cursor.tokens, List.length_map]
    · subst is
      exact ⟨some, all⟩
  case coherent =>
    intro u v w stop short short' stays
    have inner : Stays v.length (p ⟨u ++ v, stop⟩) := by
      refine ⟨fun m here => ?_, stays.outcome⟩
      have := stays.miss _ (by rw [Parser.labelled, here]; rfl)
      dsimp only at this
      split at this <;> exact this
    rcases faithful.coherent u v w stop short short' inner with agree | ⟨e, ⟨m, here, at_v, mem⟩, covers⟩
    · exact .inl agree
    · right
      by_cases start : m.remaining = (u ++ v).length
      · refine ⟨label, ⟨⟨m.remaining, [label]⟩, ?_, at_v, by simp⟩, ?_⟩
        · rw [Parser.labelled, here]
          simp [start]
        · obtain ⟨-, all⟩ := faithful.reports _ short m here
          obtain ⟨read, after, split, left, some, -, viable⟩ := all e mem
          have none : read = [] := by
            have := congrArg List.length split
            simp only [Cursor.tokens, List.length_map, List.length_append] at this start
            exact List.length_eq_zero_iff.mp (by omega)
          subst none
          cases next : w.head? with
          | none =>
            rw [next] at covers
            exact absurd covers (Expected.not_covers_none some)
          | some lexeme =>
            rw [next] at covers
            exact (stands _).mpr (viable _ covers)
      · refine ⟨e, ⟨m, ?_, at_v, mem⟩, covers⟩
        rw [Parser.labelled, here]
        simp only [Option.map_some, start, ↓reduceIte]

end Alternatives

section Words

variable {n n' : Nat} {accept : Lexeme → Option α} {e : Expected} {lang : List Token → Prop}

/-- A token of a class is missed where it is not in the class. -/
theorem Faithful.token
    (known : ∀ lexeme, (∃ a, accept lexeme = some a) ↔ e.Covers (some lexeme.token))
    (starts : ∃ t, e.Covers (some t)) (viable : ∀ t, e.Covers (some t) → lang [t]) :
    Faithful n n' (token e accept) (token e accept) lang := by
  have not_end : ¬ e.Covers none := Expected.not_covers_none starts
  constructor
  case onward =>
    rintro ⟨rest, stop⟩ a next run
    cases rest with
    | nil => cases run
    | cons lexeme others =>
      simp only [Parser.token] at run
      split at run
      · cases run
        simp
      · cases run
  case reported =>
    rintro ⟨rest, stop⟩ - failed
    cases rest with
    | nil => exact ⟨_, rfl⟩
    | cons lexeme others =>
      simp only [Parser.token] at failed ⊢
      split
      · rename_i accepted
        simp [accepted] at failed
      · exact ⟨_, rfl⟩
  case reports =>
    rintro ⟨rest, stop⟩ - m here
    -- The class is reported at the very first token.
    have missed (other : ¬ e.Covers ((rest.map (·.token)).head?)) (is : m = ⟨rest.length, [e]⟩) :
        m.expected ≠ [] ∧ ∀ f ∈ m.expected,
          Genuine lang (Cursor.tokens ⟨rest, stop⟩) m.remaining f := by
      subst is
      refine ⟨by simp, fun f mem => ?_⟩
      obtain rfl := List.mem_singleton.mp mem
      exact ⟨[], _, rfl, by simp, starts, other,
        fun t covers => ⟨[], viable t covers⟩⟩
    cases rest with
    | nil => exact missed not_end (Option.some.inj here).symm
    | cons lexeme others =>
      simp only [Parser.token] at here
      split at here
      · cases here
      · rename_i refused
        refine missed (fun covers => ?_) (Option.some.inj here).symm
        obtain ⟨a, accepted⟩ := (known lexeme).mpr covers
        simp [refused] at accepted
  case coherent =>
    intro u v w stop _ _ stays
    cases u with
    | cons lexeme u =>
      left
      simp only [Parser.token, List.cons_append]
      split
      · exact .read _ u _
      · exact .failed
    | nil =>
      have missed : Parser.token e accept ⟨v, stop⟩ = ⟨none, some ⟨v.length, [e]⟩⟩ := by
        cases v with
        | nil => rfl
        | cons lexeme others =>
          simp only [Parser.token]
          cases accepted : accept lexeme with
          | none => rfl
          | some a =>
            have := stays.outcome a ⟨others, lexeme.location.stop⟩ (by
              simp only [Parser.token, List.nil_append, accepted])
            exact absurd this (by simp)
      rw [List.nil_append, missed, List.nil_append]
      cases w with
      | nil => exact .inl .failed
      | cons lexeme others =>
        cases accepted : accept lexeme with
        | none =>
          left
          simp only [Parser.token, accepted]
          exact .failed
        | some a =>
          exact .inr ⟨e, ⟨_, rfl, rfl, by simp⟩, (known lexeme).mp ⟨a, accepted⟩⟩

theorem Faithful.symbol (s : Symbol) (viable : lang [.symbol s]) :
    Faithful n n' (symbol s) (symbol s) lang := by
  apply Faithful.token
  · intro lexeme
    constructor
    · rintro ⟨a, accepted⟩
      split at accepted
      · rename_i is
        exact congrArg some is
      · cases accepted
    · intro covers
      exact ⟨lexeme.location, by simp [Option.some.inj covers]⟩
  · exact ⟨_, rfl⟩
  · rintro t covers
    obtain rfl := Option.some.inj covers
    exact viable

/-- A symbol comes before what the rest of the parser reads. -/
theorem Faithful.afterSymbol {s : Symbol} {q q' : Parser β} {whole : List Token → Prop}
    (rest : Faithful n n' q q' lang) (some : ∃ ts, lang ts)
    (completes : ∀ ts, lang ts → whole (.symbol s :: ts)) :
    Faithful (n + 1) (n' + 1) (do let _ ← Parser.symbol s; q) (do let _ ← Parser.symbol s; q')
      whole := by
  obtain ⟨ts, sentence⟩ := some
  have first : Faithful (n + 1) (n' + 1) (Parser.symbol s) (Parser.symbol s) (· = [.symbol s]) :=
    .symbol s rfl
  refine first.bind (symbol_sound s) ?_ ?_
  · rintro _ rfl
    exact ⟨ts, completes ts sentence⟩
  · rintro _ _ rfl
    exact rest.mono fun ts sentence => ⟨[], by simpa using completes ts sentence⟩

end Words

section Brackets

variable {n n' : Nat} {lang whole : List Token → Prop}

theorem Faithful.between {opening closing : Symbol} {p p' : Parser α}
    (inner : Faithful n n' p p' lang) (sound : Sound p fun ts _ => lang ts) (some : ∃ ts, lang ts)
    (completes : ∀ ts, lang ts → whole (enclosed opening closing ts)) :
    Faithful (n + 1) (n' + 1) (between opening closing p) (between opening closing p') whole := by
  obtain ⟨ts, sentence⟩ := some
  -- What comes after the opening symbol: a sentence and the closing symbol.
  let closed (us : List Token) : Prop := ∃ ts, lang ts ∧ us = ts ++ [.symbol closing]
  have rest : Faithful n n' (p >>= fun a => Parser.symbol closing >>= fun _ => Pure.pure a)
      (p' >>= fun a => Parser.symbol closing >>= fun _ => Pure.pure a) closed := by
    refine inner.bind sound (fun ts sentence => ⟨_, ts, sentence, rfl⟩) fun us a sentence => ?_
    have last : Faithful (n - us.length) (n' - us.length) (Parser.symbol closing)
        (Parser.symbol closing) (· = [.symbol closing]) := .symbol closing rfl
    refine last.bind (symbol_sound closing) ?_ fun _ _ _ => .pure a
    rintro _ rfl
    exact ⟨[], us, sentence, by simp⟩
  refine rest.afterSymbol ⟨_, ts, sentence, rfl⟩ ?_
  rintro _ ⟨ts, sentence, rfl⟩
  exact completes ts sentence

/-- A failure stays one, with its report. -/
theorem spanning_failed {p : Parser (Location → α)} {cursor : Cursor} {miss : Option Miss}
    (ran : p cursor = ⟨none, miss⟩) : spanning p cursor = ⟨none, miss⟩ := by
  unfold Parser.spanning
  rw [ran]
  cases cursor.rest <;> rfl

theorem spanning_read {p : Parser (Location → α)} {first : Lexeme} {others : List Lexeme}
    {stop : Nat} {make : Location → α} {next : Cursor} {miss : Option Miss}
    (ran : p ⟨first :: others, stop⟩ = ⟨some (make, next), miss⟩) :
    spanning p ⟨first :: others, stop⟩ =
      ⟨some (make ⟨first.location.source, first.location.start, next.stop⟩, next), miss⟩ := by
  unfold Parser.spanning
  rw [ran]

/-- A parser that reads something finds a first token to begin the range with. -/
theorem Faithful.spanning {p p' : Parser (Location → α)} (faithful : Faithful n n' p p' lang)
    (sound : Sound p fun ts _ => ts ≠ []) :
    Faithful n n' (spanning p) (spanning p') lang := by
  have shorter {cursor next : Cursor} {make : Location → α} {miss : Option Miss}
      (ran : p cursor = ⟨some (make, next), miss⟩) : next.rest.length < cursor.rest.length := by
    obtain ⟨ts, split, nonempty⟩ := sound (congrArg Reply.outcome ran)
    have lengths := congrArg List.length split
    have := List.length_pos_iff.mpr nonempty
    simp only [Cursor.tokens, List.length_map, List.length_append] at lengths
    omega
  have miss (cursor : Cursor) : (Parser.spanning p cursor).miss = (p cursor).miss := by
    obtain ⟨rest, stop⟩ := cursor
    rcases ran : p ⟨rest, stop⟩ with ⟨_ | ⟨make, next⟩, miss⟩
    · rw [spanning_failed ran]
    · cases rest with
      | nil => exact absurd (shorter ran) (Nat.not_lt_zero _)
      | cons first others => rw [spanning_read ran]
  constructor
  case onward =>
    rintro ⟨rest, stop⟩ a next run
    rcases ran : p ⟨rest, stop⟩ with ⟨_ | ⟨make, after⟩, miss⟩
    · simp [spanning_failed ran] at run
    · have less := shorter ran
      cases rest with
      | nil => exact absurd less (Nat.not_lt_zero _)
      | cons first others =>
        rw [spanning_read ran] at run
        cases run
        exact Nat.le_of_lt less
  case reported =>
    rintro ⟨rest, stop⟩ short failed
    rw [miss]
    apply faithful.reported _ short
    rcases ran : p ⟨rest, stop⟩ with ⟨_ | ⟨make, after⟩, miss⟩
    · rfl
    · cases rest with
      | nil => exact absurd (shorter ran) (Nat.not_lt_zero _)
      | cons first others => simp [spanning_read ran] at failed
  case reports =>
    intro cursor short
    rw [miss]
    exact faithful.reports cursor short
  case coherent =>
    intro u v w stop short short' stays
    rw [miss]
    have alike := faithful.coherent u v w stop short short'
    rcases ran : p ⟨u ++ v, stop⟩ with ⟨_ | ⟨make, next⟩, missed⟩
    · rw [ran] at alike
      rcases alike ⟨fun m here => stays.miss m (by rw [miss, ran]; exact here),
        fun _ _ run => by cases run⟩ with agree | expects
      · left
        rcases ran' : p' ⟨u ++ w, stop⟩ with ⟨outcome', missed'⟩
        rw [ran'] at agree
        cases agree
        rw [spanning_failed ran, spanning_failed ran']
        exact .failed
      · exact .inr expects
    · have less := shorter ran
      rw [ran] at alike
      cases u with
      | nil =>
        cases v with
        | nil => exact absurd less (Nat.not_lt_zero _)
        | cons first others =>
          have read := spanning_read ran
          have := stays.outcome _ next (congrArg Reply.outcome read)
          exact absurd less (Nat.not_lt.mpr this)
      | cons first u =>
        simp only [List.cons_append] at ran stays ⊢
        have read := spanning_read ran
        have inside : Stays v.length (⟨some (make, next), missed⟩ : Reply (Location → α)) := by
          refine ⟨fun m here => stays.miss m (by rw [miss, ran]; exact here), fun a after run => ?_⟩
          cases run
          exact stays.outcome _ next (congrArg Reply.outcome read)
        rcases alike inside with agree | expects
        · left
          rcases ran' : p' ⟨first :: u ++ w, stop⟩ with ⟨outcome', missed'⟩
          rw [ran'] at agree
          rw [List.cons_append] at ran'
          rw [read]
          cases agree
          rw [spanning_read ran']
          exact .read ..
        · exact .inr expects

end Brackets

section Repetition

variable {n n' : Nat} {step step' : α → Parser α} {lang : List Token → Prop}
  {reads : List Token → α → Prop}

/-- With no text of the second kind there is nothing to compare. -/
theorem Faithful.alone {p p' q : Parser α} (faithful : Faithful n n' p p' lang) :
    Faithful n 0 p q lang where
  onward := faithful.onward
  reported := faithful.reported
  reports := faithful.reports
  coherent := fun _ _ _ _ _ short => absurd short (Nat.not_lt_zero _)

/-- Parsers that are alike on texts within the bounds. -/
theorem Faithful.congr {p p' q q' : Parser α} (faithful : Faithful n n' p p' lang)
    (onward : ∀ cursor a next, (q cursor).outcome = some (a, next) →
      next.rest.length ≤ cursor.rest.length)
    (same : ∀ cursor, cursor.rest.length < n → q cursor = p cursor)
    (same' : ∀ cursor, cursor.rest.length < n' → q' cursor = p' cursor) :
    Faithful n n' q q' lang where
  onward := onward
  reported := fun cursor short => by
    rw [same cursor short]
    exact faithful.reported cursor short
  reports := fun cursor short => by
    rw [same cursor short]
    exact faithful.reports cursor short
  coherent := fun u v w stop short short' => by
    rw [same _ short, same' _ short']
    exact faithful.coherent u v w stop short short'

/-- One more repetition, or none. -/
theorem extendUpTo_succ (fuel : Nat) (a : α) :
    extendUpTo step (fuel + 1) a = orElse (step a >>= extendUpTo step fuel) (pure a) := by
  funext cursor
  rw [orElse_eq, bind_eq]
  rcases ran : step a cursor with ⟨_ | ⟨b, next⟩, miss⟩
  · have merged : Miss.merge miss none = miss := by cases miss <;> rfl
    simp only [extendUpTo, ran]
    exact congrArg _ merged.symm
  · obtain ⟨final, run, -⟩ : ∃ final, (extendUpTo step fuel b next).outcome = some final ∧
        Reaches step (b, next) final := extendUpTo_outcome fuel b next
    simp only [extendUpTo, ran, run]

/-- Each repetition reads something, so any amount of fuel above the number of tokens will do. -/
theorem extendUpTo_eq (consumes : ∀ a, Sound (step a) fun ts _ => ts ≠ []) {fuel fuel' : Nat}
    (a : α) {cursor : Cursor} (enough : cursor.rest.length < fuel)
    (enough' : cursor.rest.length < fuel') :
    extendUpTo step fuel a cursor = extendUpTo step fuel' a cursor := by
  induction fuel generalizing fuel' a cursor with
  | zero => exact absurd enough (Nat.not_lt_zero _)
  | succ fuel ih =>
    cases fuel' with
    | zero => exact absurd enough' (Nat.not_lt_zero _)
    | succ fuel' =>
      unfold extendUpTo
      rcases ran : step a cursor with ⟨_ | ⟨b, next⟩, miss⟩
      · rfl
      · obtain ⟨ts, split, nonempty⟩ := consumes a (congrArg Reply.outcome ran)
        have lengths := congrArg List.length split
        have := List.length_pos_iff.mpr nonempty
        simp only [Cursor.tokens, List.length_map, List.length_append] at lengths
        have rest : extendUpTo step fuel b next = extendUpTo step fuel' b next :=
          ih b (by omega) (by omega)
        simp only [rest]

theorem Faithful.extendUpTo {fuel fuel' : Nat} {a : α} {before : List Token}
    (here : reads before a)
    (sound : ∀ ts b, reads ts b → Sound (step b) fun us c => us ≠ [] ∧ reads (ts ++ us) c)
    (each : ∀ ts b, reads ts b → Faithful (n - ts.length) (n' - ts.length) (step b) (step' b)
      fun us => lang (ts ++ us))
    (enough : n - before.length ≤ fuel) (enough' : n' - before.length ≤ fuel') :
    Faithful (n - before.length) (n' - before.length) (extendUpTo step fuel a)
      (extendUpTo step' fuel' a) fun us => lang (before ++ us) := by
  induction fuel generalizing fuel' a before with
  | zero =>
    rw [Nat.le_zero.mp enough]
    refine ⟨?_, fun _ short => absurd short (Nat.not_lt_zero _),
      fun _ short => absurd short (Nat.not_lt_zero _),
      fun _ _ _ _ short => absurd short (Nat.not_lt_zero _)⟩
    intro cursor b next run
    cases run
    exact Nat.le_refl _
  | succ fuel ih =>
    -- One repetition, and then fewer; the second parser may be granted more fuel than it has.
    have once (more : Nat) (enough' : n' - before.length ≤ more + 1) :
        Faithful (n - before.length) (n' - before.length) (Parser.extendUpTo step (fuel + 1) a)
          (Parser.extendUpTo step' (more + 1) a) fun us => lang (before ++ us) := by
      rw [extendUpTo_succ, extendUpTo_succ]
      refine Faithful.orElse (.bind (each before a here) (sound before a here)
        (fun ts sentence => ⟨[], by simpa using sentence⟩) ?_) (.pure a)
      rintro ts b ⟨nonempty, next⟩
      have := List.length_pos_iff.mpr nonempty
      have granted : n' - (before ++ ts).length ≤ more := by
        rw [List.length_append]
        omega
      have later := ih next (by rw [List.length_append]; omega) granted
      simp only [List.length_append, ← Nat.sub_sub, List.append_assoc] at later
      exact later
    cases fuel' with
    | zero =>
      have none := Nat.le_zero.mp enough'
      have granted := once 0 (by omega)
      rw [none] at granted ⊢
      exact granted.alone
    | succ fuel' => exact once fuel' enough'

/-- Repetition, with what holds of each state that it can come to. -/
theorem Faithful.extend (reads : List Token → α → Prop) {a : α} (here : reads [] a)
    (sound : ∀ ts b, reads ts b → Sound (step b) fun us c => us ≠ [] ∧ reads (ts ++ us) c)
    (consumes : ∀ b, Sound (step b) fun ts _ => ts ≠ [])
    (consumes' : ∀ b, Sound (step' b) fun ts _ => ts ≠ [])
    (each : ∀ ts b, reads ts b → Faithful (n - ts.length) (n' - ts.length) (step b) (step' b)
      fun us => lang (ts ++ us)) :
    Faithful n n' (extend step a) (extend step' a) lang := by
  have whole : Faithful n n' (Parser.extendUpTo step n a) (Parser.extendUpTo step' n' a) lang :=
    Faithful.extendUpTo here sound each (Nat.le_refl _) (Nat.le_refl _)
  apply whole.congr
  · intro cursor b next run
    obtain ⟨final, ran, reached⟩ : ∃ final, (Parser.extend step a cursor).outcome = some final ∧
      Reaches step (a, cursor) final := extendUpTo_outcome _ a cursor
    obtain rfl : (b, next) = final := Option.some.inj (run.symm.trans ran)
    clear run ran
    suffices ∀ state, Reaches step (a, cursor) state → state.2.rest.length ≤ cursor.rest.length from
      this _ reached
    intro state path
    induction path with
    | refl => exact Nat.le_refl _
    | tail _ one ih =>
      obtain ⟨ts, split, -⟩ := consumes _ one
      have lengths := congrArg List.length split
      simp only [Cursor.tokens, List.length_map, List.length_append] at lengths
      omega
  · exact fun cursor short => extendUpTo_eq consumes a (by omega) short
  · exact fun cursor short => extendUpTo_eq consumes' a (by omega) short

/-- As many results as there are, in a language that any number of them belongs to. -/
theorem Faithful.many {p p' : Parser α} {item : List Token → Prop}
    (faithful : Faithful n n' p p' item)
    (sound : Sound p fun ts _ => item ts ∧ ts ≠ []) (consumes : Sound p' fun ts _ => ts ≠ [])
    (completes : ∀ pieces : List (List Token), (∀ piece ∈ pieces, item piece) →
      ∃ us, lang (pieces.flatten ++ us)) :
    Faithful n n' (many p) (many p') lang := by
  have grows {q : Parser α} {holds : List Token → Prop} (sound : Sound q fun ts _ => holds ts)
      (done : List α) : Sound ((· :: done) <$> q) fun ts _ => holds ts :=
    sound.map
  let reads (ts : List Token) (_ : List α) : Prop :=
    ∃ pieces : List (List Token), ts = pieces.flatten ∧ ∀ piece ∈ pieces, item piece
  have longer {pieces : List (List Token)} {last : List Token}
      (all : ∀ piece ∈ pieces, item piece) (one : item last) :
      ∀ piece ∈ pieces ++ [last], item piece := by
    intro piece mem
    rcases List.mem_append.mp mem with mem | mem
    · exact all piece mem
    · rwa [List.mem_singleton.mp mem]
  have loop : Faithful n n' (Parser.extend (fun done => (· :: done) <$> p) [])
      (Parser.extend (fun done => (· :: done) <$> p') []) lang := by
    refine .extend reads ⟨[], rfl, by simp⟩ ?_
      (fun done => grows (sound.mono fun _ _ is => is.2) done) (fun done => grows consumes done) ?_
    · rintro _ done ⟨pieces, rfl, all⟩
      refine (grows sound done).mono fun us _ ⟨one, nonempty⟩ => ⟨nonempty, pieces ++ [us], ?_, ?_⟩
      · simp
      · exact longer all one
    · rintro _ done ⟨pieces, rfl, all⟩
      refine ((faithful.map (sound.mono fun _ _ _ => trivial)).lessen (Nat.sub_le ..)
        (Nat.sub_le ..)).mono fun ts one => ?_
      obtain ⟨us, whole⟩ := completes (pieces ++ [ts]) (longer all one)
      exact ⟨us, by simpa using whole⟩
  have read : Sound (Parser.extend (fun done => (· :: done) <$> p) []) fun _ _ => True :=
    extend_sound (fun _ _ => True) trivial fun _ _ _ => (grows sound _).mono fun _ _ _ => trivial
  exact loop.bind read (fun ts sentence => ⟨[], by simpa using sentence⟩) fun _ _ _ => .pure _

end Repetition

section Separated

variable {n n' : Nat} {item item' : Parser α} {lang : List Token → Prop} {separator : Symbol}

/-- Items of a language with separators between them, and perhaps one after the last. -/
def Row (separator : Symbol) (lang : List Token → Prop) (ts : List Token) : Prop :=
  ∃ uses trailing, ts = spread separator trailing uses ∧ uses ≠ [] ∧ ∀ use ∈ uses, lang use

/-- What was read of a row: the first item, and others after a separator each. -/
private theorem row_of_parts {first : List Token} {others : List (List Token)} (trailing : Bool)
    (one : lang first) (all : ∀ other ∈ others, lang other) :
    Row separator lang (first ++ ((others.map (.symbol separator :: ·)).flatten ++
      if trailing then [.symbol separator] else [])) :=
  ⟨first :: others, trailing, (spread_cons ..).symm, by simp, List.forall_mem_cons.mpr ⟨one, all⟩⟩

theorem Row.of_sound {reads : List Token → α → Prop} {ts : List Token} {as : List α}
    (imp : ∀ us a, reads us a → lang us) (row : ∃ uses trailing,
      ts = spread separator trailing uses ∧ uses ≠ [] ∧ List.Forall₂ reads uses as) :
    Row separator lang ts := by
  obtain ⟨uses, trailing, rfl, nonempty, each⟩ := row
  refine ⟨uses, trailing, rfl, nonempty, fun use mem => ?_⟩
  clear nonempty
  induction each with
  | nil => cases mem
  | cons one _ ih =>
    rcases List.mem_cons.mp mem with rfl | mem
    · exact imp _ _ one
    · exact ih mem

theorem Faithful.oneMore (faithful : Faithful n n' item item' lang)
    (sound : Sound item fun ts _ => lang ts) (some : ∃ ts, lang ts) {whole : List Token → Prop}
    (completes : ∀ ts, lang ts → whole (.symbol separator :: ts)) (done : List α) :
    Faithful n n' (oneMore item separator done) (oneMore item' separator done) whole := by
  have last : Faithful n n' (item >>= fun next => Pure.pure (next :: done))
      (item' >>= fun next => Pure.pure (next :: done)) lang :=
    faithful.bind sound (fun ts sentence => ⟨[], by simpa using sentence⟩) fun _ _ _ => .pure _
  have after : Faithful (n + 1) (n' + 1) (Parser.oneMore item separator done)
      (Parser.oneMore item' separator done) whole := last.afterSymbol some completes
  exact after.lessen (Nat.le_succ n) (Nat.le_succ n')

theorem Faithful.separated1 (faithful : Faithful n n' item item' lang)
    (sound : Sound item fun ts _ => lang ts) (sound' : Sound item' fun _ _ => True)
    (some : ∃ ts, lang ts) :
    Faithful n n' (separated1 item (Parser.symbol separator))
      (separated1 item' (Parser.symbol separator))
      (Row separator lang) := by
  refine faithful.bind sound (fun ts one => ⟨[], [ts], false, by simp [spread], by simp,
    by simpa using one⟩) ?_
  intro first a one
  rw [itemsAfter_eq, itemsAfter_eq]
  -- A state of the repetition: further items, each after a separator.
  let reads (ts : List Token) (_ : List α) : Prop := ∃ others : List (List Token),
    ts = (others.map (.symbol separator :: ·)).flatten ∧ ∀ other ∈ others, lang other
  have step (done : List α) : Sound (Parser.oneMore item separator done) fun us _ =>
      ∃ ts, us = .symbol separator :: ts ∧ lang ts :=
    (oneMore_sound sound done).mono (by
      rintro us _ ⟨_, _, ts, is, sentence⟩
      exact ⟨ts, is, sentence⟩)
  have grows (ts : List Token) (done : List α) (here : reads ts done) :
      Sound (Parser.oneMore item separator done) fun us all => us ≠ [] ∧ reads (ts ++ us) all := by
    obtain ⟨others, rfl, all⟩ := here
    refine (step done).mono ?_
    rintro us _ ⟨next, rfl, sentence⟩
    refine ⟨by simp, others ++ [next], by simp, fun other mem => ?_⟩
    rcases List.mem_append.mp mem with mem | mem
    · exact all other mem
    · rwa [List.mem_singleton.mp mem]
  have loop : Faithful (n - first.length) (n' - first.length)
      (Parser.extend (Parser.oneMore item separator) [a])
      (Parser.extend (Parser.oneMore item' separator) [a])
      fun us => Row separator lang (first ++ us) := by
    refine .extend reads ⟨[], rfl, by simp⟩ grows (fun done => (step done).mono ?_)
      (fun done => (oneMore_sound sound' done).mono ?_) ?_
    · rintro _ _ ⟨_, rfl, _⟩
      simp
    · rintro _ _ ⟨_, _, _, rfl, _⟩
      simp
    · rintro _ done ⟨others, rfl, all⟩
      refine ((faithful.oneMore sound some (fun ts sentence => ?_) done).lessen ?_ ?_)
      · have row : Row separator lang (first ++
            (((others ++ [ts]).map (.symbol separator :: ·)).flatten ++ [])) := by
          apply row_of_parts false one
          intro other mem
          rcases List.mem_append.mp mem with mem | mem
          · exact all other mem
          · rwa [List.mem_singleton.mp mem]
        simpa using row
      · exact Nat.le_trans (Nat.sub_le ..) (Nat.sub_le ..)
      · exact Nat.le_trans (Nat.sub_le ..) (Nat.sub_le ..)
  refine loop.bind (extend_sound reads ⟨[], rfl, by simp⟩ fun ts done here =>
    (grows ts done here).mono fun _ _ both => both.2)
    (fun ts sentence => ⟨[], by simpa using sentence⟩) ?_
  rintro _ done ⟨others, rfl, all⟩
  have trailing : Row separator lang (first ++
      ((others.map (.symbol separator :: ·)).flatten ++ [.symbol separator])) :=
    row_of_parts true one all
  have read : Sound (Parser.symbol separator) fun _ _ => True :=
    (symbol_sound separator).mono fun _ _ _ => trivial
  have either : Sound (Parser.optional (Parser.symbol separator)) fun _ _ => True :=
    Sound.optional read trivial
  exact (Faithful.optional (.symbol separator trailing) read).bind either
    (fun ts sentence => ⟨[], by simpa using sentence⟩) fun _ _ _ => .pure _

theorem Faithful.separated (faithful : Faithful n n' item item' lang)
    (sound : Sound item fun ts _ => lang ts) (sound' : Sound item' fun _ _ => True)
    (some : ∃ ts, lang ts) {whole : List Token → Prop}
    (row : ∀ ts, Row separator lang ts → whole ts) :
    Faithful n n' (separated item (Parser.symbol separator)) (separated item' (Parser.symbol separator))
      whole :=
  .orElse ((faithful.separated1 sound sound' some).mono
    fun ts sentence => ⟨[], by simpa using row ts sentence⟩) (.pure [])

end Separated

section Greedy

variable {n : Nat} {p q : Parser α} {f : α → Parser β} {reads : List Token → α → Prop}

/-- Where the parser stops after a success, something else could have been read. -/
def Greedy (n : Nat) (p : Parser α) : Prop :=
  ∀ cursor a next, cursor.rest.length < n → (p cursor).outcome = some (a, next) →
    ∃ m, (p cursor).miss = some m ∧ m.remaining ≤ next.rest.length

theorem Greedy.lessen {k : Nat} (greedy : Greedy n p) (le : k ≤ n) : Greedy k p :=
  fun cursor a next short => greedy cursor a next (by omega)

theorem Greedy.bind (sound : Sound p reads)
    (second : ∀ ts a, reads ts a → Greedy (n - ts.length) (f a)) : Greedy n (p >>= f) := by
  intro cursor b last short run
  rw [bind_eq] at run ⊢
  rcases ran : p cursor with ⟨_ | ⟨a, next⟩, miss⟩
  · simp [ran] at run
  · simp only [ran] at run ⊢
    obtain ⟨ts, split, holds⟩ := sound (congrArg Reply.outcome ran)
    have lengths := congrArg List.length split
    simp only [Cursor.tokens, List.length_map, List.length_append] at lengths
    obtain ⟨m, here, le⟩ := second ts a holds next b last (by omega) run
    obtain ⟨further, merged, le'⟩ := Miss.exists_merge miss _ (.inr here)
    exact ⟨further, merged, Nat.le_trans le' le⟩

theorem Greedy.map {g : α → β} (greedy : Greedy n p) : Greedy n (g <$> p) := by
  intro cursor b last short run
  have eq : (g <$> p) cursor = (p >>= fun a => Pure.pure (g a)) cursor := rfl
  rw [eq, bind_eq] at run ⊢
  rcases ran : p cursor with ⟨_ | ⟨a, next⟩, miss⟩
  · simp [ran] at run
  · simp only [ran] at run ⊢
    obtain ⟨m, here, le⟩ := greedy cursor a next short (by rw [ran])
    obtain ⟨further, merged, le'⟩ := Miss.exists_merge miss _ (.inl (by rw [ran] at here; exact here))
    cases run
    exact ⟨further, merged, Nat.le_trans le' le⟩

theorem Greedy.orElse (first : Greedy n p) (second : Greedy n q) : Greedy n (orElse p q) := by
  intro cursor a next short run
  rw [orElse_eq] at run ⊢
  rcases ran : p cursor with ⟨_ | result, miss⟩
  · simp only [ran] at run ⊢
    obtain ⟨m, here, le⟩ := second cursor a next short run
    obtain ⟨further, merged, le'⟩ := Miss.exists_merge miss _ (.inr here)
    exact ⟨further, merged, Nat.le_trans le' le⟩
  · have here := first cursor a next short
    rw [ran] at here
    simp only [ran] at run ⊢
    exact here run

/-- Nothing is read where reading was tried. -/
theorem Greedy.optional {n' : Nat} {p' : Parser α} {lang : List Token → Prop} (greedy : Greedy n p)
    (faithful : Faithful n n' p p' lang) : Greedy n (optional p) := by
  intro cursor a next short run
  rw [Parser.optional, orElse_eq] at run ⊢
  rcases ran : p cursor with ⟨_ | ⟨b, after⟩, miss⟩
  · have mapped : (some <$> p) cursor = ⟨none, miss⟩ := by
      show (p >>= _) cursor = _
      rw [bind_eq, ran]
    rw [mapped] at run ⊢
    cases run
    obtain ⟨m, here⟩ := faithful.reported cursor short (by rw [ran])
    have le := (faithful.reports cursor short).le here
    rw [ran] at here
    obtain ⟨further, merged, le'⟩ := Miss.exists_merge miss none (.inl here)
    rw [Cursor.tokens, List.length_map] at le
    exact ⟨further, merged, Nat.le_trans le' le⟩
  · have here := (greedy.map (g := some)) cursor a next short
    have mapped : (some <$> p) cursor = ⟨some (some b, after), Miss.merge miss none⟩ := by
      show (p >>= _) cursor = _
      rw [bind_eq, ran]
      rfl
    rw [mapped] at run here ⊢
    exact here run

theorem Greedy.spanning {p : Parser (Location → α)} (greedy : Greedy n p) :
    Greedy n (spanning p) := by
  rintro ⟨rest, stop⟩ a next short run
  rcases ran : p ⟨rest, stop⟩ with ⟨_ | ⟨make, after⟩, miss⟩
  · simp [spanning_failed ran] at run
  · cases rest with
    | nil => simp [Parser.spanning] at run
    | cons first others =>
      have here := greedy _ make after short (by rw [ran])
      rw [spanning_read ran] at run ⊢
      rw [ran] at here
      cases run
      exact here

theorem Greedy.labelled {label : Expected} (greedy : Greedy n p) : Greedy n (labelled label p) := by
  intro cursor a next short run
  obtain ⟨m, here, le⟩ := greedy cursor a next short run
  refine ⟨_, by rw [Parser.labelled, here]; rfl, ?_⟩
  dsimp only
  split <;> exact le

end Greedy

end Parser

end ShapeLang
