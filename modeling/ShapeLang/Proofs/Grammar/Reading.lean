import Mathlib.Data.List.Forall2
import Mathlib.Logic.Relation
import ShapeLang.Parser
import ShapeLang.Proofs.Grammar.Derivation

/-! # What the combinators read

Three ways to speak about a parser. `Sound p reads`: whatever `p` reads, `reads` holds of the tokens
and the result. `Accepts p used rest holds`: where `used` is followed by `rest`, `p` reads exactly
`used`. `Refuses p rest`: where `rest` comes next, `p` reads nothing. The reports of failures play
no part here.

A repetition is described by `Reaches`, the states that it can step through. Soundness follows these
steps from the start; acceptance follows them to a state at which the step refuses.
-/

namespace ShapeLang

/-- The tokens that are left. -/
def Cursor.tokens (cursor : Cursor) : List Token := cursor.rest.map (·.token)

namespace Parser

open Grammar

variable {α β : Type} {p q : Parser α} {f : α → Parser β} {used rest : List Token}

/-- Every result of the parser is one that the tokens it read can have. -/
def Sound (p : Parser α) (reads : List Token → α → Prop) : Prop :=
  ∀ ⦃cursor a next⦄, (p cursor).outcome = some (a, next) →
    ∃ used, cursor.tokens = used ++ next.tokens ∧ reads used a

/-- Before the given rest, the parser reads exactly the given tokens. -/
def Accepts (p : Parser α) (used rest : List Token) (holds : α → Prop) : Prop :=
  ∀ ⦃cursor : Cursor⦄, cursor.tokens = used ++ rest →
    ∃ a next, (p cursor).outcome = some (a, next) ∧ next.tokens = rest ∧ holds a

/-- The parser fails on the given tokens. -/
def Refuses (p : Parser α) (tokens : List Token) : Prop :=
  ∀ ⦃cursor : Cursor⦄, cursor.tokens = tokens → (p cursor).outcome = none

theorem Sound.mono {reads more : List Token → α → Prop} (sound : Sound p reads)
    (imp : ∀ used a, reads used a → more used a) : Sound p more := by
  intro cursor a next run
  obtain ⟨used, split, holds⟩ := sound run
  exact ⟨used, split, imp used a holds⟩

/-- A parser refuses what no result of it can begin. -/
theorem Sound.refuses {reads : List Token → α → Prop} (sound : Sound p reads)
    (impossible : ∀ ts a more, reads ts a → ts ++ more ≠ rest) : Refuses p rest := by
  intro cursor tokens
  cases run : (p cursor).outcome with
  | none => rfl
  | some result =>
    obtain ⟨ts, split, holds⟩ := sound run
    exact absurd (split.symm.trans tokens) (impossible ts _ _ holds)

theorem Accepts.mono {holds more : α → Prop} (accepts : Accepts p used rest holds)
    (imp : ∀ a, holds a → more a) : Accepts p used rest more := by
  intro cursor split
  obtain ⟨a, next, run, left, true⟩ := accepts split
  exact ⟨a, next, run, left, imp a true⟩

section Sequence

theorem bind_outcome (cursor : Cursor) :
    ((p >>= f) cursor).outcome = (p cursor).outcome.bind fun r => (f r.1 r.2).outcome := by
  simp only [Bind.bind]
  rcases p cursor with ⟨_ | ⟨a, next⟩, miss⟩ <;> rfl

theorem pure_sound {a : α} {reads : List Token → α → Prop} (here : reads [] a) :
    Sound (pure a) reads := by
  intro cursor b next run
  cases run
  exact ⟨[], rfl, here⟩

theorem pure_accepts {a : α} {holds : α → Prop} (here : holds a) :
    Accepts (pure a) [] rest holds := by
  intro cursor tokens
  exact ⟨a, cursor, rfl, tokens, here⟩

/-- What the first parser reads comes in front of what the second one reads. -/
theorem Sound.bind {reads : List Token → α → Prop} {more : List Token → β → Prop}
    (first : Sound p reads)
    (second : ∀ ts a, reads ts a → Sound (f a) fun us b => more (ts ++ us) b) :
    Sound (p >>= f) more := by
  intro cursor b final run
  rw [bind_outcome, Option.bind_eq_some_iff] at run
  obtain ⟨⟨a, next⟩, ran, runs⟩ := run
  obtain ⟨ts, split, holds⟩ := first ran
  obtain ⟨us, splits, result⟩ := second ts a holds runs
  exact ⟨ts ++ us, by rw [split, splits, List.append_assoc], result⟩

theorem Accepts.bind {ts us : List Token} {holds : α → Prop} {true : β → Prop}
    (first : Accepts p ts (us ++ rest) holds) (second : ∀ a, holds a → Accepts (f a) us rest true) :
    Accepts (p >>= f) (ts ++ us) rest true := by
  intro cursor tokens
  obtain ⟨a, next, ran, left, is⟩ := first (tokens.trans (List.append_assoc ..))
  obtain ⟨b, final, runs, ends, result⟩ := second a is left
  exact ⟨b, final, by rw [bind_outcome, ran]; exact runs, ends, result⟩

/-- The first parser may read one word. -/
theorem Accepts.bind_one {word : Token} {us : List Token} {holds : α → Prop} {true : β → Prop}
    (first : Accepts p [word] (us ++ rest) holds)
    (second : ∀ a, holds a → Accepts (f a) us rest true) :
    Accepts (p >>= f) (word :: us) rest true :=
  Accepts.bind first second

/-- The second parser may read nothing. -/
theorem Accepts.bind_nil {holds : α → Prop} {true : β → Prop} (first : Accepts p used rest holds)
    (second : ∀ a, holds a → Accepts (f a) [] rest true) : Accepts (p >>= f) used rest true := by
  rw [← List.append_nil used]
  exact Accepts.bind (by simpa using first) second

/-- A sequence of parsers refuses where the second one does, whatever the first one reads. -/
theorem Sound.bind_refuses {reads : List Token → α → Prop} (sound : Sound p reads)
    (second : ∀ ts a more, reads ts a → ts ++ more = rest → Refuses (f a) more) :
    Refuses (p >>= f) rest := by
  intro cursor tokens
  rw [bind_outcome]
  cases run : (p cursor).outcome with
  | none => rfl
  | some result =>
    obtain ⟨ts, split, holds⟩ := sound run
    exact second ts result.1 _ holds (split.symm.trans tokens) rfl

theorem Refuses.bind (refuses : Refuses p rest) : Refuses (p >>= f) rest := by
  intro cursor tokens
  rw [bind_outcome, refuses tokens, Option.bind_none]

theorem Sound.map {reads : List Token → β → Prop} {g : α → β}
    (sound : Sound p fun used a => reads used (g a)) : Sound (g <$> p) reads := by
  apply sound.bind
  intro ts a holds
  apply pure_sound
  simpa using holds

theorem Accepts.map {g : α → β} {holds : β → Prop}
    (accepts : Accepts p used rest fun a => holds (g a)) : Accepts (g <$> p) used rest holds := by
  exact accepts.bind_nil fun a is => pure_accepts is

theorem Refuses.map {g : α → β} (refuses : Refuses p rest) : Refuses (g <$> p) rest :=
  refuses.bind

end Sequence

section Alternatives

theorem orElse_outcome (cursor : Cursor) :
    (orElse p q cursor).outcome = (p cursor).outcome.or (q cursor).outcome := by
  unfold orElse
  rcases p cursor with ⟨_ | result, miss⟩ <;> rfl

theorem choice_cons (ps : List (Parser α)) (cursor : Cursor) :
    (choice (p :: ps) cursor).outcome = (p cursor).outcome.or (choice ps cursor).outcome := by
  cases ps with
  | nil => simp [choice]
  | cons => exact orElse_outcome cursor

theorem Sound.orElse {reads : List Token → α → Prop} (first : Sound p reads)
    (second : Sound q reads) : Sound (orElse p q) reads := by
  intro cursor a next run
  rw [orElse_outcome, Option.or_eq_some_iff] at run
  rcases run with run | ⟨-, run⟩
  · exact first run
  · exact second run

theorem choice_sound {reads : List Token → α → Prop} {ps : List (Parser α)}
    (all : ∀ p ∈ ps, Sound p reads) : Sound (choice ps) reads := by
  induction ps with
  | nil => exact fun _ _ _ run => nomatch run
  | cons p ps ih =>
    intro cursor a next run
    rw [choice_cons, Option.or_eq_some_iff] at run
    rcases run with run | ⟨-, run⟩
    · exact all p List.mem_cons_self run
    · exact ih (fun q mem => all q (List.mem_cons_of_mem p mem)) run

theorem Accepts.orElse {holds : α → Prop} (first : Accepts p used rest holds) :
    Accepts (orElse p q) used rest holds := by
  intro cursor tokens
  obtain ⟨a, next, run, left, is⟩ := first tokens
  exact ⟨a, next, by rw [orElse_outcome, run]; rfl, left, is⟩

theorem Refuses.orElse {holds : α → Prop} (first : Refuses p (used ++ rest))
    (second : Accepts q used rest holds) : Accepts (orElse p q) used rest holds := by
  intro cursor tokens
  obtain ⟨a, next, run, left, is⟩ := second tokens
  exact ⟨a, next, by rw [orElse_outcome, first tokens]; exact run, left, is⟩

theorem Accepts.choice {ps : List (Parser α)} {holds : α → Prop}
    (first : Accepts p used rest holds) : Accepts (choice (p :: ps)) used rest holds := by
  intro cursor tokens
  obtain ⟨a, next, run, left, is⟩ := first tokens
  exact ⟨a, next, by rw [choice_cons, run]; rfl, left, is⟩

theorem Refuses.choice {ps : List (Parser α)} {holds : α → Prop} (first : Refuses p (used ++ rest))
    (others : Accepts (choice ps) used rest holds) :
    Accepts (choice (p :: ps)) used rest holds := by
  intro cursor tokens
  obtain ⟨a, next, run, left, is⟩ := others tokens
  exact ⟨a, next, by rw [choice_cons, first tokens]; exact run, left, is⟩

theorem choice_refuses {ps : List (Parser α)} (all : ∀ p ∈ ps, Refuses p rest) :
    Refuses (Parser.choice ps) rest := by
  induction ps with
  | nil => exact fun _ _ => rfl
  | cons p ps ih =>
    intro cursor tokens
    rw [choice_cons, all p List.mem_cons_self tokens,
      ih (fun q mem => all q (List.mem_cons_of_mem p mem)) tokens, Option.or_none]

theorem Accepts.labelled {holds : α → Prop} {label : Expected}
    (accepts : Accepts p used rest holds) : Accepts (Parser.labelled label p) used rest holds :=
  fun _ tokens => accepts tokens

theorem Sound.optional {reads : List Token → Option α → Prop}
    (sound : Sound p fun used a => reads used (some a)) (none : reads [] none) :
    Sound (optional p) reads :=
  sound.map.orElse (pure_sound none)

theorem Accepts.optional {holds : Option α → Prop}
    (accepts : Accepts p used rest fun a => holds (some a)) :
    Accepts (Parser.optional p) used rest holds :=
  accepts.map.orElse

theorem Refuses.optional {holds : Option α → Prop} (refuses : Refuses p rest)
    (none : holds none) : Accepts (Parser.optional p) [] rest holds :=
  refuses.map.orElse (pure_accepts none)

end Alternatives

section Words

variable {accept : Lexeme → Option α} {expected : Expected}

theorem token_sound {reads : List Token → α → Prop}
    (reading : ∀ lexeme a, accept lexeme = some a → reads [lexeme.token] a) :
    Sound (token expected accept) reads := by
  rintro ⟨lexemes, stop⟩ a next run
  cases lexemes with
  | nil => cases run
  | cons lexeme others =>
    simp only [token] at run
    cases accepted : accept lexeme with
    | none => simp [accepted] at run
    | some b =>
      simp only [accepted, Option.some.injEq, Prod.mk.injEq] at run
      obtain ⟨rfl, rfl⟩ := run
      exact ⟨[lexeme.token], rfl, reading lexeme b accepted⟩

theorem token_accepts {word : Token} {holds : α → Prop}
    (reading : ∀ lexeme : Lexeme, lexeme.token = word → ∃ a, accept lexeme = some a ∧ holds a) :
    Accepts (token expected accept) [word] rest holds := by
  rintro ⟨lexemes, stop⟩ tokens
  cases lexemes with
  | nil => simp [Cursor.tokens] at tokens
  | cons lexeme others =>
    obtain ⟨is, left⟩ := List.cons.inj (tokens : lexeme.token :: others.map (·.token) = word :: rest)
    obtain ⟨a, accepted, result⟩ := reading lexeme is
    exact ⟨a, ⟨others, lexeme.location.stop⟩, by simp [token, accepted], left, result⟩

theorem token_refuses {word : Token}
    (reading : ∀ lexeme : Lexeme, lexeme.token = word → accept lexeme = none) :
    Refuses (token expected accept) (word :: rest) := by
  rintro ⟨lexemes, stop⟩ tokens
  cases lexemes with
  | nil => rfl
  | cons lexeme others =>
    obtain ⟨is, -⟩ := List.cons.inj (tokens : lexeme.token :: others.map (·.token) = word :: rest)
    simp [token, reading lexeme is]

theorem symbol_sound (s : Symbol) : Sound (symbol s) fun used _ => used = [.symbol s] := by
  apply token_sound
  intro lexeme location accepted
  split at accepted
  case isTrue is => rw [is]
  case isFalse => cases accepted

theorem symbol_accepts (s : Symbol) : Accepts (symbol s) [.symbol s] rest fun _ => True := by
  apply token_accepts
  intro lexeme is
  exact ⟨lexeme.location, by simp [is], trivial⟩

/-- A symbol is refused where another token comes next. -/
theorem symbol_refuses {s : Symbol} (other : rest.head? ≠ some (.symbol s)) :
    Refuses (symbol s) rest := by
  apply (symbol_sound s).refuses
  rintro _ _ more rfl rfl
  exact other rfl

theorem Accepts.after_symbol {s : Symbol} {q : Parser β} {holds : β → Prop}
    (accepts : Accepts q used rest holds) :
    Accepts (do let _ ← symbol s; q) (.symbol s :: used) rest holds := by
  apply (symbol_accepts s).bind_one
  intro _ _
  exact accepts

end Words

section Brackets

variable {opening closing : Symbol}

theorem Sound.between {reads : List Token → α → Prop}
    (sound : Sound p fun used a => reads (enclosed opening closing used) a) :
    Sound (between opening closing p) reads := by
  apply (symbol_sound opening).bind
  rintro _ _ rfl
  apply sound.bind
  intro ts a holds
  apply (symbol_sound closing).bind
  rintro _ _ rfl
  apply pure_sound
  simpa [enclosed] using holds

theorem Accepts.between {holds : α → Prop} (accepts : Accepts p used (.symbol closing :: rest) holds) :
    Accepts (Parser.between opening closing p) (enclosed opening closing used) rest holds := by
  apply Accepts.after_symbol
  apply Accepts.bind (by simpa using accepts)
  intro a is
  apply Accepts.after_symbol
  exact pure_accepts is

theorem between_refuses (other : rest.head? ≠ some (.symbol opening)) :
    Refuses (between opening closing p) rest :=
  (symbol_refuses other).bind

theorem Sound.spanning {reads : List Token → α → Prop} {p : Parser (Location → α)}
    (sound : Sound p fun used make => ∀ location, reads used (make location)) :
    Sound (spanning p) reads := by
  rintro ⟨lexemes, stop⟩ a next run
  unfold Parser.spanning at run
  rcases ran : p ⟨lexemes, stop⟩ with ⟨_ | ⟨make, after⟩, miss⟩
  · cases lexemes <;> simp [ran] at run
  · cases lexemes with
    | nil => simp at run
    | cons first others =>
      simp only [ran, Option.some.injEq, Prod.mk.injEq] at run
      obtain ⟨rfl, rfl⟩ := run
      obtain ⟨used, split, holds⟩ := sound (congrArg Reply.outcome ran)
      exact ⟨used, split, holds _⟩

theorem Accepts.spanning {p : Parser (Location → α)} {holds : α → Prop}
    (accepts : Accepts p used rest fun make => ∀ location, holds (make location))
    (nonempty : used ≠ []) : Accepts (Parser.spanning p) used rest holds := by
  rintro ⟨lexemes, stop⟩ tokens
  obtain ⟨make, next, ran, left, is⟩ := accepts tokens
  cases lexemes with
  | nil => exact absurd tokens.symm (by simp [Cursor.tokens, nonempty])
  | cons first others =>
    refine ⟨make ⟨first.location.source, first.location.start, next.stop⟩, next, ?_, left, is _⟩
    unfold Parser.spanning
    rcases reply : p ⟨first :: others, stop⟩ with ⟨outcome, miss⟩
    obtain rfl : outcome = some (make, next) := by rw [← ran, reply]
    rfl

theorem Refuses.spanning {p : Parser (Location → α)} (refuses : Refuses p rest) :
    Refuses (Parser.spanning p) rest := by
  intro cursor tokens
  have none := refuses tokens
  unfold Parser.spanning
  rcases reply : p cursor with ⟨outcome, miss⟩
  obtain rfl : outcome = Option.none := by rw [← none, reply]
  cases cursor.rest <;> rfl

end Brackets

section Repetition

variable {step : α → Parser α}

/-- One repetition of the step leads from the first state to the second. -/
def Steps (step : α → Parser α) (before after : α × Cursor) : Prop :=
  (step before.1 before.2).outcome = some after

/-- Some number of repetitions leads from the first state to the second. -/
def Reaches (step : α → Parser α) : α × Cursor → α × Cursor → Prop :=
  Relation.ReflTransGen (Steps step)

theorem extendUpTo_outcome (fuel : Nat) (a : α) (cursor : Cursor) :
    ∃ final, (extendUpTo step fuel a cursor).outcome = some final ∧
      Reaches step (a, cursor) final := by
  induction fuel generalizing a cursor with
  | zero => exact ⟨_, rfl, .refl⟩
  | succ fuel ih =>
    unfold extendUpTo
    rcases ran : step a cursor with ⟨_ | ⟨b, next⟩, miss⟩
    · exact ⟨_, rfl, .refl⟩
    · obtain ⟨final, run, reached⟩ := ih b next
      exact ⟨final, run, .head (congrArg Reply.outcome ran) reached⟩

/-- What a step preserves holds at the end of the repetition. -/
theorem extend_sound {a : α} (reads : List Token → α → Prop) (start : reads [] a)
    (sound : ∀ ts b, reads ts b → Sound (step b) fun us c => reads (ts ++ us) c) :
    Sound (extend step a) reads := by
  intro cursor b next run
  obtain ⟨final, ran, reached⟩ : ∃ final, (extend step a cursor).outcome = some final ∧
      Reaches step (a, cursor) final := extendUpTo_outcome _ a cursor
  obtain rfl : (b, next) = final := Option.some.inj (run.symm.trans ran)
  clear run ran
  suffices ∀ state, Reaches step (a, cursor) state →
      ∃ used, cursor.tokens = used ++ state.2.tokens ∧ reads used state.1 from this _ reached
  intro state path
  induction path with
  | refl => exact ⟨[], rfl, start⟩
  | tail _ one ih =>
    obtain ⟨used, split, holds⟩ := ih
    obtain ⟨us, splits, result⟩ := sound _ _ holds one
    exact ⟨used ++ us, by rw [split, splits, List.append_assoc], result⟩

/-- Every step reads a token, so the fuel is enough to come to where the step refuses. -/
theorem extend_outcome (sound : ∀ a, Sound (step a) fun ts _ => ts ≠ [])
    {start final : α × Cursor} (reached : Reaches step start final) (stop : (step final.1 final.2).outcome = none) :
    (extend step start.1 start.2).outcome = some final := by
  suffices ∀ fuel, start.2.tokens.length < fuel →
      (extendUpTo step fuel start.1 start.2).outcome = some final by
    apply this
    simp [Cursor.tokens]
  induction reached using Relation.ReflTransGen.head_induction_on with
  | refl =>
    intro fuel enough
    cases fuel with
    | zero => omega
    | succ fuel =>
      unfold extendUpTo
      rcases ran : step final.1 final.2 with ⟨_ | result, miss⟩
      · rfl
      · simp [ran] at stop
  | @head before after one _ ih =>
    intro fuel enough
    obtain ⟨used, split, nonempty⟩ := sound _ one
    have shorter : after.2.tokens.length < before.2.tokens.length := by
      have := List.length_pos_iff.mpr nonempty
      rw [split, List.length_append]
      omega
    cases fuel with
    | zero => omega
    | succ fuel =>
      unfold extendUpTo
      rcases ran : step before.1 before.2 with ⟨_ | result, miss⟩
      · simp [Steps, ran] at one
      · obtain rfl : result = after := by simpa [Steps, ran] using one
        exact ih fuel (by omega)

end Repetition

section Sequences

variable {step : List α → Parser (List α)} {view : α → β} {reads : List Token → α → Prop}

/-- A step that puts one more result in front makes a list of results, the last one in front. -/
theorem pieces_sound (start : List α)
    (sound : ∀ done, Sound (step done) fun us all => ∃ a, all = a :: done ∧ reads us a) :
    Sound (extend step start) fun used all =>
      ∃ uses as, used = uses.flatten ∧ all = as.reverse ++ start ∧ List.Forall₂ reads uses as := by
  apply extend_sound
  · exact ⟨[], [], rfl, rfl, .nil⟩
  rintro _ _ ⟨uses, as, rfl, rfl, each⟩
  apply (sound _).mono
  rintro us _ ⟨a, rfl, one⟩
  refine ⟨uses ++ [us], as ++ [a], by simp, by simp, ?_⟩
  exact List.rel_append each (.cons one .nil)

theorem reaches_pieces {good : List Token → Prop} (parts : List (List Token × β))
    (each : ∀ part ∈ parts, ∀ done more, good more →
      Accepts (step done) part.1 more fun all => ∃ a, all = a :: done ∧ view a = part.2)
    (continues : ∀ part ∈ parts, ∀ more, good (part.1 ++ more)) (ends : good rest) (done : List α)
    {cursor : Cursor} (tokens : cursor.tokens = (parts.map (·.1)).flatten ++ rest) :
    ∃ (as : List α) (final : Cursor), Reaches step (done, cursor) (as.reverse ++ done, final) ∧ final.tokens = rest ∧
      as.map view = parts.map (·.2) := by
  induction parts generalizing done cursor with
  | nil => exact ⟨[], cursor, .refl, tokens, rfl⟩
  | cons part parts ih =>
    rw [List.forall_mem_cons] at each continues
    have next : good ((parts.map (·.1)).flatten ++ rest) := by
      cases parts with
      | nil => exact ends
      | cons second parts =>
        rw [List.map_cons, List.flatten_cons, List.append_assoc]
        exact continues.2 second List.mem_cons_self _
    have split : cursor.tokens = part.1 ++ ((parts.map (·.1)).flatten ++ rest) := by
      simpa using tokens
    obtain ⟨_, after, ran, left, a, rfl, is⟩ := each.1 done _ next split
    obtain ⟨as, final, reached, ended, are⟩ := ih each.2 continues.2 (a :: done) left
    have whole : (a :: as).reverse ++ done = as.reverse ++ a :: done := by simp
    refine ⟨a :: as, final, .head ran ?_, ended, by simp [is, are]⟩
    rw [whole]
    exact reached

/-- Pieces are read one after the other up to a place where the step refuses. -/
theorem pieces_accepts (good : List Token → Prop) (parts : List (List Token × β)) (start : List α)
    (sound : ∀ done, Sound (step done) fun us all => ∃ a, all = a :: done ∧ reads us a)
    (nonempty : ∀ ts a, reads ts a → ts ≠ [])
    (each : ∀ part ∈ parts, ∀ done more, good more →
      Accepts (step done) part.1 more fun all => ∃ a, all = a :: done ∧ view a = part.2)
    (continues : ∀ part ∈ parts, ∀ more, good (part.1 ++ more)) (ends : good rest)
    (stop : ∀ done, Refuses (step done) rest) :
    Accepts (extend step start) (parts.map (·.1)).flatten rest fun all =>
      ∃ as : List α, all = as.reverse ++ start ∧ as.map view = parts.map (·.2) := by
  intro cursor tokens
  obtain ⟨as, final, reached, ended, are⟩ := reaches_pieces parts each continues ends start tokens
  refine ⟨_, final, ?_, ended, as, rfl, are⟩
  apply extend_outcome _ reached (stop _ ended)
  intro done
  apply (sound done).mono
  rintro ts _ ⟨a, -, one⟩
  exact nonempty ts a one

theorem Sound.many (sound : Sound p reads) :
    Sound (many p) fun used as => ∃ uses, used = uses.flatten ∧ List.Forall₂ reads uses as := by
  apply Sound.bind (pieces_sound [] fun done => (sound.mono fun us a one => ⟨a, rfl, one⟩).map)
  rintro _ _ ⟨uses, as, rfl, rfl, each⟩
  apply pure_sound
  exact ⟨uses, by simp, by simpa using each⟩

theorem many_accepts (good : List Token → Prop) (parts : List (List Token × β))
    (sound : Sound p reads) (nonempty : ∀ ts a, reads ts a → ts ≠ [])
    (each : ∀ part ∈ parts, ∀ more, good more → Accepts p part.1 more fun a => view a = part.2)
    (continues : ∀ part ∈ parts, ∀ more, good (part.1 ++ more)) (ends : good rest)
    (stop : Refuses p rest) :
    Accepts (many p) (parts.map (·.1)).flatten rest fun as => as.map view = parts.map (·.2) := by
  have loop : Accepts (extend (fun done => (· :: done) <$> p) []) (parts.map (·.1)).flatten rest
      fun all => ∃ as : List α, all = as.reverse ++ [] ∧ as.map view = parts.map (·.2) := by
    apply pieces_accepts good parts []
    case nonempty => exact nonempty
    case continues => exact continues
    case ends => exact ends
    case stop => exact fun done => stop.map
    case sound =>
      intro done
      exact (sound.mono fun us a one => ⟨a, rfl, one⟩).map
    case each =>
      intro part mem done more next
      exact ((each part mem more next).mono fun a is => ⟨a, rfl, is⟩).map
  apply loop.bind_nil
  rintro _ ⟨as, rfl, are⟩
  apply pure_accepts
  simpa using are

end Sequences

section Separated

variable {item : Parser α} {view : α → β} {reads : List Token → α → Prop} {separator : Symbol}

/-- One more item after a separator. -/
def oneMore (item : Parser α) (separator : Symbol) (done : List α) : Parser (List α) := do
  let _ ← symbol separator
  let next ← item
  pure (next :: done)

theorem itemsAfter_eq (firstItem : α) :
    itemsAfter item (symbol separator) firstItem = (do
      let reversed ← extend (oneMore item separator) [firstItem]
      let _ ← optional (symbol separator)
      pure reversed.reverse) :=
  rfl

theorem oneMore_sound (sound : Sound item reads) (done : List α) :
    Sound (oneMore item separator done) fun us all =>
      ∃ a, all = a :: done ∧ ∃ ts, us = .symbol separator :: ts ∧ reads ts a := by
  apply (symbol_sound separator).bind
  rintro _ _ rfl
  apply sound.bind
  intro us b one
  exact pure_sound ⟨b, rfl, us, by simp, one⟩

theorem oneMore_accepts {holds : α → Prop} (accepts : Accepts item used rest holds) (done : List α) :
    Accepts (oneMore item separator done) (.symbol separator :: used) rest fun all =>
      ∃ a, all = a :: done ∧ holds a := by
  apply Accepts.after_symbol
  apply accepts.bind_nil
  intro a is
  exact pure_accepts ⟨a, rfl, is⟩

/-- There is not one more item where no separator comes next, or one with no item after it. -/
theorem oneMore_refuses {closing : Symbol} (stop : Refuses item (.symbol closing :: rest))
    (different : separator ≠ closing) (trailing : Bool) (done : List α) :
    Refuses (oneMore item separator done)
      ((if trailing then [.symbol separator] else []) ++ .symbol closing :: rest) := by
  cases trailing with
  | false =>
    apply Refuses.bind
    apply symbol_refuses
    simpa using different.symm
  | true =>
    intro cursor tokens
    obtain ⟨_, next, run, left, -⟩ :=
      symbol_accepts separator tokens
    rw [oneMore, bind_outcome, run]
    exact stop.bind left

/-- What follows the first item: further items, each after a separator, and perhaps one more. -/
theorem itemsAfter_sound (sound : Sound item reads) {ts : List Token} {a : α} (first : reads ts a) :
    Sound (itemsAfter item (symbol separator) a) fun used as =>
      ∃ uses trailing, ts ++ used = spread separator trailing uses ∧ uses ≠ [] ∧
        List.Forall₂ reads uses as := by
  rw [itemsAfter_eq]
  apply (pieces_sound [a] (oneMore_sound sound)).bind
  rintro _ _ ⟨uses, as, rfl, rfl, each⟩
  obtain ⟨items, rfl, all⟩ : ∃ items, uses = items.map (.symbol separator :: ·) ∧
      List.Forall₂ reads items as := by
    induction each with
    | nil => exact ⟨[], rfl, .nil⟩
    | cons one _ ih =>
      obtain ⟨us, rfl, one⟩ := one
      obtain ⟨items, rfl, all⟩ := ih
      exact ⟨us :: items, rfl, .cons one all⟩
  have result : List.Forall₂ reads (ts :: items) (as.reverse ++ [a]).reverse := by
    simpa using List.Forall₂.cons first all
  have last : Sound (optional (symbol separator)) fun used _ =>
      ∃ trailing : Bool, used = if trailing then [.symbol separator] else [] := by
    apply Sound.optional _ ⟨false, rfl⟩
    apply (symbol_sound separator).mono
    rintro _ _ rfl
    exact ⟨true, rfl⟩
  apply last.bind
  rintro _ _ ⟨trailing, rfl⟩
  apply pure_sound
  exact ⟨ts :: items, trailing, by simp [spread, List.flatMap_def], by simp, result⟩

theorem Sound.separated1 (sound : Sound item reads) :
    Sound (separated1 item (symbol separator)) fun used as =>
      ∃ uses trailing, used = spread separator trailing uses ∧ uses ≠ [] ∧
        List.Forall₂ reads uses as := by
  apply sound.bind
  intro ts a first
  exact itemsAfter_sound sound first

theorem Sound.separated (sound : Sound item reads) :
    Sound (separated item (symbol separator)) fun used as =>
      ∃ uses trailing, used = spread separator trailing uses ∧ List.Forall₂ reads uses as := by
  apply Sound.orElse
  · apply sound.separated1.mono
    rintro used as ⟨uses, trailing, rfl, -, each⟩
    exact ⟨uses, trailing, rfl, each⟩
  · exact pure_sound ⟨[], false, rfl, .nil⟩

/-- Items are read up to the symbol that closes them, at which no item can begin. -/
theorem separated1_accepts {closing : Symbol} (parts : List (List Token × β)) (trailing : Bool)
    (nonempty : parts ≠ []) (sound : Sound item reads)
    (each : ∀ part ∈ parts, ∀ more, Next [separator, closing] more →
      Accepts item part.1 more fun a => view a = part.2)
    (stop : Refuses item (.symbol closing :: rest)) (different : separator ≠ closing) :
    Accepts (separated1 item (symbol separator)) (spread separator trailing (parts.map (·.1)))
      (.symbol closing :: rest) fun as => as.map view = parts.map (·.2) := by
  cases parts with
  | nil => exact absurd rfl nonempty
  | cons part parts =>
    rw [List.forall_mem_cons] at each
    let tail : List Token := (if trailing then [.symbol separator] else []) ++ .symbol closing :: rest
    have tailNext : Next [separator, closing] tail := by
      cases trailing
      · exact next_cons (by simp) _
      · exact next_cons (by simp) _
    let pieces : List (List Token × β) := parts.map fun part => (.symbol separator :: part.1, part.2)
    have piecesNext : Next [separator, closing] ((pieces.map (·.1)).flatten ++ tail) := by
      cases parts with
      | nil => exact tailNext
      | cons => exact next_cons (by simp) _
    have loop (a : α) : Accepts (extend (oneMore item separator) [a]) (pieces.map (·.1)).flatten tail
        fun all => ∃ as : List α, all = as.reverse ++ [a] ∧ as.map view = pieces.map (·.2) := by
      apply pieces_accepts (Next [separator, closing]) pieces [a] (oneMore_sound sound)
      case ends => exact tailNext
      case stop => exact oneMore_refuses stop different trailing
      case nonempty => rintro _ b ⟨ts, rfl, -⟩; simp
      case each =>
        intro piece mem done more next
        obtain ⟨part, origin, rfl⟩ := List.mem_map.mp mem
        exact oneMore_accepts (each.2 part origin more next) done
      case continues =>
        intro piece mem more
        obtain ⟨part, _, rfl⟩ := List.mem_map.mp mem
        exact next_cons (by simp) _
    have last (reversed : List α) : Accepts (do
        let _ ← optional (symbol separator)
        pure reversed.reverse) (if trailing then [.symbol separator] else [])
        (.symbol closing :: rest) fun as => as = reversed.reverse := by
      have separators : Accepts (optional (symbol separator))
          (if trailing then [.symbol separator] else []) (.symbol closing :: rest)
          fun _ => True := by
        cases trailing with
        | false => exact Refuses.optional (symbol_refuses (by simpa using different.symm)) trivial
        | true => exact Accepts.optional (symbol_accepts separator)
      apply separators.bind_nil
      intro _ _
      exact pure_accepts rfl
    have first : Accepts item part.1 ((pieces.map (·.1)).flatten ++ tail)
        fun a => view a = part.2 := each.1 _ piecesNext
    have shape : pieces.map (·.1) = (parts.map (·.1)).map (.symbol separator :: ·) := by
      simp [pieces]
    rw [List.map_cons, spread_cons, ← shape]
    apply Accepts.bind (by simpa [tail] using first)
    intro a is
    rw [itemsAfter_eq]
    apply Accepts.bind (loop a)
    rintro _ ⟨as, rfl, are⟩
    apply (last _).mono
    rintro _ rfl
    simp [is, are, pieces]

/-- The same for items of which there may be none. -/
theorem separated_accepts {closing : Symbol} (parts : List (List Token × β)) (trailing : Bool)
    (sound : Sound item reads)
    (each : ∀ part ∈ parts, ∀ more, Next [separator, closing] more →
      Accepts item part.1 more fun a => view a = part.2)
    (stop : Refuses item (.symbol closing :: rest)) (different : separator ≠ closing) :
    Accepts (separated item (symbol separator)) (spread separator trailing (parts.map (·.1)))
      (.symbol closing :: rest) fun as => as.map view = parts.map (·.2) := by
  cases parts with
  | nil =>
    exact Refuses.orElse stop.bind (pure_accepts rfl)
  | cons part parts =>
    apply Accepts.orElse
    exact separated1_accepts (part :: parts) trailing (by simp) sound each stop different

end Separated

end Parser

end ShapeLang
