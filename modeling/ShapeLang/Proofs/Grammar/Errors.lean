import ShapeLang.Program
import ShapeLang.Proofs.Grammar.Expectations

/-! # Syntax errors

A text that is no program is answered with one syntax error. It points at the first token with which
no program continues, and names exactly what could have stood there.
-/

namespace ShapeLang

namespace Grammar

open ShapeLang.Parser

/-- The token, or the end of the text, comes next in some program that begins with some tokens. -/
def Follows (read : List Token) : Option Token → Prop
  | some token => ∃ more, Sentence .expression (read ++ token :: more)
  | none => Sentence .expression read

section Rejection

variable {cursor : Cursor}

/-- How a text is rejected: the expression at its beginning fails, or does not end with the
text. What is reported is what the expression reports, and the end of the text where the
expression ends. -/
structure Rejected (reply : Reply Phrase) (m : Miss) : Prop where
  nonempty : m.expected ≠ []
  stays : Stays m.remaining reply
  unfinished : ∀ phrase next, reply.outcome = some (phrase, next) → next.rest ≠ []
  noted : ∀ e ∈ m.expected, Miss.Notes reply.miss m.remaining e ∨ e = .endOfInput ∧
    ∃ phrase next, reply.outcome = some (phrase, next) ∧ next.rest.length = m.remaining
  notes : ∀ e, Miss.Notes reply.miss m.remaining e → e ∈ m.expected
  ended : ∀ phrase next, reply.outcome = some (phrase, next) → next.rest.length = m.remaining →
    .endOfInput ∈ m.expected

theorem endOfInput_failed {next : Cursor} (more : next.rest ≠ []) :
    endOfInput next = ⟨none, some ⟨next.rest.length, [.endOfInput]⟩⟩ := by
  obtain ⟨rest, stop⟩ := next
  cases rest with
  | nil => exact absurd rfl more
  | cons lexeme others => rfl

theorem program_rejected (rejected : (program cursor).outcome = none) :
    ∃ m, (program cursor).miss = some m ∧
      Rejected (upTo (cursor.rest.length + 1) cursor) m := by
  obtain ⟨faithful, greedy⟩ := upTo_faithful (cursor.rest.length + 1)
  have reported := (faithful 0).reported cursor (Nat.lt_succ_self _)
  have nonempty := (faithful 0).reports cursor (Nat.lt_succ_self _)
  have ends := greedy cursor
  unfold program at rejected ⊢
  dsimp only at rejected ⊢
  rw [bind_eq] at rejected ⊢
  generalize upTo (cursor.rest.length + 1) cursor = reply at rejected reported nonempty ends ⊢
  rcases reply with ⟨_ | ⟨phrase, next⟩, miss⟩
  · obtain ⟨m, rfl⟩ := reported rfl
    refine ⟨m, rfl, (nonempty m rfl).1, ⟨?_, fun _ _ run => nomatch run⟩, fun _ _ run => (nomatch run), ?_, ?_,
      fun _ _ run => (nomatch run)⟩
    · intro other same
      cases same
      exact Nat.le_refl _
    · exact fun e mem => .inl ⟨m, rfl, rfl, mem⟩
    · rintro e ⟨other, same, -, mem⟩
      cases same
      exact mem
  · have more : next.rest ≠ [] := by
      intro empty
      have accepted : endOfInput next = ⟨some ((), next), none⟩ := by
        unfold endOfInput
        rw [empty]
      simp only [bind_eq, accepted] at rejected
      cases rejected
    obtain ⟨first, rfl, le⟩ := ends phrase next (Nat.lt_succ_self _) rfl
    have failed := endOfInput_failed more
    simp only [bind_eq, failed]
    obtain ⟨m, merged, ahead⟩ := Miss.exists_merge (some first)
      (some ⟨next.rest.length, [.endOfInput]⟩) (.inl rfl)
    obtain ⟨m', merged', ahead'⟩ := Miss.exists_merge (some first)
      (some ⟨next.rest.length, [.endOfInput]⟩) (.inr rfl)
    obtain rfl : m = m' := Option.some.inj (merged.symm.trans merged')
    have within : Miss.Within m.remaining (Miss.merge (some first)
        (some ⟨next.rest.length, [.endOfInput]⟩)) := by
      intro other same
      obtain rfl : m = other := Option.some.inj (merged.symm.trans same)
      exact Nat.le_refl _
    have of_notes {e : Expected} (notes : Miss.Notes (some first) m.remaining e ∨
        Miss.Notes (some ⟨next.rest.length, [.endOfInput]⟩) m.remaining e) : e ∈ m.expected := by
      obtain ⟨other, same, -, mem⟩ := Miss.Notes.merge within notes
      obtain rfl : m = other := Option.some.inj (merged.symm.trans same)
      exact mem
    refine ⟨m, merged, ?_, ⟨within.of_merge.1, ?_⟩, ?_, ?_, fun e notes => of_notes (.inl notes), ?_⟩
    · rcases Miss.merge_eq_some merged with same | same | ⟨a, b, same, same', -, -, both⟩
      · exact (nonempty m same).1
      · cases same
        exact List.cons_ne_nil _ _
      · cases same'
        exact List.ne_nil_of_mem (both ▸ Miss.mem_union.mpr (.inr (List.mem_singleton.mpr rfl)))
    · intro other after run
      cases run
      exact ahead'
    · intro other after run
      cases run
      exact more
    · intro e mem
      rcases Miss.merge_eq_some merged with same | same | ⟨a, b, same, same', at_a, at_b, both⟩
      · cases same
        exact .inl ⟨_, rfl, rfl, mem⟩
      · cases same
        exact .inr ⟨List.mem_singleton.mp mem, phrase, next, rfl, rfl⟩
      · cases same
        cases same'
        rw [both] at mem
        rcases Miss.mem_union.mp mem with mem | mem
        · exact .inl ⟨_, rfl, at_a, mem⟩
        · exact .inr ⟨List.mem_singleton.mp mem, phrase, next, rfl, at_b⟩
    · intro other after run left
      cases run
      exact of_notes (.inr ⟨_, rfl, left, by simp⟩)

theorem Rejected.le {m : Miss} (rejected : Rejected (upTo (cursor.rest.length + 1) cursor) m) :
    m.remaining ≤ cursor.rest.length := by
  obtain ⟨faithful, -⟩ := upTo_faithful (cursor.rest.length + 1)
  obtain ⟨e, es, is⟩ := List.exists_cons_of_ne_nil rejected.nonempty
  rcases rejected.noted e (by simp [is]) with ⟨other, here, at_m, -⟩ | ⟨-, phrase, next, run, at_m⟩
  · have le := ((faithful 0).reports cursor (Nat.lt_succ_self _)).le here
    rwa [Cursor.tokens, List.length_map, at_m] at le
  · exact at_m ▸ (faithful 0).onward cursor phrase next run

/-- What is reported is exactly what can come next, and does not come next. -/
theorem Rejected.exact {lexemes read after : List Lexeme} {stop : Nat} {m : Miss}
    (rejected : Rejected (upTo (lexemes.length + 1) ⟨lexemes, stop⟩) m)
    (split : lexemes = read ++ after) (left : after.length = m.remaining) :
    (∀ next, (∃ e ∈ m.expected, e.Covers next) ↔ Follows (read.map (·.token)) next) ∧
      ∀ e ∈ m.expected, ¬ e.Covers ((after.map (·.token)).head?) := by
  obtain ⟨faithful, -⟩ := upTo_faithful (lexemes.length + 1)
  have reports := (faithful 0).reports ⟨lexemes, stop⟩ (Nat.lt_succ_self _)
  -- An alternative of the expression at the beginning.
  have genuine {e : Expected} (notes : Miss.Notes
      (upTo (lexemes.length + 1) ⟨lexemes, stop⟩).miss m.remaining e) :
      (∃ t, e.Covers (some t)) ∧ ¬ e.Covers ((after.map (·.token)).head?) ∧
        ∀ t, e.Covers (some t) → Follows (read.map (·.token)) (some t) := by
    obtain ⟨other, here, at_m, mem⟩ := notes
    obtain ⟨us, vs, whole, length, starts, missed, viable⟩ := (reports other here).2 e mem
    obtain ⟨rfl, rfl⟩ : us = read.map (·.token) ∧ vs = after.map (·.token) := by
      apply List.append_inj'
      · rw [← whole, Cursor.tokens, split, List.map_append]
      · rw [List.length_map, length, at_m, left]
    exact ⟨starts, missed, viable⟩
  constructor
  · intro next
    constructor
    · rintro ⟨e, mem, covers⟩
      rcases rejected.noted e mem with notes | ⟨rfl, phrase, final, run, at_m⟩
      · obtain ⟨starts, -, viable⟩ := genuine notes
        cases next with
        | none => exact absurd covers (Expected.not_covers_none starts)
        | some t => exact viable t covers
      · obtain rfl : next = none := covers
        obtain ⟨used, whole, derives⟩ := (upTo_locates _).form run
        obtain ⟨rfl, -⟩ : used = read.map (·.token) ∧ final.tokens = after.map (·.token) := by
          apply List.append_inj'
          · rw [← whole, Cursor.tokens, split, List.map_append]
          · rw [Cursor.tokens, List.length_map, List.length_map, at_m, left]
        exact ⟨_, derives⟩
    · intro follows
      -- A program with the same beginning, and then the token or nothing.
      obtain ⟨rest, heads, sentence⟩ : ∃ rest : List Token, rest.head? = next ∧
          Sentence .expression (read.map (·.token) ++ rest) := by
        cases next with
        | none => exact ⟨[], rfl, by rwa [List.append_nil]⟩
        | some t =>
          obtain ⟨more, sentence⟩ := follows
          exact ⟨t :: more, rfl, sentence⟩
      have stays := rejected.stays
      have unfinished := rejected.unfinished
      have notes := rejected.notes
      have ended := rejected.ended
      subst split
      rw [← left] at stays notes ended
      have tokens : (Cursor.mk (read ++ placed rest) stop).tokens =
          read.map (·.token) ++ rest := by
        have placed := tokens_placed rest stop
        simp only [Cursor.tokens] at placed ⊢
        rw [List.map_append, placed]
      have enough : (read.map (·.token) ++ rest).length < (read ++ placed rest).length + 1 := by
        simp [placed]
      obtain ⟨phrase, final, run, finished⟩ := upTo_reads sentence tokens enough
      rcases (faithful ((read ++ placed rest).length + 1)).coherent read after (placed rest) stop
        (Nat.lt_succ_self _) (Nat.lt_succ_self _) stays with agree | ⟨e, noted, covers⟩
      · rw [run] at agree
        generalize outcome : (upTo ((read ++ after).length + 1) ⟨read ++ after, stop⟩).outcome = out
          at agree
        cases agree with
        | read _ u stop' =>
          simp only [List.append_eq_nil_iff] at finished
          obtain ⟨rfl, empty⟩ := finished
          obtain rfl : rest = [] := by simpa [placed] using empty
          exact ⟨.endOfInput, ended _ _ outcome rfl, heads.symm⟩
      · refine ⟨e, notes e noted, ?_⟩
        have head : (placed rest).head?.map (·.token) = next := by
          rw [← heads]
          cases rest <;> rfl
        rwa [head] at covers
  · intro e mem covers
    rcases rejected.noted e mem with notes | ⟨rfl, phrase, final, run, at_m⟩
    · exact (genuine notes).2.1 covers
    · have more := rejected.unfinished phrase final run
      have some : after ≠ [] := by
        rintro rfl
        exact more (List.length_eq_zero_iff.mp (at_m.trans left.symm))
      obtain ⟨lexeme, others, rfl⟩ := List.exists_cons_of_ne_nil some
      cases covers

end Rejection

end Grammar

namespace Expected

open Grammar

/-- Every alternative stands for something. -/
theorem exists_covers (e : Expected) : ∃ next, e.Covers next := by
  cases e with
  | symbol s => exact ⟨_, rfl⟩
  | endOfInput => exact ⟨_, rfl⟩
  | expression =>
    obtain ⟨tree, derives⟩ := sentence_name .expression ""
    exact ⟨_, _, [], tree, rfl, derives⟩
  | identifier => exact ⟨_, "", rfl⟩
  | literal => exact ⟨_, _, _, rfl, .text ""⟩

/-- The label of an expression stands for literals, names, and the symbols that can open one. -/
theorem covers_expression (token : Token) : expression.Covers (some token) ↔
    (∃ tree, Literal token tree) ∨ (∃ name, token = .ident name) ∨
      ∃ s ∈ openers, token = .symbol s := by
  constructor
  · rintro ⟨_, more, tree, is, derives⟩
    cases is
    obtain ⟨first, rest, same, opens⟩ := derives.begins
    obtain ⟨rfl, rfl⟩ := List.cons.inj same
    cases token with
    | symbol s => exact .inr (.inr ⟨s, opens s rfl, rfl⟩)
    | ident name => exact .inr (.inl ⟨name, rfl⟩)
    | boolean value => exact .inl ⟨_, .boolean value⟩
    | number value => exact .inl ⟨_, .number value⟩
    | text content => exact .inl ⟨_, .text content⟩
  · have starts {more : List Token} (sentence : Sentence .expression (token :: more)) :
        expression.Covers (some token) := by
      obtain ⟨tree, derives⟩ := sentence
      exact ⟨token, more, tree, rfl, derives⟩
    have of_atom {more : List Token} {tree : Tree} (atom : Derives .atom (token :: more) tree) :
        expression.Covers (some token) := starts (Sentence.of_atom ⟨tree, atom⟩ .expression)
    obtain ⟨a, name⟩ := sentence_name .expression ""
    obtain ⟨b, operand⟩ := sentence_name .signed ""
    rintro (⟨tree, literal⟩ | ⟨name, rfl⟩ | ⟨s, known, rfl⟩)
    · exact of_atom (.literal literal)
    · exact of_atom (.ident name)
    · simp only [openers, operandOpeners, atomOpeners, List.cons_append, List.nil_append,
        List.mem_cons, List.not_mem_nil, or_false] at known
      rcases known with rfl | rfl | rfl | rfl | rfl | rfl | rfl | rfl
      · exact starts ⟨_, .letIn [(_, a)] false (by simp) (by simpa using name) name⟩
      · exact starts ⟨_, .conditional name name name⟩
      · exact starts ⟨_, .forEach "" name name⟩
      · have negate : (Symbol.minus, UnaryOp.negate) ∈ signs := by decide
        exact starts (Sentence.of_signed ⟨_, .signed negate operand⟩)
      · have complement : (Symbol.not, UnaryOp.not) ∈ signs := by decide
        exact starts (Sentence.of_signed ⟨_, .signed complement operand⟩)
      · exact of_atom (.parens name)
      · exact of_atom (.list [] false (by simp))
      · exact of_atom (.record [] false (by simp))

end Expected

namespace Phrase

open Grammar

variable {source : Source} {tokens : List Lexeme}

/-- The place of a token, or of the end of the text. -/
def placeIn (source : Source) : List Lexeme → Location
  | lexeme :: _ => lexeme.location
  | [] => ⟨source, source.size, source.size⟩

/-- The error points at the token that was left at the furthest failure. -/
theorem syntaxError_points (source : Source) (tokens : List Lexeme) (m : Miss) :
    let after := tokens.drop (tokens.length - m.remaining)
    (syntaxError source tokens m).expected = m.expected ∧
      (syntaxError source tokens m).found = after.head?.map (·.token) ∧
        (syntaxError source tokens m).location = placeIn source after := by
  unfold syntaxError
  generalize tokens.drop (tokens.length - m.remaining) = after
  cases after with
  | nil => exact ⟨rfl, rfl, rfl⟩
  | cons lexeme others => exact ⟨rfl, rfl, rfl⟩

/-- A text that is rejected is no program, and there is one syntax error. The tokens before the
place that it points at begin a program, but none of these goes on with the token there, or ends
there if no token is left; and what it expects is exactly what such a program can go on with. -/
theorem syntaxError_exact {error : SyntaxError} (rejected : parse source tokens = .error error) :
    ¬ Sentence .expression (tokens.map (·.token)) ∧
      (tokens = source.lex.tokens → source.phrase =
        .error (source.lex.rejections.map .lexical ++ [.syntactic error])) ∧
      ∃ read after, tokens = read ++ after ∧
        error.found = after.head?.map (·.token) ∧ error.location = placeIn source after ∧
        (∃ more, Sentence .expression (read.map (·.token) ++ more)) ∧
        ¬ Follows (read.map (·.token)) (after.head?.map (·.token)) ∧
        ∀ next, (∃ e ∈ error.expected, e.Covers next) ↔ Follows (read.map (·.token)) next := by
  refine ⟨?_, ?_, ?_⟩
  · rintro ⟨tree, derives⟩
    obtain ⟨phrase, parsed, -⟩ := parse_of_derives source derives
    rw [parsed] at rejected
    cases rejected
  · rintro rfl
    simp only [Source.phrase, rejected]
  · have failed : (program ⟨tokens, 0⟩).outcome = none := by
      cases outcome : (program ⟨tokens, 0⟩).outcome with
      | none => rfl
      | some result =>
        have parsed : parse source tokens = .ok result.1 :=
          parse_eq_ok_iff.mpr ⟨result.2, outcome⟩
        rw [parsed] at rejected
        cases rejected
    obtain ⟨m, here, stuck⟩ := program_rejected failed
    have le : m.remaining ≤ tokens.length := stuck.le
    have is : error = syntaxError source tokens m := by
      unfold parse at rejected
      generalize program ⟨tokens, 0⟩ = reply at rejected failed here
      obtain ⟨outcome, miss⟩ := reply
      obtain rfl : outcome = none := failed
      obtain rfl : miss = some m := here
      exact (Except.error.inj rejected).symm
    let read := tokens.take (tokens.length - m.remaining)
    let after := tokens.drop (tokens.length - m.remaining)
    have split : tokens = read ++ after := (List.take_append_drop _ _).symm
    have left : after.length = m.remaining := by
      rw [List.length_drop]
      omega
    obtain ⟨expected, found, place⟩ : error.expected = m.expected ∧
        error.found = after.head?.map (·.token) ∧ error.location = placeIn source after := by
      rw [is]
      exact syntaxError_points source tokens m
    obtain ⟨follow, missed⟩ := stuck.exact split left
    refine ⟨read, after, split, found, place, ?_, ?_, expected ▸ follow⟩
    · obtain ⟨e, es, is⟩ := List.exists_cons_of_ne_nil stuck.nonempty
      obtain ⟨next, covers⟩ := e.exists_covers
      have follows := (follow next).mp ⟨e, by simp [is], covers⟩
      cases next with
      | none => exact ⟨[], by rwa [List.append_nil]⟩
      | some token =>
        obtain ⟨more, sentence⟩ := follows
        exact ⟨token :: more, sentence⟩
    · intro follows
      obtain ⟨e, mem, covers⟩ := (follow _).mpr follows
      rw [← List.head?_map] at covers
      exact missed e mem covers

/-- An empty pair of parentheses, at the end of the text. -/
def unnamed : List Lexeme := placed [.symbol .leftParen, .symbol .rightParen]

/-- Only the arrow of a function without parameters can come next. -/
theorem syntaxError_exact_unnamed :
    parse ⟨"", "()"⟩ unnamed = .error ⟨[.symbol .arrow], none, ⟨⟨"", "()"⟩, 2, 2⟩⟩ ∧
      ¬ Sentence .expression [.symbol .leftParen, .symbol .rightParen] ∧
      ∀ next, (∃ e ∈ [Expected.symbol .arrow], e.Covers next) ↔
        Follows [.symbol .leftParen, .symbol .rightParen] next := by
  have rejected : parse ⟨"", "()"⟩ unnamed =
      .error ⟨[.symbol .arrow], none, ⟨⟨"", "()"⟩, 2, 2⟩⟩ := rfl
  obtain ⟨incomplete, -, read, after, split, found, -, -, -, follow⟩ := syntaxError_exact rejected
  obtain rfl : after = [] := by
    cases after with
    | nil => rfl
    | cons => cases found
  rw [List.append_nil] at split
  subst split
  exact ⟨rejected, incomplete, follow⟩

end Phrase

end ShapeLang
