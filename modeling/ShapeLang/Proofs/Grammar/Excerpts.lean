import Mathlib
import ShapeLang.Program
import ShapeLang.Proofs.Grammar.Cores
import ShapeLang.Proofs.Token.Excerpts

/-! # The text of a place

The text that a node of a phrase stands for in messages is the text of its place. It can be read on
its own, and is the node again, unless it is an operation that cuts through parentheses of an
operand: these leave no trace in the phrase, and the place of an operation goes from operand to
operand.
-/

namespace ShapeLang

open ShapeLang.Grammar

/-- What can be read has matching parentheses. -/
theorem Source.balanced_of_phrase {source : Source} {phrase : Phrase}
    (read : source.phrase = .ok phrase) : Balanced (source.lex.tokens.map (·.token)) :=
  (phrase_eq_ok_iff.mp read).2.balanced

/-- Tokens that are read as a phrase somewhere are read as the same phrase anywhere. -/
theorem Source.phrase_of_moved {source : Source} {move : Location → Location} {phrase : Phrase}
    (rigid : Rigid move) (accepted : source.lex.rejections = [])
    (reads : Reads .expression (source.lex.tokens.map (·.relocate move)) phrase) :
    ∃ copy, source.phrase = .ok copy ∧ copy.relocate move = phrase := by
  have derives : Derives .expression (source.lex.tokens.map (·.token)) phrase.tree := by
    simpa [Function.comp_def, Lexeme.relocate] using reads.derives
  obtain ⟨copy, parsed, -⟩ := Phrase.parse_of_derives source derives
  have here := Phrase.parse_iff_reads.mp parsed
  exact ⟨copy, phrase_eq_ok_iff.mpr ⟨accepted, here⟩, (here.relocate rigid).unique reads⟩

/-- The text of every node of a phrase is accepted by the lexer. It is a phrase if and only if its
parentheses match, which they do unless the node is an operation, and then it is the same phrase as
the node, with its places counted from the start of the text. -/
theorem Source.excerpts_read {source : Source} {phrase node : Phrase}
    (read : source.phrase = .ok phrase) (part : node ∈ phrase.nodes) (name : String) :
    let excerpt := node.location.excerpt name
    excerpt.lex.rejections = [] ∧
    ((∃ copy, excerpt.phrase = .ok copy) ↔ Balanced (excerpt.lex.tokens.map (·.token))) ∧
    (∀ copy, excerpt.phrase = .ok copy →
      copy.relocate (shift source node.location.start) = node) ∧
    (node.isOperation = false → ∃ copy, excerpt.phrase = .ok copy) := by
  intro excerpt
  obtain ⟨accepted, reads⟩ := phrase_eq_ok_iff.mp read
  obtain ⟨core, some, inside, place, again, matching⟩ :=
    reads.node_core source.lex_ordered part
  obtain ⟨accepted', same⟩ := source.lex_excerpt accepted some inside name
  rw [← place] at accepted' same
  have rigid := shift_rigid source node.location.start
  have tokens : core.map (·.token) = excerpt.lex.tokens.map (·.token) := by
    rw [← same]
    simp [Function.comp_def, Lexeme.relocate, excerpt]
  rw [tokens] at again matching
  have copied (balanced : Balanced (excerpt.lex.tokens.map (·.token))) :
      ∃ copy, excerpt.phrase = .ok copy ∧
        copy.relocate (shift source node.location.start) = node :=
    phrase_of_moved rigid accepted' (by rw [same]; exact again balanced)
  refine ⟨accepted', ⟨?_, fun balanced => ?_⟩, fun copy parsed => ?_, fun plain => ?_⟩
  · rintro ⟨copy, parsed⟩
    exact balanced_of_phrase parsed
  · obtain ⟨copy, parsed, -⟩ := copied balanced
    exact ⟨copy, parsed⟩
  · obtain ⟨copy', parsed', moved⟩ := copied (balanced_of_phrase parsed)
    cases parsed.symm.trans parsed'
    exact moved
  · obtain ⟨copy, parsed, -⟩ := copied (matching plain)
    exact ⟨copy, parsed⟩

theorem Source.excerpts_read_sum :
    let source : Source := ⟨"test", "(a + b) * c"⟩
    let sum : Phrase := .binary ⟨source, 1, 6⟩ .add
      (.ident ⟨source, 1, 2⟩ ⟨"a", ⟨source, 1, 2⟩⟩) (.ident ⟨source, 5, 6⟩ ⟨"b", ⟨source, 5, 6⟩⟩)
    let product : Phrase := .binary ⟨source, 1, 11⟩ .multiply sum
      (.ident ⟨source, 10, 11⟩ ⟨"c", ⟨source, 10, 11⟩⟩)
    source.phrase = .ok product ∧ sum ∈ product.nodes ∧
      ∃ copy, (sum.location.excerpt "sum").phrase = .ok copy ∧
        copy.relocate (shift source 1) = sum := by
  intro source sum product
  have read : source.phrase = .ok product := by cbv
  have part : sum ∈ product.nodes := .tail _ (.head _)
  obtain ⟨-, readable, same, -⟩ := excerpts_read read part "sum"
  obtain ⟨copy, parsed⟩ := readable.mpr (by decide +kernel)
  exact ⟨read, part, copy, parsed, same copy parsed⟩

/-- The text of an operation is not always a phrase: that of `(a) + b` starts behind the first
parenthesis. -/
theorem Source.excerpt_cut_off :
    ¬ ∀ (source : Source) (phrase node : Phrase) (name : String),
      source.phrase = .ok phrase → node ∈ phrase.nodes →
      ∃ copy, (node.location.excerpt name).phrase = .ok copy ∧
        copy.relocate (shift source node.location.start) = node := by
  intro all
  let source : Source := ⟨"test", "(a) + b"⟩
  let sum : Phrase := .binary ⟨source, 1, 7⟩ .add
    (.ident ⟨source, 1, 2⟩ ⟨"a", ⟨source, 1, 2⟩⟩) (.ident ⟨source, 6, 7⟩ ⟨"b", ⟨source, 6, 7⟩⟩)
  have read : source.phrase = .ok sum := by cbv
  obtain ⟨copy, parsed, -⟩ := all source sum sum "sum" read List.mem_cons_self
  have unbalanced : ¬ Balanced
      ((sum.location.excerpt "sum").lex.tokens.map (·.token)) := by decide +kernel
  exact unbalanced (balanced_of_phrase parsed)

end ShapeLang
