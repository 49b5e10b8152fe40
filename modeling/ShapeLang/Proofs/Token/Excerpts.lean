import ShapeLang.Proofs.Grammar.Located
import ShapeLang.Proofs.Token.Tiling

/-! # A part of a text has the tokens that are in it

The lexer decides piece by piece, and what comes before a piece has no influence on it. What comes
after it matters only as far as a piece could have been longer. So a part of a text that starts
where a token starts and ends where one ends is cut as it is in the whole text.
-/

namespace ShapeLang

open ShapeLang.Grammar

namespace Piece

variable {cs taken after more : List Char} {finding : Finding}

/-- The piece is right too if the text ends sooner. -/
theorem Right.sooner (right : Right ⟨finding, taken, after ++ more⟩ cs)
    (good : finding ≠ .rejected) : Right ⟨finding, taken, after⟩ (taken ++ after) := by
  refine ⟨rfl, ?_⟩
  obtain ⟨-, right⟩ := right
  cases finding with
  | skipped => exact right.imp Rule.Applies.sooner Rule.Applies.sooner
  | token token =>
    obtain ⟨rule, applies, reads⟩ := right
    exact ⟨rule, applies.sooner, reads⟩
  | rejected => exact (good rfl).elim

end Piece

section Pieces

/-- The text that some pieces take. -/
def textOf (pieces : List Piece) : List Char := pieces.flatMap (·.taken)

/-- What is found where. -/
def Piece.cut (piece : Piece) : Finding × List Char := (piece.finding, piece.taken)

variable {cs : List Char} {first others : List Piece}

/-- What follows some pieces is cut on its own. -/
theorem pieces_later (whole : pieces cs = first ++ others) :
    ∃ rest, cs = textOf first ++ rest ∧ pieces rest = others := by
  induction first generalizing cs with
  | nil => exact ⟨cs, rfl, whole⟩
  | cons piece first ih =>
    cases cs with
    | nil => cases whole
    | cons c tail =>
      rw [pieces_cons, List.cons_append] at whole
      obtain ⟨rfl, later⟩ := List.cons.inj whole
      obtain ⟨rest, is, cut⟩ := ih later
      refine ⟨rest, ?_, cut⟩
      rw [← (Piece.right_first c tail).1, is]
      simp [textOf]

/-- A text that ends where a piece does is cut into the pieces up to there. -/
theorem pieces_sooner {more : List Char} (whole : pieces (textOf first ++ more) = first ++ others)
    (good : ∀ piece ∈ first, piece.finding ≠ .rejected) :
    (pieces (textOf first)).map Piece.cut = first.map Piece.cut := by
  induction first with
  | nil => rfl
  | cons piece first ih =>
    obtain ⟨one, rest⟩ := List.forall_mem_cons.mp good
    have text : textOf (piece :: first) ++ more = piece.taken ++ (textOf first ++ more) := by
      simp [textOf]
    rw [text] at whole
    cases start : piece.taken ++ (textOf first ++ more) with
    | nil =>
      rw [start] at whole
      cases whole
    | cons c tail =>
      rw [start, pieces_cons, List.cons_append] at whole
      obtain ⟨is, later⟩ := List.cons.inj whole
      have right := Piece.right_first c tail
      rw [is] at right later
      have after : piece.rest = textOf first ++ more :=
        List.append_cancel_left (right.1.trans start.symm)
      obtain ⟨finding, _, _⟩ := piece
      obtain rfl := after
      have right' := right.sooner one
      -- The piece takes the first character, so the shorter text begins with it as well.
      have some : (Piece.first c tail).taken ≠ [] := Piece.first_taken_ne_nil c tail
      rw [is] at some
      obtain ⟨d, word, rfl⟩ := List.exists_cons_of_ne_nil some
      have same := right'.unique (Piece.right_first d (word ++ textOf first)) one
      have unfolded : textOf (⟨finding, d :: word, textOf first ++ more⟩ :: first) =
          d :: (word ++ textOf first) := by simp [textOf]
      rw [unfolded, pieces_cons, same, List.map_cons, List.map_cons, ih later rest]
      rfl

end Pieces

namespace Lexing

variable {source part : Source} {start : Nat} {pieces others : List Piece}
variable {before core after : List Lexeme}

theorem tokens_cons (source : Source) (start : Nat) (piece : Piece) (pieces : List Piece) :
    (collect source start (piece :: pieces)).tokens =
      (tile source start piece).lexeme?.toList ++
        (collect source (start + byteLength piece.taken) pieces).tokens := by
  rw [collect_eq, collect_eq, tiles, List.filterMap_cons]
  cases (tile source start piece).lexeme? <;> rfl

theorem location_of_tile {piece : Piece} {lexeme : Lexeme}
    (is : (tile source start piece).lexeme? = some lexeme) :
    lexeme.location = ⟨source, start, start + byteLength piece.taken⟩ := by
  rw [← Tile.location_of_lexeme? is]
  unfold tile
  split <;> rfl

theorem byteLength_textOf_cons (piece : Piece) (pieces : List Piece) :
    byteLength (textOf (piece :: pieces)) = byteLength piece.taken + byteLength (textOf pieces) :=
  byteLength_append ..

/-- The tokens from some token on are those of the pieces from some piece on. -/
theorem tokens_later (found : (collect source start pieces).tokens = before ++ core)
    (some : core ≠ []) :
    ∃ first rest, pieces = first ++ rest ∧
      (span core).source = source ∧ (span core).start = start + byteLength (textOf first) ∧
      (collect source (start + byteLength (textOf first)) rest).tokens = core := by
  induction pieces generalizing start before with
  | nil => exact (some (List.append_eq_nil_iff.mp found.symm).2).elim
  | cons piece pieces ih =>
    have cut := tokens_cons source start piece pieces
    by_cases here : before = [] ∧ (tile source start piece).lexeme?.isSome
    · obtain ⟨rfl, one⟩ := here
      obtain ⟨lexeme, is⟩ := Option.isSome_iff_exists.mp one
      refine ⟨[], piece :: pieces, rfl, ?_⟩
      rw [is] at cut
      obtain rfl : core = _ := found.symm.trans cut
      simp [span, location_of_tile is, textOf, byteLength, cut]
    · have found : ∃ before,
          (collect source (start + byteLength piece.taken) pieces).tokens = before ++ core := by
        cases is : (tile source start piece).lexeme? with
        | none => exact ⟨before, by rw [← found, cut, is]; rfl⟩
        | some lexeme =>
          obtain ⟨first, before, rfl⟩ :=
            List.exists_cons_of_ne_nil fun none => here ⟨none, by rw [is]; rfl⟩
          rw [found, is] at cut
          exact ⟨before, (List.cons.inj cut).2.symm⟩
      obtain ⟨before, found⟩ := found
      obtain ⟨first, rest, is, place⟩ := ih found
      refine ⟨piece :: first, rest, by rw [is, List.cons_append], ?_⟩
      rw [byteLength_textOf_cons, ← Nat.add_assoc]
      exact place

/-- The tokens up to some token are those of the pieces up to some piece. -/
theorem tokens_sooner (found : (collect source start pieces).tokens = core ++ after) :
    ∃ first rest, pieces = first ++ rest ∧ (collect source start first).tokens = core ∧
      ending start core = start + byteLength (textOf first) := by
  induction pieces generalizing start core with
  | nil =>
    obtain ⟨rfl, -⟩ := List.append_eq_nil_iff.mp found.symm
    exact ⟨[], [], rfl, rfl, rfl⟩
  | cons piece pieces ih =>
    cases core with
    | nil => exact ⟨[], _, rfl, rfl, rfl⟩
    | cons lexeme core =>
      rw [tokens_cons] at found
      cases is : (tile source start piece).lexeme? with
      | none =>
        have later : (collect source (start + byteLength piece.taken) pieces).tokens =
            (lexeme :: core) ++ after := by simpa [is] using found
        obtain ⟨first, rest, whole, tokens, stop⟩ := ih later
        refine ⟨piece :: first, rest, by rw [whole, List.cons_append], ?_, ?_⟩
        · rw [tokens_cons, is]
          exact tokens
        · rw [byteLength_textOf_cons, ← Nat.add_assoc]
          exact stop
      | some own =>
        rw [is] at found
        obtain ⟨rfl, later⟩ := List.cons.inj found
        obtain ⟨first, rest, whole, tokens, stop⟩ := ih later
        refine ⟨piece :: first, rest, by rw [whole, List.cons_append], ?_, ?_⟩
        · rw [tokens_cons, is, tokens]
          rfl
        · rw [byteLength_textOf_cons, ← Nat.add_assoc, ← stop, ending, List.foldl_cons,
            location_of_tile is]
          rfl

/-- Only what is found where counts. In another source it is as much further on as the pieces
start. -/
theorem tokens_shift (source part : Source) (start offset : Nat)
    (same : pieces.map Piece.cut = others.map Piece.cut) :
    (collect part start pieces).tokens.map (·.relocate (shift source offset)) =
      (collect source (start + offset) others).tokens := by
  induction pieces generalizing start others with
  | nil =>
    obtain rfl := List.map_eq_nil_iff.mp same.symm
    rfl
  | cons piece pieces ih =>
    obtain ⟨other, others, rfl, cut, later⟩ := List.map_eq_cons_iff.mp same.symm
    obtain ⟨finding, taken, rest⟩ := piece
    obtain ⟨_, _, rest'⟩ := other
    cases cut
    rw [tokens_cons, tokens_cons, List.map_append, ih _ later.symm, Nat.add_right_comm]
    congr 1
    unfold tile
    cases finding with
    | skipped => rfl
    | token token => simp [Tile.lexeme?, Lexeme.relocate, shift, Nat.add_right_comm]
    | rejected => cases taken <;> rfl

theorem rejections_eq_nil_iff (source : Source) (start : Nat)
    (some : ∀ piece ∈ pieces, piece.taken ≠ []) :
    (collect source start pieces).rejections = [] ↔
      ∀ piece ∈ pieces, piece.finding ≠ .rejected := by
  induction pieces generalizing start with
  | nil => simp [collect]
  | cons piece pieces ih =>
    obtain ⟨one, rest⟩ := List.forall_mem_cons.mp some
    obtain ⟨c, word, taken⟩ := List.exists_cons_of_ne_nil one
    rw [List.forall_mem_cons, ← ih (start + byteLength piece.taken) rest, collect]
    cases finding : piece.finding <;> simp [taken]

end Lexing

/-- The text of a place as a source of its own. -/
def Location.excerpt (location : Location) (name : String) : Source := ⟨name, location.text⟩

/-- A part of a text from a token to a token has these tokens and those between them. -/
theorem Source.lex_excerpt {source : Source} {core : List Lexeme}
    (accepted : source.lex.rejections = []) (some : core ≠ [])
    (inside : core <:+: source.lex.tokens) (name : String) :
    let part := (span core).excerpt name
    part.lex.rejections = [] ∧
      part.lex.tokens.map (·.relocate (shift source (span core).start)) = core := by
  intro part
  obtain ⟨lexeme, core, rfl⟩ := List.exists_cons_of_ne_nil some
  obtain ⟨before, after, found⟩ := inside
  rw [List.append_assoc] at found
  obtain ⟨first, rest, cut, home, begins, found⟩ := Lexing.tokens_later found.symm (by simp)
  obtain ⟨middle, last, rfl, tokens, ends⟩ := Lexing.tokens_sooner found
  obtain ⟨text, whole, cut'⟩ := pieces_later cut
  obtain ⟨more, rfl, -⟩ := pieces_later cut'
  rw [Nat.zero_add] at begins tokens ends
  have text : part.chars = textOf middle := by
    have covers : (span (lexeme :: core)).Covers (textOf middle) more := by
      refine ⟨textOf first, ?_, begins, ?_⟩
      · rw [← whole]
        exact congrArg Source.chars home
      · rw [byteLength_append]
        exact ends
    simp only [part, Location.excerpt, Source.chars, covers.text, String.toList_ofList]
  have good : ∀ piece ∈ middle, piece.finding ≠ .rejected := by
    have all :=
      (Lexing.rejections_eq_nil_iff source 0 (pieces_taken_ne_nil source.chars)).mp accepted
    rw [cut] at all
    exact fun piece mem => all piece (by simp [mem])
  have same := pieces_sooner cut' good
  rw [← text] at same
  constructor
  · refine (Lexing.rejections_eq_nil_iff part 0 (pieces_taken_ne_nil _)).mpr fun piece mem => ?_
    obtain ⟨other, mem', cut⟩ := List.mem_map.mp (same ▸ List.mem_map_of_mem mem)
    rw [← (Prod.mk.inj cut).1]
    exact good other mem'
  · have moved := Lexing.tokens_shift source part 0 (byteLength (textOf first)) same
    rw [Nat.zero_add, tokens, ← begins] at moved
    exact moved

end ShapeLang
