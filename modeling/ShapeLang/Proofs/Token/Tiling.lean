import Mathlib.Data.List.Pairwise
import ShapeLang.Proofs.Token.Longest
import ShapeLang.Proofs.Token.Order

/-! # Lexing loses nothing

A text is tiled by its tokens, its rejected parts, and the blanks and comments between them: each
starts where the one before it ends. Every tile but the rejected ones is the longest match of a
rule, and a token that stands alone is read as the same token.
-/

namespace ShapeLang

section Bytes

variable {before word after : List Char}

theorem byteLength_append (cs ds : List Char) :
    byteLength (cs ++ ds) = byteLength cs + byteLength ds := by
  induction cs with
  | nil => simp [byteLength]
  | cons c cs ih => simp [byteLength, ih, Nat.add_assoc]

theorem dropBytes?_append (before after : List Char) :
    dropBytes? (before ++ after) (byteLength before) = some after := by
  induction before with
  | nil => cases after <;> rfl
  | cons c before ih =>
    have size := c.utf8Size_pos
    obtain ⟨n, bytes⟩ : ∃ n, byteLength (c :: before) = n + 1 :=
      ⟨byteLength (c :: before) - 1, by rw [byteLength]; omega⟩
    have rest : n + 1 - c.utf8Size = byteLength before := by rw [← bytes, byteLength]; omega
    have fits : c.utf8Size ≤ n + 1 := by rw [← bytes, byteLength]; omega
    rw [bytes, List.cons_append, dropBytes?, if_pos fits, rest, ih]

theorem takeBytes?_append (word after : List Char) :
    takeBytes? (word ++ after) (byteLength word) = some word := by
  induction word with
  | nil => cases after <;> rfl
  | cons c word ih =>
    have size := c.utf8Size_pos
    obtain ⟨n, bytes⟩ : ∃ n, byteLength (c :: word) = n + 1 :=
      ⟨byteLength (c :: word) - 1, by rw [byteLength]; omega⟩
    have rest : n + 1 - c.utf8Size = byteLength word := by rw [← bytes, byteLength]; omega
    have fits : c.utf8Size ≤ n + 1 := by rw [← bytes, byteLength]; omega
    rw [bytes, List.cons_append, takeBytes?, if_pos fits, rest, ih]
    rfl

end Bytes

/-- Fuel beyond the length of the text changes nothing. -/
theorem piecesUpTo_eq {fuel fuel' : Nat} {cs : List Char} (enough : cs.length ≤ fuel)
    (enough' : cs.length ≤ fuel') : piecesUpTo fuel cs = piecesUpTo fuel' cs := by
  induction fuel generalizing fuel' cs with
  | zero =>
    obtain rfl := List.length_eq_zero_iff.mp (Nat.le_zero.mp enough)
    cases fuel' <;> rfl
  | succ fuel ih =>
    cases cs with
    | nil => cases fuel' <;> rfl
    | cons c rest =>
      cases fuel' with
      | zero => cases enough'
      | succ fuel' =>
        have cut := congrArg List.length (Piece.right_first c rest).1
        have size := List.length_pos_iff.mpr (Piece.first_taken_ne_nil c rest)
        simp only [List.length_append, List.length_cons] at cut enough enough'
        simp only [piecesUpTo, List.cons.injEq, true_and]
        exact ih (by omega) (by omega)

theorem pieces_cons (c : Char) (rest : List Char) :
    pieces (c :: rest) = Piece.first c rest :: pieces (Piece.first c rest).rest := by
  have cut := congrArg List.length (Piece.right_first c rest).1
  have size := List.length_pos_iff.mpr (Piece.first_taken_ne_nil c rest)
  simp only [List.length_append, List.length_cons] at cut
  simp only [pieces, List.length_cons, piecesUpTo, List.cons.injEq, true_and]
  exact piecesUpTo_eq (by omega) (Nat.le_refl _)

namespace Location

variable {location : Location} {word after : List Char}

/-- The range covers a part of the text, between two characters each, and the text goes on behind
it. -/
def Covers (location : Location) (word after : List Char) : Prop :=
  ∃ before, location.source.chars = before ++ (word ++ after) ∧
    location.start = byteLength before ∧ location.stop = byteLength (before ++ word)

/-- Two ranges have nothing in common: one of them ends before the other starts. -/
def Apart (first second : Location) : Prop :=
  first.stop ≤ second.start ∨ second.stop ≤ first.start

theorem Covers.text (covers : location.Covers word after) :
    location.text = String.ofList word := by
  obtain ⟨before, whole, start, stop⟩ := covers
  rw [byteLength_append] at stop
  have size : location.stop - location.start = byteLength word := by omega
  unfold Location.text Source.slice
  rw [if_pos (by omega), whole, start, dropBytes?_append, Option.bind_some, ← start, size,
    takeBytes?_append]

end Location

/-- A part of a text, by what the lexer makes of it. -/
inductive Tile where
  | lexeme (lexeme : Lexeme)
  | rejection (rejection : Rejection)
  /-- Blanks or a comment. -/
  | gap (location : Location)

namespace Tile

def location : Tile → Location
  | lexeme l => l.location
  | rejection r => r.location
  | gap location => location

def lexeme? : Tile → Option Lexeme
  | lexeme l => some l
  | _ => none

def rejection? : Tile → Option Rejection
  | rejection r => some r
  | _ => none

theorem location_of_lexeme? {tile : Tile} {lexeme : Lexeme} (is : tile.lexeme? = some lexeme) :
    tile.location = lexeme.location := by
  cases tile with
  | lexeme => cases is; rfl
  | _ => cases is

theorem location_of_rejection? {tile : Tile} {rejection : Rejection}
    (is : tile.rejection? = some rejection) : tile.location = rejection.location := by
  cases tile with
  | rejection => cases is; rfl
  | _ => cases is

/-- What a tile says about the text is right: it is the longest match of a rule, which makes the
token and makes it of the text alone as well; or no rule matches anything where it starts. -/
def Right (source : Source) : Tile → Prop
  | lexeme ⟨token, location⟩ => location.source = source ∧
    ∃ (rule : Rule) (word after : List Char), location.Covers word after ∧
      rule.Applies word after ∧ rule.token? word = some token ∧
      ∀ name, Source.lex ⟨name, location.text⟩ =
        ⟨[⟨token, ⟨⟨name, location.text⟩, 0, byteLength word⟩⟩], []⟩
  | rejection ⟨char, location⟩ => location.source = source ∧
    ∃ word after : List Char, location.Covers (char :: word) after ∧
      Rule.Fails (char :: word ++ after)
  | gap location => location.source = source ∧
    ∃ word after : List Char, location.Covers word after ∧
      (Rule.blanks.Applies word after ∨ Rule.comment.Applies word after)

end Tile

/-- Ranges that cover everything between two offsets, one after the other; none is empty. -/
def Consecutive : Nat → Nat → List Location → Prop
  | start, stop, [] => start = stop
  | start, stop, location :: rest =>
    location.start = start ∧ start < location.stop ∧ Consecutive location.stop stop rest

theorem Consecutive.pairwise {start stop : Nat} {locations : List Location}
    (consecutive : Consecutive start stop locations) :
    (∀ location ∈ locations, start ≤ location.start) ∧
      locations.Pairwise (·.stop ≤ ·.start) := by
  induction locations generalizing start with
  | nil => exact ⟨by simp, .nil⟩
  | cons location rest ih =>
    obtain ⟨starts, size, consecutive⟩ := consecutive
    obtain ⟨behind, order⟩ := ih consecutive
    refine ⟨List.forall_mem_cons.mpr ⟨Nat.le_of_eq starts.symm, fun other mem => ?_⟩, ?_⟩
    · exact Nat.le_trans (Nat.le_of_lt size) (behind other mem)
    · exact .cons behind order

namespace Lexing

/-- The tile for a piece of the text. -/
def tile (source : Source) (start : Nat) (piece : Piece) : Tile :=
  let location : Location := ⟨source, start, start + byteLength piece.taken⟩
  match piece.finding, piece.taken with
  | .token token, _ => .lexeme ⟨token, location⟩
  | .rejected, c :: _ => .rejection ⟨c, location⟩
  | _, _ => .gap location

def tiles (source : Source) : Nat → List Piece → List Tile
  | _, [] => []
  | start, piece :: pieces =>
    tile source start piece :: tiles source (start + byteLength piece.taken) pieces

variable {source : Source}

theorem collect_eq (source : Source) (start : Nat) (pieces : List Piece) :
    collect source start pieces =
      ⟨(tiles source start pieces).filterMap Tile.lexeme?,
        (tiles source start pieces).filterMap Tile.rejection?⟩ := by
  induction pieces generalizing start with
  | nil => rfl
  | cons piece pieces ih =>
    obtain ⟨finding, taken, rest⟩ := piece
    unfold collect tiles tile
    dsimp only
    rw [ih]
    cases finding with
    | skipped => rfl
    | token token => rfl
    | rejected => cases taken <;> rfl

/-- A text that is a single match is one piece. -/
theorem lex_single {rule : Rule} {word : List Char} {token : Token}
    (applies : rule.Applies word []) (reads : rule.token? word = some token) (name text : String)
    (is : text.toList = word) :
    Source.lex ⟨name, text⟩ = ⟨[⟨token, ⟨⟨name, text⟩, 0, byteLength word⟩⟩], []⟩ := by
  obtain ⟨c, more, rfl, -⟩ := Rule.starts_of_mem applies.matched
  have right : Piece.Right ⟨.token token, c :: more, []⟩ (c :: more) :=
    ⟨List.append_nil _, rule, applies, reads⟩
  have first := right.unique (Piece.right_first c more) (by simp)
  have cut : pieces (c :: more) = [⟨.token token, c :: more, []⟩] := by
    rw [pieces_cons, first]
    rfl
  rw [Source.lex, Source.chars, is, cut]
  simp [collect]

theorem tile_right {before cs : List Char} {piece : Piece} (whole : source.chars = before ++ cs)
    (right : piece.Right cs) (some : piece.taken ≠ []) :
    (tile source (byteLength before) piece).location =
        ⟨source, byteLength before, byteLength before + byteLength piece.taken⟩ ∧
      (tile source (byteLength before) piece).Right source := by
  obtain ⟨finding, taken, rest⟩ := piece
  obtain ⟨cut, right⟩ := right
  dsimp only at cut right some
  subst cut
  have covers : Location.Covers ⟨source, byteLength before, byteLength before + byteLength taken⟩
      taken rest := ⟨before, whole, rfl, (byteLength_append ..).symm⟩
  cases finding with
  | skipped => exact ⟨rfl, rfl, taken, rest, covers, right⟩
  | token token =>
    obtain ⟨rule, applies, reads⟩ := right
    refine ⟨rfl, rfl, rule, taken, rest, covers, applies, reads, fun name => ?_⟩
    exact lex_single applies.alone reads name _ (by rw [covers.text, String.toList_ofList])
  | rejected =>
    cases taken with
    | nil => exact (some rfl).elim
    | cons c word => exact ⟨rfl, rfl, word, rest, covers, right⟩

/-- The tiles of a text from some place on. -/
theorem tiles_right (fuel : Nat) (before cs : List Char) (whole : source.chars = before ++ cs)
    (enough : cs.length ≤ fuel) :
    Consecutive (byteLength before) source.size
        ((tiles source (byteLength before) (piecesUpTo fuel cs)).map Tile.location) ∧
      ∀ tile ∈ tiles source (byteLength before) (piecesUpTo fuel cs), tile.Right source := by
  induction fuel generalizing before cs with
  | zero =>
    obtain rfl := List.length_eq_zero_iff.mp (Nat.le_zero.mp enough)
    rw [List.append_nil] at whole
    exact ⟨by simp [piecesUpTo, tiles, Consecutive, Source.size, whole], by simp [piecesUpTo, tiles]⟩
  | succ fuel ih =>
    cases cs with
    | nil =>
      rw [List.append_nil] at whole
      exact ⟨by simp [piecesUpTo, tiles, Consecutive, Source.size, whole],
        by simp [piecesUpTo, tiles]⟩
    | cons c more =>
      have right := Piece.right_first c more
      have some := Piece.first_taken_ne_nil c more
      have size := List.length_pos_iff.mpr some
      have cut : ((Piece.first c more).taken ++ (Piece.first c more).rest).length =
        (c :: more).length := congrArg List.length right.1
      rw [List.length_append] at cut
      have whole' : source.chars =
          (before ++ (Piece.first c more).taken) ++ (Piece.first c more).rest := by
        rw [List.append_assoc, right.1, whole]
      obtain ⟨consecutive, others⟩ := ih _ _ whole' (by omega)
      obtain ⟨place, here⟩ := tile_right whole right some
      rw [byteLength_append] at consecutive others
      unfold piecesUpTo tiles
      rw [List.map_cons]
      refine ⟨⟨by rw [place], ?_, by rw [place]; exact consecutive⟩, ?_⟩
      · rw [place]
        exact Nat.lt_add_of_pos_right (byteLength_pos some)
      · exact List.forall_mem_cons.mpr ⟨here, others⟩

end Lexing

/-- Lexing loses and duplicates nothing: the tokens and the rejected parts, in their order, are
tiles of the text, between blanks and comments. So they are in increasing order and apart from each
other. -/
theorem Source.lex_loses_nothing (source : Source) :
    (∃ tiles : List Tile,
      Consecutive 0 source.size (tiles.map Tile.location) ∧
      tiles.filterMap Tile.lexeme? = source.lex.tokens ∧
      tiles.filterMap Tile.rejection? = source.lex.rejections ∧
      ∀ tile ∈ tiles, tile.Right source) ∧
    source.lex.tokens.Pairwise (·.location.stop ≤ ·.location.start) ∧
    source.lex.rejections.Pairwise (·.location.stop ≤ ·.location.start) ∧
    ∀ lexeme ∈ source.lex.tokens, ∀ rejection ∈ source.lex.rejections,
      lexeme.location.Apart rejection.location := by
  obtain ⟨consecutive, right⟩ :=
    Lexing.tiles_right source.chars.length [] source.chars rfl (Nat.le_refl _)
  have sorted : source.lex = ⟨_, _⟩ := Lexing.collect_eq source 0 (pieces source.chars)
  have order := List.pairwise_map.mp consecutive.pairwise.2
  refine ⟨⟨_, consecutive, ?_, ?_, right⟩, ?_, ?_, ?_⟩
  · rw [sorted]
    rfl
  · rw [sorted]
    rfl
  · rw [sorted]
    refine List.pairwise_filterMap.mpr (order.imp fun before lexeme is lexeme' is' => ?_)
    rwa [← Tile.location_of_lexeme? is, ← Tile.location_of_lexeme? is']
  · rw [sorted]
    refine List.pairwise_filterMap.mpr (order.imp fun before rejection is rejection' is' => ?_)
    rwa [← Tile.location_of_rejection? is, ← Tile.location_of_rejection? is']
  · rw [sorted]
    intro lexeme mem rejection mem'
    obtain ⟨tile, listed, is⟩ := List.mem_filterMap.mp mem
    obtain ⟨tile', listed', is'⟩ := List.mem_filterMap.mp mem'
    rw [← Tile.location_of_lexeme? is, ← Tile.location_of_rejection? is']
    have symmetric : Std.Symm fun tile tile' : Tile => tile.location.Apart tile'.location :=
      ⟨fun _ _ => Or.symm⟩
    have apart := order.imp (S := fun tile tile' => tile.location.Apart tile'.location) .inl
    apply apart.forall listed listed'
    rintro rfl
    cases tile with
    | lexeme => cases is'
    | _ => cases is

end ShapeLang
