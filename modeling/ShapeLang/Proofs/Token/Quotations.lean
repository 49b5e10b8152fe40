import ShapeLang.Proofs.Token.Excerpts
import ShapeLang.Proofs.Token.Spelling

/-! # Every text can be written as a literal

Between quotes a backslash, a quote, a line feed and a tab are written with escapes, and everything
else as it is. A literal that is written so is one token wherever a token can start: what comes
before the opening quote cannot reach over it, and the closing quote is the first one that no
backslash takes with it.

What stands between the quotes of a literal always has a meaning, since no backslash is left over.
An escape that is not known stands for itself.
-/

namespace ShapeLang

namespace Quoted

/-- What the characters between two quotes stand for. -/
inductive Means : List Char → List Char → Prop
  | nil : Means [] []
  | plain {c : Char} {cs content : List Char} (noEscape : c ≠ '\\') (rest : Means cs content) :
    Means (c :: cs) (c :: content)
  | lineFeed {cs content : List Char} (rest : Means cs content) :
    Means ('\\' :: 'n' :: cs) ('\n' :: content)
  | tab {cs content : List Char} (rest : Means cs content) :
    Means ('\\' :: 't' :: cs) ('\t' :: content)
  | backslash {cs content : List Char} (rest : Means cs content) :
    Means ('\\' :: '\\' :: cs) ('\\' :: content)
  | quote {cs content : List Char} (rest : Means cs content) :
    Means ('\\' :: '"' :: cs) ('"' :: content)
  /-- An escape that is not known is kept. -/
  | unknown {c : Char} {cs content : List Char} (unknown : c ∉ ['n', 't', '\\', '"'])
    (rest : Means cs content) : Means ('\\' :: c :: cs) ('\\' :: c :: content)

variable {cs content : List Char}

theorem means_of_decode? (decoded : decode? cs = some content) : Means cs content := by
  fun_induction decode? cs generalizing content with
  | case1 =>
    cases decoded
    exact .nil
  | case2 c rest ih =>
    obtain ⟨tail, found, rfl⟩ := Option.map_eq_some_iff.mp decoded
    have rest := ih found
    split
    · rename_i same
      subst same
      exact .lineFeed rest
    split
    · rename_i same
      subst same
      exact .tab rest
    split
    · rename_i same
      subst same
      exact .backslash rest
    split
    · rename_i same
      subst same
      exact .quote rest
    · exact .unknown (by simp [*]) rest
  | case3 => cases decoded
  | case4 c rest _ noEscape ih =>
    obtain ⟨tail, found, rfl⟩ := Option.map_eq_some_iff.mp decoded
    exact .plain noEscape (ih found)

theorem Means.decode? (means : Means cs content) : decode? cs = some content := by
  induction means with
  | nil => rfl
  | @plain c cs content noEscape rest ih =>
    rw [Quoted.decode?, if_neg noEscape, ih]
    · rfl
    · exact fun _ _ same => (noEscape same).elim
  | lineFeed rest ih => simp [Quoted.decode?, ih]
  | tab rest ih => simp [Quoted.decode?, ih]
  | backslash rest ih => simp [Quoted.decode?, ih]
  | quote rest ih => simp [Quoted.decode?, ih]
  | unknown unknown rest ih =>
    simp only [List.mem_cons, List.not_mem_nil, or_false, not_or] at unknown
    simp [Quoted.decode?, ih, unknown]

/-- What is written with escapes stands between quotes, and for what was written. -/
theorem means_encode (content : List Char) : encode content ∈ inside ∧ Means (encode content) content := by
  induction content with
  | nil => exact ⟨nil_mem_inside, .nil⟩
  | cons c content ih =>
    obtain ⟨mem, means⟩ := ih
    unfold encode
    split
    · rename_i same
      subst same
      exact ⟨escape_mem_inside (by decide) mem, .backslash means⟩
    split
    · rename_i same
      subst same
      exact ⟨escape_mem_inside (by decide) mem, .quote means⟩
    split
    · rename_i same
      subst same
      exact ⟨escape_mem_inside (by decide) mem, .lineFeed means⟩
    split
    · rename_i same
      subst same
      exact ⟨escape_mem_inside (by decide) mem, .tab means⟩
    · rename_i noEscape noQuote _ _
      exact ⟨cons_mem_inside ⟨noQuote, noEscape⟩ mem, .plain noEscape means⟩

/-- A text as it is written in a program. -/
def literal (content : List Char) : List Char := '"' :: (encode content ++ ['"'])

/-- Everything between quotes is read as what it stands for. -/
theorem first_of_inside (mem : cs ∈ inside) (after : List Char) :
    ∃ content, Means cs content ∧ Piece.first '"' (cs ++ '"' :: after) =
      ⟨.token (.text (String.ofList content)), '"' :: (cs ++ ['"']), after⟩ := by
  have closed := ending_of_inside mem after
  obtain ⟨-, -, meant⟩ := inside_of_ending closed
  obtain ⟨content, decoded⟩ := Option.isSome_iff_exists.mp meant
  refine ⟨content, means_of_decode? decoded, ?_⟩
  have quote : Piece.first '"' (cs ++ '"' :: after) = Piece.ofQuote (cs ++ '"' :: after) := rfl
  rw [quote, Piece.ofQuote, closed]
  simp only [decoded]

theorem first_literal (content after : List Char) :
    Piece.first '"' ((encode content ++ ['"']) ++ after) =
      ⟨.token (.text (String.ofList content)), literal content, after⟩ := by
  obtain ⟨mem, means⟩ := means_encode content
  obtain ⟨content', means', first⟩ := first_of_inside mem after
  obtain rfl := Option.some.inj (means.decode?.symm.trans means'.decode?)
  rw [List.append_assoc]
  exact first

theorem Ending.push_eq_badEscape {e : Ending} {c : Char} {inner rest : List Char}
    (bad : e.push c = .badEscape inner rest) :
    ∃ more, e = .badEscape more rest ∧ inner = c :: more := by
  cases e with
  | closed => cases bad
  | badEscape more rest =>
    cases bad
    exact ⟨more, rfl, rfl⟩
  | unclosed => cases bad

/-- A bad escape is found before the text goes on behind it. -/
theorem ending_badEscape {inner rest : List Char}
    (bad : ending cs = .badEscape inner ('\\' :: '\n' :: rest)) (more : List Char) :
    ending (inner ++ '\\' :: '\n' :: more) = .badEscape inner ('\\' :: '\n' :: more) := by
  fun_induction ending cs generalizing inner with
  | case1 => cases bad
  | case2 => cases bad
  | case3 =>
    cases bad
    rw [List.nil_append, ending, if_pos rfl]
  | case4 c after taken ih =>
    obtain ⟨_, pushed, rfl⟩ := Ending.push_eq_badEscape bad
    obtain ⟨inner, bad', rfl⟩ := Ending.push_eq_badEscape pushed
    rw [List.cons_append, List.cons_append, ending, if_neg taken, ih bad']
    rfl
  | case5 => cases bad
  | case6 c after noQuote _ noEscape ih =>
    obtain ⟨inner, bad', rfl⟩ := Ending.push_eq_badEscape bad
    rw [List.cons_append, ending, if_neg noEscape, ih bad']
    · rfl
    · exact fun same => (noQuote same).elim
    · exact fun _ _ same => (noEscape same).elim

end Quoted

namespace Rule

open Pattern

variable {rule : Rule} {word after more rest : List Char}

/-- Only comments and texts have quotes in them. -/
theorem comment_or_text_of_quote (matched : word ∈ rule.pattern) (mem : '"' ∈ word) :
    rule = comment ∨ rule = text := by
  have noDigits {digits : List Char} (are : Shader.IsDigits digits) : '"' ∉ digits :=
    fun mem => absurd (are.2 _ mem) (by decide)
  cases rule with
  | comment => exact .inl rfl
  | text => exact .inr rfl
  | blanks => exact absurd ((mem_oneOrMore_oneOf.mp matched).2 _ mem) (by decide)
  | symbol s =>
    cases matched
    cases s <;> exact absurd mem (by decide)
  | boolean value =>
    cases matched
    cases value <;> exact absurd mem (by decide)
  | name =>
    have wordChar := isWordChar_of_mem rfl matched _ mem
    exact absurd wordChar (by decide)
  | number =>
    obtain ⟨digits, part, scale, rfl, are, isPart, isScale⟩ := Numeral.mem_number.mp matched
    rcases List.mem_append.mp mem with mem | mem
    · exact (noDigits are mem).elim
    rcases List.mem_append.mp mem with mem | mem
    · rcases isPart with rfl | ⟨places, rfl, arePlaces⟩
      · cases mem
      · exact (noDigits arePlaces (by simpa using mem)).elim
    · rcases isScale with rfl | ⟨mark, sign, places, rfl, isMark, isSign, arePlaces⟩
      · cases mem
      · rcases List.mem_cons.mp mem with rfl | mem
        · exact absurd isMark (by decide)
        rcases List.mem_append.mp mem with mem | mem
        · simp only [List.mem_cons, List.not_mem_nil, or_false] at isSign
          rcases isSign with rfl | rfl | rfl <;> exact absurd mem (by decide)
        · exact (noDigits arePlaces mem).elim

theorem mem_comment : word ∈ comment.pattern ↔
    ∃ body, word = '/' :: '/' :: body ∧ ∀ c ∈ body, c ≠ '\n' := by
  constructor
  · rintro ⟨_, rfl, body, each, rfl⟩
    exact ⟨body, rfl, mem_kstar_oneOf.mp each⟩
  · rintro ⟨body, rfl, each⟩
    exact ⟨_, rfl, body, mem_kstar_oneOf.mpr each, rfl⟩

/-- A match that ends before some character, which is no line feed, is the longest one as well if
the text goes on with a quote there. -/
theorem Applies.before_quote {d : Char} (applies : rule.Applies word (after ++ d :: more))
    (visible : d ≠ '\n') (rest : List Char) : rule.Applies word (after ++ '"' :: rest) := by
  refine ⟨applies.matched, fun other longer starts matched => ?_, applies.first⟩
  rw [← List.append_assoc] at starts
  have short {found : List Char} (within : found <+: (word ++ after) ++ d :: more)
      (matched : found ∈ other.pattern) : found.length ≤ word.length :=
    applies.longest other found (by rwa [← List.append_assoc]) matched
  rcases List.prefix_or_prefix_of_prefix starts (List.prefix_append (word ++ after) _) with
    within | ⟨tail, rfl⟩
  · exact short (within.trans (List.prefix_append ..)) matched
  cases tail with
  | nil =>
    rw [List.append_nil] at matched ⊢
    exact short (List.prefix_append ..) matched
  | cons q tail =>
    -- The match reaches over the quote, so it is a comment or a text.
    obtain rfl := (List.cons_prefix_cons.mp ((List.prefix_append_right_inj _).mp starts)).1
    rcases comment_or_text_of_quote matched (by simp) with rfl | rfl
    · -- The comment would have taken the character that stands in the place of the quote.
      obtain ⟨body, is, each⟩ := mem_comment.mp matched
      obtain ⟨body', slashes, rfl⟩ : ∃ body', word ++ after = '/' :: '/' :: body' ∧
          body = body' ++ '"' :: tail := by
        rcases cut : word ++ after with _ | ⟨c, _ | ⟨c', body'⟩⟩
        · simp [cut] at is
        · simp [cut] at is
        · rw [cut] at is
          simp only [List.cons_append, List.cons.injEq] at is
          obtain ⟨rfl, rfl, rfl⟩ := is
          exact ⟨body', rfl, rfl⟩
      have comment : word ++ after ++ [d] ∈ comment.pattern := by
        refine mem_comment.mpr ⟨body' ++ [d], by rw [slashes]; rfl, fun c mem => ?_⟩
        rcases List.mem_append.mp mem with mem | mem
        · exact each c (List.mem_append_left _ mem)
        · exact List.mem_singleton.mp mem ▸ visible
      have size := short (by simp) comment
      simp only [List.length_append, List.length_cons, List.length_nil] at size
      omega
    · -- The match is a text, too, and no text goes on behind its closing quote.
      obtain ⟨inner, is, mem⟩ := mem_text.mp matched
      obtain ⟨c, body, rfl, kind⟩ := starts_of_mem applies.matched
      obtain rfl : c = '"' := (List.cons.inj is).1
      obtain rfl := eq_text (kind.symm.trans (by decide))
      obtain ⟨inner', is', mem'⟩ := mem_text.mp applies.matched
      obtain rfl := (List.cons.inj is').2
      have closed := Quoted.ending_of_inside mem []
      have closed' := Quoted.ending_of_inside mem' (after ++ '"' :: tail)
      have same : inner' ++ '"' :: (after ++ '"' :: tail) = inner ++ ['"'] := by
        simpa using (List.cons.inj is).2
      rw [same, closed] at closed'
      simp at closed'

end Rule

/-- A token can start behind the given text: it does if the text goes on in some way. -/
def TokenPlace (before : List Char) : Prop :=
  ∃ (source : Source) (more : List Char) (lexeme : Lexeme), source.chars = before ++ more ∧
    lexeme ∈ source.lex.tokens ∧ lexeme.location.start = byteLength before

section Pieces

variable {c d : Char} {cs tail taken after more : List Char} {finding : Finding}
  {first others : List Piece}

theorem Quoted.starts_of_badEscape {inner : List Char}
    (bad : Quoted.ending cs = .badEscape inner after) :
    after = ['\\'] ∨ ∃ more, after = '\\' :: '\n' :: more := by
  fun_induction Quoted.ending cs generalizing inner with
  | case1 => cases bad
  | case2 => cases bad
  | case3 rest =>
    cases bad
    exact .inr ⟨rest, rfl⟩
  | case4 c after taken ih =>
    obtain ⟨_, pushed, -⟩ := Quoted.Ending.push_eq_badEscape bad
    obtain ⟨inner, bad', -⟩ := Quoted.Ending.push_eq_badEscape pushed
    exact ih bad'
  | case5 =>
    cases bad
    exact .inl rfl
  | case6 c after noQuote _ noEscape ih =>
    obtain ⟨inner, bad', -⟩ := Quoted.Ending.push_eq_badEscape bad
    exact ih bad'

namespace Piece

theorem Right.before_quote (right : Right ⟨finding, taken, after ++ d :: more⟩ cs)
    (good : finding ≠ .rejected) (visible : d ≠ '\n') (rest : List Char) :
    Right ⟨finding, taken, after ++ '"' :: rest⟩ (taken ++ (after ++ '"' :: rest)) := by
  refine ⟨rfl, ?_⟩
  obtain ⟨-, right⟩ := right
  cases finding with
  | skipped => exact right.imp (·.before_quote visible rest) (·.before_quote visible rest)
  | token token =>
    obtain ⟨rule, applies, reads⟩ := right
    exact ⟨rule, applies.before_quote visible rest, reads⟩
  | rejected => exact (good rfl).elim

theorem no_mark_of_rejected (rejected : (ofMark c tail).finding = .rejected) :
    Symbol.single? c = none ∧ ∀ e ∈ tail.head?, Symbol.double? c e = none := by
  unfold ofMark at rejected
  dsimp only at rejected
  split at rejected
  · rename_i piece found
    split at found
    · obtain ⟨s, -, rfl⟩ := Option.map_eq_some_iff.mp found
      cases rejected
    · cases found
  · cases rejected
  · rename_i noDouble noSingle
    refine ⟨noSingle, fun e mem => ?_⟩
    obtain ⟨rest, rfl⟩ := List.head?_eq_some_iff.mp mem
    simpa using noDouble

theorem ofMark_of_no_mark (noSingle : Symbol.single? c = none)
    (noDouble : ∀ e ∈ tail.head?, Symbol.double? c e = none) :
    ofMark c tail = ⟨.rejected, [c], tail⟩ := by
  unfold ofMark
  cases tail with
  | nil => simp [noSingle]
  | cons e rest => simp [noSingle, noDouble e (by simp)]

/-- A quote is the second half of no mark. -/
theorem ofMark_before_quote (rejected : (ofMark c (after ++ d :: more)).finding = .rejected)
    (rest : List Char) :
    ofMark c (after ++ '"' :: rest) = ⟨.rejected, [c], after ++ '"' :: rest⟩ := by
  obtain ⟨noSingle, noDouble⟩ := no_mark_of_rejected rejected
  apply ofMark_of_no_mark noSingle
  cases after with
  | nil =>
    rintro e ⟨⟩
    unfold Symbol.double?
    split <;> simp_all
  | cons e after => exact fun e' mem => noDouble e' (by simpa using mem)

/-- A bad escape is one as well if the text goes on with a quote behind it. -/
theorem ofQuote_before_quote (rejected : ofQuote tail = ⟨.rejected, taken, after ++ d :: more⟩)
    (visible : d ≠ '\n') (noEscape : d ≠ '\\') (rest : List Char) :
    ∃ inner, taken = '"' :: inner ∧
      ofQuote (inner ++ (after ++ '"' :: rest)) = ⟨.rejected, taken, after ++ '"' :: rest⟩ := by
  unfold ofQuote at rejected
  split at rejected
  · rename_i inner behind closed
    obtain ⟨-, -, meant⟩ := Quoted.inside_of_ending closed
    obtain ⟨content, decoded⟩ := Option.isSome_iff_exists.mp meant
    simp [decoded] at rejected
  · rename_i inner behind bad
    obtain ⟨-, rfl, rfl⟩ := Piece.mk.inj rejected
    -- Behind what is rejected stand a backslash and a line feed, and both come before the quote.
    obtain ⟨others, rfl⟩ : ∃ others, after = '\\' :: '\n' :: others := by
      have begins := Quoted.starts_of_badEscape bad
      rcases after with _ | ⟨e, _ | ⟨e', others⟩⟩
      · simp [noEscape] at begins
      · simp [visible] at begins
      · have begins : e = '\\' ∧ e' = '\n' := by simpa using begins
        exact ⟨others, by rw [begins.1, begins.2]⟩
    refine ⟨inner, rfl, ?_⟩
    unfold ofQuote
    rw [List.cons_append, List.cons_append, Quoted.ending_badEscape bad]
  · simp at rejected

/-- What is rejected in front of some character is rejected in front of a quote. -/
theorem rejected_before_quote (rejected : Piece.first c tail = ⟨.rejected, taken, after ++ d :: more⟩)
    (visible : d ≠ '\n') (noEscape : d ≠ '\\') (rest : List Char) :
    ∃ tail', c :: tail' = taken ++ (after ++ '"' :: rest) ∧
      Piece.first c tail' = ⟨.rejected, taken, after ++ '"' :: rest⟩ := by
  unfold Piece.first at rejected
  dsimp only at rejected
  split at rejected
  · cases rejected
  split at rejected
  · cases rejected
  split at rejected
  · cases rejected
  split at rejected
  · cases rejected
  split at rejected
  · rename_i quote
    subst quote
    obtain ⟨inner, rfl, still⟩ := ofQuote_before_quote rejected visible noEscape rest
    exact ⟨_, rfl, still⟩
  · have starts : Rule.Start.of c = .mark := by simp [Rule.Start.of, *]
    obtain ⟨noSingle, noDouble⟩ := no_mark_of_rejected (congrArg Piece.finding rejected)
    have noComment : c ≠ '/' := by
      rintro rfl
      cases noSingle
    rw [ofMark_of_no_mark noSingle noDouble] at rejected
    obtain ⟨-, rfl, rfl⟩ := Piece.mk.inj rejected
    have still := ofMark_before_quote
      (congrArg Piece.finding (ofMark_of_no_mark noSingle noDouble)) rest
    exact ⟨_, rfl, (first_of_mark starts noComment _).trans still⟩

/-- A piece that ends before some character, and is not the last one, is the same if the text goes
on with a quote there. -/
theorem first_before_quote (found : Piece.first c tail = ⟨finding, taken, after ++ d :: more⟩)
    (visible : d ≠ '\n') (noEscape : d ≠ '\\') (rest : List Char) :
    ∃ tail', c :: tail' = taken ++ (after ++ '"' :: rest) ∧
      Piece.first c tail' = ⟨finding, taken, after ++ '"' :: rest⟩ := by
  by_cases good : finding = .rejected
  · subst good
    exact rejected_before_quote found visible noEscape rest
  · have right := right_first c tail
    have some := first_taken_ne_nil c tail
    rw [found] at right some
    obtain ⟨c', word, rfl⟩ := List.exists_cons_of_ne_nil some
    obtain rfl : c' = c := (List.cons.inj right.1).1
    have right' := right.before_quote good visible rest
    exact ⟨_, rfl, right'.unique (right_first _ _) good⟩

end Piece

/-- The pieces of a text up to a place where a token starts are the same if the text goes on with a
quote there. -/
theorem pieces_before_quote (whole : pieces (textOf first ++ d :: more) = first ++ others)
    (visible : d ≠ '\n') (noEscape : d ≠ '\\') (rest : List Char) :
    ∃ first', textOf first' = textOf first ∧
      pieces (textOf first ++ '"' :: rest) = first' ++ pieces ('"' :: rest) := by
  induction first with
  | nil => exact ⟨[], rfl, rfl⟩
  | cons piece first ih =>
    have text (end' : List Char) : textOf (piece :: first) ++ end' =
        piece.taken ++ (textOf first ++ end') := by simp [textOf]
    rw [text] at whole
    cases start : piece.taken ++ (textOf first ++ d :: more) with
    | nil =>
      rw [start] at whole
      cases whole
    | cons c tail =>
      rw [start, pieces_cons, List.cons_append] at whole
      obtain ⟨is, later⟩ := List.cons.inj whole
      have right := (Piece.right_first c tail).1
      rw [is] at right later
      have after : piece.rest = textOf first ++ d :: more :=
        List.append_cancel_left (right.trans start.symm)
      rw [after] at later
      obtain ⟨first', same, cut⟩ := ih later
      obtain ⟨finding, taken, _⟩ := piece
      obtain rfl := after
      obtain ⟨tail', begins, found⟩ := Piece.first_before_quote is visible noEscape rest
      refine ⟨⟨finding, taken, textOf first ++ '"' :: rest⟩ :: first', ?_, ?_⟩
      · simpa [textOf] using same
      · rw [text, ← begins, pieces_cons, found, cut]
        rfl

/-- A token starts with a character that is seen. -/
theorem Piece.visible_of_token {token : Token} (found : (Piece.first c tail).finding = .token token) :
    c ≠ '\n' ∧ c ≠ '\\' := by
  constructor
  · rintro rfl
    cases found
  · rintro rfl
    have mark : Piece.first '\\' tail = ⟨.rejected, ['\\'], tail⟩ := by
      rw [Piece.first_of_mark (by decide) (by decide)]
      refine Piece.ofMark_of_no_mark rfl fun e _ => ?_
      unfold Symbol.double?
      split <;> simp_all
    rw [mark] at found
    cases found

end Pieces

namespace Lexing

variable {source : Source} {before cs : List Char} {start : Nat} {pieces first others : List Piece}

theorem tiles_append (source : Source) (start : Nat) (first others : List Piece) :
    tiles source start (first ++ others) =
      tiles source start first ++ tiles source (start + byteLength (textOf first)) others := by
  induction first generalizing start with
  | nil => rfl
  | cons piece first ih =>
    rw [List.cons_append, tiles, ih, byteLength_textOf_cons, ← Nat.add_assoc]
    rfl

theorem tiles_within (source : Source) (start : Nat) (pieces : List Piece) :
    ∀ tile ∈ tiles source start pieces, start ≤ tile.location.start ∧
      tile.location.stop ≤ start + byteLength (textOf pieces) := by
  induction pieces generalizing start with
  | nil => simp [tiles]
  | cons piece pieces ih =>
    rw [byteLength_textOf_cons, ← Nat.add_assoc]
    refine List.forall_mem_cons.mpr ⟨?_, fun tile mem => ?_⟩
    · have place : (tile source start piece).location =
          ⟨source, start, start + byteLength piece.taken⟩ := by
        unfold tile
        split <;> rfl
      rw [place]
      exact ⟨Nat.le_refl _, Nat.le_add_right ..⟩
    · obtain ⟨low, high⟩ := ih _ tile mem
      exact ⟨Nat.le_trans (Nat.le_add_right ..) low, high⟩

end Lexing

/-- Where the first token of a text starts with the text, the first piece is a token. -/
theorem Lexing.token_of_tokens {source : Source} {start : Nat} {piece : Piece} {pieces : List Piece}
    {lexeme : Lexeme} (some : piece.taken ≠ []) (each : ∀ piece ∈ pieces, piece.taken ≠ [])
    (mem : lexeme ∈ (collect source start (piece :: pieces)).tokens)
    (starts : lexeme.location.start = start) : ∃ token, piece.finding = .token token := by
  have size := byteLength_pos some
  rw [tokens_cons] at mem
  rcases List.mem_append.mp mem with here | later
  · unfold tile at here
    split at here
    · exact ⟨_, ‹_›⟩
    · simp [Tile.lexeme?] at here
    · simp [Tile.lexeme?] at here
  · have behind := (collect_ordered source (start + byteLength piece.taken) pieces each).2 lexeme later
    omega

/-- Where a token can start, a piece starts whatever stands there. -/
theorem TokenPlace.cut {before : List Char} (place : TokenPlace before) (rest : List Char) :
    ∃ first, textOf first = before ∧ pieces (before ++ '"' :: rest) = first ++ pieces ('"' :: rest) := by
  obtain ⟨source, more, lexeme, whole, mem, starts⟩ := place
  obtain ⟨earlier, later, listed⟩ := List.append_of_mem mem
  obtain ⟨first, others, cut, -, begins, tokens⟩ := Lexing.tokens_later listed (by simp)
  obtain ⟨more', is, cut'⟩ := pieces_later cut
  have begins : lexeme.location.start = byteLength (textOf first) := by
    simpa [Grammar.span] using begins
  obtain rfl : more = more' := by
    have here := dropBytes?_append before more
    rw [← whole, is, ← starts, begins, dropBytes?_append] at here
    exact (Option.some.inj here).symm
  obtain rfl : before = textOf first := List.append_cancel_right (whole.symm.trans is)
  rw [Nat.zero_add, ← cut'] at tokens
  cases more with
  | nil => cases tokens
  | cons d tail =>
    rw [pieces_cons] at tokens
    obtain ⟨token, found⟩ := Lexing.token_of_tokens (Piece.first_taken_ne_nil d tail)
      (pieces_taken_ne_nil _) (tokens ▸ List.mem_cons_self) begins
    obtain ⟨visible, noEscape⟩ := Piece.visible_of_token found
    exact pieces_before_quote (is ▸ cut) visible noEscape rest

/-- A literal where a token can start is a tile of its own. -/
theorem Lexing.tiles_literal {source : Source} {content before after : List Char}
    (place : TokenPlace before)
    (whole : source.chars = before ++ (Quoted.literal content ++ after)) :
    let location : Location := ⟨source, byteLength before,
      byteLength before + byteLength (Quoted.literal content)⟩
    ∃ earlier later, tiles source 0 (pieces source.chars) =
        earlier ++ .lexeme ⟨.text (String.ofList content), location⟩ :: later ∧
      ∀ tile ∈ earlier ++ later, tile.location.Apart location := by
  intro location
  obtain ⟨first, rfl, cut⟩ := place.cut (Quoted.encode content ++ ['"'] ++ after)
  have found := Quoted.first_literal content after
  have listed : pieces source.chars = first ++
      ⟨.token (.text (String.ofList content)), Quoted.literal content, after⟩ :: pieces after := by
    rw [whole, Quoted.literal, List.cons_append, cut, pieces_cons, found]
    rfl
  refine ⟨tiles source 0 first, tiles source (0 + byteLength (textOf first) +
    byteLength (Quoted.literal content)) (pieces after), ?_, fun tile mem => ?_⟩
  · rw [listed, tiles_append, tiles]
    simp only [tile, Nat.zero_add]
    rfl
  · rcases List.mem_append.mp mem with mem | mem
    · have before := (tiles_within source 0 first tile mem).2
      rw [Nat.zero_add] at before
      exact .inl before
    · have behind := (tiles_within source _ (pieces after) tile mem).1
      rw [Nat.zero_add] at behind
      exact .inr behind

/-- At any place where a token can start, and whatever follows, every text can be written as a
literal: it is one token there, and nothing of it is rejected. Whatever the lexer takes for a
literal stands for a text, in which the four known escapes are replaced and all others are kept. -/
theorem Source.texts_expressible :
    (∀ (source : Source) (content : String) (before after : List Char), TokenPlace before →
      source.chars = before ++ (Quoted.literal content.toList ++ after) →
      let location : Location := ⟨source, byteLength before,
        byteLength before + byteLength (Quoted.literal content.toList)⟩
      (∃ earlier later, source.lex.tokens = earlier ++ ⟨.text content, location⟩ :: later ∧
        ∀ lexeme ∈ earlier ++ later, lexeme.location.Apart location) ∧
      ∀ rejection ∈ source.lex.rejections, rejection.location.Apart location) ∧
    ∀ word ∈ Rule.text.pattern, ∃ inner content, word = '"' :: (inner ++ ['"']) ∧
      Quoted.Means inner content ∧ Quoted.decode? inner = some content ∧
      ∀ after, Piece.first '"' (inner ++ '"' :: after) =
        ⟨.token (.text (String.ofList content)), word, after⟩ := by
  constructor
  · intro source content before after place whole location
    obtain ⟨earlier, later, listed, apart⟩ := Lexing.tiles_literal place whole
    rw [String.ofList_toList] at listed
    have sorted : source.lex = ⟨_, _⟩ := Lexing.collect_eq source 0 (pieces source.chars)
    rw [sorted, listed, List.filterMap_append, List.filterMap_append]
    constructor
    · refine ⟨_, _, rfl, fun lexeme mem => ?_⟩
      rw [← List.filterMap_append] at mem
      obtain ⟨tile, mem, is⟩ := List.mem_filterMap.mp mem
      rw [← Tile.location_of_lexeme? is]
      exact apart tile mem
    · intro rejection mem
      have mem : rejection ∈ (earlier ++ later).filterMap Tile.rejection? := by
        rw [List.filterMap_append]
        exact mem
      obtain ⟨tile, mem, is⟩ := List.mem_filterMap.mp mem
      rw [← Tile.location_of_rejection? is]
      exact apart tile mem
  · intro word matched
    obtain ⟨inner, rfl, mem⟩ := Rule.mem_text.mp matched
    obtain ⟨content, means, -⟩ := Quoted.first_of_inside mem []
    refine ⟨inner, content, rfl, means, means.decode?, fun after => ?_⟩
    obtain ⟨content', means', found⟩ := Quoted.first_of_inside mem after
    obtain rfl := Option.some.inj (means.decode?.symm.trans means'.decode?)
    exact found

/-- A literal with all four escapes, behind a bracket and in front of a name; and an escape that is
not known. -/
theorem Source.texts_expressible_escapes :
    let source : Source := ⟨"test", "f(\"\\\\\\\"\\n\\tx\"y"⟩
    let location : Location := ⟨source, 2, 13⟩
    (∃ earlier later, source.lex.tokens =
      earlier ++ ⟨.text "\\\"\n\tx", location⟩ :: later) ∧
    Quoted.decode? ['\\', 'q'] = some ['\\', 'q'] := by
  intro source location
  have place : TokenPlace ['f', '('] :=
    ⟨⟨"test", "f(a"⟩, ['a'], ⟨.ident "a", ⟨⟨"test", "f(a"⟩, 2, 3⟩⟩, by decide,
      List.mem_of_getElem? (i := 2) rfl, rfl⟩
  have whole : source.chars = ['f', '('] ++
      (Quoted.literal "\\\"\n\tx".toList ++ ['y']) := by decide
  have matched : ['"', '\\', 'q', '"'] ∈ Rule.text.pattern := Rule.mem_text.mpr
    ⟨['\\', 'q'], rfl, Quoted.escape_mem_inside (by decide) Quoted.nil_mem_inside⟩
  obtain ⟨⟨earlier, later, listed, -⟩, -⟩ :=
    texts_expressible.1 source "\\\"\n\tx" ['f', '('] ['y'] place whole
  obtain ⟨inner, content, is, means, decoded, -⟩ := texts_expressible.2 _ matched
  have inner_is : inner = ['\\', 'q'] := by
    have same : inner ++ ['"'] = ['\\', 'q'] ++ ['"'] := (List.cons.inj is).2.symm
    exact List.append_cancel_right same
  refine ⟨⟨earlier, later, listed⟩, ?_⟩
  subst inner_is
  cases means with
  | plain noEscape => exact (noEscape rfl).elim
  | unknown unknown rest =>
    cases rest
    exact decoded

end ShapeLang
