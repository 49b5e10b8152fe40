import ShapeLang.Proofs.Decimal.Printed
import ShapeLang.Proofs.Token.Tiling

/-! # Texts that are written word by word

A text that is put together from words is cut into these words again, if every word ends where a
longer one could not go on: a number, a truth value and a name in front of a separator or a closing
bracket, the other words anywhere.
-/

namespace ShapeLang

open Numeral (IsPart IsPlain)
open Shader (IsDigits)

/-- The text is cut into these tokens, and nothing of it is skipped or rejected. -/
inductive Spells : List Char → List Token → Prop
  | done : Spells [] []
  | word {c : Char} {more taken rest : List Char} {token : Token} {tokens : List Token}
    (first : Piece.first c more = ⟨.token token, taken, rest⟩) (others : Spells rest tokens) :
    Spells (c :: more) (token :: tokens)

/-- The characters in front of which every word ends. -/
def delimiters : List Char := [',', ':', ']', '\x7d']

/-- The text ends, or goes on with a delimiter. -/
def Delimited (cs : List Char) : Prop := ∀ c ∈ cs.head?, c ∈ delimiters

theorem delimited_nil : Delimited [] := by simp [Delimited]

theorem delimited_cons {c : Char} (mem : c ∈ delimiters) (cs : List Char) : Delimited (c :: cs) := by
  simpa [Delimited] using mem

namespace Piece

variable {c : Char}

theorem first_of_digit (digit : isDecimalDigit c = true) (more : List Char) :
    first c more = ⟨.token (.number (Numeral.scan (c :: more)).1.toFloat),
      (c :: more).take ((c :: more).length - (Numeral.scan (c :: more)).2.length),
      (Numeral.scan (c :: more)).2⟩ := by
  have starts := Rule.Start.of_digit digit
  have noComment : c ≠ '/' := by
    rintro rfl
    exact absurd digit (by decide)
  have noBlank : ¬ isBlank c = true := fun blank => by simp [Rule.Start.of, blank] at starts
  unfold first
  dsimp only
  rw [if_neg noBlank, if_neg fun slashes => noComment slashes.1, if_pos digit]

theorem first_of_letter (letter : isWordStart c = true) (more : List Char) :
    first c more = ⟨.token (wordToken ((c :: more).takeWhile isWordChar)),
      (c :: more).takeWhile isWordChar, (c :: more).dropWhile isWordChar⟩ := by
  have starts := Rule.Start.of_letter (Rule.isWordStart_iff.mp letter)
  have noComment : c ≠ '/' := by
    rintro rfl
    exact absurd letter (by decide)
  have noBlank : ¬ isBlank c = true := fun blank => by simp [Rule.Start.of, blank] at starts
  have noDigit : ¬ isDecimalDigit c = true := fun digit => by
    simp [Rule.Start.of, noBlank, digit] at starts
  unfold first
  dsimp only
  rw [if_neg noBlank, if_neg fun slashes => noComment slashes.1, if_neg noDigit, if_pos letter]

theorem first_of_mark (starts : Rule.Start.of c = .mark) (noComment : c ≠ '/') (more : List Char) :
    first c more = ofMark c more := by
  unfold Rule.Start.of at starts
  split at starts
  · cases starts
  split at starts
  · cases starts
  split at starts
  · cases starts
  split at starts
  · cases starts
  simp [first, *]

end Piece

/-- In front of a delimiter what delimiters do not go on with ends. -/
theorem Delimited.fails {cs : List Char} {c : Char} (ends : Delimited (c :: cs)) (test : Char → Bool)
    (none : delimiters.all (!test ·) = true) : test c = false := by
  simpa using List.all_eq_true.mp none c (ends c rfl)

section Words

variable {cs ds : List Char} {tokens : List Token} {c : Char}

/-- The tokens that a text is spelled with are the tokens of the text. -/
theorem Spells.lex (spells : Spells cs tokens) {source : Source} (is : source.chars = cs) :
    source.lex.tokens.map (·.token) = tokens ∧ source.lex.rejections = [] := by
  have collected (fuel start : Nat) (enough : cs.length ≤ fuel) :
      (Lexing.collect source start (piecesUpTo fuel cs)).tokens.map (·.token) = tokens ∧
        (Lexing.collect source start (piecesUpTo fuel cs)).rejections = [] := by
    clear is
    induction spells generalizing fuel start with
    | done => cases fuel <;> exact ⟨rfl, rfl⟩
    | @word c more taken rest token tokens first others ih =>
      have some := Piece.first_taken_ne_nil c more
      obtain ⟨cut, -⟩ := Piece.right_first c more
      rw [first] at some cut
      dsimp only at some cut
      have size := congrArg List.length cut
      rw [List.length_append] at size
      have pos := List.length_pos_iff.mpr some
      cases fuel with
      | zero => simp at enough
      | succ fuel =>
        obtain ⟨same, none⟩ := ih fuel (start + byteLength taken) (by omega)
        unfold piecesUpTo Lexing.collect
        rw [first]
        exact ⟨congrArg (token :: ·) same, none⟩
  rw [Source.lex, is]
  exact collected _ 0 (Nat.le_refl _)

/-- A mark is a word of its own, if it does not start a longer one. -/
theorem Spells.mark {s : Symbol} (starts : Rule.Start.of c = .mark) (noComment : c ≠ '/')
    (single : Symbol.single? c = some s) (noDouble : ∀ d ∈ cs.head?, Symbol.double? c d = none)
    (others : Spells cs tokens) : Spells (c :: cs) (.symbol s :: tokens) := by
  have first : Piece.first c cs = ⟨.token (.symbol s), [c], cs⟩ := by
    rw [Piece.first_of_mark starts noComment]
    unfold Piece.ofMark
    cases cs with
    | nil => simp [single]
    | cons d ds => simp [noDouble d (by simp), single]
  exact .word first others

/-- The marks that start no longer word. -/
def loneMarks : List (Char × Symbol) :=
  [('[', .leftBracket), (']', .rightBracket), ('\x7b', .leftBrace), ('\x7d', .rightBrace),
    (',', .comma), (':', .colon)]

theorem Spells.lone {s : Symbol} (lone : (c, s) ∈ loneMarks) (others : Spells cs tokens) :
    Spells (c :: cs) (.symbol s :: tokens) := by
  simp only [loneMarks, List.mem_cons, List.not_mem_nil, Prod.mk.injEq, or_false] at lone
  rcases lone with ⟨rfl, rfl⟩ | ⟨rfl, rfl⟩ | ⟨rfl, rfl⟩ | ⟨rfl, rfl⟩ | ⟨rfl, rfl⟩ | ⟨rfl, rfl⟩ <;>
    exact others.mark (by decide) (by decide) rfl fun _ _ => rfl

/-- A minus in front of a numeral starts no arrow. -/
theorem spells_minus (unsigned : ∀ d ∈ cs.head?, d ≠ '>') (others : Spells cs tokens) :
    Spells ('-' :: cs) (.symbol .minus :: tokens) := by
  refine others.mark (by decide) (by decide) rfl fun d mem => ?_
  have other := unsigned d mem
  unfold Symbol.double?
  split <;> simp_all

/-- A text without quotes and backslashes stands for itself. -/
theorem decode?_plain (plain : ∀ c ∈ cs, c ≠ '"' ∧ c ≠ '\\') : Quoted.decode? cs = some cs := by
  induction cs with
  | nil => rfl
  | cons c cs ih =>
    obtain ⟨⟨-, noEscape⟩, others⟩ := List.forall_mem_cons.mp plain
    rw [Quoted.decode?, if_neg noEscape, ih others]
    · rfl
    · exact fun _ _ same => (noEscape same).elim

theorem Spells.text (plain : ∀ c ∈ ds, c ≠ '"' ∧ c ≠ '\\') (others : Spells cs tokens) :
    Spells ('"' :: (ds ++ '"' :: cs)) (.text (String.ofList ds) :: tokens) := by
  have inside : ds ∈ Quoted.inside := by
    clear others
    induction ds with
    | nil => exact Quoted.nil_mem_inside
    | cons d ds ih =>
      obtain ⟨first, rest⟩ := List.forall_mem_cons.mp plain
      exact Quoted.cons_mem_inside first (ih rest)
  have first : Piece.first '"' (ds ++ '"' :: cs) =
      ⟨.token (.text (String.ofList ds)), '"' :: (ds ++ ['"']), cs⟩ := by
    have quote : Piece.first '"' (ds ++ '"' :: cs) = Piece.ofQuote (ds ++ '"' :: cs) := rfl
    rw [quote, Piece.ofQuote, Quoted.ending_of_inside inside cs]
    simp only [decode?_plain plain]
  exact .word first others

/-- A word in front of a delimiter. -/
theorem Spells.letters (starts : isWordStart c = true) (each : ds.all isWordChar = true)
    (ends : Delimited cs) (others : Spells cs tokens) :
    Spells (c :: (ds ++ cs)) (Piece.wordToken (c :: ds) :: tokens) := by
  have inside : ∀ d ∈ c :: ds, isWordChar d = true :=
    List.forall_mem_cons.mpr ⟨by simp [isWordChar, starts], List.all_eq_true.mp each⟩
  have cut : (c :: (ds ++ cs)).takeWhile isWordChar = c :: ds ∧
      (c :: (ds ++ cs)).dropWhile isWordChar = cs := by
    rw [← List.cons_append, List.takeWhile_append_of_pos inside, List.dropWhile_append_of_pos inside]
    cases cs with
    | nil => simp
    | cons d cs => simp [ends.fails isWordChar (by decide)]
  have first : Piece.first c (ds ++ cs) = ⟨.token (Piece.wordToken (c :: ds)), c :: ds, cs⟩ := by
    rw [Piece.first_of_letter starts, cut.1, cut.2]
  exact .word first others

theorem Delimited.noDigit (ends : Delimited cs) :
    cs = [] ∨ ∃ c rest, cs = c :: rest ∧ isDecimalDigit c = false := by
  cases cs with
  | nil => exact .inl rfl
  | cons c cs => exact .inr ⟨c, cs, rfl, ends.fails _ (by decide)⟩

theorem scanExponent_delimited (ends : Delimited cs) : Numeral.scanExponent cs = (0, cs) := by
  cases cs with
  | nil => rfl
  | cons c cs =>
    have noMark := ends.fails (fun c => c = 'e' ∨ c = 'E') (by decide)
    unfold Numeral.scanExponent
    dsimp only
    rw [if_neg (of_decide_eq_false noMark)]

/-- In front of a delimiter the scanner stops where a numeral without an exponent ends. -/
theorem scan_plain {digits part : List Char} (are : IsDigits digits) (isPart : IsPart part)
    (ends : Delimited cs) :
    Numeral.scan (digits ++ (part ++ cs)) = (⟨digits, part.drop 1, 0⟩, cs) := by
  have stops : part ++ cs = [] ∨ ∃ c rest, part ++ cs = c :: rest ∧ isDecimalDigit c = false := by
    rcases isPart.starts with rfl | ⟨rest, rfl⟩
    · exact ends.noDigit
    · exact .inr ⟨'.', _, rfl, by decide⟩
  have fraction : Numeral.scanFraction (part ++ cs) = (part.drop 1, cs) := by
    rcases isPart with rfl | ⟨places, rfl, arePlaces⟩
    · cases cs with
      | nil => rfl
      | cons c cs =>
        have noPoint := ends.fails (· = '.') (by decide)
        unfold Numeral.scanFraction
        split
        · exact absurd noPoint (by simp_all)
        · rfl
    · obtain ⟨between, behind⟩ := Numeral.cut_digits arePlaces.2 ends.noDigit
      simp [Numeral.scanFraction, between, behind, arePlaces.1]
  obtain ⟨whole, after⟩ := Numeral.cut_digits are.2 stops
  unfold Numeral.scan
  rw [whole, after, fraction]
  dsimp only
  rw [scanExponent_delimited ends]

/-- A numeral in front of a delimiter. -/
theorem Spells.numeral {value : Float} (is : IsPlain ds) (denotes : floatOfChars? ds = some value)
    (ends : Delimited cs) (others : Spells cs tokens) :
    Spells (ds ++ cs) (.number value :: tokens) := by
  obtain ⟨digits, part, rfl, are, isPart⟩ := is
  obtain rfl := Option.some.inj ((Numeral.floatOfChars?_plain are isPart).symm.trans denotes)
  have scanned := scan_plain are isPart ends
  obtain ⟨c, rest, rfl⟩ := List.exists_cons_of_ne_nil are.1
  have first := Piece.first_of_digit (are.2 c (by simp)) (rest ++ part ++ cs)
  have whole : c :: (rest ++ part ++ cs) = c :: rest ++ (part ++ cs) := by simp
  rw [whole, scanned] at first
  exact .word first others

end Words

end ShapeLang
