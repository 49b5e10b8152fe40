import ShapeLang.Proofs.Token.Numerals

/-! # The first piece of a text

Each step of the lexer takes the longest match of all rules, and rejects something only where no
rule matches. The character that a text starts with tells which rules are left.
-/

namespace ShapeLang

namespace Quoted

/-- What can stand between quotes: no quote and no backslash, except for a backslash with the
character that it takes with it. -/
def inside : Language Char :=
  KStar.kstar (Pattern.oneOf (fun c => c ≠ '"' ∧ c ≠ '\\') +
    Pattern.word "\\" * Pattern.oneOf (· ≠ '\n'))

variable {cs inner rest : List Char} {c : Char}

theorem nil_mem_inside : [] ∈ inside := Language.nil_mem_kstar _

theorem cons_mem_inside (plain : c ≠ '"' ∧ c ≠ '\\') (mem : cs ∈ inside) : c :: cs ∈ inside := by
  obtain ⟨parts, rfl, each⟩ := Language.mem_kstar.mp mem
  refine Language.mem_kstar.mpr ⟨[c] :: parts, rfl, ?_⟩
  exact List.forall_mem_cons.mpr ⟨.inl ⟨c, plain, rfl⟩, each⟩

theorem escape_mem_inside (taken : c ≠ '\n') (mem : cs ∈ inside) : '\\' :: c :: cs ∈ inside := by
  obtain ⟨parts, rfl, each⟩ := Language.mem_kstar.mp mem
  refine Language.mem_kstar.mpr ⟨['\\', c] :: parts, rfl, ?_⟩
  exact List.forall_mem_cons.mpr ⟨.inr ⟨_, rfl, [c], ⟨c, taken, rfl⟩, rfl⟩, each⟩

/-- The closing quote of a text is found. -/
theorem ending_of_inside (mem : inner ∈ inside) (rest : List Char) :
    ending (inner ++ '"' :: rest) = .closed inner rest := by
  obtain ⟨parts, rfl, each⟩ := Language.mem_kstar.mp mem
  clear mem
  induction parts with
  | nil => simp [ending]
  | cons part parts ih =>
    obtain ⟨first, others⟩ := List.forall_mem_cons.mp each
    specialize ih others
    rcases first with ⟨c, ⟨noQuote, noEscape⟩, rfl⟩ | ⟨_, rfl, _, ⟨c, taken, rfl⟩, rfl⟩
    · simp only [List.flatten_cons, List.cons_append, List.nil_append]
      rw [ending, ih]
      · simp [noEscape, Ending.push]
      · exact fun same => (noQuote same).elim
      · exact fun _ _ same => (noEscape same).elim
    · simp only [List.flatten_cons]
      change ending ('\\' :: c :: (parts.flatten ++ '"' :: rest)) = _
      rw [ending, if_neg taken, ih]
      rfl

theorem Ending.push_eq_closed {e : Ending} (closed : e.push c = .closed inner rest) :
    ∃ more, e = .closed more rest ∧ inner = c :: more := by
  cases e with
  | closed more rest =>
    cases closed
    exact ⟨more, rfl, rfl⟩
  | badEscape => cases closed
  | unclosed => cases closed

/-- What ends with a closing quote stands between quotes, and has a meaning. -/
theorem inside_of_ending (closed : ending cs = .closed inner rest) :
    cs = inner ++ '"' :: rest ∧ inner ∈ inside ∧ (decode? inner).isSome := by
  fun_induction ending cs generalizing inner with
  | case1 => cases closed
  | case2 rest =>
    cases closed
    exact ⟨rfl, nil_mem_inside, rfl⟩
  | case3 => cases closed
  | case4 c after taken ih =>
    obtain ⟨_, pushed, rfl⟩ := Ending.push_eq_closed closed
    obtain ⟨more, closed', rfl⟩ := Ending.push_eq_closed pushed
    obtain ⟨rfl, mem, meant⟩ := ih closed'
    exact ⟨rfl, escape_mem_inside taken mem, by simpa [decode?] using meant⟩
  | case5 => cases closed
  | case6 c after noQuote _ noEscape ih =>
    obtain ⟨more, closed', rfl⟩ := Ending.push_eq_closed closed
    obtain ⟨rfl, mem, meant⟩ := ih closed'
    refine ⟨rfl, cons_mem_inside ⟨noQuote, noEscape⟩ mem, ?_⟩
    rw [decode?]
    · simpa [noEscape] using meant
    · exact fun _ _ same => (noEscape same).elim

/-- The text that an ending was found in. -/
def Ending.whole : Ending → List Char
  | closed inner rest => inner ++ '"' :: rest
  | badEscape inner rest => inner ++ rest
  | unclosed inner => inner

@[simp] theorem Ending.whole_badEscape : (badEscape inner rest).whole = inner ++ rest := rfl

@[simp] theorem Ending.whole_unclosed : (unclosed inner).whole = inner := rfl

@[simp] theorem Ending.whole_push (c : Char) (e : Ending) : (e.push c).whole = c :: e.whole := by
  cases e <;> rfl

theorem whole_ending (cs : List Char) : (ending cs).whole = cs := by
  fun_induction ending cs with
  | case1 => rfl
  | case2 rest => rfl
  | case3 => rfl
  | case4 c rest taken ih => simp [ih]
  | case5 rest _ alone =>
    -- A backslash with a character behind it is another case.
    cases rest with
    | nil => rfl
    | cons c rest => exact (alone c rest rfl rfl).elim
  | case6 c rest _ _ escape ih => simp [ih]

end Quoted

namespace Symbol

theorem length_mark_le {s : Symbol} (mark : s.isKeyword = false) : s.spelling.toList.length ≤ 2 := by
  cases s <;> first | decide | cases mark

theorem spelling_ne_slashes (s : Symbol) (rest : List Char) :
    s.spelling.toList ≠ '/' :: '/' :: rest := by
  cases s <;> simp [spelling]

end Symbol

namespace Rule

open Pattern

variable {rule : Rule} {cs rest : List Char} {c : Char}

/-- The kind of a character. -/
def Start.of (c : Char) : Start :=
  if isBlank c then .blank
  else if isDecimalDigit c then .digit
  else if isWordStart c then .letter
  else if c = '"' then .quote
  else .mark

theorem isBlank_iff : isBlank c = true ↔ c ∈ [' ', '\t', '\r', '\n', '\x0c'] := by
  simp [isBlank, or_assoc]

theorem isWordStart_iff : isWordStart c = true ↔ letter c := by
  simp [isWordStart, letter, or_assoc]

theorem isWordChar_iff : isWordChar c = true ↔ letter c ∨ ('0' ≤ c ∧ c ≤ '9') := by
  simp [isWordChar, isWordStart_iff, isDecimalDigit]

theorem not_isBlank (visible : '!' ≤ c) : isBlank c = false := by
  rw [Bool.eq_false_iff, ne_eq, isBlank_iff]
  simp only [List.mem_cons, List.not_mem_nil, or_false]
  rintro (rfl | rfl | rfl | rfl | rfl) <;> exact absurd visible (by decide)

theorem Start.of_digit (digit : isDecimalDigit c = true) : Start.of c = .digit := by
  have low : '0' ≤ c := by
    simp only [isDecimalDigit, Bool.and_eq_true, decide_eq_true_eq] at digit
    exact digit.1
  simp [Start.of, not_isBlank (Char.le_trans (by decide) low), digit]

theorem Start.of_letter (starts : Pattern.letter c) : Start.of c = .letter := by
  have high : 'A' ≤ c := by
    rcases starts with ⟨low, -⟩ | ⟨low, -⟩ | rfl
    · exact Char.le_trans (by decide) low
    · exact low
    · decide
  have noDigit : isDecimalDigit c = false := by
    have : ¬ c ≤ '9' := fun le => absurd (Char.le_trans high le) (by decide)
    simp [isDecimalDigit, this]
  simp [Start.of, not_isBlank (Char.le_trans (by decide) high), noDigit, isWordStart_iff.mpr starts]

/-- What a match starts with tells of the rule. -/
theorem starts_of_mem (matched : cs ∈ rule.pattern) :
    ∃ c rest, cs = c :: rest ∧ Start.of c = rule.start := by
  cases rule with
  | blanks =>
    obtain ⟨nonempty, each⟩ := mem_oneOrMore_oneOf.mp matched
    obtain ⟨c, rest, rfl⟩ := List.exists_cons_of_ne_nil nonempty
    refine ⟨c, rest, rfl, ?_⟩
    simp [Start.of, isBlank_iff.mpr (each c (by simp)), start]
  | comment =>
    obtain ⟨_, rfl, rest, -, rfl⟩ := matched
    exact ⟨'/', '/' :: rest, rfl, by decide⟩
  | symbol s =>
    cases matched
    cases s <;> exact ⟨_, _, rfl, by decide⟩
  | boolean value =>
    cases matched
    cases value <;> exact ⟨_, _, rfl, by decide⟩
  | number =>
    obtain ⟨digits, part, scale, rfl, are, -, -⟩ := Numeral.mem_number.mp matched
    obtain ⟨c, rest, rfl⟩ := List.exists_cons_of_ne_nil are.1
    exact ⟨c, _, rfl, Start.of_digit (are.2 c (by simp))⟩
  | text =>
    obtain ⟨_, ⟨_, rfl, body, -, rfl⟩, _, -, rfl⟩ := matched
    exact ⟨'"', _, rfl, by decide⟩
  | name =>
    obtain ⟨_, ⟨c, starts, rfl⟩, rest, -, rfl⟩ := matched
    exact ⟨c, rest, rfl, Start.of_letter starts⟩

/-- Everything that the text starts with is found by rules that start like it. -/
theorem start_of_prefix {word : List Char} (within : word <+: c :: rest)
    (matched : word ∈ rule.pattern) : ∃ more, word = c :: more ∧ rule.start = Start.of c := by
  obtain ⟨d, more, rfl, starts⟩ := starts_of_mem matched
  obtain rfl := (List.cons_prefix_cons.mp within).1
  exact ⟨more, rfl, starts.symm⟩

theorem eq_blanks (starts : rule.start = .blank) : rule = blanks := by
  cases rule with
  | blanks => rfl
  | symbol s => cases s <;> cases starts
  | _ => cases starts

theorem eq_number (starts : rule.start = .digit) : rule = number := by
  cases rule with
  | number => rfl
  | symbol s => cases s <;> cases starts
  | _ => cases starts

theorem eq_text (starts : rule.start = .quote) : rule = text := by
  cases rule with
  | text => rfl
  | symbol s => cases s <;> cases starts
  | _ => cases starts

/-- A word is a keyword, a truth value or a name. -/
theorem isLiteral_or_eq_name (starts : rule.start = .letter) : rule.isLiteral = true ∨ rule = name := by
  cases rule with
  | symbol s => exact .inl rfl
  | boolean value => exact .inl rfl
  | name => exact .inr rfl
  | _ => cases starts

theorem eq_comment_or_mark (starts : rule.start = .mark) :
    rule = comment ∨ ∃ s, rule = symbol s ∧ s.isKeyword = false := by
  cases rule with
  | comment => exact .inl rfl
  | symbol s =>
    refine .inr ⟨s, rfl, ?_⟩
    cases s <;> first | rfl | cases starts
  | _ => cases starts

/-- The rule that matches a single word, if there is one. -/
def literal? (cs : List Char) : Option Rule :=
  if cs = "true".toList then some (boolean true)
  else if cs = "false".toList then some (boolean false)
  else match cs with
    | [c] => (Symbol.single? c).map symbol
    | [c, d] => ((Symbol.keyword? [c, d]).or (Symbol.double? c d)).map symbol
    | cs => (Symbol.keyword? cs).map symbol

theorem literal?_of_mem (literal : rule.isLiteral = true) (matched : cs ∈ rule.pattern) :
    literal? cs = some rule := by
  cases rule with
  | symbol s =>
    cases matched
    cases s <;> rfl
  | boolean value =>
    cases matched
    cases value <;> rfl
  | _ => cases literal

theorem isWordChar_of_mem (starts : rule.start = .letter) (matched : cs ∈ rule.pattern) :
    ∀ c ∈ cs, isWordChar c = true := by
  cases rule with
  | symbol s =>
    cases matched
    cases s <;> first | exact List.all_eq_true.mp (by decide) | cases starts
  | boolean value =>
    cases matched
    cases value <;> exact List.all_eq_true.mp (by decide)
  | name =>
    obtain ⟨_, ⟨c, first, rfl⟩, rest, each, rfl⟩ := matched
    intro d mem
    rcases List.mem_cons.mp mem with rfl | mem
    · exact isWordChar_iff.mpr (.inl first)
    · exact isWordChar_iff.mpr (mem_kstar_oneOf.mp each d mem)
  | _ => cases starts

theorem mem_text : cs ∈ text.pattern ↔ ∃ inner, cs = '"' :: (inner ++ ['"']) ∧
    inner ∈ Quoted.inside := by
  constructor
  · rintro ⟨_, ⟨_, rfl, inner, mem, rfl⟩, _, rfl, rfl⟩
    exact ⟨inner, rfl, mem⟩
  · rintro ⟨inner, rfl, mem⟩
    exact ⟨'"' :: inner, ⟨_, rfl, inner, mem, rfl⟩, _, rfl, rfl⟩

/-- A text without a closing quote is no text. -/
theorem fails_quote (endless : ∀ inner after, Quoted.ending rest ≠ .closed inner after) :
    Fails ('"' :: rest) := by
  intro rule word within matched
  obtain ⟨more, rfl, same⟩ := start_of_prefix within matched
  obtain rfl := eq_text (same.trans (by decide))
  obtain ⟨inner, whole, mem⟩ := mem_text.mp matched
  obtain ⟨behind, rfl⟩ := (List.cons_prefix_cons.mp (whole ▸ within)).2
  apply endless inner behind
  rw [List.append_assoc]
  exact Quoted.ending_of_inside mem behind

/-- A word that is longer than all other matches. -/
theorem Applies.of_length_lt {word after : List Char} (matched : word ∈ rule.pattern)
    (longest : ∀ (other : Rule) (longer : List Char), longer <+: word ++ after →
      longer ∈ other.pattern → longer.length ≤ word.length ∧ (longer = word → other = rule)) :
    rule.Applies word after := by
  refine ⟨matched, fun other longer within mem => (longest other longer within mem).1, ?_⟩
  intro other mem different
  exact (different ((longest other word (List.prefix_append ..) mem).2 rfl)).elim

end Rule

namespace Piece

open Rule Pattern

variable {c : Char} {rest : List Char}

/-- What one step of the lexer says about a text is right. -/
def Right (piece : Piece) (cs : List Char) : Prop :=
  piece.taken ++ piece.rest = cs ∧
    match piece.finding with
    | .skipped => Rule.blanks.Applies piece.taken piece.rest ∨
      Rule.comment.Applies piece.taken piece.rest
    | .token token => ∃ rule : Rule, rule.Applies piece.taken piece.rest ∧
      rule.token? piece.taken = some token
    | .rejected => Rule.Fails cs

/-- A piece that is not rejected is what a rule makes of it. -/
theorem Right.applies {piece : Piece} {cs : List Char} (right : piece.Right cs)
    (good : piece.finding ≠ .rejected) :
    ∃ rule : Rule, rule.Applies piece.taken piece.rest ∧
      piece.finding = (rule.token? piece.taken).elim .skipped .token := by
  obtain ⟨finding, taken, rest⟩ := piece
  obtain ⟨-, right⟩ := right
  cases finding with
  | skipped =>
    rcases right with applies | applies
    · exact ⟨.blanks, applies, rfl⟩
    · exact ⟨.comment, applies, rfl⟩
  | token token =>
    obtain ⟨rule, applies, reads⟩ := right
    exact ⟨rule, applies, by simp [reads]⟩
  | rejected => exact (good rfl).elim

/-- There is one right piece, unless nothing matches. -/
theorem Right.unique {piece other : Piece} {cs : List Char} (right : piece.Right cs)
    (right' : other.Right cs) (good : piece.finding ≠ .rejected) : other = piece := by
  obtain ⟨rule, applies, is⟩ := right.applies good
  have good' : other.finding ≠ .rejected := by
    intro rejected
    obtain ⟨-, fails⟩ := right'
    rw [rejected] at fails
    refine fails rule piece.taken ?_ applies.matched
    rw [← right.1]
    exact List.prefix_append ..
  obtain ⟨rule', applies', is'⟩ := right'.applies good'
  obtain ⟨rfl, taken⟩ := applies.unique applies' (right.1.trans right'.1.symm)
  have rest : other.rest = piece.rest := by
    have := right'.1.trans right.1.symm
    rw [taken] at this
    exact List.append_cancel_left this
  obtain ⟨finding, _, _⟩ := other
  obtain ⟨_, _, _⟩ := piece
  simp_all

theorem right_blanks (starts : Start.of c = .blank) (blank : isBlank c = true) :
    Right ⟨.skipped, (c :: rest).takeWhile isBlank, (c :: rest).dropWhile isBlank⟩ (c :: rest) := by
  refine ⟨List.takeWhile_append_dropWhile, .inl (Applies.of_length_lt ?_ ?_)⟩
  · refine mem_oneOrMore_oneOf.mpr ⟨by simp [blank], fun d mem => ?_⟩
    exact isBlank_iff.mp (List.mem_takeWhile_imp mem)
  · intro other longer within matched
    rw [List.takeWhile_append_dropWhile] at within
    obtain ⟨more, rfl, same⟩ := start_of_prefix within matched
    obtain rfl := eq_blanks (same.trans starts)
    have each := (mem_oneOrMore_oneOf.mp matched).2
    exact ⟨length_le_takeWhile (fun d mem => isBlank_iff.mpr (each d mem)) within, fun _ => rfl⟩

theorem right_comment :
    Right ⟨.skipped, ('/' :: '/' :: rest).takeWhile (· ≠ '\n'),
      ('/' :: '/' :: rest).dropWhile (· ≠ '\n')⟩ ('/' :: '/' :: rest) := by
  have taken : ('/' :: '/' :: rest).takeWhile (· ≠ '\n') =
      '/' :: '/' :: rest.takeWhile (· ≠ '\n') := by simp
  refine ⟨List.takeWhile_append_dropWhile, .inr (Applies.of_length_lt ?_ ?_)⟩
  · dsimp only
    rw [taken]
    refine ⟨_, rfl, _, mem_kstar_oneOf.mpr fun c mem => ?_, rfl⟩
    simpa using List.mem_takeWhile_imp mem
  · intro other longer within matched
    rw [List.takeWhile_append_dropWhile] at within
    obtain ⟨more, rfl, same⟩ := start_of_prefix within matched
    rcases eq_comment_or_mark (same.trans (by decide)) with rfl | ⟨s, rfl, mark⟩
    · obtain ⟨_, rfl, body, each, whole⟩ := matched
      refine ⟨?_, fun _ => rfl⟩
      have all : ∀ d ∈ '/' :: more, decide (d ≠ '\n') = true := by
        rw [← whole]
        intro d mem
        rcases List.mem_append.mp mem with mem | mem
        · have plain : "//".toList.all (fun d => decide (d ≠ '\n')) = true := by decide
          exact List.all_eq_true.mp plain d mem
        · simpa using mem_kstar_oneOf.mp each d mem
      exact length_le_takeWhile all within
    · have spelled : '/' :: more = s.spelling.toList := matched
      dsimp only
      rw [taken, spelled]
      constructor
      · have short := Symbol.length_mark_le mark
        simp only [List.length_cons]
        omega
      · exact fun slashes => (Symbol.spelling_ne_slashes s _ slashes).elim

theorem right_number (digit : isDecimalDigit c = true) :
    Right ⟨.token (.number (Numeral.scan (c :: rest)).1.toFloat),
      (c :: rest).take ((c :: rest).length - (Numeral.scan (c :: rest)).2.length),
      (Numeral.scan (c :: rest)).2⟩ (c :: rest) := by
  obtain ⟨taken, whole, matched, longest, denotes⟩ := Numeral.scan_spec ⟨c, rest, rfl, digit⟩
  have cut : (c :: rest).take ((c :: rest).length - (Numeral.scan (c :: rest)).2.length) = taken := by
    generalize (Numeral.scan (c :: rest)).2 = after at whole
    rw [whole]
    simp
  rw [cut]
  refine ⟨whole.symm, .number, Applies.of_length_lt matched ?_, ?_⟩
  · intro other longer within mem
    dsimp only at within
    rw [← whole] at within
    obtain ⟨more, rfl, same⟩ := start_of_prefix within mem
    obtain rfl := eq_number (same.trans (Start.of_digit digit))
    exact ⟨longest _ within mem, fun _ => rfl⟩
  · simp only [token?, denotes, Option.map_some]

theorem token?_literal {rule : Rule} {cs : List Char} (literal : rule.isLiteral = true)
    (starts : rule.start = .letter) (matched : cs ∈ rule.pattern) :
    rule.token? cs = some (wordToken cs) := by
  cases rule with
  | symbol s =>
    cases matched
    cases s <;> first | rfl | cases starts
  | boolean value =>
    cases matched
    cases value <;> rfl
  | _ => cases literal

theorem token?_name {cs : List Char}
    (noLiteral : ∀ rule : Rule, rule.isLiteral = true → cs ∉ rule.pattern) :
    name.token? cs = some (wordToken cs) := by
  unfold wordToken
  split
  · rename_i keyword found
    exact (noLiteral (.symbol keyword) rfl (Symbol.keyword?_eq_some_iff.mp found).1).elim
  · have noTrue : cs ≠ ['t', 'r', 'u', 'e'] := noLiteral (.boolean true) rfl
    have noFalse : cs ≠ ['f', 'a', 'l', 's', 'e'] := noLiteral (.boolean false) rfl
    rw [if_neg noTrue, if_neg noFalse]
    rfl

theorem right_word (starts : letter c) :
    Right ⟨.token (wordToken ((c :: rest).takeWhile isWordChar)), (c :: rest).takeWhile isWordChar,
      (c :: rest).dropWhile isWordChar⟩ (c :: rest) := by
  have ranges (d : Char) (mem : d ∈ (c :: rest).takeWhile isWordChar) : isWordChar d = true :=
    List.mem_takeWhile_imp mem
  have longest (other : Rule) (longer : List Char) (within : longer <+: c :: rest)
      (mem : longer ∈ other.pattern) :
      longer.length ≤ ((c :: rest).takeWhile isWordChar).length := by
    obtain ⟨more, rfl, same⟩ := start_of_prefix within mem
    have each := isWordChar_of_mem (same.trans (Start.of_letter starts)) mem
    exact length_le_takeWhile each within
  have whole : (c :: rest).takeWhile isWordChar = c :: rest.takeWhile isWordChar :=
    List.takeWhile_cons_of_pos (isWordChar_iff.mpr (.inl starts))
  have starting (rule : Rule) (mem : (c :: rest).takeWhile isWordChar ∈ rule.pattern) :
      rule.start = .letter := by
    obtain ⟨more, -, same⟩ := start_of_prefix (List.takeWhile_prefix _) mem
    exact same.trans (Start.of_letter starts)
  refine ⟨List.takeWhile_append_dropWhile, ?_⟩
  dsimp only
  by_cases literal : ∃ rule : Rule, rule.isLiteral = true ∧
      (c :: rest).takeWhile isWordChar ∈ rule.pattern
  · obtain ⟨rule, isLiteral, matched⟩ := literal
    refine ⟨rule, ⟨matched, ?_, ?_⟩, ?_⟩
    · rw [List.takeWhile_append_dropWhile]
      exact longest
    · intro other mem different
      refine ⟨isLiteral, (isLiteral_or_eq_name (starting other mem)).resolve_left fun literal => ?_⟩
      have same := (literal?_of_mem literal mem).symm.trans (literal?_of_mem isLiteral matched)
      exact different (Option.some.inj same)
    · exact token?_literal isLiteral (starting rule matched) matched
  · have noLiteral (rule : Rule) (isLiteral : rule.isLiteral = true) :
        (c :: rest).takeWhile isWordChar ∉ rule.pattern := fun mem => literal ⟨rule, isLiteral, mem⟩
    refine ⟨name, ⟨?_, ?_, ?_⟩, token?_name noLiteral⟩
    · rw [whole]
      exact ⟨[c], ⟨c, starts, rfl⟩, _, mem_kstar_oneOf.mpr fun d mem =>
        isWordChar_iff.mp (List.mem_takeWhile_imp mem), rfl⟩
    · rw [List.takeWhile_append_dropWhile]
      exact longest
    · intro other mem different
      rcases isLiteral_or_eq_name (starting other mem) with isLiteral | same
      · exact (noLiteral other isLiteral mem).elim
      · exact (different same).elim

theorem right_quote : Right (ofQuote rest) ('"' :: rest) := by
  unfold ofQuote
  split
  · rename_i inner after closed
    obtain ⟨rfl, mem, meant⟩ := Quoted.inside_of_ending closed
    obtain ⟨content, meant⟩ := Option.isSome_iff_exists.mp meant
    refine ⟨by simp, ?_⟩
    simp only [meant]
    refine ⟨.text, Applies.of_length_lt (mem_text.mpr ⟨inner, rfl, mem⟩) ?_, ?_⟩
    · intro other longer within matched
      have within' : longer <+: '"' :: (inner ++ '"' :: after) := by simpa using within
      obtain ⟨more, rfl, same⟩ := start_of_prefix within' matched
      obtain rfl := eq_text (same.trans (by decide))
      obtain ⟨body, whole, mem'⟩ := mem_text.mp matched
      obtain ⟨behind, text⟩ := (List.cons_prefix_cons.mp (whole ▸ within')).2
      have closed' := Quoted.ending_of_inside mem' behind
      rw [← text, List.append_assoc, List.singleton_append, closed'] at closed
      cases closed
      exact ⟨by rw [whole], fun _ => rfl⟩
    · simp [token?, meant]
  · rename_i inner after escape
    have whole : inner ++ after = rest := by simpa [escape] using Quoted.whole_ending rest
    exact ⟨congrArg ('"' :: ·) whole, fails_quote (by simp [escape])⟩
  · rename_i inner endless
    have whole : inner = rest := by simpa [endless] using Quoted.whole_ending rest
    exact ⟨by simp [whole], fails_quote (by simp [endless])⟩

/-- A text that starts with a mark can only go on as one. -/
theorem mark_of_prefix {rule : Rule} {word : List Char} (starts : Start.of c = .mark)
    (noComment : ¬ (c = '/' ∧ rest.head? = some '/')) (within : word <+: c :: rest)
    (matched : word ∈ rule.pattern) :
    ∃ s, rule = .symbol s ∧ word = s.spelling.toList ∧
      ((word = [c] ∧ Symbol.single? c = some s) ∨
        ∃ d more, rest = d :: more ∧ word = [c, d] ∧ Symbol.double? c d = some s) := by
  obtain ⟨more, rfl, same⟩ := start_of_prefix within matched
  rcases eq_comment_or_mark (same.trans starts) with rfl | ⟨s, rfl, mark⟩
  · obtain ⟨_, rfl, body, -, whole⟩ := matched
    obtain ⟨rfl, rfl⟩ := List.cons.inj whole
    obtain ⟨behind, rfl⟩ := (List.cons_prefix_cons.mp within).2
    exact (noComment ⟨rfl, rfl⟩).elim
  · have spelled : c :: more = s.spelling.toList := matched
    have short := Symbol.length_mark_le mark
    rw [← spelled] at short
    refine ⟨s, rfl, spelled, ?_⟩
    cases more with
    | nil => exact .inl ⟨rfl, Symbol.single?_eq_some_iff.mpr spelled.symm⟩
    | cons d tail =>
      obtain rfl : tail = [] := List.length_eq_zero_iff.mp (by simpa using short)
      obtain ⟨behind, rfl⟩ := (List.cons_prefix_cons.mp within).2
      exact .inr ⟨d, behind, rfl, rfl, Symbol.double?_eq_some_iff.mpr ⟨spelled.symm, mark⟩⟩

theorem right_mark (starts : Start.of c = .mark) (noComment : ¬ (c = '/' ∧ rest.head? = some '/')) :
    Right (ofMark c rest) (c :: rest) := by
  unfold ofMark
  dsimp only
  split
  · rename_i piece found
    split at found
    · rename_i d after
      obtain ⟨s, double, rfl⟩ := Option.map_eq_some_iff.mp found
      have spelled := (Symbol.double?_eq_some_iff.mp double).1
      refine ⟨rfl, .symbol s, Applies.of_length_lt spelled.symm ?_, rfl⟩
      intro other longer within matched
      obtain ⟨s', rfl, -, ⟨rfl, -⟩ | ⟨d', _, same, rfl, double'⟩⟩ :=
        mark_of_prefix starts noComment within matched
      · exact ⟨by simp, by simp⟩
      · cases same
        obtain rfl := Option.some.inj (double.symm.trans double')
        exact ⟨Nat.le_refl _, fun _ => rfl⟩
    · cases found
  · rename_i s noDouble single
    refine ⟨rfl, .symbol s, Applies.of_length_lt (Symbol.single?_eq_some_iff.mp single).symm ?_, rfl⟩
    intro other longer within matched
    obtain ⟨s', rfl, -, ⟨rfl, single'⟩ | ⟨d, more, rfl, rfl, double⟩⟩ :=
      mark_of_prefix starts noComment within matched
    · obtain rfl := Option.some.inj (single.symm.trans single')
      exact ⟨Nat.le_refl _, fun _ => rfl⟩
    · simp [double] at noDouble
  · rename_i noDouble noSingle
    refine ⟨rfl, fun rule word within matched => ?_⟩
    obtain ⟨s', rfl, -, ⟨rfl, single⟩ | ⟨d, more, rfl, rfl, double⟩⟩ :=
      mark_of_prefix starts noComment within matched
    · simp [single] at noSingle
    · simp [double] at noDouble

/-- Each step of the lexer finds the longest match, or rejects what no rule matches. -/
theorem right_first (c : Char) (rest : List Char) : Right (first c rest) (c :: rest) := by
  unfold first
  dsimp only
  split
  · rename_i blank
    exact right_blanks (by simp [Start.of, blank]) blank
  split
  · rename_i slashes
    obtain ⟨rfl, second⟩ := slashes
    obtain ⟨more, rfl⟩ := List.head?_eq_some_iff.mp second
    exact right_comment
  split
  · exact right_number ‹_›
  split
  · exact right_word (isWordStart_iff.mp ‹_›)
  split
  · rename_i quote
    subst quote
    exact right_quote
  · exact right_mark (by simp [Start.of, *]) ‹_›

end Piece

end ShapeLang
