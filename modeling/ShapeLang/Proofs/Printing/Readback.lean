import ShapeLang.Proofs.Grammar.Completeness
import ShapeLang.Proofs.Printing.Meaning
import ShapeLang.Proofs.Reordering.Programs
import ShapeLang.Proofs.Token.Spelling
import ShapeLang.Proofs.Value.Data

/-! # Printed data reads back

The text of data is a program: it is cut into the tokens that its parts are written with, the tokens
form a phrase of the same form as the data, and the phrase has no names in it. A program with this
text evaluates to data that is equal to what was printed.
-/

namespace ShapeLang

open Grammar

/-- In front of a delimiter a text is spelled with these tokens. -/
def Written (text : List Char) (tokens : List Token) : Prop :=
  ∀ cs more, Delimited cs → Spells cs more → Spells (text ++ cs) (tokens ++ more)

/-- Texts that are separated by commas. -/
theorem Written.separated {parts : List (List Char × List Token)}
    (each : ∀ part ∈ parts, Written part.1 part.2) :
    Written ([','].intercalate (parts.map (·.1))) (spread .comma false (parts.map (·.2))) := by
  have behind (cs : List Char) (more : List Token) (ends : Delimited cs) (others : Spells cs more)
      (parts : List (List Char × List Token)) (each : ∀ part ∈ parts, Written part.1 part.2) :
      Delimited ((parts.map (·.1)).flatMap (',' :: ·) ++ cs) ∧
        Spells ((parts.map (·.1)).flatMap (',' :: ·) ++ cs)
          ((parts.map (·.2)).flatMap (.symbol .comma :: ·) ++ more) := by
    induction parts with
    | nil => exact ⟨ends, others⟩
    | cons part parts ih =>
      obtain ⟨first, rest⟩ := List.forall_mem_cons.mp each
      obtain ⟨ends', others'⟩ := ih rest
      simp only [List.map_cons, List.flatMap_cons, List.cons_append, List.append_assoc]
      exact ⟨delimited_cons (by decide) _, (first _ _ ends' others').lone (by decide)⟩
  intro cs more ends others
  cases parts with
  | nil => exact others
  | cons part parts =>
    obtain ⟨first, rest⟩ := List.forall_mem_cons.mp each
    obtain ⟨ends', others'⟩ := behind cs more ends others parts rest
    have text : [','].intercalate ((part :: parts).map (·.1)) =
        part.1 ++ (parts.map (·.1)).flatMap (',' :: ·) := by
      clear ends' others' behind each rest first
      induction parts generalizing part with
      | nil => simp
      | cons next parts ih =>
        simp only [List.map_cons] at ih ⊢
        rw [List.intercalate_cons_cons, ih next]
        simp
    rw [text]
    simpa [spread] using first _ _ ends' others'

/-- How the text of a value is read: its tokens, their form, and the value of this form. -/
structure Reading (value : Value) where
  tokens : List Token
  tree : Tree
  result : Value
  written : Written value.shown.toList tokens
  derives : Derives .signed tokens tree
  denotes : ∀ phrase : Phrase, phrase.tree = tree → phrase.Denotes result
  same : result.Same value

namespace Reading

theorem of_atom {tokens : List Token} {tree : Tree} (derives : Derives .atom tokens tree) :
    Derives .signed tokens tree :=
  .tighter rfl (.tighter rfl (.tighter rfl derives))

theorem expression {tokens : List Token} {tree : Tree} (derives : Derives .signed tokens tree) :
    Derives .expression tokens tree :=
  .tighter rfl (.tighter rfl (.tighter rfl (.tighter rfl (.tighter rfl (.tighter rfl
    (.tighter rfl derives))))))

theorem exists_bool (value : Bool) : Nonempty (Reading (.bool value)) := by
  refine ⟨⟨[.boolean value], .boolean value, .bool value, fun cs more ends others => ?_,
    of_atom (.literal (.boolean value)), fun phrase is => ?_, Value.same_bool value⟩⟩
  · cases value with
    | false =>
      have spells : Spells ('f' :: ("alse".toList ++ cs)) (.boolean false :: more) :=
        others.letters (by decide) (by decide) ends
      exact spells
    | true =>
      have spells : Spells ('t' :: ("rue".toList ++ cs)) (.boolean true :: more) :=
        others.letters (by decide) (by decide) ends
      exact spells
  · cases phrase with
    | boolean location b => cases is; exact Phrase.denotes_boolean location value
    | _ => cases is

theorem denotes_numeral {x : Float} (phrase : Phrase) (is : phrase.tree = .numeral x) :
    phrase.Denotes (.num x) := by
  cases phrase with
  | numeral location y => cases is; exact Phrase.denotes_numeral location x
  | _ => cases is

theorem exists_num {x : Float} (finite : x.isFinite)
    (exact : floatOfChars? (Layout.plain.chars x) = some x) : Nonempty (Reading (.num x)) := by
  obtain ⟨digits, y, plain, value, ⟨text, same⟩ | ⟨text, same⟩⟩ :=
    Value.numberText_denotes finite exact
  · refine ⟨⟨[.number y], .numeral y, .num y, fun cs more ends others => ?_,
      of_atom (.literal (.number y)), denotes_numeral, Value.same_num same⟩⟩
    rw [Value.shown, text]
    exact others.numeral plain value ends
  · refine ⟨⟨[.symbol .minus, .number y], .unary .negate (.numeral y), .num y.neg,
      fun cs more ends others => ?_, .signed (by decide) (of_atom (.literal (.number y))),
      fun phrase is => ?_, Value.same_num same⟩⟩
    · rw [Value.shown, text]
      have unsigned (d : Char) (first : d ∈ (digits ++ cs).head?) : d ≠ '>' := by
        rintro rfl
        obtain ⟨whole, part, rfl, are, -⟩ := plain
        obtain ⟨c, rest, rfl⟩ := List.exists_cons_of_ne_nil are.1
        obtain rfl : c = '>' := by simpa using first
        exact absurd (are.2 '>' (by simp)) (by decide)
      exact spells_minus unsigned (others.numeral plain value ends)
    · cases phrase with
      | unary location op operand =>
        rw [Phrase.tree] at is
        obtain ⟨rfl, inner⟩ := Tree.unary.inj is
        exact (denotes_numeral operand inner).negate
      | _ => cases is

theorem exists_text {content : String} (plain : ∀ c ∈ content.toList, c ≠ '"' ∧ c ≠ '\\') :
    Nonempty (Reading (.text content)) := by
  refine ⟨⟨[.text content], .text content, .text content, fun cs more ends others => ?_,
    of_atom (.literal (.text content)), fun phrase is => ?_, Value.same_text content⟩⟩
  · have spells := others.text plain
    rw [String.ofList_toList] at spells
    simpa [Value.shown] using spells
  · cases phrase with
    | text location content => cases is; exact Phrase.denotes_text location content
    | _ => cases is

/-- The texts of some values, between brackets and separated by commas. -/
theorem written_enclosed {opening closing : Char} {s t : Symbol}
    (opens : (opening, s) ∈ loneMarks) (closes : (closing, t) ∈ loneMarks)
    (delimits : closing ∈ delimiters) {parts : List (List Char × List Token)}
    (each : ∀ part ∈ parts, Written part.1 part.2) :
    Written (opening :: ([','].intercalate (parts.map (·.1)) ++ [closing]))
      (enclosed s t (spread .comma false (parts.map (·.2)))) := by
  intro cs more ends others
  have inner := Written.separated each (closing :: cs) (.symbol t :: more)
    (delimited_cons delimits cs) (others.lone closes)
  simpa [enclosed] using inner.lone opens

theorem denotes_all (readings : List (Σ value, Reading value)) {phrases : List Phrase}
    (are : phrases.map Phrase.tree = readings.map (·.2.tree)) :
    List.Forall₂ Phrase.Denotes phrases (readings.map (·.2.result)) := by
  induction readings generalizing phrases with
  | nil =>
    obtain rfl := List.map_eq_nil_iff.mp are
    exact .nil
  | cons reading readings ih =>
    obtain ⟨phrase, phrases, rfl, is, are⟩ := List.map_eq_cons_iff.mp are
    exact .cons (reading.2.denotes phrase is) (ih are)

theorem exists_all {items : List Value} (parts : ∀ item ∈ items, Nonempty (Reading item)) :
    ∃ readings : List (Σ value, Reading value), readings.map (·.1) = items := by
  induction items with
  | nil => exact ⟨[], rfl⟩
  | cons item items ih =>
    obtain ⟨⟨reading⟩, others⟩ := List.forall_mem_cons.mp parts
    obtain ⟨readings, rfl⟩ := ih others
    exact ⟨⟨item, reading⟩ :: readings, rfl⟩

theorem toList_shown_list (readings : List (Σ value, Reading value)) (frames : FrameSet) :
    (Value.list (readings.map (·.1)) frames).shown.toList =
      '[' :: ([','].intercalate (readings.map (·.1.shown.toList)) ++ [']']) := by
  have items : Value.shownItems (readings.map (·.1)) = readings.map (·.1.shown) := by
    induction readings with
    | nil => rfl
    | cons reading readings ih => rw [List.map_cons, Value.shownItems, ih, List.map_cons]
  simp [Value.shown, items, Function.comp_def]

theorem exists_list (readings : List (Σ value, Reading value)) (frames : FrameSet) :
    Nonempty (Reading (.list (readings.map (·.1)) frames)) := by
  refine ⟨⟨enclosed .leftBracket .rightBracket (spread .comma false (readings.map (·.2.tokens))),
    .list (readings.map (·.2.tree)), .ofItems (readings.map (·.2.result)), ?_, ?_,
    fun phrase is => ?_, ?_⟩⟩
  · have each : ∀ part ∈ readings.map fun r => (r.1.shown.toList, r.2.tokens),
        Written part.1 part.2 :=
      List.forall_mem_map.mpr fun reading _ => reading.2.written
    rw [toList_shown_list]
    simpa [Function.comp_def] using
      written_enclosed (s := .leftBracket) (t := .rightBracket) (by decide) (by decide) (by decide)
        each
  · have each : ∀ item ∈ readings.map fun r => (r.2.tokens, r.2.tree),
        Derives .expression item.1 item.2 :=
      List.forall_mem_map.mpr fun reading _ => expression reading.2.derives
    exact of_atom (by simpa [Function.comp_def] using Derives.list _ false each)
  · cases phrase with
    | list location items =>
      rw [Phrase.tree, Phrase.trees_eq] at is
      exact Phrase.denotes_list (denotes_all readings (Tree.list.inj is))
    | _ => cases is
  · have each : ∀ pair ∈ readings.map fun r => (r.2.result, r.1), pair.1.Same pair.2 :=
      List.forall_mem_map.mpr fun reading _ => reading.2.same
    simpa [Value.ofItems, Function.comp_def] using Value.same_list each

theorem written_field {name : String} (is : IsIdentifier name.toList) {text : List Char}
    {tokens : List Token} (written : Written text tokens) :
    Written (name.toList ++ ':' :: text) (.ident name :: .symbol .colon :: tokens) := by
  intro cs more ends others
  obtain ⟨matched, noLiteral⟩ := is
  have token : Piece.wordToken name.toList = .ident name := by
    have reads := Piece.token?_name noLiteral
    rw [Rule.token?, String.ofList_toList] at reads
    exact (Option.some.inj reads).symm
  obtain ⟨_, ⟨c, letter, rfl⟩, ds, each, whole⟩ := matched
  have letters : ds.all isWordChar = true := List.all_eq_true.mpr fun d mem =>
    Rule.isWordChar_iff.mpr (Pattern.mem_kstar_oneOf.mp each d mem)
  have value := (written cs more ends others).lone (c := ':') (s := .colon) (by decide)
  have spells := value.letters (Rule.isWordStart_iff.mpr letter) letters
    (delimited_cons (by decide) _)
  have split : name.toList = c :: ds := whole.symm
  rw [← split, token] at spells
  simpa [split] using spells

/-- The names of a record with what is read for its fields. -/
abbrev Entries := List (String × Σ value, Reading value)

theorem toList_shown_record (entries : Entries) (frames : FrameSet) :
    (Value.record (entries.map fun e => (e.1, e.2.1)) frames).shown.toList =
      '\x7b' :: ([','].intercalate (entries.map fun e => e.1.toList ++ ':' :: e.2.1.shown.toList) ++
        ['\x7d']) := by
  have fields : Value.shownFields (entries.map fun e => (e.1, e.2.1)) =
      entries.map fun e => e.1 ++ ":" ++ e.2.1.shown := by
    induction entries with
    | nil => rfl
    | cons entry entries ih => rw [List.map_cons, Value.shownFields, ih, List.map_cons]
  simp [Value.shown, fields, Function.comp_def]

theorem exists_record (entries : Entries) (frames : FrameSet)
    (names : ∀ e ∈ entries, IsIdentifier e.1.toList) (distinct : (entries.map (·.1)).Nodup) :
    Nonempty (Reading (.record (entries.map fun e => (e.1, e.2.1)) frames)) := by
  refine ⟨⟨enclosed .leftBrace .rightBrace (spread .comma false
      (entries.map fun e => .ident e.1 :: .symbol .colon :: e.2.2.tokens)),
    .record (entries.map fun e => (e.1, e.2.2.tree)),
    .ofFields (entries.map fun e => (e.1, e.2.2.result)), ?_, ?_, fun phrase is => ?_, ?_⟩⟩
  · have each : ∀ part ∈ entries.map fun e => (e.1.toList ++ ':' :: e.2.1.shown.toList,
        Token.ident e.1 :: .symbol .colon :: e.2.2.tokens), Written part.1 part.2 :=
      List.forall_mem_map.mpr fun entry mem => written_field (names entry mem) entry.2.2.written
    rw [toList_shown_record]
    simpa [Function.comp_def] using
      written_enclosed (s := .leftBrace) (t := .rightBrace) (by decide) (by decide) (by decide) each
  · have each : ∀ field ∈ entries.map fun e => (e.1, e.2.2.tokens, e.2.2.tree),
        Derives .expression field.2.1 field.2.2 :=
      List.forall_mem_map.mpr fun entry _ => expression entry.2.2.derives
    exact of_atom (by simpa [Function.comp_def] using Derives.record _ false each)
  · cases phrase with
    | record location fields =>
      rw [Phrase.tree, Phrase.fieldTrees_eq] at is
      have same := Tree.record.inj is
      have keys : fields.map (·.1.name) = entries.map (·.1) := by
        simpa [Function.comp_def] using congrArg (List.map (·.1)) same
      have trees : (fields.map (·.2)).map Phrase.tree = (entries.map (·.2)).map (·.2.tree) := by
        simpa [Function.comp_def] using congrArg (List.map (·.2)) same
      have denotes := Phrase.denotes_record (denotes_all _ trees) (keys ▸ distinct) location
      rwa [keys, List.map_map, List.zip_map'] at denotes
    | _ => cases is
  · have each : ∀ field ∈ entries.map fun e => (e.1, e.2.2.result, e.2.1),
        field.2.1.Same field.2.2 :=
      List.forall_mem_map.mpr fun entry _ => entry.2.2.same
    simpa [Value.ofFields, Function.comp_def] using
      Value.same_record (by simpa [Function.comp_def] using distinct) each

theorem exists_entries {fields : List (String × Value)}
    (parts : ∀ field ∈ fields, Nonempty (Reading field.2)) :
    ∃ entries : Entries, entries.map (fun e => (e.1, e.2.1)) = fields := by
  induction fields with
  | nil => exact ⟨[], rfl⟩
  | cons field fields ih =>
    obtain ⟨⟨reading⟩, others⟩ := List.forall_mem_cons.mp parts
    obtain ⟨entries, rfl⟩ := ih others
    exact ⟨(field.1, ⟨field.2, reading⟩) :: entries, rfl⟩

/-- All data can be read. -/
theorem exists_data {numbers : Float → Prop} {value : Value} (data : value.IsData numbers)
    (finite : ∀ x, numbers x → x.isFinite)
    (display : ∀ x, numbers x → floatOfChars? (Layout.plain.chars x) = some x) :
    Nonempty (Reading value) := by
  induction data with
  | bool value => exact exists_bool value
  | num known => exact exists_num (finite _ known) (display _ known)
  | text plain => exact exists_text plain
  | list _ ih =>
    obtain ⟨readings, rfl⟩ := exists_all ih
    exact exists_list readings _
  | record names distinct _ ih =>
    obtain ⟨entries, rfl⟩ := exists_entries ih
    exact exists_record entries _ (fun entry mem => names _ (List.mem_map_of_mem mem))
      (by simpa [Function.comp_def] using distinct)

end Reading

/-- The text of data is a program without errors. -/
theorem Reading.phrase {value : Value} (reading : Reading value) (name : String) :
    ∃ phrase, Source.phrase ⟨name, value.shown⟩ = .ok phrase ∧ phrase.Denotes reading.result := by
  have spells := reading.written [] [] delimited_nil .done
  rw [List.append_nil, List.append_nil] at spells
  obtain ⟨tokens, clean⟩ :=
    spells.lex (show Source.chars ⟨name, value.shown⟩ = value.shown.toList from rfl)
  obtain ⟨phrase, parsed, form⟩ := Phrase.parse_of_derives ⟨name, value.shown⟩
    (tokens.symm ▸ expression reading.derives)
  refine ⟨phrase, ?_, reading.denotes phrase form⟩
  simp only [Source.phrase, clean, parsed, List.map_nil, List.isEmpty_nil, ↓reduceIte]

theorem Phrase.Denotes.analyze {phrase : Phrase} {result : Value} (denotes : phrase.Denotes result)
    (names : Namespace) :
    ∃ resolved, phrase.analyze names = .ok resolved ∧ resolved.expr.Yields result := by
  obtain ⟨expr, yields, ran⟩ := denotes phrase.size [.ofNamespace names] (Nat.le_refl _)
  have run : Analysis.program phrase [.ofNamespace names] = (.ok expr, [.ofNamespace names]) := by
    rw [Analysis.program, bind_run, Analysis.meaning, ran]
    rfl
  refine ⟨⟨expr, 0⟩, ?_, yields⟩
  rw [Phrase.analyze, run]
  rfl

namespace Program

/-- Printed data reads back, for numbers whose digits do: in any context the text of data is read
and compiled without an error, and the program evaluates, without changing a frame, to data that is
equal to what was printed. -/
theorem printed_reads_back {numbers : Float → Prop} {value : Value} (data : value.IsData numbers)
    (finite : ∀ x, numbers x → x.isFinite)
    (display : ∀ x, numbers x → floatOfChars? (Layout.plain.chars x) = some x)
    (name : String) (names : Namespace) (held : List Held) (caller : Option FrameId) (heap : Heap)
    (known : ∀ id, caller = some id → ∃ frame, heap.frame? id = some frame) :
    ∃ phrase program after result,
      Source.phrase ⟨name, value.shown⟩ = .ok phrase ∧
      compile names held caller ⟨name, value.shown⟩ heap = (.ok (.ok program), after) ∧
      (∃ enough, ∀ m fuel held heap, enough ≤ fuel →
        program.eval m fuel held heap = (.ok result, heap)) ∧
      result.equal value = true ∧ value.equal result = true := by
  obtain ⟨reading⟩ := Reading.exists_data data finite display
  obtain ⟨phrase, read, denotes⟩ := reading.phrase name
  obtain ⟨resolved, analysed, enough, run⟩ := denotes.analyze names
  obtain ⟨depth, compiled⟩ := compile_ran names held known
  refine ⟨phrase, _, _, reading.result, read, compiled _ phrase resolved read analysed,
    ⟨enough, fun m fuel held heap le => ?_⟩, reading.same⟩
  rw [Program.eval, run m fuel _ _ heap le]

/-- A negative and an integral number, a truth value, a text and an empty record. -/
theorem printed_reads_back_nested : ∃ value : Value,
    value = .ofFields [("a", .ofItems [.num (-1.5), .num 20, .bool true]), ("b1", .ofFields []),
      ("_", .text "x = y")] ∧
    ∃ phrase program after result,
      Source.phrase ⟨"printed", value.shown⟩ = .ok phrase ∧
      compile Namespace.standard [] none ⟨"printed", value.shown⟩ .empty =
        (.ok (.ok program), after) ∧
      (∃ enough, ∀ m fuel held heap, enough ≤ fuel →
        program.eval m fuel held heap = (.ok result, heap)) ∧
      result.equal value = true ∧ value.equal result = true := by
  have data : (Value.ofFields [("a", .ofItems [.num (-1.5), .num 20, .bool true]),
      ("b1", .ofFields []), ("_", .text "x = y")]).IsData fun x => x ∈ [-1.5, 20] := by
    refine .record ?_ (by decide) ?_
    · simp only [List.forall_mem_cons]
      exact ⟨.of_word (by decide) (by decide) rfl, .of_word (by decide) (by decide) rfl,
        .of_word (by decide) (by decide) rfl, by simp⟩
    · simp only [List.forall_mem_cons]
      refine ⟨.list ?_, .record (by simp) (by simp) (by simp), .text (by simp), by simp⟩
      simp only [List.forall_mem_cons]
      exact ⟨.num (by simp), .num (by simp), .bool true, by simp⟩
  refine ⟨_, rfl, printed_reads_back data ?_ ?_ "printed" Namespace.standard [] none .empty ?_⟩
  · simp only [List.forall_mem_cons]
    exact ⟨by decide +kernel, by decide +kernel, by simp⟩
  · simp only [List.forall_mem_cons]
    exact ⟨by decide +kernel, by decide +kernel, by simp⟩
  · intro id same
    cases same

end Program

end ShapeLang
