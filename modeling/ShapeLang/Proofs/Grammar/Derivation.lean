import ShapeLang.Phrase
import ShapeLang.Token

/-! # The context-free grammar

Which sequences of tokens are programs, and of which form, said apart from any way of reading them.
From the loosest level to the tightest:

    expression  ::= params -> expression | let items in expression
                  | if ( expression ) expression else expression
                  | for ( name in expression ) expression | definition
    definition  ::= disjunction = expression | disjunction
    disjunction ::= disjunction || conjunction | conjunction      and so on for && , the six
                    comparisons, + - and * /
    signed      ::= - signed | ! signed | power
    power       ::= suffixed ^ power | suffixed
    suffixed    ::= suffixed ( items? ) | suffixed . name | suffixed [ expression ] | atom
    atom        ::= literal | name | [ items? ] | { fields? } | { items } | ( expression )

Items and fields are separated, and a separator may follow the last one. `Derives.begins`
and `Derives.after_name` say with which tokens a derived sequence can begin: this is what lets a reader
decide between alternatives that overlap.
-/

namespace ShapeLang

/-- A phrase without the places of its parts. -/
inductive Tree where
  | numeral (value : Float)
  | boolean (value : Bool)
  | text (content : String)
  | ident (name : String)
  | list (items : List Tree)
  | record (fields : List (String × Tree))
  | module (items : List Tree)
  | definition (target definiens : Tree)
  | lambda (params : List String) (body : Tree)
  | call (function : Tree) (args : List Tree)
  | dot (base : Tree) (field : String)
  | index (base place : Tree)
  | unary (op : UnaryOp) (operand : Tree)
  | binary (op : BinaryOp) (left right : Tree)
  | conditional (condition whenTrue whenFalse : Tree)
  | letIn (definitions : List Tree) (body : Tree)
  | forEach (item : String) (list body : Tree)

namespace Phrase

mutual

/-- The phrase, positions aside. -/
def tree : Phrase → Tree
  | numeral _ value => .numeral value
  | boolean _ value => .boolean value
  | text _ content => .text content
  | ident _ name => .ident name.name
  | list _ items => .list (trees items)
  | record _ fields => .record (fieldTrees fields)
  | module _ items => .module (trees items)
  | definition _ target definiens => .definition target.tree definiens.tree
  | lambda _ params body => .lambda (params.map (·.name)) body.tree
  | call _ function args => .call function.tree (trees args)
  | dot _ base field => .dot base.tree field.name
  | index _ base place => .index base.tree place.tree
  | unary _ op operand => .unary op operand.tree
  | binary _ op left right => .binary op left.tree right.tree
  | conditional _ condition whenTrue whenFalse =>
    .conditional condition.tree whenTrue.tree whenFalse.tree
  | letIn _ definitions body => .letIn (trees definitions) body.tree
  | forEach _ item items body => .forEach item.name items.tree body.tree

def trees : List Phrase → List Tree
  | [] => []
  | phrase :: phrases => phrase.tree :: trees phrases

def fieldTrees : List (Ident × Phrase) → List (String × Tree)
  | [] => []
  | (name, phrase) :: fields => (name.name, phrase.tree) :: fieldTrees fields

end

attribute [simp] tree trees fieldTrees

theorem trees_eq (phrases : List Phrase) : trees phrases = phrases.map tree := by
  induction phrases with
  | nil => rfl
  | cons phrase phrases ih => rw [trees, ih, List.map_cons]

theorem fieldTrees_eq (fields : List (Ident × Phrase)) :
    fieldTrees fields = fields.map fun field => (field.1.name, field.2.tree) := by
  induction fields with
  | nil => rfl
  | cons field fields ih =>
    obtain ⟨name, phrase⟩ := field
    rw [fieldTrees, ih, List.map_cons]

end Phrase

namespace Grammar

/-- The nonterminals of the grammar, the loosest first. -/
inductive Level where
  | expression
  | definition
  | disjunction
  | conjunction
  | comparison
  | sum
  | product
  | signed
  | power
  | suffixed
  | atom
deriving DecidableEq

namespace Level

/-- The level whose phrases are phrases of this level as they stand. -/
def tighter? : Level → Option Level
  | expression => some definition
  | definition => some disjunction
  | disjunction => some conjunction
  | conjunction => some comparison
  | comparison => some sum
  | sum => some product
  | product => some signed
  | signed => some power
  | power => some suffixed
  | suffixed => some atom
  | atom => none

/-- The operators that group from the left on this level. -/
def operators : Level → List (Symbol × BinaryOp)
  | disjunction => [(.or, .or)]
  | conjunction => [(.and, .and)]
  | comparison => [(.lessEqual, .lessEqual), (.greaterEqual, .greaterEqual), (.less, .less),
    (.greater, .greater), (.equal, .equal), (.notEqual, .notEqual)]
  | sum => [(.plus, .add), (.minus, .subtract)]
  | product => [(.star, .multiply), (.slash, .divide)]
  | _ => []

end Level

/-- The prefix operators. -/
def signs : List (Symbol × UnaryOp) := [(.minus, .negate), (.not, .not)]

/-- Sequences one after the other with a separator between them, and perhaps one after the last. -/
def spread (separator : Symbol) (trailing : Bool) : List (List Token) → List Token
  | [] => []
  | item :: items =>
    item ++ (items.flatMap fun next => .symbol separator :: next) ++
      if trailing then [.symbol separator] else []

theorem spread_cons (separator : Symbol) (trailing : Bool) (first : List Token)
    (others : List (List Token)) :
    spread separator trailing (first :: others) =
      first ++ ((others.map (.symbol separator :: ·)).flatten ++
        if trailing then [.symbol separator] else []) := by
  simp [spread, List.flatMap_def]

/-- A sequence in a pair of brackets. -/
def enclosed (opening closing : Symbol) (tokens : List Token) : List Token :=
  .symbol opening :: (tokens ++ [.symbol closing])

/-- The parameters of a function: one name, or any number of names in parentheses. -/
inductive Params : List Token → List String → Prop
  | one (name : String) : Params [.ident name] [name]
  | listed (names : List String) (trailing : Bool) :
    Params (enclosed .leftParen .rightParen
      (spread .comma trailing (names.map fun name => [.ident name]))) names

/-- A literal and what it stands for. -/
inductive Literal : Token → Tree → Prop
  | number (value : Float) : Literal (.number value) (.numeral value)
  | boolean (value : Bool) : Literal (.boolean value) (.boolean value)
  | text (content : String) : Literal (.text content) (.text content)

/-- The tokens are a sentence of the level, and have the form of the tree. -/
inductive Derives : Level → List Token → Tree → Prop
  | tighter {level below : Level} {ts : List Token} {a : Tree} (next : level.tighter? = some below)
      (part : Derives below ts a) : Derives level ts a
  | lambda {ps ts : List Token} {names : List String} {body : Tree} (params : Params ps names)
      (inner : Derives .expression ts body) :
      Derives .expression (ps ++ .symbol .arrow :: ts) (.lambda names body)
  | letIn (items : List (List Token × Tree)) (trailing : Bool) {ts : List Token} {body : Tree}
      (nonempty : items ≠ []) (parts : ∀ item ∈ items, Derives .expression item.1 item.2)
      (inner : Derives .expression ts body) :
      Derives .expression
        (.symbol .letKeyword ::
          (spread .semicolon trailing (items.map (·.1)) ++ .symbol .inKeyword :: ts))
        (.letIn (items.map (·.2)) body)
  | conditional {ts us vs : List Token} {a b c : Tree} (condition : Derives .expression ts a)
      (whenTrue : Derives .expression us b) (whenFalse : Derives .expression vs c) :
      Derives .expression
        (.symbol .ifKeyword ::
          (enclosed .leftParen .rightParen ts ++ (us ++ .symbol .elseKeyword :: vs)))
        (.conditional a b c)
  | forEach (name : String) {ts us : List Token} {a b : Tree} (list : Derives .expression ts a)
      (body : Derives .expression us b) :
      Derives .expression
        (.symbol .forKeyword ::
          (enclosed .leftParen .rightParen (.ident name :: .symbol .inKeyword :: ts) ++ us))
        (.forEach name a b)
  | definition {ts us : List Token} {a b : Tree} (target : Derives .disjunction ts a)
      (definiens : Derives .expression us b) :
      Derives .definition (ts ++ .symbol .assign :: us) (.definition a b)
  | binary {level below : Level} {ts us : List Token} {a b : Tree} {symbol : Symbol}
      {op : BinaryOp} (next : level.tighter? = some below) (known : (symbol, op) ∈ level.operators)
      (left : Derives level ts a) (right : Derives below us b) :
      Derives level (ts ++ .symbol symbol :: us) (.binary op a b)
  | signed {ts : List Token} {a : Tree} {symbol : Symbol} {op : UnaryOp}
      (known : (symbol, op) ∈ signs) (operand : Derives .signed ts a) :
      Derives .signed (.symbol symbol :: ts) (.unary op a)
  | power {ts us : List Token} {a b : Tree} (base : Derives .suffixed ts a)
      (exponent : Derives .power us b) :
      Derives .power (ts ++ .symbol .caret :: us) (.binary .power a b)
  | call {ts : List Token} {a : Tree} (function : Derives .suffixed ts a)
      (args : List (List Token × Tree)) (trailing : Bool)
      (parts : ∀ arg ∈ args, Derives .expression arg.1 arg.2) :
      Derives .suffixed
        (ts ++ enclosed .leftParen .rightParen (spread .comma trailing (args.map (·.1))))
        (.call a (args.map (·.2)))
  | dot {ts : List Token} {a : Tree} (base : Derives .suffixed ts a) (name : String) :
      Derives .suffixed (ts ++ [.symbol .dot, .ident name]) (.dot a name)
  | index {ts us : List Token} {a b : Tree} (base : Derives .suffixed ts a)
      (place : Derives .expression us b) :
      Derives .suffixed (ts ++ enclosed .leftBracket .rightBracket us) (.index a b)
  | literal {token : Token} {a : Tree} (is : Literal token a) : Derives .atom [token] a
  | ident (name : String) : Derives .atom [.ident name] (.ident name)
  | list (items : List (List Token × Tree)) (trailing : Bool)
      (parts : ∀ item ∈ items, Derives .expression item.1 item.2) :
      Derives .atom
        (enclosed .leftBracket .rightBracket (spread .comma trailing (items.map (·.1))))
        (.list (items.map (·.2)))
  | record (fields : List (String × List Token × Tree)) (trailing : Bool)
      (parts : ∀ field ∈ fields, Derives .expression field.2.1 field.2.2) :
      Derives .atom
        (enclosed .leftBrace .rightBrace (spread .comma trailing
          (fields.map fun field => .ident field.1 :: .symbol .colon :: field.2.1)))
        (.record (fields.map fun field => (field.1, field.2.2)))
  | module (items : List (List Token × Tree)) (trailing : Bool) (nonempty : items ≠ [])
      (parts : ∀ item ∈ items, Derives .expression item.1 item.2) :
      Derives .atom
        (enclosed .leftBrace .rightBrace (spread .semicolon trailing (items.map (·.1))))
        (.module (items.map (·.2)))
  | parens {ts : List Token} {a : Tree} (inner : Derives .expression ts a) :
      Derives .atom (enclosed .leftParen .rightParen ts) a

/-- The symbols after which a whole expression may stand, and which therefore end one. -/
def closers : List Symbol :=
  [.rightParen, .rightBracket, .rightBrace, .comma, .semicolon, .inKeyword, .elseKeyword]

/-- The symbols that can follow an operand. -/
def continuers : List Symbol :=
  [.leftParen, .dot, .leftBracket, .caret, .star, .slash, .plus, .minus, .lessEqual,
    .greaterEqual, .less, .greater, .equal, .notEqual, .and, .or, .assign]

/-- The symbols that an atom can begin with. -/
def atomOpeners : List Symbol := [.leftParen, .leftBracket, .leftBrace]

/-- The symbols that an operand can begin with. -/
def operandOpeners : List Symbol := [.minus, .not] ++ atomOpeners

/-- The symbols that an expression can begin with. -/
def openers : List Symbol := [.letKeyword, .ifKeyword, .forKeyword] ++ operandOpeners

/-- The first token, if there is one, is one of some symbols. -/
def Next (symbols : List Symbol) (tokens : List Token) : Prop :=
  ∀ token ∈ tokens.head?, ∃ s ∈ symbols, token = .symbol s

/-- There is a first token, and if it is a symbol, it is one of these. -/
def Begins (symbols : List Symbol) (tokens : List Token) : Prop :=
  ∃ token rest, tokens = token :: rest ∧ ∀ s, token = .symbol s → s ∈ symbols

/-- The tokens begin with a prefix operator, or with an atom and something that can follow one. -/
def Leads (ts : List Token) : Prop :=
  (∃ sign rest, ts = .symbol sign :: rest ∧ (sign = .minus ∨ sign = .not)) ∨
    ∃ first rest a, ts = first ++ rest ∧ Derives .atom first a ∧ Next continuers rest

section Leading

variable {level : Level} {ts rest : List Token} {a : Tree} {s : Symbol} {symbols : List Symbol}

theorem next_cons (known : s ∈ symbols) (rest : List Token) : Next symbols (.symbol s :: rest) := by
  intro token mem
  exact ⟨s, known, by simpa using mem.symm⟩

theorem Next.append (next : Next symbols ts) (known : s ∈ symbols) (rest : List Token) :
    Next symbols (ts ++ .symbol s :: rest) := by
  cases ts with
  | nil => exact next_cons known rest
  | cons token ts => exact fun token mem => next token (by simpa using mem)

theorem Leads.append (leads : Leads ts) (known : s ∈ continuers) (rest : List Token) :
    Leads (ts ++ .symbol s :: rest) := by
  rcases leads with ⟨sign, more, rfl, which⟩ | ⟨first, more, a, rfl, atom, next⟩
  · exact .inl ⟨sign, more ++ .symbol s :: rest, by simp, which⟩
  · exact .inr ⟨first, more ++ .symbol s :: rest, a, by simp, atom, next.append known rest⟩

theorem Leads.of_atom (atom : Derives .atom ts a) : Leads ts :=
  .inr ⟨ts, [], a, by simp, atom, by simp [Next]⟩

theorem mem_continuers_of_operator {symbol : Symbol} {op : BinaryOp}
    (known : (symbol, op) ∈ level.operators) : symbol ∈ continuers := by
  have all : ∀ level : Level, ∀ entry ∈ level.operators, entry.1 ∈ continuers := by
    intro level
    cases level <;> decide
  exact all level _ known

/-- An operand of any level leads with its first atom. -/
theorem Derives.leading (derives : Derives level ts a) (operand : level ≠ .expression) :
    Leads ts := by
  induction derives with
  | @tighter level below _ _ next _ ih =>
    apply ih
    rintro rfl
    cases level <;> cases next
  | lambda => exact absurd rfl operand
  | letIn => exact absurd rfl operand
  | conditional => exact absurd rfl operand
  | forEach => exact absurd rfl operand
  | definition _ _ ih => exact (ih (by simp)).append (by decide) _
  | binary _ known _ _ ih => exact (ih operand).append (mem_continuers_of_operator known) _
  | @signed ts _ symbol _ known _ _ =>
    have which : symbol = .minus ∨ symbol = .not := by
      have all : ∀ entry ∈ signs, entry.1 = .minus ∨ entry.1 = .not := by decide
      exact all _ known
    exact .inl ⟨symbol, ts, rfl, which⟩
  | power _ _ ih => exact (ih (by simp)).append (by decide) _
  | call _ _ _ _ ih => exact (ih (by simp)).append (by decide) _
  | dot _ _ ih => exact (ih (by simp)).append (by decide) _
  | index _ _ ih => exact (ih (by simp)).append (by decide) _
  | literal is => exact .of_atom (.literal is)
  | ident name => exact .of_atom (.ident name)
  | list items trailing parts => exact .of_atom (.list items trailing parts)
  | record fields trailing parts => exact .of_atom (.record fields trailing parts)
  | «module» items trailing nonempty parts =>
    exact .of_atom (.module items trailing nonempty parts)
  | parens inner => exact .of_atom (.parens inner)

theorem Begins.append (begins : Begins symbols ts) (rest : List Token) :
    Begins symbols (ts ++ rest) := by
  obtain ⟨token, more, rfl, opens⟩ := begins
  exact ⟨token, more ++ rest, rfl, opens⟩

theorem Begins.mono {more : List Symbol} (begins : Begins symbols ts)
    (sub : ∀ s ∈ symbols, s ∈ more) : Begins more ts := by
  obtain ⟨token, rest, rfl, opens⟩ := begins
  exact ⟨token, rest, rfl, fun s is => sub s (opens s is)⟩

theorem Begins.not_symbol (begins : Begins symbols ts) (other : s ∉ symbols) (rest : List Token) :
    (ts ++ rest).head? ≠ some (.symbol s) := by
  obtain ⟨token, more, rfl, opens⟩ := begins
  intro is
  exact other (opens s (by simpa using is))

theorem Next.not_symbol (next : Next symbols ts) (other : s ∉ symbols) :
    ts.head? ≠ some (.symbol s) := by
  intro is
  obtain ⟨t, known, same⟩ := next _ is
  cases same
  exact other known

theorem Next.mono {more : List Symbol} (next : Next symbols ts)
    (sub : ∀ s ∈ symbols, s ∈ more) : Next more ts := by
  intro token mem
  obtain ⟨s, known, is⟩ := next token mem
  exact ⟨s, sub s known, is⟩

/-- An atom begins with a name, a literal, or a bracket. -/
theorem Derives.atom_begins (atom : Derives .atom ts a) : Begins atomOpeners ts := by
  cases atom with
  | tighter next => cases next
  | binary next => cases next
  | literal is => exact ⟨_, [], rfl, by cases is <;> simp⟩
  | ident name => exact ⟨_, [], rfl, by simp⟩
  | list => exact ⟨_, _, rfl, by simp [atomOpeners]⟩
  | record => exact ⟨_, _, rfl, by simp [atomOpeners]⟩
  | «module» => exact ⟨_, _, rfl, by simp [atomOpeners]⟩
  | parens => exact ⟨_, _, rfl, by simp [atomOpeners]⟩

/-- What is appended to an atom comes after it. -/
theorem Derives.suffixed_begins (derives : Derives .suffixed ts a) : Begins atomOpeners ts := by
  generalize level : Level.suffixed = l at derives
  induction derives with
  | tighter next part => subst level; cases next; exact part.atom_begins
  | binary _ known => subst level; cases known
  | call _ _ _ _ ih => exact (ih level).append _
  | dot _ _ ih => exact (ih level).append _
  | index _ _ ih => exact (ih level).append _
  | _ => cases level

theorem Derives.power_begins (derives : Derives .power ts a) : Begins atomOpeners ts := by
  cases derives with
  | tighter next part => cases next; exact part.suffixed_begins
  | binary _ known => cases known
  | power base => exact base.suffixed_begins.append _

theorem Leads.begins (leads : Leads ts) : Begins operandOpeners ts := by
  rcases leads with ⟨sign, more, rfl, which⟩ | ⟨first, more, a, rfl, atom, -⟩
  · exact ⟨_, _, rfl, by rcases which with rfl | rfl <;> simp [operandOpeners]⟩
  · exact (atom.atom_begins.append more).mono (by decide)

theorem Params.begins {names : List String} (params : Params ts names) :
    Begins [.leftParen] ts := by
  cases params with
  | one name => exact ⟨_, _, rfl, by simp⟩
  | listed names trailing => exact ⟨_, _, rfl, by simp⟩

/-- A derived sequence begins with a name, a literal, or one of the symbols that can open it. -/
theorem Derives.begins (derives : Derives level ts a) : Begins openers ts := by
  by_cases operand : level = .expression
  · subst operand
    cases derives with
    | tighter next part =>
      cases next
      exact (part.leading (by decide)).begins.mono (by decide)
    | binary next known => cases known
    | lambda params inner => exact (params.begins.append _).mono (by decide)
    | letIn => exact ⟨_, _, rfl, by simp [openers]⟩
    | conditional => exact ⟨_, _, rfl, by simp [openers]⟩
    | forEach => exact ⟨_, _, rfl, by simp [openers]⟩
  · exact (derives.leading operand).begins.mono (by decide)

/-- An atom that begins with a name is this name. -/
theorem Derives.atom_of_name {name : String} (atom : Derives .atom (.ident name :: rest) a) :
    rest = [] := by
  generalize whole : Token.ident name :: rest = ts at atom
  cases atom with
  | tighter next => cases next
  | binary next => cases next
  | literal => cases whole; rfl
  | ident => cases whole; rfl
  | list => cases whole
  | record => cases whole
  | «module» => cases whole
  | parens => cases whole

theorem Leads.after_name {name : String} (leads : Leads (.ident name :: rest)) :
    Next continuers rest := by
  rcases leads with ⟨sign, more, whole, -⟩ | ⟨first, more, a, whole, atom, next⟩
  · cases whole
  · obtain ⟨token, others, rfl, -⟩ := atom.atom_begins
    obtain ⟨rfl, rfl⟩ := List.cons.inj whole
    rw [atom.atom_of_name]
    exact next

/-- After a leading name comes an arrow, or something that can follow an operand. -/
theorem Derives.after_name {name : String} (derives : Derives level (.ident name :: rest) a) :
    Next (.arrow :: continuers) rest := by
  by_cases operand : level = .expression
  · subst operand
    generalize whole : Token.ident name :: rest = ts at derives
    cases derives with
    | tighter next part =>
      cases next
      subst whole
      exact (part.leading (by decide)).after_name.mono (by simp +contextual)
    | binary next known => cases known
    | lambda params inner =>
      cases params with
      | one => cases whole; exact next_cons (by simp) _
      | listed => cases whole
    | letIn => cases whole
    | conditional => cases whole
    | forEach => cases whole
  · exact (derives.leading operand).after_name.mono (by simp +contextual)

/-- An atom that begins with a parenthesis is an expression in parentheses. -/
theorem Derives.atom_of_paren (atom : Derives .atom (.symbol .leftParen :: rest) a) :
    ∃ us, rest = us ++ [.symbol .rightParen] ∧ Derives .expression us a := by
  generalize whole : Token.symbol .leftParen :: rest = ts at atom
  cases atom with
  | tighter next => cases next
  | binary next => cases next
  | literal is => cases whole; cases is
  | ident => cases whole
  | list => cases whole
  | record => cases whole
  | «module» => cases whole
  | parens inner => cases whole; exact ⟨_, rfl, inner⟩

/-- No operand that ends before a closing symbol begins with the parameters of a function and an
arrow after them, although it can begin with what looks like parameters. -/
theorem Derives.not_params (derives : Derives .definition ts a) (next : Next closers rest)
    {ps more : List Token} {names : List String} (params : Params ps names)
    (same : ps ++ more = ts ++ rest) : more.head? ≠ some (.symbol .arrow) := by
  rcases derives.leading (by decide) with ⟨sign, others, rfl, which⟩ | ⟨first, others, b, rfl, atom, after⟩
  · have := params.begins.not_symbol (s := sign) (by rcases which with rfl | rfl <;> decide) more
    simp [same] at this
  have follows : Next (continuers ++ closers) (others ++ rest) := by
    cases others with
    | nil => exact next.mono (by decide)
    | cons => exact Next.mono (fun token mem => after token (by simpa using mem)) (by decide)
  have unlike : (others ++ rest).head? ≠ some (.symbol .arrow) := follows.not_symbol (by decide)
  obtain ⟨token, inside, rfl, -⟩ := atom.atom_begins
  cases params with
  | one name =>
    obtain ⟨rfl, rfl⟩ := List.cons.inj same
    rw [atom.atom_of_name]
    exact unlike
  | listed names trailing =>
    obtain ⟨rfl, -⟩ := List.cons.inj same
    obtain ⟨us, rfl, inner⟩ := atom.atom_of_paren
    replace same : spread .comma trailing (names.map fun name => [Token.ident name]) ++
        .symbol .rightParen :: more = us ++ .symbol .rightParen :: (others ++ rest) := by
      simpa [enclosed] using same
    obtain ⟨head, tail, rfl, opens⟩ := inner.begins
    cases names with
    | nil => exact absurd (opens .rightParen (List.cons.inj same).1.symm) (by decide)
    | cons name names =>
      rw [List.map_cons, spread_cons] at same
      obtain ⟨rfl, same⟩ := List.cons.inj same
      -- After the name comes a comma or the closing parenthesis, so the operand is the name alone.
      cases tail with
      | cons second tail =>
        obtain ⟨s, known, rfl⟩ := inner.after_name second rfl
        have which : s = .comma ∨ s = .rightParen := by
          cases names with
          | cons => simp at same; exact .inl same.1.symm
          | nil =>
            cases trailing
            · simp at same; exact .inr same.1.symm
            · simp at same; exact .inl same.1.symm
        rcases which with rfl | rfl <;> simp [continuers] at known
      | nil =>
        cases names with
        | cons => simp at same
        | nil =>
          cases trailing with
          | true => simp at same
          | false =>
            obtain rfl : more = others ++ rest := by simpa using same
            exact unlike

end Leading

section Chains

variable {level below : Level} {ts : List Token} {a : Tree}

/-- On a level of operators the last operator is the outermost. -/
theorem Derives.binary_cases (derives : Derives level ts a) (binary : level.operators ≠ [])
    (next : level.tighter? = some below) :
    Derives below ts a ∨ ∃ us vs b c symbol op, ts = us ++ .symbol symbol :: vs ∧
      a = .binary op b c ∧ (symbol, op) ∈ level.operators ∧ Derives level us b ∧
      Derives below vs c := by
  cases derives with
  | tighter next' part => cases next.symm.trans next'; exact .inl part
  | binary next' known left right =>
    cases next.symm.trans next'
    exact .inr ⟨_, _, _, _, _, _, rfl, rfl, known, left, right⟩
  | lambda => exact absurd rfl binary
  | letIn => exact absurd rfl binary
  | conditional => exact absurd rfl binary
  | forEach => exact absurd rfl binary
  | definition => exact absurd rfl binary
  | signed => exact absurd rfl binary
  | power => exact absurd rfl binary
  | call => exact absurd rfl binary
  | dot => exact absurd rfl binary
  | index => exact absurd rfl binary
  | literal => exact absurd rfl binary
  | ident => exact absurd rfl binary
  | list => exact absurd rfl binary
  | record => exact absurd rfl binary
  | «module» => exact absurd rfl binary
  | parens => exact absurd rfl binary

/-- Powers of powers, grouped from the right. -/
def Tree.powers (base : Tree) : List Tree → Tree
  | [] => base
  | exponent :: exponents => .binary .power base (powers exponent exponents)

/-- A power is a row of operands. -/
theorem Derives.power_parts (derives : Derives .power ts a) :
    ∃ us b, ∃ parts : List (List Token × Tree),
      ts = us ++ (parts.map fun part => .symbol .caret :: part.1).flatten ∧
      a = Tree.powers b (parts.map (·.2)) ∧ Derives .suffixed us b ∧
      ∀ part ∈ parts, Derives .suffixed part.1 part.2 := by
  generalize level : Level.power = l at derives
  induction derives with
  | tighter next part _ =>
    subst level
    cases next
    exact ⟨_, _, [], by simp, rfl, part, by simp⟩
  | power base _ _ ih =>
    obtain ⟨us, b, parts, rfl, rfl, first, all⟩ := ih rfl
    exact ⟨_, _, (us, b) :: parts, by simp, rfl, base, List.forall_mem_cons.mpr ⟨first, all⟩⟩
  | binary _ known => subst level; cases known
  | _ => cases level

/-- Prefix operators stand in a row in front of a power. -/
theorem Derives.signed_parts (derives : Derives .signed ts a) :
    ∃ (read : List (Symbol × UnaryOp)) (us : List Token) (b : Tree),
      ts = (read.map fun sign => [Token.symbol sign.1]).flatten ++ us ∧
      a = (read.map (·.2)).foldr .unary b ∧ (∀ sign ∈ read, sign ∈ signs) ∧
      Derives .power us b := by
  generalize level : Level.signed = l at derives
  induction derives with
  | tighter next part _ =>
    subst level
    cases next
    exact ⟨[], _, _, by simp, rfl, by simp, part⟩
  | @signed _ _ symbol op known _ ih =>
    obtain ⟨read, us, b, rfl, rfl, all, last⟩ := ih rfl
    exact ⟨(symbol, op) :: read, us, b, by simp, rfl, List.forall_mem_cons.mpr ⟨known, all⟩, last⟩
  | binary _ known => subst level; cases known
  | _ => cases level

end Chains

end Grammar

end ShapeLang
