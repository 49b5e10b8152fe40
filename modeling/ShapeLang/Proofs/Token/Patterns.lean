import Mathlib.Computability.Language
import ShapeLang.Token.Lexer

/-! # Patterns of tokens

What the words of the language look like, as regular languages, and what each of them stands for.
Of all patterns that a text starts with, the longest match counts; among matches of one length a
keyword or a truth value goes before a name.
-/

namespace ShapeLang

open Computability

namespace Pattern

/-- The words of one character that passes the test. -/
def oneOf (test : Char → Prop) : Language Char := {word | ∃ c, test c ∧ word = [c]}

/-- A single word. -/
def word (spelling : String) : Language Char := {spelling.toList}

def optional (pattern : Language Char) : Language Char := 1 + pattern

def oneOrMore (pattern : Language Char) : Language Char := pattern * pattern∗

def digit : Language Char := oneOf fun c => '0' ≤ c ∧ c ≤ '9'

def letter (c : Char) : Prop := ('a' ≤ c ∧ c ≤ 'z') ∨ ('A' ≤ c ∧ c ≤ 'Z') ∨ c = '_'

variable {test : Char → Prop} {cs : List Char}

theorem mem_oneOf {c : Char} : [c] ∈ oneOf test ↔ test c := by
  constructor
  · rintro ⟨d, holds, same⟩
    obtain rfl : c = d := by simpa using same
    exact holds
  · exact fun holds => ⟨c, holds, rfl⟩

theorem mem_optional {pattern : Language Char} : cs ∈ optional pattern ↔ cs = [] ∨ cs ∈ pattern :=
  Iff.rfl

theorem mem_kstar_oneOf : cs ∈ (oneOf test)∗ ↔ ∀ c ∈ cs, test c := by
  constructor
  · intro mem c inside
    obtain ⟨words, rfl, each⟩ := Language.mem_kstar.mp mem
    obtain ⟨single, listed, inside⟩ := List.mem_flatten.mp inside
    obtain ⟨d, holds, rfl⟩ := each single listed
    obtain rfl := List.mem_singleton.mp inside
    exact holds
  · intro each
    refine Language.mem_kstar.mpr ⟨cs.map fun c => [c], ?_, ?_⟩
    · induction cs with
      | nil => rfl
      | cons c cs ih =>
        rw [List.map_cons, List.flatten_cons,
          ← ih fun d mem => each d (List.mem_cons_of_mem _ mem)]
        rfl
    · intro single listed
      obtain ⟨c, mem, rfl⟩ := List.mem_map.mp listed
      exact mem_oneOf.mpr (each c mem)

theorem mem_oneOrMore_oneOf :
    cs ∈ oneOrMore (oneOf test) ↔ cs ≠ [] ∧ ∀ c ∈ cs, test c := by
  constructor
  · rintro ⟨_, ⟨c, holds, rfl⟩, rest, more, rfl⟩
    refine ⟨by simp, fun d mem => ?_⟩
    rcases List.mem_append.mp mem with mem | mem
    · exact List.mem_singleton.mp mem ▸ holds
    · exact mem_kstar_oneOf.mp more d mem
  · rintro ⟨nonempty, each⟩
    cases cs with
    | nil => exact (nonempty rfl).elim
    | cons c cs =>
      refine ⟨[c], mem_oneOf.mpr (each c (by simp)), cs, ?_, rfl⟩
      exact mem_kstar_oneOf.mpr fun d mem => each d (List.mem_cons_of_mem _ mem)

end Pattern

namespace Symbol

/-- How a symbol is written. -/
def spelling : Symbol → String
  | letKeyword => "let"
  | inKeyword => "in"
  | ifKeyword => "if"
  | elseKeyword => "else"
  | forKeyword => "for"
  | plus => "+"
  | minus => "-"
  | star => "*"
  | slash => "/"
  | caret => "^"
  | assign => "="
  | equal => "=="
  | notEqual => "!="
  | less => "<"
  | greater => ">"
  | lessEqual => "<="
  | greaterEqual => ">="
  | and => "&&"
  | or => "||"
  | not => "!"
  | dot => "."
  | colon => ":"
  | arrow => "->"
  | leftParen => "("
  | rightParen => ")"
  | leftBrace => "\x7b"
  | rightBrace => "\x7d"
  | leftBracket => "["
  | rightBracket => "]"
  | semicolon => ";"
  | comma => ","

/-- Keywords look like names. -/
def isKeyword : Symbol → Bool
  | letKeyword | inKeyword | ifKeyword | elseKeyword | forKeyword => true
  | _ => false

theorem keyword?_eq_some_iff {cs : List Char} {s : Symbol} :
    keyword? cs = some s ↔ cs = s.spelling.toList ∧ s.isKeyword = true := by
  constructor
  · intro found
    unfold keyword? at found
    split at found <;> cases found <;> decide
  · rintro ⟨rfl, keyword⟩
    cases s <;> first | rfl | cases keyword

theorem double?_eq_some_iff {c d : Char} {s : Symbol} :
    double? c d = some s ↔ s.spelling.toList = [c, d] ∧ s.isKeyword = false := by
  constructor
  · intro found
    unfold double? at found
    split at found <;> cases found <;> decide
  · rintro ⟨spelled, mark⟩
    cases s <;> simp_all [spelling, isKeyword] <;> obtain ⟨rfl, rfl⟩ := spelled <;> rfl

theorem single?_eq_some_iff {c : Char} {s : Symbol} :
    single? c = some s ↔ s.spelling.toList = [c] := by
  constructor
  · intro found
    unfold single? at found
    split at found <;> cases found <;> decide
  · intro spelled
    cases s <;> simp_all [spelling] <;> subst spelled <;> rfl

end Symbol

/-- What the lexer looks for. -/
inductive Rule where
  | blanks
  | comment
  | symbol (symbol : Symbol)
  | boolean (value : Bool)
  | number
  | text
  | name
deriving DecidableEq

namespace Rule

open Pattern

/-- The words that a rule matches. -/
def pattern : Rule → Language Char
  | blanks => oneOrMore (oneOf (· ∈ [' ', '\t', '\r', '\n', '\x0c']))
  | comment => word "//" * (oneOf (· ≠ '\n'))∗
  | symbol s => word s.spelling
  | boolean value => word (if value then "true" else "false")
  | number =>
    oneOrMore digit * optional (word "." * oneOrMore digit) *
      optional (oneOf (· ∈ ['e', 'E']) * optional (oneOf (· ∈ ['+', '-'])) * oneOrMore digit)
  | text =>
    word "\"" * (oneOf (fun c => c ≠ '"' ∧ c ≠ '\\') + word "\\" * oneOf (· ≠ '\n'))∗ * word "\""
  | name => oneOf letter * (oneOf fun c => letter c ∨ ('0' ≤ c ∧ c ≤ '9'))∗

/-- The token that a word stands for. Blanks and comments stand for none. -/
def token? : Rule → List Char → Option Token
  | blanks, _ | comment, _ => none
  | symbol s, _ => some (.symbol s)
  | boolean value, _ => some (.boolean value)
  | number, cs => (floatOfChars? cs).map .number
  | text, cs => (Quoted.decode? cs.tail.dropLast).map fun content => .text (String.ofList content)
  | name, cs => some (.ident (String.ofList cs))

/-- Rules that match a single word. -/
def isLiteral : Rule → Bool
  | symbol _ | boolean _ => true
  | _ => false

/-- A text goes on with a word, and the rule applies to it: there is no longer match, and no rule
that goes before it matches the same word. -/
structure Applies (rule : Rule) (word after : List Char) : Prop where
  matched : word ∈ rule.pattern
  longest : ∀ (other : Rule) (longer : List Char), longer <+: word ++ after →
    longer ∈ other.pattern → longer.length ≤ word.length
  first : ∀ other : Rule, word ∈ other.pattern → other ≠ rule →
    rule.isLiteral = true ∧ other = name

/-- No rule matches a text or a beginning of it. -/
def Fails (cs : List Char) : Prop :=
  ∀ (rule : Rule) (word : List Char), word <+: cs → word ∉ rule.pattern

variable {rule other : Rule} {word after : List Char}

/-- A rule that applies to a word also applies if the text ends sooner. -/
theorem Applies.sooner {more : List Char} (applies : rule.Applies word (after ++ more)) :
    rule.Applies word after := by
  refine ⟨applies.matched, fun other longer starts matched => ?_, applies.first⟩
  have starts' : longer <+: word ++ (after ++ more) :=
    List.append_assoc word after more ▸ starts.trans (List.prefix_append ..)
  exact applies.longest other longer starts' matched

/-- Of a text that is a single match nothing is left. -/
theorem Applies.alone (applies : rule.Applies word after) : rule.Applies word [] :=
  Applies.sooner applies

/-- Which rule applies to a text, and to which part of it, is determined. -/
theorem Applies.unique {word' after' : List Char} (applies : rule.Applies word after)
    (applies' : other.Applies word' after') (same : word ++ after = word' ++ after') :
    other = rule ∧ word' = word := by
  have whole : word' <+: word ++ after := same ▸ List.prefix_append ..
  have whole' : word <+: word' ++ after' := same ▸ List.prefix_append ..
  have size := applies.longest other word' whole applies'.matched
  have size' := applies'.longest rule word whole' applies.matched
  have words : word' = word := by
    apply List.prefix_of_prefix_length_le whole (List.prefix_append ..) size |>.eq_of_length
    omega
  subst words
  refine ⟨?_, rfl⟩
  by_contra different
  have before := applies.first other applies'.matched different
  have before' := applies'.first rule applies.matched (Ne.symm different)
  simp [before.2, isLiteral] at before'

/-- The kinds of characters that a match can start with. -/
inductive Start where
  | blank
  | digit
  | letter
  | quote
  | mark
deriving DecidableEq

/-- What matches of the rule start with. -/
def start : Rule → Start
  | blanks => .blank
  | comment => .mark
  | symbol s => if s.isKeyword then .letter else .mark
  | boolean _ => .letter
  | number => .digit
  | text => .quote
  | name => .letter

end Rule

end ShapeLang
