import Mathlib.Algebra.Ring.Nat
import ShapeLang.Program
import ShapeLang.Proofs.Grammar.Balance
import ShapeLang.Proofs.Grammar.Completeness
import ShapeLang.Proofs.Grammar.Positions

/-! # Lexemes have one reading

The tree of a sentence is unique, and it tells how many of its tokens join something: so an operand
ends where as many are used up as its tree has, and the places of all parts are determined too. With
this `parse_iff_reads` describes the parser completely: a phrase, with its places, is what some
lexemes are read as if and only if the grammar says so.
-/

namespace ShapeLang

open ShapeLang.Parser ShapeLang.Grammar

/-- The symbols that stand between two operands, or in front of one. An opening parenthesis is not
among them, since it may be there or not. -/
def joiners : List Symbol :=
  [.arrow, .not, .dot, .leftBracket, .caret, .star, .slash, .plus, .minus, .lessEqual,
    .greaterEqual, .less, .greater, .equal, .notEqual, .and, .or, .assign]

def Token.joins : Token → Bool
  | .symbol s => s ∈ joiners
  | _ => false

namespace Tree

mutual

/-- The number of tokens that join the parts of the tree. -/
def joints : Tree → Nat
  | numeral _ | boolean _ | text _ | ident _ => 0
  | list items => jointsAll items + 1
  | record fields => jointsFields fields
  | module items => jointsAll items
  | definition target definiens => target.joints + definiens.joints + 1
  | lambda _ body => body.joints + 1
  | call function args => function.joints + jointsAll args
  | dot base _ => base.joints + 1
  | index base place => base.joints + place.joints + 1
  | unary _ operand => operand.joints + 1
  | binary _ left right => left.joints + right.joints + 1
  | conditional condition whenTrue whenFalse =>
    condition.joints + whenTrue.joints + whenFalse.joints
  | letIn definitions body => jointsAll definitions + body.joints
  | forEach _ items body => items.joints + body.joints

def jointsAll : List Tree → Nat
  | [] => 0
  | tree :: trees => tree.joints + jointsAll trees

def jointsFields : List (String × Tree) → Nat
  | [] => 0
  | (_, tree) :: fields => tree.joints + jointsFields fields

end

end Tree

namespace Grammar

variable {level : Level} {ts us : List Token} {a : Tree}

theorem joins_operator {symbol : Symbol} {op : BinaryOp} (known : (symbol, op) ∈ level.operators) :
    (Token.symbol symbol).joins = true := by
  have all : ∀ level : Level, ∀ entry ∈ level.operators, (Token.symbol entry.1).joins = true := by
    intro level
    cases level <;> decide
  exact all level _ known

theorem joins_sign {symbol : Symbol} {op : UnaryOp} (known : (symbol, op) ∈ signs) :
    (Token.symbol symbol).joins = true := by
  have all : ∀ entry ∈ signs, (Token.symbol entry.1).joins = true := by decide
  exact all _ known

theorem countP_spread {separator : Symbol} (apart : (Token.symbol separator).joins = false)
    (trailing : Bool) (uses : List (List Token)) :
    (spread separator trailing uses).countP Token.joins =
      (uses.map (·.countP Token.joins)).sum := by
  have last : (if trailing then [Token.symbol separator] else []).countP Token.joins = 0 := by
    cases trailing <;> simp [apart]
  cases uses with
  | nil => rfl
  | cons first others =>
    rw [spread_cons, List.countP_append, List.countP_append, last, List.countP_flatten]
    simp [apart, Function.comp_def]

theorem countP_enclosed (opening closing : Symbol) (ts : List Token)
    (closes : (Token.symbol closing).joins = false) :
    (enclosed opening closing ts).countP Token.joins =
      ts.countP Token.joins + if (Token.symbol opening).joins then 1 else 0 := by
  simp [enclosed, List.countP_cons, closes]

theorem Params.joints {names : List String} (params : Params ts names) :
    ts.countP Token.joins = 0 := by
  cases params with
  | one name => rfl
  | listed names trailing =>
    rw [countP_enclosed _ _ _ (by decide), countP_spread (by decide)]
    simp [Function.comp_def, Token.joins, joiners]

theorem jointsAll_eq (items : List (List Token × Tree))
    (each : ∀ item ∈ items, item.1.countP Token.joins = item.2.joints) :
    ((items.map (·.1)).map (·.countP Token.joins)).sum = Tree.jointsAll (items.map (·.2)) := by
  induction items with
  | nil => rfl
  | cons item items ih =>
    obtain ⟨one, rest⟩ := List.forall_mem_cons.mp each
    simp only [List.map_cons, List.sum_cons, Tree.jointsAll, one, ih rest]

theorem jointsFields_eq (fields : List (String × List Token × Tree))
    (each : ∀ field ∈ fields, field.2.1.countP Token.joins = field.2.2.joints) :
    ((fields.map fun field => Token.ident field.1 :: .symbol .colon :: field.2.1).map
        (·.countP Token.joins)).sum =
      Tree.jointsFields (fields.map fun field => (field.1, field.2.2)) := by
  induction fields with
  | nil => rfl
  | cons field fields ih =>
    obtain ⟨one, rest⟩ := List.forall_mem_cons.mp each
    simp only [List.map_cons, List.sum_cons, Tree.jointsFields, ← one, ← ih rest]
    simp [Token.joins, joiners]

/-- A sentence has as many joints as its tree. -/
theorem Derives.joints (derives : Derives level ts a) :
    ts.countP Token.joins = a.joints := by
  have row (separator : Symbol) (items : List (List Token × Tree)) (trailing : Bool)
      (apart : (Token.symbol separator).joins = false)
      (each : ∀ item ∈ items, item.1.countP Token.joins = item.2.joints) :
      (spread separator trailing (items.map (·.1))).countP Token.joins =
        Tree.jointsAll (items.map (·.2)) :=
    (countP_spread apart trailing _).trans (jointsAll_eq items each)
  induction derives with
  | tighter _ _ ih => exact ih
  | lambda params _ ih =>
    simp [params.joints, ih, Tree.joints, Token.joins, joiners]
  | letIn items trailing _ _ _ ih₁ ih₂ =>
    simp [row .semicolon items trailing rfl ih₁, ih₂, Tree.joints, Token.joins, joiners]
  | conditional _ _ _ ih₁ ih₂ ih₃ =>
    simp [countP_enclosed, ih₁, ih₂, ih₃, Tree.joints, Token.joins, joiners, Nat.add_assoc]
  | forEach name _ _ ih₁ ih₂ =>
    simp [countP_enclosed, ih₁, ih₂, Tree.joints, Token.joins, joiners]
  | definition _ _ ih₁ ih₂ => simp [ih₁, ih₂, Tree.joints, Token.joins, joiners, Nat.add_assoc]
  | binary _ known _ _ ih₁ ih₂ =>
    simp [ih₁, ih₂, Tree.joints, joins_operator known, Nat.add_assoc]
  | signed known _ ih => simp [ih, Tree.joints, joins_sign known]
  | power _ _ ih₁ ih₂ => simp [ih₁, ih₂, Tree.joints, Token.joins, joiners, Nat.add_assoc]
  | call _ items trailing _ ih₁ ih₂ =>
    simp [countP_enclosed, row .comma items trailing rfl ih₂, ih₁, Tree.joints, Token.joins,
      joiners]
  | dot _ name ih => simp [ih, Tree.joints, Token.joins, joiners]
  | index _ _ ih₁ ih₂ =>
    simp [countP_enclosed, ih₁, ih₂, Tree.joints, Token.joins, joiners, Nat.add_assoc]
  | literal is => cases is <;> rfl
  | ident name => rfl
  | list items trailing _ ih =>
    simp [countP_enclosed, row .comma items trailing rfl ih, Tree.joints, Token.joins, joiners]
  | record fields trailing _ ih =>
    rw [countP_enclosed _ _ _ rfl, countP_spread rfl, jointsFields_eq fields ih]
    rfl
  | «module» items trailing _ _ ih =>
    simp [countP_enclosed, row .semicolon items trailing rfl ih, Tree.joints, Token.joins, joiners]
  | parens _ ih => simp [countP_enclosed, ih, Token.joins, joiners]

section Splitting

variable {level level' : Level} {ts us rest rest' : List Lexeme} {phrase other : Phrase}
  {separator closing : Symbol} {pieces pieces' : List (List Lexeme)}

/-- A sentence that ends at a closing symbol is not the beginning of a longer one, and it has one
tree. -/
theorem Derives.split {ts us rest rest' : List Token} {a b : Tree}
    (first : Derives .expression ts a) (second : Derives .expression us b)
    (same : ts ++ rest = us ++ rest') (next : Next closers rest) (next' : Next closers rest') :
    ts = us ∧ a = b := by
  -- The same run of the parser reads both.
  let cursor : Cursor := ⟨(ts ++ rest).map fun token => ⟨token, ⟨⟨"", ""⟩, 0, 0⟩⟩, 0⟩
  have tokens : cursor.tokens = ts ++ rest := by simp [cursor, Cursor.tokens, Function.comp_def]
  obtain ⟨read, after, run, left, is⟩ :=
    upTo_complete (ts.length + us.length + 1) first (by omega) next tokens
  obtain ⟨read', after', run', left', is'⟩ :=
    upTo_complete (ts.length + us.length + 1) second (by omega) next' (tokens.trans same)
  rw [run] at run'
  cases run'
  obtain rfl : rest = rest' := left.symm.trans left'
  exact ⟨List.append_cancel_right same, is.symm.trans is'⟩

/-- A phrase of any level is an expression. -/
theorem Reads.whole (reads : Reads level ts phrase) : Reads .expression ts phrase := by
  cases level <;> repeat (first | exact reads | refine .tighter rfl ?_)

theorem Reads.balanced (reads : Reads level ts phrase) : Balanced (ts.map (·.token)) :=
  reads.derives.balanced

theorem Reads.ne_nil (reads : Reads level ts phrase) : ts ≠ [] := by
  rintro rfl
  obtain ⟨token, more, none, -⟩ := reads.derives.begins
  cases none

theorem Reads.same_tree (first : Reads level ts phrase) (second : Reads level' ts other) :
    phrase.tree = other.tree := by
  have ends : Next closers [] := by simp [Next]
  exact (first.whole.derives.split second.whole.derives rfl ends ends).2

theorem Reads.split (first : Reads .expression ts phrase) (second : Reads .expression us other)
    (same : ts ++ rest = us ++ rest') (next : Next closers (rest.map (·.token)))
    (next' : Next closers (rest'.map (·.token))) : ts = us ∧ rest = rest' := by
  have tokens := (first.derives.split second.derives
    (by simpa using congrArg (List.map (·.token)) same) next next').1
  exact List.append_inj same (by simpa using congrArg List.length tokens)

/-- With the same number of joints, two operands end at the same token. -/
theorem joint_split {x y : Lexeme} (same : ts ++ x :: rest = us ++ y :: rest')
    (joins : x.token.joins = true) (joins' : y.token.joins = true)
    (counts : (ts.map (·.token)).countP Token.joins = (us.map (·.token)).countP Token.joins) :
    ts = us ∧ x = y ∧ rest = rest' := by
  rcases List.append_eq_append_iff.mp same with ⟨more, rfl, tails⟩ | ⟨more, rfl, tails⟩
  · cases more with
    | nil => simpa using tails
    | cons z more =>
      obtain ⟨rfl, -⟩ := List.cons.inj tails
      simp [joins] at counts
  · cases more with
    | nil => simpa [eq_comm] using tails
    | cons z more =>
      obtain ⟨rfl, -⟩ := List.cons.inj tails
      simp [joins'] at counts

/-- Pieces of a row that tell by themselves where they end. -/
structure Apart (separator closing : Symbol) (good : List Lexeme → Prop) : Prop where
  split : ∀ {ts us rest rest' : List Lexeme}, good ts → good us → ts ++ rest = us ++ rest' →
    Next [separator, closing] (rest.map (·.token)) →
    Next [separator, closing] (rest'.map (·.token)) → ts = us ∧ rest = rest'
  opens : ∀ {ts rest more : List Lexeme} {place : Location}, good ts →
    ts ++ rest ≠ .mark closing place :: more

variable {good : List Lexeme → Prop} {place place' : Location}

theorem Tail.next_tokens (tail : Tail separator pieces ts) (place : Location)
    (rest : List Lexeme) :
    Next [separator, closing] ((ts ++ .mark closing place :: rest).map (·.token)) := by
  cases tail with
  | done => exact next_cons (by simp) _
  | trailing => exact next_cons (by simp) _
  | next => exact next_cons (by simp) _

theorem Tail.unique (apart : Apart separator closing good) (different : separator ≠ closing)
    (tail : Tail separator pieces ts) (tail' : Tail separator pieces' us)
    (all : ∀ piece ∈ pieces, good piece) (all' : ∀ piece ∈ pieces', good piece)
    (same : ts ++ .mark closing place :: rest = us ++ .mark closing place' :: rest') :
    pieces = pieces' ∧ ts = us := by
  induction tail generalizing pieces' us with
  | done =>
    cases tail' with
    | done => exact ⟨rfl, rfl⟩
    | trailing => simp [different.symm] at same
    | next => simp [different.symm] at same
  | trailing =>
    cases tail' with
    | done => simp [different] at same
    | trailing => simp at same; simp [same]
    | next _ tail' =>
      obtain ⟨one, -⟩ := List.forall_mem_cons.mp all'
      simp only [List.cons_append, List.nil_append, List.cons.injEq, List.append_assoc] at same
      exact (apart.opens one same.2.symm).elim
  | next _ tail ih =>
    obtain ⟨one, others⟩ := List.forall_mem_cons.mp all
    cases tail' with
    | done => simp [different] at same
    | trailing =>
      simp only [List.cons_append, List.nil_append, List.cons.injEq, List.append_assoc] at same
      exact (apart.opens one same.2).elim
    | next _ tail' =>
      obtain ⟨one', others'⟩ := List.forall_mem_cons.mp all'
      simp only [List.cons_append, List.cons.injEq, List.append_assoc] at same
      obtain ⟨mark, same⟩ := same
      obtain ⟨rfl, rests⟩ :=
        apart.split one one' same (tail.next_tokens _ _) (tail'.next_tokens _ _)
      obtain ⟨rfl, rfl⟩ := ih tail' others others' rests
      rw [mark]
      exact ⟨rfl, rfl⟩

/-- A row is divided in one way. -/
theorem Series.unique (apart : Apart separator closing good) (different : separator ≠ closing)
    (row : Series separator pieces ts) (row' : Series separator pieces' us)
    (all : ∀ piece ∈ pieces, good piece) (all' : ∀ piece ∈ pieces', good piece)
    (same : ts ++ .mark closing place :: rest = us ++ .mark closing place' :: rest') :
    pieces = pieces' ∧ ts = us := by
  cases row with
  | none =>
    cases row' with
    | none => exact ⟨rfl, rfl⟩
    | some tail' =>
      obtain ⟨one, -⟩ := List.forall_mem_cons.mp all'
      rw [List.append_assoc] at same
      exact (apart.opens one same.symm).elim
  | some tail =>
    obtain ⟨one, others⟩ := List.forall_mem_cons.mp all
    cases row' with
    | none =>
      rw [List.append_assoc] at same
      exact (apart.opens one same).elim
    | some tail' =>
      obtain ⟨one', others'⟩ := List.forall_mem_cons.mp all'
      rw [List.append_assoc, List.append_assoc] at same
      obtain ⟨rfl, rests⟩ :=
        apart.split one one' same (tail.next_tokens _ _) (tail'.next_tokens _ _)
      obtain ⟨rfl, rfl⟩ := tail.unique apart different tail' others others' rests
      exact ⟨rfl, rfl⟩

theorem apart_expressions (separates : separator ∈ closers) (closes : closing ∈ closers) :
    Apart separator closing fun ts => ∃ phrase, Reads .expression ts phrase := by
  have known : ∀ s ∈ [separator, closing], s ∈ closers := by simp [separates, closes]
  constructor
  · rintro ts us rest rest' ⟨phrase, first⟩ ⟨other, second⟩ same next next'
    exact first.split second same (next.mono known) (next'.mono known)
  · rintro ts rest more place ⟨phrase, reads⟩ same
    refine reads.derives.begins.not_symbol (closers_not_open closing closes)
      (rest.map (·.token)) ?_
    rw [← List.map_append, same]
    rfl

theorem apart_fields : Apart .comma .rightBrace fun ts => ∃ entry : Entry,
    ts = entry.piece ∧ Reads .expression entry.lexemes entry.value := by
  constructor
  · rintro _ _ rest rest' ⟨entry, rfl, first⟩ ⟨entry', rfl, second⟩ same next next'
    simp only [Entry.piece, List.cons_append, List.cons.injEq] at same ⊢
    obtain ⟨names, colons, same⟩ := same
    obtain ⟨pieces, rests⟩ :=
      first.split second same (next.mono (by decide)) (next'.mono (by decide))
    exact ⟨⟨names, colons, pieces⟩, rests⟩
  · rintro _ rest more place ⟨entry, rfl, -⟩ same
    simp [Entry.piece, Ident.lexeme] at same

theorem apart_names : Apart .comma .rightParen fun ts => ∃ name : Ident, ts = [name.lexeme] := by
  constructor
  · rintro _ _ rest rest' ⟨name, rfl⟩ ⟨name', rfl⟩ same - -
    simpa using same
  · rintro _ rest more place ⟨name, rfl⟩ same
    simp [Ident.lexeme] at same

end Splitting

section Readings

variable {level level' : Level} {whole ts us vs ps row : List Lexeme} {phrase other : Phrase}
  {x : Lexeme} {left right : Location}

theorem Balanced.ne_bracketed (first : Balanced (ts.map (·.token))) (some : ts ≠ [])
    (inner : Reads .expression us other) (rest : List Lexeme) :
    ts ++ x :: rest ≠ bracketed .leftParen .rightParen left right us := by
  intro same
  refine first.ne_enclosed (by simpa using some) inner.balanced x.token (rest.map (·.token)) ?_
  simpa [Grammar.enclosed] using congrArg (List.map (·.token)) same

theorem Reads.ne_bracketed (reads : Reads level ts phrase) (inner : Reads .expression us other)
    (rest : List Lexeme) : ts ++ x :: rest ≠ bracketed .leftParen .rightParen left right us :=
  Balanced.ne_bracketed reads.balanced reads.ne_nil inner rest

theorem Names.ne_bracketed {names : List Ident} (params : Names ps names)
    (inner : Reads .expression us other) (rest : List Lexeme) :
    ps ++ x :: rest ≠ bracketed .leftParen .rightParen left right us := by
  refine Balanced.ne_bracketed params.derives.balanced ?_ inner rest
  rintro rfl
  obtain ⟨token, more, none, -⟩ := params.derives.begins
  cases none

theorem Reads.joints_eq (first : Reads level ts phrase) (second : Reads level' us other)
    (same : phrase.tree = other.tree) :
    (ts.map (·.token)).countP Token.joins = (us.map (·.token)).countP Token.joins := by
  rw [first.derives.joints, second.derives.joints, same]

/-- What stands in parentheses is read as the whole is. -/
theorem Reads.inside (inner : Reads .expression ts phrase) (second : Reads level' whole other)
    (is : whole = bracketed .leftParen .rightParen left right ts) :
    Reads .expression ts other := by
  induction second with
  | tighter _ _ ih => exact ih is
  | lambda arrow params _ whole => exact (params.ne_bracketed inner _ (whole.symm.trans is)).elim
  | definition sign first _ whole => exact (first.ne_bracketed inner _ (whole.symm.trans is)).elim
  | binary sign _ _ first _ whole => exact (first.ne_bracketed inner _ (whole.symm.trans is)).elim
  | power sign first _ whole => exact (first.ne_bracketed inner _ (whole.symm.trans is)).elim
  | call _ _ first _ _ whole => exact (first.ne_bracketed inner _ (whole.symm.trans is)).elim
  | dot sign field first whole => exact (first.ne_bracketed inner _ (whole.symm.trans is)).elim
  | index _ _ first _ whole => exact (first.ne_bracketed inner _ (whole.symm.trans is)).elim
  | parens left' right' reads whole =>
    have tails := (List.cons.inj (whole.symm.trans is)).2
    obtain ⟨rfl, -⟩ := List.append_inj' tails rfl
    exact reads
  | signed sign known _ whole =>
    obtain ⟨mark, -⟩ := List.cons.inj (whole.symm.trans is)
    cases mark
    simp [signs] at known
  | leaf => simp at is
  | letIn _ _ _ _ _ _ whole => simp [whole] at is
  | conditional _ _ _ _ _ _ _ whole => simp [whole] at is
  | forEach _ _ _ _ _ _ _ whole => simp [whole] at is
  | list _ _ _ _ whole => simp [whole] at is
  | record _ _ _ _ whole => simp [whole] at is
  | «module» _ _ _ _ _ whole => simp [whole] at is

theorem Leaf.unique {lexeme : Lexeme} (first : Leaf lexeme phrase) (second : Leaf lexeme other) :
    phrase = other := by
  cases first with
  | numeral => cases second; rfl
  | boolean => cases second; rfl
  | text => cases second; rfl
  | ident name =>
    obtain ⟨name, place⟩ := name
    generalize is : Ident.lexeme ⟨name, place⟩ = lexeme at second
    cases second with
    | ident name' =>
      obtain ⟨name', place'⟩ := name'
      cases is
      rfl
    | numeral => cases is
    | boolean => cases is
    | text => cases is

theorem Reads.leaf_inv {lexeme : Lexeme} (leaf : Leaf lexeme phrase)
    (second : Reads level' whole other) (is : whole = [lexeme]) (same : phrase.tree = other.tree) :
    Leaf lexeme other := by
  induction second with
  | tighter _ _ ih => exact ih is same
  | leaf leaf' => cases is; exact leaf'
  | parens _ _ _ whole => simp [is] at whole
  | _ => cases leaf <;> cases same

/-- What is read as an operation, cut at its operator. -/
theorem Reads.binary_inv {op : BinaryOp} {b : Tree} (left : Reads level ts phrase)
    (joins : x.token.joins = true) (second : Reads level' whole other)
    (is : whole = ts ++ x :: us) (same : .binary op phrase.tree b = other.tree) :
    ∃ below below' first next, Reads below ts first ∧ Reads below' us next ∧
      other = .ofBinary op first next := by
  induction second with
  | tighter _ _ ih => exact ih is same
  | binary sign _ known first next whole =>
    injection same with op same
    obtain ⟨rfl, -, rfl⟩ := joint_split (is.symm.trans whole) joins (joins_operator known)
      (left.joints_eq first same)
    exact ⟨_, _, _, _, first, next, by rw [op]⟩
  | power sign first next whole =>
    injection same with op same
    obtain ⟨rfl, -, rfl⟩ := joint_split (is.symm.trans whole) joins rfl (left.joints_eq first same)
    exact ⟨_, _, _, _, first, next, by rw [op]⟩
  | parens _ _ inner whole => exact (left.ne_bracketed inner _ (is.symm.trans whole)).elim
  | leaf leaf => cases leaf <;> cases same
  | _ => cases same

theorem Reads.definition_inv {b : Tree} (left : Reads level ts phrase)
    (joins : x.token.joins = true) (second : Reads level' whole other)
    (is : whole = ts ++ x :: us) (same : .definition phrase.tree b = other.tree) :
    ∃ below below' target definiens, Reads below ts target ∧ Reads below' us definiens ∧
      other = .definition (target.location.join definiens.location) target definiens := by
  induction second with
  | tighter _ _ ih => exact ih is same
  | definition sign first next whole =>
    injection same with same
    obtain ⟨rfl, -, rfl⟩ := joint_split (is.symm.trans whole) joins rfl (left.joints_eq first same)
    exact ⟨_, _, _, _, first, next, rfl⟩
  | parens _ _ inner whole => exact (left.ne_bracketed inner _ (is.symm.trans whole)).elim
  | leaf leaf => cases leaf <;> cases same
  | _ => cases same

theorem Reads.lambda_inv {names : List Ident} {words : List String} {b : Tree}
    (params : Names ps names) (joins : x.token.joins = true) (second : Reads level' whole other)
    (is : whole = ps ++ x :: us) (same : .lambda words b = other.tree) :
    ∃ below names' body, Names ps names' ∧ Reads below us body ∧
      other = .lambda (span whole) names' body := by
  induction second with
  | tighter _ _ ih => exact ih is same
  | lambda arrow params' body whole =>
    obtain ⟨rfl, -, rfl⟩ := joint_split (is.symm.trans whole) joins rfl
      (params.derives.joints.trans params'.derives.joints.symm)
    exact ⟨_, _, _, params', body, rfl⟩
  | parens _ _ inner whole => exact (params.ne_bracketed inner _ (is.symm.trans whole)).elim
  | leaf leaf => cases leaf <;> cases same
  | _ => cases same

theorem Reads.signed_inv {symbol : Symbol} {op : UnaryOp} {sign : Location} {a : Tree}
    (known : (symbol, op) ∈ signs) (second : Reads level' whole other)
    (is : whole = .mark symbol sign :: ts) (same : .unary op a = other.tree) :
    ∃ below operand, Reads below ts operand ∧
      other = .unary (sign.join operand.location) op operand := by
  induction second with
  | tighter _ _ ih => exact ih is same
  | signed sign' _ inner whole =>
    injection same with op
    obtain ⟨mark, rfl⟩ := List.cons.inj (is.symm.trans whole)
    cases mark
    exact ⟨_, _, inner, by rw [op]⟩
  | parens _ _ inner whole =>
    obtain ⟨mark, -⟩ := List.cons.inj (is.symm.trans whole)
    cases mark
    simp [signs] at known
  | leaf leaf => cases leaf <;> cases same
  | _ => cases same

/-- What is read as a dot phrase, cut at its dot. -/
theorem Reads.dot_inv {sign : Location} {field : Ident} {a : Tree} {name : String}
    (left : Reads level ts phrase) (second : Reads level' whole other)
    (is : whole = ts ++ [.mark .dot sign, field.lexeme]) (same : .dot a name = other.tree) :
    ∃ below base, Reads below ts base ∧
      other = .dot (base.location.join (sign.through field.location)) base field := by
  induction second with
  | tighter _ _ ih => exact ih is same
  | dot sign' field' base whole =>
    obtain ⟨rfl, ends⟩ := List.append_inj' (is.symm.trans whole) rfl
    obtain ⟨rfl, rfl⟩ : sign = sign' ∧ field = field' := by simpa using ends
    exact ⟨_, _, base, rfl⟩
  | parens _ _ inner whole => exact (left.ne_bracketed inner _ (is.symm.trans whole)).elim
  | leaf leaf => cases leaf <;> cases same
  | _ => cases same

theorem Reads.index_inv {b : Tree} (first : Reads level ts phrase)
    (second : Reads level' whole other)
    (is : whole = ts ++ bracketed .leftBracket .rightBracket left right us)
    (same : .index phrase.tree b = other.tree) :
    ∃ below below' base place, Reads below ts base ∧ Reads below' us place ∧
      other = .index (base.location.join (left.through right)) base place := by
  induction second with
  | tighter _ _ ih => exact ih is same
  | index left' right' base place whole =>
    injection same with same
    obtain ⟨rfl, opening, ends⟩ := joint_split (is.symm.trans whole) rfl rfl
      (first.joints_eq base same)
    obtain ⟨rfl, closing⟩ := List.append_inj' ends rfl
    cases opening
    cases closing
    exact ⟨_, _, _, _, base, place, rfl⟩
  | parens _ _ inner whole => exact (first.ne_bracketed inner _ (is.symm.trans whole)).elim
  | leaf leaf => cases leaf <;> cases same
  | _ => cases same

theorem Reads.conditional_inv {opening divider : Location} {condition whenTrue : Phrase}
    {a b c : Tree} (first : Reads .expression ts condition)
    (second : Reads .expression us whenTrue) (reads : Reads level' whole other)
    (is : whole = .mark .ifKeyword opening ::
      (bracketed .leftParen .rightParen left right ts ++ (us ++ .mark .elseKeyword divider :: vs)))
    (same : .conditional a b c = other.tree) :
    ∃ condition' whenTrue' whenFalse', Reads .expression ts condition' ∧
      Reads .expression us whenTrue' ∧ Reads .expression vs whenFalse' ∧
      other = .conditional (span whole) condition' whenTrue' whenFalse' := by
  induction reads with
  | tighter _ _ ih => exact ih is same
  | conditional _ _ _ _ first' second' third' whole =>
    have tails := is.symm.trans whole
    simp only [List.append_assoc, List.cons_append, List.nil_append, List.cons.injEq] at tails
    obtain ⟨-, -, tails⟩ := tails
    obtain ⟨rfl, rest⟩ := first.split first' tails (next_cons (by decide) _)
      (next_cons (by decide) _)
    obtain ⟨rfl, last⟩ := second.split second' (List.cons.inj rest).2
      (next_cons (by decide) _) (next_cons (by decide) _)
    obtain ⟨-, rfl⟩ := List.cons.inj last
    exact ⟨_, _, _, first', second', third', rfl⟩
  | parens _ _ _ whole => simp [is] at whole
  | leaf leaf => cases leaf <;> cases same
  | _ => cases same

theorem Reads.forEach_inv {opening divider : Location} {item : Ident} {list : Phrase}
    {name : String} {a b : Tree} (first : Reads .expression ts list)
    (reads : Reads level' whole other)
    (is : whole = .mark .forKeyword opening :: (bracketed .leftParen .rightParen left right
      (item.lexeme :: .mark .inKeyword divider :: ts) ++ us))
    (same : .forEach name a b = other.tree) :
    ∃ list' body', Reads .expression ts list' ∧ Reads .expression us body' ∧
      other = .forEach (span whole) item list' body' := by
  induction reads with
  | tighter _ _ ih => exact ih is same
  | forEach _ _ _ _ item' first' second' whole =>
    have tails := is.symm.trans whole
    simp only [List.append_assoc, List.cons_append, List.nil_append, List.cons.injEq,
      Ident.lexeme_inj] at tails
    obtain ⟨-, -, rfl, -, tails⟩ := tails
    obtain ⟨rfl, rest⟩ := first.split first' tails (next_cons (by decide) _)
      (next_cons (by decide) _)
    obtain ⟨-, rfl⟩ := List.cons.inj rest
    exact ⟨_, _, first', second', rfl⟩
  | parens _ _ _ whole => simp [is] at whole
  | leaf leaf => cases leaf <;> cases same
  | _ => cases same

section Rows

variable {items : List (List Lexeme × Phrase)}

theorem good_items (parts : ∀ item ∈ items, Reads .expression item.1 item.2) :
    ∀ piece ∈ items.map (·.1), ∃ phrase, Reads .expression piece phrase :=
  List.forall_mem_map.mpr fun item mem => ⟨item.2, parts item mem⟩

/-- A row in brackets is divided in one way. -/
theorem Series.unique_bracketed {separator opening closing opening' closing' : Symbol}
    {left' right' : Location} {pieces pieces' : List (List Lexeme)} {good : List Lexeme → Prop}
    (apart : Apart separator closing good) (different : separator ≠ closing)
    (row : Series separator pieces ts) (row' : Series separator pieces' us)
    (all : ∀ piece ∈ pieces, good piece) (all' : ∀ piece ∈ pieces', good piece)
    (same : bracketed opening closing left right ts =
      bracketed opening' closing' left' right' us) : pieces = pieces' := by
  obtain ⟨rfl, -⟩ := List.append_inj' (List.cons.inj same).2 rfl
  have ends : ts ++ [.mark closing left] = ts ++ [.mark closing left] := rfl
  exact (row.unique apart different row' all all' ends).1

theorem Reads.letIn_inv {opening divider : Location} {trees : List Tree} {b : Tree}
    (joined : Series .semicolon (items.map (·.1)) row)
    (parts : ∀ item ∈ items, Reads .expression item.1 item.2) (second : Reads level' whole other)
    (is : whole = .mark .letKeyword opening :: (row ++ .mark .inKeyword divider :: ts))
    (same : .letIn trees b = other.tree) :
    ∃ (items' : List (List Lexeme × Phrase)) (below : Level) (body : Phrase),
      items'.map (·.1) = items.map (·.1) ∧
      (∀ item ∈ items', Reads .expression item.1 item.2) ∧ Reads below ts body ∧
      other = .letIn (span whole) (items'.map (·.2)) body := by
  induction second with
  | tighter _ _ ih => exact ih is same
  | letIn _ _ _ joined' parts' body whole =>
    have tails := (List.cons.inj (is.symm.trans whole)).2
    obtain ⟨pieces, rfl⟩ := joined.unique (apart_expressions (by decide) (by decide)) (by decide)
      joined' (good_items parts) (good_items parts') tails
    obtain ⟨-, rfl⟩ := List.cons.inj (List.append_cancel_left tails)
    exact ⟨_, _, _, pieces.symm, parts', body, rfl⟩
  | parens _ _ _ whole => simp [is] at whole
  | leaf leaf => cases leaf <;> cases same
  | _ => cases same

theorem Series.balanced {separator : Symbol} {pieces : List (List Lexeme)}
    (joined : Series separator pieces row) (plain : Plain (.symbol separator))
    (each : ∀ piece ∈ pieces, Balanced (piece.map (·.token))) : Balanced (row.map (·.token)) := by
  obtain ⟨trailing, same⟩ := joined.tokens
  rw [same]
  exact .spread plain (List.forall_mem_map.mpr each)

theorem items_balanced (parts : ∀ item ∈ items, Reads .expression item.1 item.2) :
    ∀ piece ∈ items.map (·.1), Balanced (piece.map (·.token)) :=
  List.forall_mem_map.mpr fun item mem => (parts item mem).balanced

/-- What is called ends where the last pair of parentheses opens. -/
theorem call_split {left' right' : Location} {row' : List Lexeme}
    (first : Balanced (ts.map (·.token))) (second : Balanced (us.map (·.token)))
    (inside : Balanced (row.map (·.token))) (inside' : Balanced (row'.map (·.token)))
    (same : ts ++ bracketed .leftParen .rightParen left right row =
      us ++ bracketed .leftParen .rightParen left' right' row') : ts = us := by
  -- What one of them has more than the other is balanced, and no beginning of the parentheses.
  have none {ts row row' more : List Lexeme} {left right left' right' : Location}
      (first : Balanced (ts.map (·.token))) (second : Balanced ((ts ++ more).map (·.token)))
      (inside : Balanced (row.map (·.token)))
      (tails : bracketed .leftParen .rightParen left right row =
        more ++ bracketed .leftParen .rightParen left' right' row') : more = [] := by
    by_contra some
    have balanced : Balanced (more.map (·.token)) := by
      rw [Balanced, List.map_append, nest_append, first] at second
      exact second
    refine balanced.ne_enclosed (by simpa using some) inside (.symbol .leftParen)
      (row'.map (·.token) ++ [.symbol .rightParen]) ?_
    simpa [enclosed] using (congrArg (List.map (·.token)) tails).symm
  rcases List.append_eq_append_iff.mp same with ⟨more, rfl, tails⟩ | ⟨more, rfl, tails⟩
  · rw [none first second inside tails, List.append_nil]
  · rw [none second first inside' tails, List.append_nil]

theorem Reads.call_inv {trees : List Tree} {a : Tree} (function : Reads level ts phrase)
    (joined : Series .comma (items.map (·.1)) row)
    (parts : ∀ item ∈ items, Reads .expression item.1 item.2) (second : Reads level' whole other)
    (is : whole = ts ++ bracketed .leftParen .rightParen left right row)
    (same : .call a trees = other.tree) :
    ∃ (items' : List (List Lexeme × Phrase)) (below : Level) (function' : Phrase),
      items'.map (·.1) = items.map (·.1) ∧
      (∀ item ∈ items', Reads .expression item.1 item.2) ∧ Reads below ts function' ∧
      other = .call (function'.location.join (left.through right)) function'
        (items'.map (·.2)) := by
  induction second with
  | tighter _ _ ih => exact ih is same
  | call left' right' function' joined' parts' whole =>
    have plain : Plain (.symbol .comma) := by simp [Plain]
    obtain rfl := call_split function.balanced function'.balanced
      (joined.balanced plain (items_balanced parts))
      (joined'.balanced plain (items_balanced parts')) (is.symm.trans whole)
    have ends := List.append_cancel_left (is.symm.trans whole)
    have pieces := joined.unique_bracketed (apart_expressions (by decide) (by decide)) (by decide)
      joined' (good_items parts) (good_items parts') ends
    obtain ⟨opening, ends⟩ := List.cons.inj ends
    obtain ⟨-, closing⟩ := List.append_inj' ends rfl
    cases opening
    cases closing
    exact ⟨_, _, _, pieces.symm, parts', function', rfl⟩
  | parens _ _ inner whole => exact (function.ne_bracketed inner _ (is.symm.trans whole)).elim
  | leaf leaf => cases leaf <;> cases same
  | _ => cases same

theorem Reads.list_inv {trees : List Tree} (joined : Series .comma (items.map (·.1)) row)
    (parts : ∀ item ∈ items, Reads .expression item.1 item.2) (second : Reads level' whole other)
    (is : whole = bracketed .leftBracket .rightBracket left right row)
    (same : .list trees = other.tree) :
    ∃ items' : List (List Lexeme × Phrase), items'.map (·.1) = items.map (·.1) ∧
      (∀ item ∈ items', Reads .expression item.1 item.2) ∧
      other = .list (span whole) (items'.map (·.2)) := by
  induction second with
  | tighter _ _ ih => exact ih is same
  | list _ _ joined' parts' whole =>
    have pieces := joined.unique_bracketed (apart_expressions (by decide) (by decide)) (by decide)
      joined' (good_items parts) (good_items parts') (is.symm.trans whole)
    exact ⟨_, pieces.symm, parts', rfl⟩
  | parens _ _ _ whole => simp [is] at whole
  | leaf leaf => cases leaf <;> cases same
  | _ => cases same

theorem Reads.module_inv {trees : List Tree} (joined : Series .semicolon (items.map (·.1)) row)
    (parts : ∀ item ∈ items, Reads .expression item.1 item.2) (second : Reads level' whole other)
    (is : whole = bracketed .leftBrace .rightBrace left right row)
    (same : .module trees = other.tree) :
    ∃ items' : List (List Lexeme × Phrase), items'.map (·.1) = items.map (·.1) ∧
      (∀ item ∈ items', Reads .expression item.1 item.2) ∧
      other = .module (span whole) (items'.map (·.2)) := by
  induction second with
  | tighter _ _ ih => exact ih is same
  | «module» _ _ _ joined' parts' whole =>
    have pieces := joined.unique_bracketed (apart_expressions (by decide) (by decide)) (by decide)
      joined' (good_items parts) (good_items parts') (is.symm.trans whole)
    exact ⟨_, pieces.symm, parts', rfl⟩
  | parens _ _ _ whole => simp [is] at whole
  | leaf leaf => cases leaf <;> cases same
  | _ => cases same

theorem Reads.record_inv {entries : List Entry} {trees : List (String × Tree)}
    (joined : Series .comma (entries.map Entry.piece) row)
    (parts : ∀ entry ∈ entries, Reads .expression entry.lexemes entry.value)
    (second : Reads level' whole other)
    (is : whole = bracketed .leftBrace .rightBrace left right row)
    (same : .record trees = other.tree) :
    ∃ entries' : List Entry, entries'.map Entry.piece = entries.map Entry.piece ∧
      (∀ entry ∈ entries', Reads .expression entry.lexemes entry.value) ∧
      other = .record (span whole) (entries'.map fun entry => (entry.name, entry.value)) := by
  have good {entries : List Entry}
      (parts : ∀ entry ∈ entries, Reads .expression entry.lexemes entry.value) :
      ∀ piece ∈ entries.map Entry.piece, ∃ entry : Entry, piece = entry.piece ∧
        Reads .expression entry.lexemes entry.value :=
    List.forall_mem_map.mpr fun entry mem => ⟨entry, rfl, parts entry mem⟩
  induction second with
  | tighter _ _ ih => exact ih is same
  | record _ _ joined' parts' whole =>
    have pieces := joined.unique_bracketed apart_fields (by decide) joined' (good parts)
      (good parts') (is.symm.trans whole)
    exact ⟨_, pieces.symm, parts', rfl⟩
  | parens _ _ _ whole => simp [is] at whole
  | leaf leaf => cases leaf <;> cases same
  | _ => cases same

/-- Items on the same lexemes are the same if each is. -/
theorem items_eq {items' : List (List Lexeme × Phrase)}
    (each : ∀ item ∈ items, ∀ {level' : Level} {other : Phrase}, Reads level' item.1 other →
      item.2 = other)
    (parts : ∀ item ∈ items', Reads .expression item.1 item.2)
    (pieces : items'.map (·.1) = items.map (·.1)) : items.map (·.2) = items'.map (·.2) := by
  induction items generalizing items' with
  | nil => rw [List.map_eq_nil_iff.mp pieces]
  | cons item items ih =>
    obtain ⟨item', rest, rfl, here, later⟩ := List.map_eq_cons_iff.mp pieces
    obtain ⟨one, others⟩ := List.forall_mem_cons.mp each
    obtain ⟨part, parts⟩ := List.forall_mem_cons.mp parts
    rw [List.map_cons, List.map_cons, one (here ▸ part), ih others parts later]

theorem entries_eq {entries entries' : List Entry}
    (each : ∀ entry ∈ entries, ∀ {level' : Level} {other : Phrase},
      Reads level' entry.lexemes other → entry.value = other)
    (parts : ∀ entry ∈ entries', Reads .expression entry.lexemes entry.value)
    (pieces : entries'.map Entry.piece = entries.map Entry.piece) :
    entries.map (fun entry => (entry.name, entry.value)) =
      entries'.map fun entry => (entry.name, entry.value) := by
  induction entries generalizing entries' with
  | nil => rw [List.map_eq_nil_iff.mp pieces]
  | cons entry entries ih =>
    obtain ⟨entry', rest, rfl, here, later⟩ := List.map_eq_cons_iff.mp pieces
    obtain ⟨one, others⟩ := List.forall_mem_cons.mp each
    obtain ⟨part, parts⟩ := List.forall_mem_cons.mp parts
    simp only [Entry.piece, List.cons.injEq, Ident.lexeme_inj] at here
    obtain ⟨name, -, lexemes⟩ := here
    rw [List.map_cons, List.map_cons, one (lexemes ▸ part), name, ih others parts later]

theorem Names.unique {names names' : List Ident} (params : Names ps names)
    (params' : Names ps names') : names = names' := by
  cases params with
  | one name =>
    generalize is : [Ident.lexeme name] = ps at params'
    cases params' with
    | one name' => simpa using is
    | listed _ _ _ whole => simp [whole] at is
  | @listed _ _ names _ _ joined whole =>
    cases params' with
    | one name' => simp at whole
    | @listed _ _ names' _ _ joined' whole' =>
      have good (names : List Ident) :
          ∀ piece ∈ names.map (fun name => [name.lexeme]), ∃ name : Ident, piece = [name.lexeme] :=
        List.forall_mem_map.mpr fun name _ => ⟨name, rfl⟩
      have pieces := joined.unique_bracketed apart_names (by decide) joined' (good names)
        (good names') (whole.symm.trans whole')
      refine List.map_injective_iff.mpr ?_ pieces
      intro name name' same
      simpa using same

end Rows

/-- Lexemes are read as one phrase, on whatever level. -/
theorem Reads.unique (first : Reads level whole phrase) (second : Reads level' whole other) :
    phrase = other := by
  have same := first.same_tree second
  induction first generalizing level' other with
  | tighter _ _ ih => exact ih second same
  | lambda arrow params body is ih =>
    obtain ⟨_, names, body', params', reads, rfl⟩ := second.lambda_inv params rfl is same
    rw [params.unique params', ih reads (body.same_tree reads)]
  | letIn opening divider nonempty joined parts body is ih₁ ih₂ =>
    obtain ⟨items', _, body', pieces, parts', reads, rfl⟩ := second.letIn_inv joined parts is same
    rw [ih₂ reads (body.same_tree reads), items_eq _ parts' pieces]
    exact fun item mem _ _ reads => ih₁ item mem reads ((parts item mem).same_tree reads)
  | conditional opening left right divider first₁ first₂ first₃ is ih₁ ih₂ ih₃ =>
    obtain ⟨_, _, _, reads₁, reads₂, reads₃, rfl⟩ :=
      Reads.conditional_inv first₁ first₂ second is same
    rw [ih₁ reads₁ (first₁.same_tree reads₁), ih₂ reads₂ (first₂.same_tree reads₂),
      ih₃ reads₃ (first₃.same_tree reads₃)]
  | forEach opening left right divider item first₁ first₂ is ih₁ ih₂ =>
    obtain ⟨_, _, reads₁, reads₂, rfl⟩ := Reads.forEach_inv first₁ second is same
    rw [ih₁ reads₁ (first₁.same_tree reads₁), ih₂ reads₂ (first₂.same_tree reads₂)]
  | definition sign first₁ first₂ is ih₁ ih₂ =>
    obtain ⟨_, _, _, _, reads₁, reads₂, rfl⟩ := first₁.definition_inv rfl second is same
    rw [ih₁ reads₁ (first₁.same_tree reads₁), ih₂ reads₂ (first₂.same_tree reads₂)]
  | binary sign _ known first₁ first₂ is ih₁ ih₂ =>
    obtain ⟨_, _, _, _, reads₁, reads₂, rfl⟩ :=
      first₁.binary_inv (joins_operator known) second is same
    rw [ih₁ reads₁ (first₁.same_tree reads₁), ih₂ reads₂ (first₂.same_tree reads₂)]
  | signed sign known inner is ih =>
    obtain ⟨_, _, reads, rfl⟩ := second.signed_inv known is same
    rw [ih reads (inner.same_tree reads)]
  | power sign first₁ first₂ is ih₁ ih₂ =>
    obtain ⟨_, _, _, _, reads₁, reads₂, rfl⟩ := first₁.binary_inv rfl second is same
    rw [ih₁ reads₁ (first₁.same_tree reads₁), ih₂ reads₂ (first₂.same_tree reads₂)]
  | call left right function joined parts is ih₁ ih₂ =>
    obtain ⟨items', _, _, pieces, parts', reads, rfl⟩ :=
      function.call_inv joined parts second is same
    rw [ih₁ reads (function.same_tree reads), items_eq _ parts' pieces]
    exact fun item mem _ _ reads => ih₂ item mem reads ((parts item mem).same_tree reads)
  | dot sign field base is ih =>
    obtain ⟨_, _, reads, rfl⟩ := base.dot_inv second is same
    rw [ih reads (base.same_tree reads)]
  | index left right first₁ first₂ is ih₁ ih₂ =>
    obtain ⟨_, _, _, _, reads₁, reads₂, rfl⟩ := first₁.index_inv second is same
    rw [ih₁ reads₁ (first₁.same_tree reads₁), ih₂ reads₂ (first₂.same_tree reads₂)]
  | leaf leaf => exact leaf.unique (second.leaf_inv leaf rfl same)
  | list left right joined parts is ih =>
    obtain ⟨items', pieces, parts', rfl⟩ := second.list_inv joined parts is same
    rw [items_eq _ parts' pieces]
    exact fun item mem _ _ reads => ih item mem reads ((parts item mem).same_tree reads)
  | record left right joined parts is ih =>
    obtain ⟨entries', pieces, parts', rfl⟩ := second.record_inv joined parts is same
    rw [entries_eq _ parts' pieces]
    exact fun entry mem _ _ reads => ih entry mem reads ((parts entry mem).same_tree reads)
  | «module» left right nonempty joined parts is ih =>
    obtain ⟨items', pieces, parts', rfl⟩ := second.module_inv joined parts is same
    rw [items_eq _ parts' pieces]
    exact fun item mem _ _ reads => ih item mem reads ((parts item mem).same_tree reads)
  | parens left right inner is ih =>
    have reads := inner.inside second is
    exact ih reads (inner.same_tree reads)

end Readings

end Grammar

namespace Phrase

variable {source : Source} {tokens : List Lexeme} {phrase : Phrase}

/-- The parser reads what the grammar says, with its places, and nothing else. -/
theorem parse_iff_reads : parse source tokens = .ok phrase ↔ Reads .expression tokens phrase := by
  constructor
  · exact reads_of_parse
  · intro reads
    obtain ⟨other, parsed, -⟩ := parse_of_derives source reads.derives
    rw [parsed, reads.unique (reads_of_parse parsed)]

end Phrase

/-- A source has a phrase if nothing of it is rejected and its tokens are read as the phrase. -/
theorem Source.phrase_eq_ok_iff {source : Source} {phrase : Phrase} :
    source.phrase = .ok phrase ↔
      source.lex.rejections = [] ∧ Reads .expression source.lex.tokens phrase := by
  have parses : Phrase.parse source source.lex.tokens = .ok phrase ↔ _ := Phrase.parse_iff_reads
  rw [← parses, Source.phrase]
  cases Phrase.parse source source.lex.tokens with
  | error e => simp
  | ok parsed => cases source.lex.rejections <;> simp

end ShapeLang
