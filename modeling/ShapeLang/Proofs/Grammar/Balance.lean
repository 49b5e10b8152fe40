import ShapeLang.Proofs.Grammar.Derivation

/-! # Parentheses match

`nest` follows the depth of the round parentheses over some tokens. In whatever the grammar derives
they match. So a derived sequence that stands in a pair of parentheses is not the beginning of an
operation or of a call.
-/

namespace ShapeLang

namespace Grammar

/-- The depth of the parentheses after some tokens, unless one is closed that was not opened. -/
def nest : Nat → List Token → Option Nat
  | depth, [] => some depth
  | depth, .symbol .leftParen :: tokens => nest (depth + 1) tokens
  | 0, .symbol .rightParen :: _ => none
  | depth + 1, .symbol .rightParen :: tokens => nest depth tokens
  | depth, _ :: tokens => nest depth tokens

/-- Each parenthesis has its counterpart. -/
def Balanced (tokens : List Token) : Prop := nest 0 tokens = some 0

instance (tokens : List Token) : Decidable (Balanced tokens) :=
  inferInstanceAs (Decidable (_ = _))

section Nest

variable {depth deeper : Nat} {ts us : List Token} {token : Token} {level : Level}

/-- The token is no parenthesis. -/
def Plain (token : Token) : Prop := token ≠ .symbol .leftParen ∧ token ≠ .symbol .rightParen

theorem paren_cases (token : Token) :
    token = .symbol .leftParen ∨ token = .symbol .rightParen ∨ Plain token := by
  by_cases left : token = .symbol .leftParen
  · exact .inl left
  by_cases right : token = .symbol .rightParen
  · exact .inr (.inl right)
  · exact .inr (.inr ⟨left, right⟩)

theorem nest_plain (plain : Plain token) (depth : Nat) (ts : List Token) :
    nest depth (token :: ts) = nest depth ts := by
  rw [nest.eq_def]
  split
  · contradiction
  · simp_all [Plain]
  · simp_all [Plain]
  · simp_all [Plain]
  · simp_all

theorem nest_append (depth : Nat) (ts us : List Token) :
    nest depth (ts ++ us) = (nest depth ts).bind (nest · us) := by
  induction ts generalizing depth with
  | nil => rfl
  | cons token ts ih =>
    rcases paren_cases token with rfl | rfl | plain
    · exact ih (depth + 1)
    · cases depth with
      | zero => rfl
      | succ depth => exact ih depth
    · rw [List.cons_append, nest_plain plain, nest_plain plain, ih]

/-- What matches at some depth matches further inside. -/
theorem nest_add (nested : nest depth ts = some deeper) (more : Nat) :
    nest (depth + more) ts = some (deeper + more) := by
  induction ts generalizing depth with
  | nil =>
    cases nested
    rfl
  | cons token ts ih =>
    rcases paren_cases token with rfl | rfl | plain
    · rw [nest, Nat.add_right_comm]
      exact ih nested
    · cases depth with
      | zero => cases nested
      | succ depth =>
        rw [Nat.add_right_comm]
        exact ih nested
    · rw [nest_plain plain] at nested ⊢
      exact ih nested

theorem Balanced.nil : Balanced [] := rfl

theorem Balanced.append (first : Balanced ts) (second : Balanced us) : Balanced (ts ++ us) := by
  rw [Balanced, nest_append, first]
  exact second

theorem Balanced.cons (plain : Plain token) (rest : Balanced ts) : Balanced (token :: ts) :=
  (nest_plain plain 0 ts).trans rest

theorem Balanced.enclosed {opening closing : Symbol} (inside : Balanced ts)
    (pair : (opening = .leftParen ∧ closing = .rightParen) ∨
      (Plain (.symbol opening) ∧ Plain (.symbol closing))) :
    Balanced (enclosed opening closing ts) := by
  rcases pair with ⟨rfl, rfl⟩ | ⟨plain, plain'⟩
  · rw [Balanced, Grammar.enclosed, nest, nest_append, nest_add inside 1]
    rfl
  · exact .cons plain (inside.append (.cons plain' .nil))

theorem Balanced.spread {separator : Symbol} {trailing : Bool} {uses : List (List Token)}
    (plain : Plain (.symbol separator)) (each : ∀ use ∈ uses, Balanced use) :
    Balanced (spread separator trailing uses) := by
  have last : Balanced (if trailing then [.symbol separator] else []) := by
    cases trailing
    · exact .nil
    · exact .cons plain .nil
  cases uses with
  | nil => exact .nil
  | cons first others =>
    obtain ⟨one, rest⟩ := List.forall_mem_cons.mp each
    rw [spread_cons]
    refine one.append (.append ?_ last)
    clear each
    induction others with
    | nil => exact .nil
    | cons next others ih =>
      obtain ⟨one, rest⟩ := List.forall_mem_cons.mp rest
      exact .append (.cons plain one) (ih rest)

/-- A pair of parentheses does not begin with a smaller part that is balanced. -/
theorem Balanced.ne_enclosed (first : Balanced ts) (some : ts ≠ []) (inside : Balanced us)
    (token : Token) (rest : List Token) :
    ts ++ token :: rest ≠ Grammar.enclosed .leftParen .rightParen us := by
  intro same
  obtain ⟨head, more, rfl⟩ := List.exists_cons_of_ne_nil some
  obtain ⟨rfl, tails⟩ := List.cons.inj same
  replace tails : more ++ token :: rest = us ++ [.symbol .rightParen] := tails
  obtain ⟨behind, rfl⟩ : more <+: us := by
    refine List.prefix_of_prefix_length_le ⟨_, tails⟩ (List.prefix_append us _) ?_
    have := congrArg List.length tails
    simp only [List.length_append, List.length_cons, List.length_nil] at this
    omega
  -- Within the pair the depth is never less than one.
  rw [Balanced, nest_append, Option.bind_eq_some_iff] at inside
  obtain ⟨depth, before, -⟩ := inside
  have deeper := nest_add before 1
  rw [Balanced, nest] at first
  rw [first] at deeper
  cases deeper

theorem plain_operator {symbol : Symbol} {op : BinaryOp} (known : (symbol, op) ∈ level.operators) :
    Plain (.symbol symbol) := by
  have all : ∀ level : Level, ∀ entry ∈ level.operators,
      entry.1 ≠ .leftParen ∧ entry.1 ≠ .rightParen := by
    intro level
    cases level <;> decide
  simpa [Plain] using all level _ known

theorem plain_sign {symbol : Symbol} {op : UnaryOp} (known : (symbol, op) ∈ signs) :
    Plain (.symbol symbol) := by
  have all : ∀ entry ∈ signs, entry.1 ≠ .leftParen ∧ entry.1 ≠ .rightParen := by decide
  simpa [Plain] using all _ known

theorem Params.balanced {names : List String} (params : Params ts names) : Balanced ts := by
  have name (name : String) : Balanced [.ident name] := .cons (by simp [Plain]) .nil
  cases params with
  | one => exact name _
  | listed names trailing =>
    refine .enclosed (.spread (by simp [Plain]) ?_) (.inl ⟨rfl, rfl⟩)
    exact List.forall_mem_map.mpr fun one _ => name one

/-- Whatever is derived is balanced. -/
theorem Derives.balanced {a : Tree} (derives : Derives level ts a) :
    Balanced ts := by
  have items {separator : Symbol} {trailing : Bool} {items : List (List Token × Tree)}
      (plain : Plain (.symbol separator)) (each : ∀ item ∈ items, Balanced item.1) :
      Balanced (Grammar.spread separator trailing (items.map (·.1))) :=
    .spread plain (List.forall_mem_map.mpr each)
  have parens {us : List Token} (inside : Balanced us) :
      Balanced (Grammar.enclosed .leftParen .rightParen us) :=
    .enclosed inside (.inl ⟨rfl, rfl⟩)
  have brackets {opening closing : Symbol} {us : List Token} (inside : Balanced us)
      (other : Plain (.symbol opening) ∧ Plain (.symbol closing)) :
      Balanced (Grammar.enclosed opening closing us) :=
    .enclosed inside (.inr other)
  induction derives with
  | tighter _ _ ih => exact ih
  | lambda params _ ih => exact params.balanced.append (.cons (by simp [Plain]) ih)
  | letIn _ _ _ _ _ ih₁ ih₂ =>
    exact .cons (by simp [Plain])
      (.append (items (by simp [Plain]) ih₁) (.cons (by simp [Plain]) ih₂))
  | conditional _ _ _ ih₁ ih₂ ih₃ =>
    exact .cons (by simp [Plain]) ((parens ih₁).append (ih₂.append (.cons (by simp [Plain]) ih₃)))
  | forEach name _ _ ih₁ ih₂ =>
    exact .cons (by simp [Plain])
      ((parens (.cons (by simp [Plain]) (.cons (by simp [Plain]) ih₁))).append ih₂)
  | definition _ _ ih₁ ih₂ => exact ih₁.append (.cons (by simp [Plain]) ih₂)
  | binary _ known _ _ ih₁ ih₂ => exact ih₁.append (.cons (plain_operator known) ih₂)
  | signed known _ ih => exact .cons (plain_sign known) ih
  | power _ _ ih₁ ih₂ => exact ih₁.append (.cons (by simp [Plain]) ih₂)
  | call _ _ _ _ ih₁ ih₂ => exact ih₁.append (parens (items (by simp [Plain]) ih₂))
  | dot _ _ ih => exact ih.append (.cons (by simp [Plain]) (.cons (by simp [Plain]) .nil))
  | index _ _ ih₁ ih₂ => exact ih₁.append (brackets ih₂ (by simp [Plain]))
  | literal is => cases is <;> exact .cons (by simp [Plain]) .nil
  | ident name => exact .cons (by simp [Plain]) .nil
  | list _ _ _ ih => exact brackets (items (by simp [Plain]) ih) (by simp [Plain])
  | record _ _ _ ih =>
    refine brackets (.spread (by simp [Plain]) (List.forall_mem_map.mpr fun field mem => ?_))
      (by simp [Plain])
    exact .cons (by simp [Plain]) (.cons (by simp [Plain]) (ih field mem))
  | «module» _ _ _ _ ih => exact brackets (items (by simp [Plain]) ih) (by simp [Plain])
  | parens _ ih => exact parens ih

end Nest

end Grammar

end ShapeLang
