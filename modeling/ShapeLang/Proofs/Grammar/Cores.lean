import ShapeLang.Proofs.Grammar.Unambiguity
import ShapeLang.Proofs.Token.Order

/-! # Where the parts of a phrase stand

Every part of a phrase is read from some of its lexemes that follow each other. Its place spans
these, but for parentheses at either end: as they leave no trace, an operation whose first or last
operand stands in parentheses does not reach over them. What it spans is the operation again if the
parentheses in there match.
-/

namespace ShapeLang

open ShapeLang.Grammar

/-- A name as a phrase. -/
def Ident.phrase (name : Ident) : Phrase := .ident name.location name

namespace Phrase

mutual

/-- All parts of a phrase, the names among them. -/
def subphrases : Phrase → List Phrase
  | numeral _ _ | boolean _ _ | text _ _ | ident _ _ => []
  | list _ items => subphrasesAll items
  | record _ fields => subphrasesFields fields
  | module _ items => subphrasesAll items
  | definition _ target definiens =>
    target :: target.subphrases ++ definiens :: definiens.subphrases
  | lambda _ params body => params.map Ident.phrase ++ body :: body.subphrases
  | call _ function args => function :: function.subphrases ++ subphrasesAll args
  | dot _ base field => base :: base.subphrases ++ [field.phrase]
  | index _ base place => base :: base.subphrases ++ place :: place.subphrases
  | unary _ _ operand => operand :: operand.subphrases
  | binary _ _ left right => left :: left.subphrases ++ right :: right.subphrases
  | conditional _ condition whenTrue whenFalse =>
    condition :: condition.subphrases ++ whenTrue :: whenTrue.subphrases ++
      whenFalse :: whenFalse.subphrases
  | letIn _ definitions body => subphrasesAll definitions ++ body :: body.subphrases
  | forEach _ item items body => item.phrase :: items :: items.subphrases ++ body :: body.subphrases

def subphrasesAll : List Phrase → List Phrase
  | [] => []
  | phrase :: phrases => phrase :: phrase.subphrases ++ subphrasesAll phrases

def subphrasesFields : List (Ident × Phrase) → List Phrase
  | [] => []
  | (name, phrase) :: fields =>
    name.phrase :: phrase :: phrase.subphrases ++ subphrasesFields fields

end

/-- The nodes of the tree that a phrase is. -/
def nodes (phrase : Phrase) : List Phrase := phrase :: phrase.subphrases

/-- The forms that have operands, with an operator between them, in front of one or behind one.
Their places are made of those of the operands. -/
def isOperation : Phrase → Bool
  | definition .. | call .. | dot .. | index .. | unary .. | binary .. => true
  | _ => false

variable {node : Phrase}

theorem mem_subphrasesAll {phrases : List Phrase} :
    node ∈ subphrasesAll phrases ↔ ∃ phrase ∈ phrases, node ∈ phrase.nodes := by
  induction phrases with
  | nil => simp [subphrasesAll]
  | cons phrase phrases ih => simp [subphrasesAll, nodes, ih, or_assoc]

theorem mem_subphrasesFields {fields : List (Ident × Phrase)} :
    node ∈ subphrasesFields fields ↔
      ∃ field ∈ fields, node = field.1.phrase ∨ node ∈ field.2.nodes := by
  induction fields with
  | nil => simp [subphrasesFields]
  | cons field fields ih =>
    obtain ⟨name, phrase⟩ := field
    simp [subphrasesFields, nodes, ih, or_assoc]

end Phrase

namespace Grammar

variable {level : Level} {whole ts us row part : List Lexeme} {phrase node : Phrase}

section Parts

variable {separator : Symbol} {pieces : List (List Lexeme)}

theorem Tail.inside (tail : Tail separator pieces whole) : ∀ piece ∈ pieces, piece <:+: whole := by
  induction tail with
  | done => simp
  | trailing => simp
  | next place _ ih =>
    refine List.forall_mem_cons.mpr ⟨⟨[.mark separator place], _, rfl⟩, fun piece mem => ?_⟩
    exact (ih piece mem).trans ⟨.mark separator place :: _, [], by simp; rfl⟩

theorem Series.inside (joined : Series separator pieces row) :
    ∀ piece ∈ pieces, piece <:+: row := by
  cases joined with
  | none => simp
  | some tail =>
    refine List.forall_mem_cons.mpr ⟨(List.prefix_append ..).isInfix, fun piece mem => ?_⟩
    exact (tail.inside piece mem).trans (List.suffix_append ..).isInfix

theorem Names.inside {names : List Ident} (params : Names whole names) :
    ∀ name ∈ names, [name.lexeme] <:+: whole := by
  cases params with
  | one name => simp
  | listed left right joined is =>
    intro name mem
    refine (joined.inside _ (List.mem_map_of_mem mem)).trans ?_
    rw [is]
    exact ⟨[_], [_], rfl⟩

/-- A part of the lexemes is read as the phrase. -/
def Contains (whole : List Lexeme) (node : Phrase) : Prop :=
  ∃ level part, part <:+: whole ∧ Reads level part node

theorem Contains.name {name : Ident} (inside : [name.lexeme] <:+: whole) :
    Contains whole name.phrase :=
  ⟨.atom, _, inside, .leaf (.ident name)⟩

/-- The nodes of a part are read from its lexemes. -/
theorem Reads.enter (reads : Reads level part phrase)
    (within : ∀ node ∈ phrase.subphrases, Contains part node) (inside : part <:+: whole) :
    ∀ node ∈ phrase.nodes, Contains whole node := by
  refine List.forall_mem_cons.mpr ⟨⟨level, part, inside, reads⟩, fun node mem => ?_⟩
  obtain ⟨level, smaller, inner, reads⟩ := within node mem
  exact ⟨level, smaller, inner.trans inside, reads⟩

variable {items : List (List Lexeme × Phrase)}

theorem items_subphrases (parts : ∀ item ∈ items, Reads .expression item.1 item.2)
    (within : ∀ item ∈ items, ∀ node ∈ item.2.subphrases, Contains item.1 node)
    (joined : Series separator (items.map (·.1)) row) (inside : row <:+: whole) :
    ∀ node ∈ Phrase.subphrasesAll (items.map (·.2)), Contains whole node := by
  intro node mem
  obtain ⟨_, listed, mem⟩ := Phrase.mem_subphrasesAll.mp mem
  obtain ⟨item, here, rfl⟩ := List.mem_map.mp listed
  have piece := joined.inside item.1 (List.mem_map_of_mem here)
  exact (parts item here).enter (within item here) (piece.trans inside) node mem

theorem bracketed_inside (opening closing : Symbol) (left right : Location) (ts : List Lexeme) :
    ts <:+: bracketed opening closing left right ts :=
  ⟨[.mark opening left], [.mark closing right], rfl⟩

/-- Every part of a phrase is read from a part of the lexemes. -/
theorem Reads.subphrases (reads : Reads level whole phrase) :
    ∀ node ∈ phrase.subphrases, Contains whole node := by
  have first (ts us : List Lexeme) : ts <:+: ts ++ us := (List.prefix_append ts us).isInfix
  have last (ts us : List Lexeme) : us <:+: ts ++ us := (List.suffix_append ts us).isInfix
  have rest (ts us : List Lexeme) (x : Lexeme) : us <:+: ts ++ x :: us := ⟨ts ++ [x], [], by simp⟩
  have tail (x : Lexeme) (ts : List Lexeme) : ts <:+: x :: ts := (List.suffix_cons x ts).isInfix
  induction reads with
  | tighter _ _ ih => exact ih
  | @lambda _ ps ts arrow names _ params body is ih =>
    refine List.forall_mem_append.mpr ⟨List.forall_mem_map.mpr fun name mem => ?_, ?_⟩
    · exact .name ((params.inside name mem).trans (is ▸ first ..))
    · exact body.enter ih (is ▸ rest ..)
  | letIn opening divider _ joined parts body is ih₁ ih₂ =>
    refine List.forall_mem_append.mpr ⟨items_subphrases parts ih₁ joined ?_, body.enter ih₂ ?_⟩
    · exact is ▸ (first ..).trans (tail ..)
    · exact is ▸ (rest ..).trans (tail ..)
  | conditional opening left right divider first₁ first₂ first₃ is ih₁ ih₂ ih₃ =>
    refine List.forall_mem_append.mpr ⟨List.forall_mem_append.mpr
      ⟨first₁.enter ih₁ ?_, first₂.enter ih₂ ?_⟩, first₃.enter ih₃ ?_⟩
    · exact is ▸ (bracketed_inside ..).trans ((first ..).trans (tail ..))
    · exact is ▸ (first ..).trans ((last ..).trans (tail ..))
    · exact is ▸ (rest ..).trans ((last ..).trans (tail ..))
  | @forEach whole ts _ opening left right divider item _ _ first₁ first₂ is ih₁ ih₂ =>
    have header : item.lexeme :: .mark .inKeyword divider :: ts <:+: whole :=
      is ▸ (bracketed_inside ..).trans ((first ..).trans (tail ..))
    refine List.forall_mem_cons.mpr ⟨.name ((first [item.lexeme] _).trans header),
      List.forall_mem_append.mpr ⟨first₁.enter ih₁ ((rest [item.lexeme] ..).trans header),
        first₂.enter ih₂ ?_⟩⟩
    exact is ▸ (last ..).trans (tail ..)
  | definition sign first₁ first₂ is ih₁ ih₂ =>
    exact List.forall_mem_append.mpr
      ⟨first₁.enter ih₁ (is ▸ first ..), first₂.enter ih₂ (is ▸ rest ..)⟩
  | binary sign _ _ first₁ first₂ is ih₁ ih₂ =>
    exact List.forall_mem_append.mpr
      ⟨first₁.enter ih₁ (is ▸ first ..), first₂.enter ih₂ (is ▸ rest ..)⟩
  | signed sign _ inner is ih => exact inner.enter ih (is ▸ tail ..)
  | power sign first₁ first₂ is ih₁ ih₂ =>
    exact List.forall_mem_append.mpr
      ⟨first₁.enter ih₁ (is ▸ first ..), first₂.enter ih₂ (is ▸ rest ..)⟩
  | call left right function joined parts is ih₁ ih₂ =>
    exact List.forall_mem_append.mpr ⟨function.enter ih₁ (is ▸ first ..),
      items_subphrases parts ih₂ joined (is ▸ (bracketed_inside ..).trans (last ..))⟩
  | dot sign field base is ih =>
    refine List.forall_mem_append.mpr ⟨base.enter ih (is ▸ first ..), ?_⟩
    exact List.forall_mem_singleton.mpr (.name (is ▸ rest ..))
  | index left right first₁ first₂ is ih₁ ih₂ =>
    exact List.forall_mem_append.mpr ⟨first₁.enter ih₁ (is ▸ first ..),
      first₂.enter ih₂ (is ▸ (bracketed_inside ..).trans (last ..))⟩
  | leaf leaf => cases leaf <;> simp [Phrase.subphrases]
  | list left right joined parts is ih =>
    exact items_subphrases parts ih joined (is ▸ bracketed_inside ..)
  | @record whole _ left right _ joined parts is ih =>
    intro node mem
    obtain ⟨_, listed, which⟩ := Phrase.mem_subphrasesFields.mp mem
    obtain ⟨entry, here, rfl⟩ := List.mem_map.mp listed
    have piece : entry.piece <:+: whole :=
      is ▸ (joined.inside _ (List.mem_map_of_mem here)).trans (bracketed_inside ..)
    rcases which with rfl | mem
    · exact .name ((first [entry.name.lexeme] _).trans piece)
    · exact (parts entry here).enter (ih entry here) ((rest [entry.name.lexeme] ..).trans piece)
        node mem
  | «module» left right _ joined parts is ih =>
    exact items_subphrases parts ih joined (is ▸ bracketed_inside ..)
  | parens left right inner is ih =>
    intro node mem
    obtain ⟨level, part, inside, reads⟩ := ih node mem
    exact ⟨level, part, inside.trans (is ▸ bracketed_inside ..), reads⟩

end Parts

section Cores

/-- What is left of some lexemes without opening parentheses in front and closing ones behind. -/
structure Core (whole core : List Lexeme) : Prop where
  some : core ≠ []
  around : ∃ opens closes, whole = opens ++ (core ++ closes) ∧
    (∀ lexeme ∈ opens, lexeme.token = .symbol .leftParen) ∧
    ∀ lexeme ∈ closes, lexeme.token = .symbol .rightParen

variable {core core' middle : List Lexeme}

theorem Core.refl (some : whole ≠ []) : Core whole whole :=
  ⟨some, [], [], by simp, by simp, by simp⟩

theorem Core.bracketed (within : Core ts core) (left right : Location) :
    Core (bracketed .leftParen .rightParen left right ts) core := by
  obtain ⟨some, opens, closes, rfl, opening, closing⟩ := within
  refine ⟨some, .mark .leftParen left :: opens, closes ++ [.mark .rightParen right], by simp,
    ?_, ?_⟩
  · exact List.forall_mem_cons.mpr ⟨rfl, opening⟩
  · exact List.forall_mem_append.mpr ⟨closing, by simp⟩

theorem Core.inside (within : Core whole core) : core <:+: whole := by
  obtain ⟨some, opens, closes, rfl, -⟩ := within
  exact ⟨opens, closes, by simp⟩

/-- From the beginning of the first core to the end of the second one. -/
theorem span_join (some : core ≠ []) (some' : core' ≠ [])
    (ordered : Ordered (core ++ (middle ++ core'))) :
    (span core).join (span core') = span (core ++ (middle ++ core')) := by
  have apart (a : Lexeme) (mem : a ∈ core) (b : Lexeme) (mem' : b ∈ core') :
      a.location.start < b.location.start ∧ a.location.stop < b.location.stop := by
    have := (List.pairwise_append.mp ordered.order).2.2 a mem b (by simp [mem'])
    have := ordered.size a (by simp [mem])
    have := ordered.size b (by simp [mem'])
    omega
  have starts := (apart _ (List.head_mem some) _ (List.head_mem some')).1
  have stops := (apart _ (List.getLast_mem some) _ (List.getLast_mem some')).2
  rw [span_eq_through some, span_eq_through some', span_eq_through (by simp [some])]
  rw [List.head_append_of_ne_nil some, List.getLast_append_of_ne_nil _ (by simp [some']),
    List.getLast_append_of_ne_nil _ some']
  simp only [Location.join, Location.through, Location.mk.injEq, true_and]
  omega

/-- With as many parentheses in front as are opened there, none is. -/
theorem opens_eq_nil {opens : List Lexeme} (opening : ∀ l ∈ opens, l.token = .symbol .leftParen)
    (balanced : Balanced ((opens ++ ts).map (·.token)))
    (start : (nest 0 (ts.map (·.token))).isSome) : opens = [] := by
  have deep (depth : Nat) : nest depth (opens.map (·.token)) = some (depth + opens.length) := by
    clear balanced
    induction opens generalizing depth with
    | nil => rfl
    | cons lexeme opens ih =>
      obtain ⟨one, rest⟩ := List.forall_mem_cons.mp opening
      rw [List.map_cons, one, nest, ih rest, List.length_cons]
      congr 1
      omega
  obtain ⟨depth, within⟩ := Option.isSome_iff_exists.mp start
  have none := nest_add within opens.length
  rw [Balanced, List.map_append, nest_append, deep, Option.bind_some, none] at balanced
  have := Option.some.inj balanced
  exact List.length_eq_zero_iff.mp (by omega)

theorem closes_eq_nil {closes : List Lexeme}
    (closing : ∀ l ∈ closes, l.token = .symbol .rightParen)
    (balanced : Balanced (closes.map (·.token))) : closes = [] := by
  cases closes with
  | nil => rfl
  | cons lexeme closes =>
    rw [List.map_cons, closing lexeme List.mem_cons_self] at balanced
    cases balanced

/-- What an operation spans ends with the cores of its outer operands. It is all of the operation if
its parentheses match. -/
theorem Core.join (first : Core ts core) (second : Core us core')
    (balanced : Balanced (ts.map (·.token))) (balanced' : Balanced (us.map (·.token)))
    (plain : Balanced (middle.map (·.token))) (ordered : Ordered (ts ++ (middle ++ us))) :
    ∃ both, Core (ts ++ (middle ++ us)) both ∧ (span core).join (span core') = span both ∧
      (Balanced (both.map (·.token)) → both = ts ++ (middle ++ us)) := by
  obtain ⟨some, opens, closes, rfl, opening, -⟩ := first
  obtain ⟨some', opens', closes', rfl, -, closing⟩ := second
  have shape : opens ++ (core ++ closes) ++ (middle ++ (opens' ++ (core' ++ closes'))) =
      opens ++ (core ++ ((closes ++ (middle ++ opens')) ++ core') ++ closes') := by simp
  rw [shape] at ordered ⊢
  refine ⟨core ++ ((closes ++ (middle ++ opens')) ++ core'),
    ⟨by simp [some], opens, closes', rfl, opening, closing⟩, ?_, fun both => ?_⟩
  · exact span_join some some' (ordered.inside ⟨opens, closes', by simp⟩)
  · have cut : core ++ ((closes ++ (middle ++ opens')) ++ core') =
        (core ++ closes) ++ (middle ++ (opens' ++ core')) := by simp
    have start : (nest 0 ((core ++ closes).map (·.token))).isSome := by
      rw [cut, List.map_append, Balanced, nest_append, Option.bind_eq_some_iff] at both
      obtain ⟨depth, within, -⟩ := both
      exact Option.isSome_of_eq_some within
    obtain rfl := opens_eq_nil opening balanced start
    -- The left operand and the operator are balanced, so the rest is, and the right operand.
    have last : Balanced ((opens' ++ core').map (·.token)) := by
      rw [cut, List.map_append, Balanced, nest_append, ← List.nil_append (core ++ closes), balanced,
        Option.bind_some, List.map_append, nest_append, plain] at both
      exact both
    obtain rfl := closes_eq_nil closing (by
      rw [← List.append_assoc, List.map_append, Balanced, nest_append, last] at balanced'
      exact balanced')
    simp

/-- The place spans the lexemes, but for parentheses around them. -/
def Spans (whole : List Lexeme) (place : Location) : Prop :=
  ∃ core, Core whole core ∧ place = span core

theorem Spans.refl (some : whole ≠ []) : Spans whole (span whole) := ⟨whole, .refl some, rfl⟩

/-- What the place of a phrase spans. It is read as the phrase if its parentheses match, and only
those of an operation may not. -/
def Seated (whole : List Lexeme) (phrase : Phrase) : Prop :=
  ∃ core, Core whole core ∧ phrase.location = span core ∧
    (Balanced (core.map (·.token)) → Reads .expression core phrase) ∧
    (phrase.isOperation = false → Balanced (core.map (·.token)))

theorem Seated.spans (seated : Seated whole phrase) : Spans whole phrase.location := by
  obtain ⟨core, within, place, -⟩ := seated
  exact ⟨core, within, place⟩

theorem Reads.seated_span (reads : Reads level whole phrase)
    (place : phrase.location = span whole) : Seated whole phrase :=
  ⟨whole, .refl reads.ne_nil, place, fun _ => reads.whole, fun _ => reads.balanced⟩

theorem Reads.seated_join (ts middle us : List Lexeme) {first second : Location}
    (reads : Reads level whole phrase) (is : whole = ts ++ (middle ++ us)) (ordered : Ordered whole)
    (left : Ordered ts → Spans ts first) (right : Ordered us → Spans us second)
    (balanced : Balanced (ts.map (·.token))) (balanced' : Balanced (us.map (·.token)))
    (plain : Balanced (middle.map (·.token))) (operation : phrase.isOperation = true)
    (place : phrase.location = first.join second) : Seated whole phrase := by
  subst is
  obtain ⟨core, within, rfl⟩ := left (ordered.inside (List.prefix_append ..).isInfix)
  obtain ⟨core', within', rfl⟩ := right (ordered.inside ⟨ts ++ middle, [], by simp⟩)
  obtain ⟨both, around, spans, all⟩ := within.join within' balanced balanced' plain ordered
  exact ⟨both, around, place.trans spans, fun matching => all matching ▸ reads.whole,
    fun no => Bool.noConfusion (operation.symm.trans no)⟩

/-- An operator between two operands. -/
theorem Reads.seated_between {below below' : Level} {left right : Phrase} {symbol : Symbol}
    {sign : Location} (reads : Reads level whole phrase)
    (is : whole = ts ++ .mark symbol sign :: us) (ordered : Ordered whole)
    (plain : Plain (.symbol symbol)) (first : Reads below ts left) (second : Reads below' us right)
    (seated : Ordered ts → Seated ts left) (seated' : Ordered us → Seated us right)
    (operation : phrase.isOperation = true)
    (place : phrase.location = left.location.join right.location) : Seated whole phrase :=
  reads.seated_join ts [.mark symbol sign] us is ordered (fun ordered => (seated ordered).spans)
    (fun ordered => (seated' ordered).spans) first.balanced second.balanced (.cons plain .nil)
    operation place

/-- Something that is appended to an operand. -/
theorem Reads.seated_appended {below : Level} {base : Phrase} (reads : Reads level whole phrase)
    (is : whole = ts ++ us) (ordered : Ordered whole) (first : Reads below ts base)
    (seated : Ordered ts → Seated ts base) (some : us ≠ []) (operation : phrase.isOperation = true)
    (place : phrase.location = base.location.join (span us)) : Seated whole phrase := by
  have balanced : Balanced (us.map (·.token)) := by
    have whole := reads.balanced
    rw [is, List.map_append, Balanced, nest_append, first.balanced] at whole
    exact whole
  exact reads.seated_join ts [] us is ordered (fun ordered => (seated ordered).spans)
    (fun _ => .refl some) first.balanced balanced .nil operation place

/-- A phrase stands where its first and its last token do, but for parentheses. -/
theorem Reads.seated (reads : Reads level whole phrase) (ordered : Ordered whole) :
    Seated whole phrase := by
  induction reads with
  | tighter _ _ ih => exact ih ordered
  | lambda arrow params body is => exact (Reads.lambda arrow params body is).seated_span rfl
  | letIn opening divider nonempty joined parts body is =>
    exact (Reads.letIn opening divider nonempty joined parts body is).seated_span rfl
  | conditional opening left right divider first second third is =>
    exact (Reads.conditional opening left right divider first second third is).seated_span rfl
  | forEach opening left right divider item first second is =>
    exact (Reads.forEach opening left right divider item first second is).seated_span rfl
  | definition sign first second is ih₁ ih₂ =>
    exact (Reads.definition sign first second is).seated_between is ordered (by simp [Plain]) first
      second ih₁ ih₂ rfl rfl
  | binary sign next known first second is ih₁ ih₂ =>
    exact (Reads.binary sign next known first second is).seated_between is ordered
      (plain_operator known) first second ih₁ ih₂ rfl rfl
  | @signed whole ts sign symbol _ _ known inner is ih =>
    exact (Reads.signed sign known inner is).seated_join [.mark symbol sign] [] ts is ordered
      (fun _ => .refl (by simp)) (fun ordered => (ih ordered).spans)
      (.cons (plain_sign known) .nil) inner.balanced .nil rfl rfl
  | power sign first second is ih₁ ih₂ =>
    exact (Reads.power sign first second is).seated_between is ordered (by simp [Plain]) first
      second ih₁ ih₂ rfl rfl
  | call left right function joined parts is ih =>
    exact (Reads.call left right function joined parts is).seated_appended is ordered function ih
      (by simp) rfl (by rw [span_concat]; rfl)
  | dot sign field base is ih =>
    exact (Reads.dot sign field base is).seated_appended is ordered base ih (by simp) rfl rfl
  | index left right base place is ih =>
    exact (Reads.index left right base place is).seated_appended is ordered base ih (by simp)
      rfl (by rw [span_concat]; rfl)
  | leaf leaf => exact (Reads.leaf leaf).seated_span (by cases leaf <;> rfl)
  | list left right joined parts is =>
    exact (Reads.list left right joined parts is).seated_span rfl
  | record left right joined parts is =>
    exact (Reads.record left right joined parts is).seated_span rfl
  | «module» left right nonempty joined parts is =>
    exact (Reads.module left right nonempty joined parts is).seated_span rfl
  | parens left right inner is ih =>
    obtain ⟨core, within, place, read⟩ := ih (ordered.inside (is ▸ bracketed_inside ..))
    exact ⟨core, is ▸ within.bracketed left right, place, read⟩

/-- Every node of a phrase has a part of the lexemes for its place, and this part is read as the
node if its parentheses match. They do unless the node is an operation. -/
theorem Reads.node_core (reads : Reads level whole phrase) (ordered : Ordered whole)
    (mem : node ∈ phrase.nodes) :
    ∃ core, core ≠ [] ∧ core <:+: whole ∧ node.location = span core ∧
      (Balanced (core.map (·.token)) → Reads .expression core node) ∧
      (node.isOperation = false → Balanced (core.map (·.token))) := by
  obtain ⟨_, part, inside, reads⟩ := reads.enter reads.subphrases (List.infix_refl whole) node mem
  obtain ⟨core, within, place, read⟩ := reads.seated (ordered.inside inside)
  exact ⟨core, within.some, within.inside.trans inside, place, read⟩

end Cores

end Grammar

end ShapeLang
