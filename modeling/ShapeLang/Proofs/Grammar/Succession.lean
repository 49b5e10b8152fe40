import ShapeLang.Program
import ShapeLang.Proofs.Grammar.Cores
import ShapeLang.Proofs.Grammar.Literals

/-! # The function literals of a program follow each other

A function starts where its parameters or its name do, and everything in it starts later. So the
function literals of a program start at tokens of it, in the order in which they are written, and no
two of them have the same place.
-/

namespace ShapeLang

namespace Grammar

variable {level : Level} {separator : Symbol} {ts us row whole : List Lexeme}
variable {pieces : List (List Lexeme)} {places places' : List Location} {phrase : Phrase}

theorem Tail.sublist (tail : Tail separator pieces whole) : pieces.flatten.Sublist whole := by
  induction tail with
  | done => exact .refl _
  | trailing => exact List.nil_sublist _
  | next place _ ih => exact .cons _ ((List.Sublist.refl _).append ih)

theorem Series.sublist (joined : Series separator pieces row) : pieces.flatten.Sublist row := by
  cases joined with
  | none => exact .refl _
  | some tail => exact (List.Sublist.refl _).append tail.sublist

/-- The places start where lexemes do, each at another one, in the order of the lexemes. -/
def Begun (places : List Location) (lexemes : List Lexeme) : Prop :=
  (places.map (·.start)).Sublist (lexemes.map (·.location.start))

theorem Begun.sublist (begun : Begun places ts) (part : ts.Sublist whole) : Begun places whole :=
  begun.trans (part.map _)

theorem Begun.append (first : Begun places ts) (second : Begun places' us) :
    Begun (places ++ places') (ts ++ us) := by
  simpa [Begun] using List.Sublist.append first second

theorem Begun.series {α : Type} {items : List α} {piece : α → List Lexeme}
    {look : α → List Location}
    (each : ∀ item ∈ items, Ordered (piece item) → Begun (look item) (piece item))
    (joined : Series separator (items.map piece) row) (ordered : Ordered row) :
    Begun (items.flatMap look) row := by
  have all : ∀ item ∈ items, Begun (look item) (piece item) := fun item mem =>
    each item mem (ordered.inside (joined.inside _ (List.mem_map_of_mem mem)))
  refine Begun.sublist ?_ joined.sublist
  clear each joined
  induction items with
  | nil => exact .refl _
  | cons item items ih =>
    obtain ⟨first, rest⟩ := List.forall_mem_cons.mp all
    exact first.append (ih rest)

/-- A phrase starts where one of its lexemes does. -/
theorem Spans.begun {place : Location} (spans : Spans whole place) : Begun [place] whole := by
  obtain ⟨core, within, rfl⟩ := spans
  obtain ⟨first, rest, rfl⟩ := List.exists_cons_of_ne_nil within.some
  have own : Begun [span (first :: rest)] (first :: rest) := by simp [Begun, span]
  exact own.sublist within.inside.sublist

/-- A range that covers two others starts with the first one. -/
theorem join_start {first second : Location} (ordered : Ordered (ts ++ us))
    (left : Spans ts first) (right : Spans us second) :
    (first.join second).start = first.start := by
  obtain ⟨core, within, rfl⟩ := left
  obtain ⟨core', within', rfl⟩ := right
  obtain ⟨head, rest, rfl⟩ := List.exists_cons_of_ne_nil within.some
  obtain ⟨head', rest', rfl⟩ := List.exists_cons_of_ne_nil within'.some
  have mem : head ∈ ts := within.inside.subset List.mem_cons_self
  have mem' : head' ∈ us := within'.inside.subset List.mem_cons_self
  have apart := (List.pairwise_append.mp ordered.order).2.2 head mem head' mem'
  have size := ordered.size head (List.mem_append_left _ mem)
  simp only [Location.join, span]
  omega

/-- The function literals of a phrase start at some of its lexemes, in their order. -/
theorem Reads.literals_begun (reads : Reads level whole phrase) (ordered : Ordered whole) :
    Begun phrase.literals whole := by
  induction reads with
  | tighter _ _ ih => exact ih ordered
  | @lambda whole ps ts arrow names body params inner is ih =>
    subst is
    have own : Begun [span (ps ++ .mark .arrow arrow :: ts)] (ps ++ [.mark .arrow arrow]) := by
      cases ps <;> simp [Begun, span]
    exact (own.append (ih (ordered.sublist (by grind)))).sublist (by grind)
  | letIn opening divider _ joined _ _ is ih₁ ih₂ =>
    subst is
    have definitions := Begun.series ih₁ joined (ordered.sublist (by grind))
    have all := definitions.append (ih₂ (ordered.sublist (by grind)))
    simpa [Phrase.literals, List.flatMap_map] using all.sublist (by grind)
  | conditional opening left right divider _ _ _ is ih₁ ih₂ ih₃ =>
    subst is
    have either := (ih₁ (ordered.sublist (by grind))).append (ih₂ (ordered.sublist (by grind)))
    exact (either.append (ih₃ (ordered.sublist (by grind)))).sublist (by grind)
  | forEach opening left right divider item _ _ is ih₁ ih₂ =>
    subst is
    have both := (ih₁ (ordered.sublist (by grind))).append (ih₂ (ordered.sublist (by grind)))
    exact both.sublist (by grind)
  | @definition whole ts us sign target definiens left right is ih₁ ih₂ =>
    subst is
    have apart : Ordered (ts ++ us) := ordered.sublist (by grind)
    have first := left.seated (apart.sublist (by grind))
    have second := right.seated (apart.sublist (by grind))
    have own : Begun [target.location.join definiens.location] ts := by
      have start := join_start apart first.spans second.spans
      simpa [Begun, start] using first.spans.begun
    have header : Begun (target.headerLiteral (target.location.join definiens.location)) ts := by
      unfold Phrase.headerLiteral
      split
      · exact own
      · exact List.nil_sublist _
    exact (header.append (ih₂ (ordered.sublist (by grind)))).sublist (by grind)
  | binary sign _ _ _ _ is ih₁ ih₂ | power sign _ _ is ih₁ ih₂ | index left right _ _ is ih₁ ih₂ =>
    subst is
    have both := (ih₁ (ordered.sublist (by grind))).append (ih₂ (ordered.sublist (by grind)))
    exact both.sublist (by grind)
  | signed sign _ _ is ih | dot sign field _ is ih | parens left right _ is ih =>
    subst is
    exact (ih (ordered.sublist (by grind))).sublist (by grind)
  | call left right _ joined _ is ih₁ ih₂ =>
    subst is
    have args := Begun.series ih₂ joined (ordered.sublist (by grind))
    have all := (ih₁ (ordered.sublist (by grind))).append args
    simpa [Phrase.literals, List.flatMap_map] using all.sublist (by grind)
  | leaf leaf => cases leaf <;> exact List.nil_sublist _
  | list left right joined _ is ih | «module» left right _ joined _ is ih =>
    subst is
    have items := Begun.series ih joined (ordered.sublist (by grind))
    simpa [Phrase.literals, List.flatMap_map] using items.sublist (by grind)
  | @record whole row left right entries joined parts is ih =>
    subst is
    have each : ∀ entry ∈ entries, Ordered entry.piece → Begun entry.value.literals entry.piece :=
      fun entry mem ordered =>
        (ih entry mem (ordered.sublist (by grind [Entry.piece]))).sublist (by grind [Entry.piece])
    have fields := Begun.series each joined (ordered.sublist (by grind))
    simpa [Phrase.literals, List.flatMap_map] using fields.sublist (by grind)

end Grammar

open ShapeLang.Grammar

/-- No two function literals of a program have the same place. -/
theorem literals_nodup {source : Source} {phrase : Phrase}
    (read : source.phrase = .ok phrase) : phrase.literals.Nodup := by
  obtain ⟨-, reads⟩ := Source.phrase_eq_ok_iff.mp read
  have ordered := source.lex_ordered
  -- Every token starts behind the start of the one before it.
  have ascending : (source.lex.tokens.map (·.location.start)).Pairwise (· < ·) := by
    refine List.pairwise_map.mpr (ordered.order.imp_of_mem fun mem _ apart => ?_)
    exact Nat.lt_of_lt_of_le (ordered.size _ mem) apart
  have apart := List.pairwise_map.mp (ascending.sublist (reads.literals_begun ordered))
  exact apart.imp fun before same => by simp [same] at before

end ShapeLang
