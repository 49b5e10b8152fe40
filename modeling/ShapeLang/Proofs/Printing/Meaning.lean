import Mathlib.Data.List.Forall2
import ShapeLang.Proofs.Computation
import ShapeLang.Program

/-! # Phrases with a fixed value

A phrase without names, calls and definitions means the same in all scopes, and evaluates to the same
value in all frames. Such phrases are made from literals by lists, records and minus signs.
-/

namespace ShapeLang

/-- The expression evaluates to the value, in every frame and on every machine, and leaves the
frames as they are. -/
def Expr.Yields (expr : Expr) (result : Value) : Prop :=
  ∃ enough, ∀ m fuel held frame heap, enough ≤ fuel →
    Eval.upTo m fuel held frame expr heap = (.ok result, heap)

/-- The phrase stands for an expression that yields the value, in all scopes. -/
def Phrase.Denotes (phrase : Phrase) (result : Value) : Prop :=
  ∀ fuel scopes, phrase.size ≤ fuel → ∃ expr : Expr, expr.Yields result ∧
    Analysis.step (Analysis.exprUpTo fuel) phrase scopes = (.ok (.expression expr), scopes)

namespace Expr

open Eval

variable {exprs : List Expr} {results : List Value}

theorem yields_constant (location : Location) (value : Constant) :
    (constant location value).Yields value.toValue := by
  refine ⟨1, fun m fuel held frame heap enough => ?_⟩
  obtain ⟨fuel, rfl⟩ : ∃ more, fuel = more + 1 := ⟨fuel - 1, by omega⟩
  rfl

theorem Yields.negate {operand : Expr} {x : Float} (yields : operand.Yields (.num x))
    (location : Location) :
    (unary location .negate operand).Yields (.num x.neg) := by
  obtain ⟨enough, run⟩ := yields
  refine ⟨enough + 1, fun m fuel held frame heap le => ?_⟩
  obtain ⟨fuel, rfl⟩ : ∃ more, fuel = more + 1 := ⟨fuel - 1, by omega⟩
  rw [upTo, step, bind_run, run m fuel held frame heap (by omega)]
  rfl

/-- Fuel that is enough for each of some expressions. -/
theorem exists_enough (parts : List.Forall₂ Yields exprs results) : ∃ enough, ∀ m fuel frame heap,
    enough ≤ fuel → List.Forall₂ (fun expr result => ∀ held,
      Eval.upTo m fuel held frame expr heap = (.ok result, heap)) exprs results := by
  induction parts with
  | nil => exact ⟨0, fun _ _ _ _ _ => .nil⟩
  | cons first _ ih =>
    obtain ⟨enough, run⟩ := first
    obtain ⟨enough', runs⟩ := ih
    refine ⟨max enough enough', fun m fuel frame heap le => .cons (fun held => ?_) ?_⟩
    · exact run m fuel held frame heap (by omega)
    · exact runs m fuel frame heap (by omega)

section Parts

variable {evaluate : Evaluator} {frame : FrameId} {heap : Heap}

theorem evaluateAll_ran (each : List.Forall₂ (fun expr result => ∀ held,
      evaluate held frame expr heap = (.ok result, heap)) exprs results)
    (held : List Held) (done : List Value) :
    evaluateAll evaluate held frame done exprs heap = (.ok (done.reverse ++ results), heap) := by
  induction each generalizing done with
  | nil => rw [List.append_nil]; rfl
  | cons first _ ih =>
    rw [evaluateAll, bind_run, first]
    dsimp only
    rw [ih, List.reverse_cons, List.append_assoc]
    rfl

theorem evaluateFields_ran (each : List.Forall₂ (fun expr result => ∀ held,
      evaluate held frame expr heap = (.ok result, heap)) exprs results)
    (names : List String) (held : List Held) (done : List (String × Value)) :
    evaluateFields evaluate held frame done (names.zip exprs) heap =
      (.ok (done.reverse ++ names.zip results), heap) := by
  induction each generalizing names done with
  | nil => simp [evaluateFields]; rfl
  | cons first _ ih =>
    cases names with
    | nil => simp [evaluateFields]; rfl
    | cons name names =>
      rw [List.zip_cons_cons, evaluateFields, bind_run, first]
      dsimp only
      rw [ih, List.reverse_cons, List.append_assoc]
      rfl

end Parts

theorem yields_list (parts : List.Forall₂ Yields exprs results) (location : Location) :
    (list location exprs).Yields (.ofItems results) := by
  obtain ⟨enough, runs⟩ := exists_enough parts
  refine ⟨enough + 1, fun m fuel held frame heap le => ?_⟩
  obtain ⟨fuel, rfl⟩ : ∃ more, fuel = more + 1 := ⟨fuel - 1, by omega⟩
  rw [upTo, step, map_eq_pure_bind, bind_run,
    evaluateAll_ran (runs m fuel frame heap (by omega)) held []]
  rfl

theorem yields_record (parts : List.Forall₂ Yields exprs results) (names : List String)
    (location : Location) :
    (record location (names.zip exprs)).Yields (.ofFields (names.zip results)) := by
  obtain ⟨enough, runs⟩ := exists_enough parts
  refine ⟨enough + 1, fun m fuel held frame heap le => ?_⟩
  obtain ⟨fuel, rfl⟩ : ∃ more, fuel = more + 1 := ⟨fuel - 1, by omega⟩
  rw [upTo, step, map_eq_pure_bind, bind_run,
    evaluateFields_ran (runs m fuel frame heap (by omega)) names held []]
  rfl

end Expr

namespace Phrase

open Analysis

variable {location : Location} {phrase : Phrase} {phrases : List Phrase} {result : Value}
  {results : List Value} {fuel : Nat}

theorem denotes_numeral (location : Location) (x : Float) : (numeral location x).Denotes (.num x) :=
  fun _ _ _ => ⟨_, Expr.yields_constant location (.num x), rfl⟩

theorem denotes_boolean (location : Location) (b : Bool) : (boolean location b).Denotes (.bool b) :=
  fun _ _ _ => ⟨_, Expr.yields_constant location (.bool b), rfl⟩

theorem denotes_text (location : Location) (content : String) :
    (text location content).Denotes (.text content) :=
  fun _ _ _ => ⟨_, Expr.yields_constant location (.text content), rfl⟩

theorem Denotes.expression (denotes : phrase.Denotes result) (enough : phrase.size < fuel)
    (scopes : Scopes) :
    ∃ expr : Expr, expr.Yields result ∧ exprUpTo fuel phrase scopes = (.ok expr, scopes) := by
  obtain ⟨fuel, rfl⟩ : ∃ more, fuel = more + 1 := ⟨fuel - 1, by omega⟩
  obtain ⟨expr, yields, ran⟩ := denotes fuel scopes (by omega)
  refine ⟨expr, yields, ?_⟩
  rw [exprUpTo, bind_run, ran]
  rfl

theorem Denotes.negate {x : Float} (denotes : phrase.Denotes (.num x)) :
    (unary location .negate phrase).Denotes (.num x.neg) := by
  intro fuel scopes enough
  obtain ⟨expr, yields, ran⟩ := denotes.expression (show phrase.size < fuel from enough) scopes
  refine ⟨_, yields.negate location, ?_⟩
  rw [step, bind_run, ran]
  rfl

theorem expressions_ran (parts : List.Forall₂ Denotes phrases results)
    (enough : sizeAll phrases < fuel) (scopes : Scopes) : ∃ exprs : List Expr,
      List.Forall₂ Expr.Yields exprs results ∧
      phrases.mapM (exprUpTo fuel) scopes = (.ok exprs, scopes) := by
  induction parts with
  | nil => exact ⟨[], .nil, rfl⟩
  | cons first _ ih =>
    simp only [sizeAll] at enough
    obtain ⟨expr, yields, ran⟩ := first.expression (show _ < fuel by omega) scopes
    obtain ⟨exprs, others, rans⟩ := ih (by omega)
    refine ⟨expr :: exprs, .cons yields others, ?_⟩
    rw [List.mapM_cons, bind_run, ran]
    dsimp only
    rw [bind_run, rans]
    rfl

theorem denotes_list (parts : List.Forall₂ Denotes phrases results) :
    (list location phrases).Denotes (.ofItems results) := by
  intro fuel scopes enough
  obtain ⟨exprs, yield, ran⟩ :=
    expressions_ran parts (show sizeAll phrases < fuel from enough) scopes
  refine ⟨_, Expr.yields_list yield location, ?_⟩
  rw [step, bind_run, ran]
  rfl

theorem fields_ran {fields : List (Ident × Phrase)} {seen : List String}
    (parts : List.Forall₂ Denotes (fields.map (·.2)) results) (enough : sizeFields fields < fuel)
    (distinct : (fields.map (·.1.name)).Nodup) (fresh : ∀ field ∈ fields, field.1.name ∉ seen)
    (scopes : Scopes) : ∃ exprs : List Expr, List.Forall₂ Expr.Yields exprs results ∧
      Analysis.fields (exprUpTo fuel) seen fields scopes =
        (.ok ((fields.map (·.1.name)).zip exprs), scopes) := by
  induction fields generalizing results seen with
  | nil =>
    cases parts
    exact ⟨[], .nil, rfl⟩
  | cons field fields ih =>
    obtain ⟨id, phrase⟩ := field
    cases parts with
    | cons first parts =>
      simp only [sizeFields] at enough
      obtain ⟨new, distinct⟩ := List.nodup_cons.mp distinct
      obtain ⟨unseen, fresh⟩ := List.forall_mem_cons.mp fresh
      obtain ⟨expr, yields, ran⟩ := first.expression (show phrase.size < fuel by omega) scopes
      have fresh' : ∀ field ∈ fields, field.1.name ∉ id.name :: seen := by
        intro field mem among
        rcases List.mem_cons.mp among with same | among
        · exact new (List.mem_map.mpr ⟨field, mem, same⟩)
        · exact fresh field mem among
      obtain ⟨exprs, others, rans⟩ := ih parts (by omega) distinct fresh'
      refine ⟨expr :: exprs, .cons yields others, ?_⟩
      rw [Analysis.fields, if_neg unseen]
      dsimp only
      rw [bind_run, ran]
      dsimp only
      rw [bind_run, rans]
      rfl

theorem denotes_record {fields : List (Ident × Phrase)}
    (parts : List.Forall₂ Denotes (fields.map (·.2)) results)
    (distinct : (fields.map (·.1.name)).Nodup) (location : Location) :
    (record location fields).Denotes (.ofFields ((fields.map (·.1.name)).zip results)) := by
  intro fuel scopes enough
  obtain ⟨exprs, yield, ran⟩ := fields_ran parts (show sizeFields fields < fuel from enough)
    distinct (fun field _ => List.not_mem_nil) scopes
  refine ⟨_, Expr.yields_record yield _ location, ?_⟩
  rw [step, bind_run, ran]
  rfl

end Phrase

end ShapeLang
