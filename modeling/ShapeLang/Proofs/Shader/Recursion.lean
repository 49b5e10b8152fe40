import ShapeLang.Program
import ShapeLang.Proofs.Shader.Termination
import ShapeLang.Shape

/-! # The check for recursion

A function that is being inlined is known by its literal, whatever it captured. That every call of
such a function is refused makes inlining end; but two functions of one literal can call each other
without any recursion, and are refused all the same. To compare, what is done about these calls is
left to a guard.
-/

namespace ShapeLang

namespace Shader

/-- What is done about the call at a place, if its function is being inlined already. -/
abbrev Guard := Location → Compile Unit

namespace Guard

/-- The call is refused as recursion. -/
def refuse : Guard := fun location => Compile.unsupported location "recursion"

/-- The call is inlined as all others. -/
def allow : Guard := fun _ => pure ()

/-- Inlining is given up with an alarm. -/
def stop (alarm : Location → Fault) : Guard := fun location => throw (alarm location)

section Inlining

variable (guard : Guard)

/-- Inlines a call by the rules of `Compile.inlineCall`, under a guard. -/
def inlineCall (compile : Inliner) (lambda : Lambda) (outer : Outer) (args : List Term)
    (location : Location) : Compile Term := do
  if args.length ≠ lambda.paramCount then
    Compile.raise location (.argumentCount lambda.paramCount args.length)
  if lambda.location ∈ (← Compile.compiler).inlining then guard location
  let id ← Compile.alloc lambda.slotCount outer
  Compile.storeAll id 0 args
  Compile.inlining lambda.location (compile id lambda.body)

/-- Compiles one expression by the rules of `Compile.step`, under a guard. -/
def step (evaluate : Evaluator) (held : List Held) (compile : Inliner) : Inliner
  | id, .call location function args => do
    let callee ← Compile.callee evaluate held id function
    let args ← args.mapM (compile id)
    match callee with
    | .lambda lambda outer => guard.inlineCall compile lambda outer args location
    | .builtin function => Compile.builtin location function args
  | id, expr => Compile.step evaluate held compile id expr

/-- Compiles expressions as `Compile.upTo` does, under a guard. -/
def upTo (evaluate : Evaluator) (held : List Held) : Nat → Inliner
  | 0 => fun _ _ => throw .outOfFuel
  | fuel + 1 => guard.step evaluate held (upTo evaluate held fuel)

end Inlining

theorem refuse_inlineCall : refuse.inlineCall = Compile.inlineCall := rfl

theorem refuse_step (evaluate : Evaluator) (held : List Held) (compile : Inliner) :
    refuse.step evaluate held compile = Compile.step evaluate held compile := by
  funext id expr
  cases expr <;> rfl

/-- The code is compiled with calls refused as recursion. -/
theorem refuse_upTo (evaluate : Evaluator) (held : List Held) (fuel : Nat) :
    refuse.upTo evaluate held fuel = Compile.upTo evaluate held fuel := by
  induction fuel with
  | zero => rfl
  | succ fuel ih => rw [upTo, ih, refuse_step, Compile.upTo]

end Guard

/-- A computation, under any guard: either the guard has nothing to judge, or every guard has to
judge the same call first. -/
inductive Judged {α : Type} (action : Guard → Compile α) (state : CompilerState) : Prop
  | never {outcome : Except Fault α} {after : CompilerState}
    (same : ∀ guard, action guard state = (outcome, after))
  | once {site : Location} {after : CompilerState}
    (stops : ∀ alarm, action (.stop alarm) state = (.error (alarm site), after))

namespace Judged

variable {α β : Type} {state : CompilerState} {location : Location}

/-- What does not depend on the guard. -/
theorem same (action : Compile α) : Judged (fun _ => action) state :=
  .never fun _ => rfl

theorem bind {action : Guard → Compile α} {next : Guard → α → Compile β}
    (first : Judged action state) (second : ∀ a later, Judged (fun guard => next guard a) later) :
    Judged (fun guard => action guard >>= next guard) state := by
  cases first with
  | @never outcome after same =>
    cases outcome with
    | error fault =>
      refine @Judged.never _ _ _ (.error fault) after fun guard => ?_
      rw [bind_run, same guard]
    | ok a =>
      cases second a after with
      | never same' => exact .never fun guard => by rw [bind_run, same guard, ← same' guard]
      | once stops => exact .once fun alarm => by rw [bind_run, same, ← stops alarm]
  | once stops => exact .once fun alarm => by rw [bind_run, stops alarm]

theorem settling {id slot : Nat} {definition : Expr} {action : Guard → Compile Term}
    (judged : Judged action state) :
    Judged (fun guard => Compile.settling id slot definition (action guard)) state := by
  cases judged with
  | @never outcome after same =>
    cases outcome with
    | error fault => exact .never fun guard => by rw [Compile.settling, same guard]
    | ok term => exact .never fun guard => by rw [Compile.settling, same guard]
  | once stops => exact .once fun alarm => by rw [Compile.settling, stops alarm]

theorem inlining {function : Location} {action : Guard → Compile Term}
    (judged : Judged action (state.entering function)) :
    Judged (fun guard => Compile.inlining function (action guard)) state := by
  have run (guard : Guard) : Compile.inlining function (action guard) state =
      ((action guard (state.entering function)).1,
        (action guard (state.entering function)).2.leaving) := rfl
  cases judged with
  | never same => exact .never fun guard => by rw [run, same guard]
  | @once site after stops =>
    refine @Judged.once _ _ _ site after.leaving fun alarm => ?_
    rw [run, stops alarm]

section Step

variable {compile : Guard → Inliner} {id : Nat}
  (judged : ∀ id expr state, Judged (fun guard => compile guard id expr) state)
include judged

theorem each (exprs : List Expr) : Judged (fun guard => exprs.mapM (compile guard id)) state := by
  induction exprs generalizing state with
  | nil => exact same (pure [])
  | cons expr exprs ih =>
    simp only [List.mapM_cons]
    exact (judged id expr state).bind fun _ _ => ih.bind fun _ _ => same (pure _)

theorem force {slot : Nat} :
    Judged (fun guard => Compile.force (compile guard) location id slot) state := by
  apply (same (Compile.frame id)).bind
  intro frame later
  dsimp only
  split
  · exact same _
  · exact same _
  · exact same _
  · exact same _
  · exact (same (Compile.store id slot .busy)).bind fun _ _ => (judged ..).settling

/-- The guard judges the call if the function is being inlined. -/
theorem inlineCall (lambda : Lambda) (outer : Outer) (args : List Term) :
    Judged (fun guard => guard.inlineCall (compile guard) lambda outer args location) state := by
  unfold Guard.inlineCall
  by_cases count : args.length = lambda.paramCount
  · simp only [count, ne_eq, not_true_eq_false, ↓reduceIte]
    apply (same Compile.compiler).bind
    intro compiler later
    by_cases recursive : lambda.location ∈ compiler.inlining
    · simp only [recursive, ↓reduceIte]
      exact @Judged.once _ _ _ location later fun alarm => rfl
    · simp only [recursive, ↓reduceIte]
      apply (same (Compile.alloc lambda.slotCount outer)).bind
      intro callee _
      apply (same (Compile.storeAll callee 0 args)).bind
      exact fun _ _ => (judged ..).inlining
  · simp only [count, ne_eq, not_false_eq_true, ↓reduceIte]
    exact .never fun guard => rfl

variable {evaluate : Evaluator} {held : List Held}

theorem step (expr : Expr) :
    Judged (fun guard => guard.step evaluate held (compile guard) id expr) state := by
  cases expr with
  | constant => exact same _
  | slot location depth slot =>
    apply (same (Compile.ancestor id depth)).bind
    intro outer later
    cases outer with
    | symbolic owner => exact force judged
    | captured owner => exact same _
  | call location function args =>
    apply (same (Compile.callee evaluate held id function)).bind
    intro callee later
    apply (each judged args).bind
    intro args last
    cases callee with
    | lambda lambda outer => exact inlineCall judged lambda outer args
    | builtin function => exact same _
  | list location items => exact (each judged items).bind fun _ _ => same _
  | record => exact same _
  | «module» => exact same _
  | lambda => exact same _
  | forEach => exact same _
  | letIn location bindings body =>
    exact (same (Compile.storePending id bindings)).bind fun _ _ => judged ..
  | unary location op operand => exact (judged ..).bind fun _ _ => same _
  | binary location op left right =>
    exact (judged ..).bind fun _ _ => (judged ..).bind fun _ _ => same _
  | conditional location condition whenTrue whenFalse =>
    apply (judged id condition state).bind
    intro c later
    split
    · exact .never fun guard => rfl
    · apply (judged id whenTrue later).bind
      intro a _
      exact (judged id whenFalse _).bind fun _ _ => same _
  | dot location base name => exact (judged ..).bind fun _ _ => same _
  | index location base index =>
    apply (judged id base state).bind
    intro v later
    dsimp only
    split
    · exact same _
    · exact (judged id index later).bind fun _ _ => same _

omit judged in
theorem upTo (fuel id : Nat) (expr : Expr) (state : CompilerState) :
    Judged (fun guard => guard.upTo evaluate held fuel id expr) state := by
  induction fuel generalizing id expr state with
  | zero => exact same _
  | succ fuel ih => exact step ih expr

end Step

end Judged

/-- Inlining a function of a program with some amount of fuel, under a guard. -/
def Guard.inlined (guard : Guard) (m : Machine) (fuel : Nat) (held : List Held) (lambda : Lambda)
    (env : FrameId) (args : List Term) (location : Location) : Compile Term :=
  guard.inlineCall (guard.upTo (Eval.upTo m fuel) held fuel) lambda (.captured env) args location

/-- The exception for a call that is refused. -/
def recursionAt (site : Location) : Fault :=
  .exception ⟨.unsupportedInShader "recursion", [site]⟩

/-- Inlining a function, with any amount of fuel, has the same result and leaves the same code
whether or not calls of functions that are being inlined are refused, unless it comes to such a
call: then the first of these calls is refused as recursion. With enough fuel, so is every function
that would be inlined forever otherwise. -/
theorem repetition_refused (m : Machine) (held : List Held) (lambda : Lambda) (env : FrameId)
    (args : List Term) (location : Location) (state : CompilerState) :
    (∀ fuel,
      (∀ guard : Guard, guard.inlined m fuel held lambda env args location state =
        Compile.inlineCall (Compile.upTo (Eval.upTo m fuel) held fuel) lambda (.captured env) args
          location state) ∨
      ∃ site after,
        Compile.inlineCall (Compile.upTo (Eval.upTo m fuel) held fuel) lambda (.captured env) args
          location state = (.error (recursionAt site), after) ∧
        ∀ alarm, (Guard.stop alarm).inlined m fuel held lambda env args location state =
          (.error (alarm site), after)) ∧
    ∃ enough, ∀ fuel, enough ≤ fuel →
      (Guard.allow.inlined m fuel held lambda env args location state).1 ≠ .error .outOfFuel ∨
      ∃ site,
        (Compile.inlineCall (Compile.upTo (Eval.upTo m fuel) held fuel) lambda (.captured env) args
          location state).1 = .error (recursionAt site) := by
  have refused (fuel : Nat) : Guard.refuse.inlined m fuel held lambda env args location =
      Compile.inlineCall (Compile.upTo (Eval.upTo m fuel) held fuel) lambda (.captured env) args
        location := by
    rw [Guard.inlined, Guard.refuse_upTo, Guard.refuse_inlineCall]
  have judged (fuel : Nat) :
      Judged (fun guard => guard.inlined m fuel held lambda env args location) state :=
    .inlineCall (Judged.upTo fuel) lambda _ args
  constructor
  · intro fuel
    rw [← refused]
    cases judged fuel with
    | never same => exact .inl fun guard => (same guard).trans (same .refuse).symm
    | @once site after stops => exact .inr ⟨site, after, stops recursionAt, stops⟩
  · obtain ⟨enough, outcome, after, settled, fueled, -⟩ :=
      inlineCall_terminates m held lambda env args location state
    refine ⟨enough, fun fuel le => ?_⟩
    have ends := settled fuel le
    dsimp only at ends
    rw [← refused] at ends ⊢
    cases judged fuel with
    | never same =>
      -- There is no call to judge, and the end is the same without the check.
      rw [same .refuse, ← same .allow] at ends
      exact .inl fun endless => fueled ((congrArg Prod.fst ends).symm.trans endless)
    | @once site _ stops => exact .inr ⟨site, congrArg Prod.fst (stops recursionAt)⟩

end Shader

namespace Program

open Shader

/-- Two functions of one literal, which have captured different functions. One calls the other. -/
def instances : Source :=
  ⟨"test", "let add(f) = x -> f(x) + 1; g = add(x -> x); h = add(g) in h"⟩

/-- Without the check, the function is inlined; with it, the call `f(x)` is refused. -/
theorem instances_refused : ∃ p compiled serial lambda env heap,
    compile [] [] none instances .empty = (.ok (.ok p), compiled) ∧
    p.eval .standard 9 [] compiled = (.ok (.closure serial lambda env), heap) ∧
    (Guard.allow.inlined .standard 9 [] lambda env [⟨.given "x", .float⟩] lambda.body.location
      ⟨heap, .new⟩).1.map Term.text = .ok "r2" ∧
    (Guard.allow.inlined .standard 9 [] lambda env [⟨.given "x", .float⟩] lambda.body.location
      ⟨heap, .new⟩).2.compiler.body = "  float r1 = x + 1.0;\n  float r2 = r1 + 1.0;\n" ∧
    (Compile.inlineCall (Compile.upTo (Eval.upTo .standard 9) [] 9) lambda (.captured env)
      [⟨.given "x", .float⟩] lambda.body.location ⟨heap, .new⟩).1.map Term.text =
        .error (recursionAt ⟨instances, 18, 22⟩) := by
  have run : ((compile [] [] none instances .empty).1.toOption.bind Except.toOption).any fun p =>
      ((p.eval .standard 9 [] (compile [] [] none instances .empty).2).1.toOption.bind
        Shape.closure?).any fun closure =>
          let start : CompilerState :=
            ⟨(p.eval .standard 9 [] (compile [] [] none instances .empty).2).2, .new⟩
          let free := Guard.allow.inlined .standard 9 [] closure.1 closure.2 [⟨.given "x", .float⟩]
            closure.1.body.location start
          free.1.map Term.text = .ok "r2" ∧
          free.2.compiler.body = "  float r1 = x + 1.0;\n  float r2 = r1 + 1.0;\n" ∧
          (Compile.inlineCall (Compile.upTo (Eval.upTo .standard 9) [] 9) closure.1
            (.captured closure.2) [⟨.given "x", .float⟩] closure.1.body.location start).1.map
              Term.text = .error (recursionAt ⟨instances, 18, 22⟩) := by
    decide +kernel
  rcases ran : compile [] [] none instances .empty with ⟨fault | errors | p, compiled⟩
  · simp [ran, Except.toOption] at run
  · simp [ran, Except.toOption] at run
  rw [ran] at run
  rcases evaluated : p.eval .standard 9 [] compiled with ⟨fault | value, heap⟩
  · simp [evaluated, Except.toOption] at run
  cases value with
  | closure serial lambda env =>
    refine ⟨p, compiled, serial, lambda, env, heap, rfl, evaluated, ?_⟩
    by_cases shaped : lambda.paramCount = 1 ∨ lambda.paramCount = 2
    · simpa [evaluated, Except.toOption, Shape.closure?, shaped] using run
    · simp [evaluated, Except.toOption, Shape.closure?, shaped] at run
  | _ => simp [evaluated, Except.toOption, Shape.closure?] at run

end Program

end ShapeLang
