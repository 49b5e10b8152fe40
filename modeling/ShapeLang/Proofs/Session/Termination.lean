import ShapeLang.Proofs.Eval.Termination
import ShapeLang.Proofs.Session.Safety

/-! # Evaluation always ends

Whatever happened in a session, evaluating a program, reading a field and calling a function end
after finitely many steps, with a value or with an exception.
-/

namespace ShapeLang

/-- Requests that evaluate something: a program, a field or a call. -/
def Request.Evaluates : Request → Prop
  | .eval _ | .field _ _ _ | .call _ _ _ _ => True
  | _ => False

namespace Session

variable {s : Session} {heap : Heap} {trust : Trust} {held : List Held}

/-- Finding the frame of a call takes no fuel. -/
theorem callingFrame_terminates (heap : Heap) (named : Option FrameId) :
    Terminates (fun _ => callingFrame named) heap fun _ _ => True := by
  refine .of_ends ?_
  unfold callingFrame caller
  refine Ends.through (fun _ _ => True)
    (Ends.through (fun _ _ => True) (Ends.get trivial) fun _ _ _ => .pure trivial) ?_
  intro found later _
  cases found with
  | some id => exact .pure trivial
  | none => exact Ends.through (fun _ _ => True) (.pure trivial) fun _ _ _ => .alloc trivial

theorem answer_terminates (m : Machine) (s : Session) (held : List Held) (request : Request)
    (evaluates : request.Evaluates) (heap : Heap) :
    Terminates (fun fuel => s.answer m fuel held request) heap fun _ _ => True := by
  cases request with
  | eval i =>
    simp only [answer, withProgram]
    cases s.programs[i]? with
    | some p => exact .map ((Eval.upTo_terminates m heap _ _ _).mono fun _ _ _ => trivial)
    | none => exact .of_ends (.pure trivial)
  | field i name context =>
    simp only [answer, withValue]
    cases s.values[i]? with
    | some value => exact .map (Eval.field?_terminates m heap held value name context)
    | none => exact .of_ends (.pure trivial)
  | call i args named site =>
    simp only [answer, withValue]
    cases s.values[i]? with
    | some function =>
      exact (callingFrame_terminates heap named).bind fun frame later _ =>
        .map (Eval.call_terminates m later held function _ frame site)
    | none => exact .of_ends (.pure trivial)
  | _ => exact evaluates.elim

/-- How a request ends once it is granted fuel enough. -/
def Settles (m : Machine) (state : Session × Heap) (held : List Held) (request : Request) : Prop :=
  ∃ enough outcome after,
    (∀ fuel, enough ≤ fuel → state.1.answer m fuel held request state.2 = (outcome, after)) ∧
    ∀ fault, outcome = .error fault → ∃ e, fault = .exception e

theorem settles_of_secure (m : Machine) (secure : s.Secure heap trust) (request : Request)
    (evaluates : request.Evaluates) : Settles m (s, heap) held request := by
  obtain ⟨enough, outcome, after, settled, fueled, -⟩ :=
    answer_terminates m s held request evaluates heap
  refine ⟨enough, outcome, after, settled, fun fault same => ?_⟩
  subst same
  have answered : Answered (s.answer m enough held request) heap trust :=
    answer_careful m enough secure request
  have harmless := answered.failed (settled enough (Nat.le_refl _))
  cases fault with
  | exception e => exact ⟨e, rfl⟩
  | defect d => exact absurd rfl (harmless.1 d)
  | outOfFuel => exact absurd rfl fueled

end Session

namespace Program

/-- Once a source is compiled, evaluating the program, reading a field of any value that is
obtained and calling any function with any values end with a value or an exception, at every time
in the session and for every limit of the call depth. -/
theorem session_settles (m : Machine) (names : Namespace) (held : List Held)
    (caller : Option FrameId) (source : Source) (heap : Heap)
    (known : ∀ id, caller = some id → ∃ frame, heap.frame? id = some frame) (p : Program)
    (later : Heap) (compiled : compile names held caller source heap = (.ok (.ok p), later))
    (turns : List Turn) (held' : List Held) (request : Request) (evaluates : request.Evaluates) :
    Session.Settles m (Session.play m (.start p, later) turns) held' request := by
  obtain ⟨trust, secure⟩ := start_secure known compiled
  obtain ⟨wider, -, secure'⟩ := Session.play_secure m turns secure
  exact Session.settles_of_secure m secure' request evaluates

/-- A function with a `let` is called by a definition that a field read forces. -/
theorem session_settles_field : ∃ p later,
    compile [] [] none ⟨"module", "{f(x) = let y = x in y; g = f(true)}"⟩ .empty =
      (.ok (.ok p), later) ∧
    Session.Settles .standard (Session.play .standard (.start p, later) [⟨.eval 0, 9, []⟩]) []
      (.field 0 "g" .empty) := by
  have accepted : ((compile [] [] none ⟨"module", "{f(x) = let y = x in y; g = f(true)}"⟩
      .empty).1.toOption.bind Except.toOption).isSome := by decide +kernel
  rcases ran : compile [] [] none ⟨"module", "{f(x) = let y = x in y; g = f(true)}"⟩ .empty with
    ⟨fault | errors | p, later⟩
  · simp [ran, Except.toOption] at accepted
  · simp [ran, Except.toOption] at accepted
  · exact ⟨p, later, rfl, session_settles .standard [] [] none _ .empty (by simp) p later ran _ [] _
      trivial⟩

end Program

end ShapeLang
