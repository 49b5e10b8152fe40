import ShapeLang.Proofs.Compilation
import ShapeLang.Proofs.Eval.Ground
import ShapeLang.Proofs.Frame.Depths

/-! # Programs that a program asks for

A program can be compiled on behalf of a frame of another program. What it evaluates to does not
depend on that frame, and neither does the mistake that it makes: only the places that led to a
mistake go on with the calls around the frame, wherever the list of callers gets there.
-/

namespace ShapeLang

/-- The same error, seen from the given further callers. There are none around a text that cannot be
read. -/
def ProgramError.calledFrom (callers : List Location) : ProgramError → ProgramError
  | exception e => exception (e.calledFrom callers)
  | other => other

/-- A text that cannot be read is no exception. -/
theorem Source.calledFrom_of_phrase {source : Source} {errors : List ProgramError}
    (failed : source.phrase = .error errors) (callers : List Location) :
    errors.map (·.calledFrom callers) = errors := by
  have rejected (rejections : List Rejection) :
      (rejections.map ProgramError.lexical).map (·.calledFrom callers) =
        rejections.map .lexical := by
    rw [List.map_map]
    rfl
  unfold Source.phrase at failed
  dsimp only at failed
  split at failed
  · split at failed
    · cases failed
    · cases failed
      exact rejected _
  · cases failed
    rw [List.map_append, rejected]
    rfl

namespace Fault

variable {fault : Fault} {callers : List Location}

theorem calledFrom_nil (fault : Fault) : fault.calledFrom [] = fault := by
  cases fault with
  | exception e => exact congrArg Fault.exception (by rw [Exception.calledFrom, List.append_nil])
  | _ => rfl

theorem overflow_calledFrom : (fault.calledFrom callers).Overflow ↔ fault.Overflow := by
  cases fault <;> exact Iff.rfl

/-- Further callers show, unless the fault lists none at all. -/
theorem calledFrom_eq {other : List Location} (some : callers ≠ [])
    (same : fault.calledFrom callers = fault) : fault.calledFrom other = fault := by
  cases fault with
  | exception e =>
    have places : e.locations ++ callers = e.locations :=
      congrArg Exception.locations (Fault.exception.inj same)
    exact (some (List.append_right_eq_self.mp places)).elim
  | _ => rfl

end Fault

namespace Heap

/-- The frames with a call site for one of them. -/
def signed (heap : Heap) (id : FrameId) (site : Location) : Heap :=
  { heap with
    frames := heap.frames.modify id fun frame => { frame with callSite := some site } }

/-- The root frame with a call site. -/
theorem Secluded.signed_eq {start heap : Heap} (secluded : Secluded start heap) (site : Location) :
    heap.signed start.frames.size site = heap.on start.frames.size ⟨none, some site, 0⟩ := by
  unfold signed on
  congr 1
  apply Array.ext_getElem?
  intro id
  rw [Array.getElem?_modify, Array.getElem?_mapIdx]
  cases found : heap.frames[id]? with
  | none => simp
  | some frame =>
    by_cases root : start.frames.size = id
    · subst root
      simp [Frame.on_root, secluded.alone found]
    · simp [Frame.on, root, Ne.symm root]

end Heap

namespace Program

variable {m : Machine} {start compiled : Heap} {held : List Held} {parent : FrameId}
  {p : Program} {fuel : Nat}

/-- The list of callers of what the evaluation fails with gets to the root frame: a call site of the
root frame would be listed last. -/
def LeadsToRoot (m : Machine) (fuel : Nat) (held : List Held) (p : Program) (heap : Heap)
    (fault : Fault) : Prop :=
  ∀ site, ∃ after, p.eval m fuel held (heap.signed p.frame site) =
    (.error (fault.calledFrom [site]), after)

/-- What the root frame stands on if a frame asks for the program. -/
def groundOf (heap : Heap) (parent : FrameId) : Ground := ⟨some parent, none, heap.depthOf parent⟩

/-- The evaluation of a program that a frame asks for, by the one that nobody asks for. -/
theorem eval_nested (made : start.Made m) (live : start.Live (held.flatMap Held.frames) parent)
    (secluded : start.Secluded compiled) (root : p.frame = start.frames.size)
    (room : ∀ fault after,
      p.eval (m.withLimit (m.maxCallDepth - start.depthOf parent)) fuel held compiled =
        (.error fault, after) → ¬ fault.Overflow) :
    (∀ value after, p.eval m fuel held compiled = (.ok value, after) → ∃ after',
      p.eval m fuel held (compiled.on start.frames.size (groundOf start parent)) =
        (.ok value, after')) ∧
    ∀ fault after, p.eval m fuel held compiled = (.error fault, after) → ∃ reached : Bool, ∃ after',
      p.eval m fuel held (compiled.on start.frames.size (groundOf start parent)) =
        (.error (fault.calledFrom (if reached then start.callers held parent else [])), after') ∧
      ∀ site, ∃ after', p.eval m fuel held (compiled.signed p.frame site) =
        (.error (fault.calledFrom (if reached then [site] else [])), after') := by
  have counted := made.counted
  let around : Surroundings := ⟨start, held, fun _ _ found _ called => counted.older found _ called⟩
  let limit := m.maxCallDepth - start.depthOf parent
  have mirrors : Eval.Mirrors around (p.eval (m.withLimit limit) fuel held)
      (fun ground => p.eval (m.withLimit (limit + ground.depth)) fuel held) compiled
      (Value.Inside (around.root ≤ ·)) := by
    have above : around.root ≤ p.frame := Nat.le_of_eq root.symm
    exact Eval.upTo_mirroring around (m.withLimit limit) fuel _ p.frame p.expr compiled secluded
      ((Surroundings.Encloses.refl around).frame above) above
  -- The machine has enough room for the calls around the parent, and for those of the program.
  have whole : m.withLimit (limit + start.depthOf parent) = m := by
    rw [Nat.sub_add_cancel (counted.shallow.depthOf_le parent)]
    rfl
  have enough (heap : Heap)
      (room : ∀ fault after, p.eval (m.withLimit limit) fuel held heap = (.error fault, after) →
        ¬ fault.Overflow) :
      p.eval m fuel held heap = p.eval (m.withLimit limit) fuel held heap := by
    have machines : (m.withLimit limit).Unless Fault.Overflow (m.withLimit m.maxCallDepth) :=
      withLimit_unless m (Nat.sub_le ..) fun _ => ⟨limit, rfl⟩
    rcases upTo_unless machines fuel (.frame p.frame :: held) p.frame p.expr heap with
      ⟨fault, later, overflow, ran⟩ | same
    · exact (room fault later ran overflow).elim
    · exact same
  have asked : (groundOf start parent).Stands start held := fun _ same =>
    Option.some.inj same ▸ live
  rw [enough compiled room]
  rcases ran : p.eval (m.withLimit limit) fuel held compiled with ⟨fault | value, after⟩
  · refine ⟨fun _ _ impossible => (by cases impossible), ?_⟩
    rintro _ _ ⟨⟩
    obtain overflow | ⟨reached, same⟩ := mirrors.failed ran
    · exact (room fault after ran overflow).elim
    have nested := same _ asked
    have trace : (groundOf start parent).trace start held = start.callers held parent := rfl
    rw [trace] at nested
    refine ⟨reached, _, (congrArg (fun m => p.eval m fuel held _) whole).symm.trans nested, ?_⟩
    intro site
    have marked := same ⟨none, some site, 0⟩ fun _ none => by cases none
    rw [root, secluded.signed_eq site]
    refine ⟨_, (enough _ fun other later ran' overflow => ?_).trans marked⟩
    cases ran'.symm.trans marked
    exact room fault after ran (Fault.overflow_calledFrom.mp overflow)
  · refine ⟨?_, fun _ _ impossible => (by cases impossible)⟩
    rintro _ _ ⟨⟩
    obtain ⟨-, -, same⟩ := mirrors.returned ran
    exact ⟨_, (congrArg (fun m => p.eval m fuel held _) whole).symm.trans (same _ asked)⟩

/-- Whether a call site of the root frame is listed tells whether further callers are. -/
theorem calledFrom_of_marked {heap : Heap} {fault : Fault} {reached : Bool}
    (marked : ∀ site, ∃ after, p.eval m fuel held (heap.signed p.frame site) =
      (.error (fault.calledFrom (if reached then [site] else [])), after))
    (callers : List Location) :
    (LeadsToRoot m fuel held p heap fault →
      fault.calledFrom (if reached then callers else []) = fault.calledFrom callers) ∧
    (¬ LeadsToRoot m fuel held p heap fault →
      fault.calledFrom (if reached then callers else []) = fault) := by
  cases reached with
  | true => exact ⟨fun _ => rfl, fun hidden => (hidden marked).elim⟩
  | false =>
    refine ⟨fun leads => ?_, fun _ => fault.calledFrom_nil⟩
    -- A call site is listed and is not, so the fault lists no places at all.
    let site : Location := ⟨p.source, 0, 0⟩
    obtain ⟨_, listed⟩ := leads site
    obtain ⟨_, hidden⟩ := marked site
    have same : fault.calledFrom [site] = fault.calledFrom [] :=
      Except.error.inj (Prod.mk.inj (listed.symm.trans hidden)).1
    have unplaced : fault.calledFrom callers = fault :=
      Fault.calledFrom_eq (List.cons_ne_nil site []) (same.trans fault.calledFrom_nil)
    exact fault.calledFrom_nil.trans unplaced.symm

/-- A program that a live frame asks for is refused or accepted as it is without that frame. If it
is refused, the places of each exception go on with the calls around the frame. If it is accepted,
and the machine has room for its calls on top of those around the frame, it evaluates to the same
value, or fails in the same way; the places go on with the calls around the frame exactly if the
list of callers gets to the root frame of the program. -/
theorem parent_extends_diagnostics (m : Machine) {start : Heap} (made : start.Made m)
    (held : List Held) {parent : FrameId} (live : start.Live (held.flatMap Held.frames) parent)
    (names : Namespace) (source : Source) :
    (∀ errors after, compile names held none source start = (.ok (.error errors), after) →
      compile names held (some parent) source start =
        (.ok (.error (errors.map (·.calledFrom (start.callers held parent)))), after)) ∧
    (∀ fault after, compile names held none source start = (.error fault, after) →
      compile names held (some parent) source start = (.error fault, after)) ∧
    ∀ p compiled, compile names held none source start = (.ok (.ok p), compiled) →
      ∃ nested, compile names held (some parent) source start = (.ok (.ok p), nested) ∧
        ∀ fuel, (∀ fault after,
            p.eval (m.withLimit (m.maxCallDepth - start.depthOf parent)) fuel held compiled =
              (.error fault, after) → ¬ fault.Overflow) →
          (∀ value after, p.eval m fuel held compiled = (.ok value, after) →
            ∃ after', p.eval m fuel held nested = (.ok value, after')) ∧
          ∀ fault after, p.eval m fuel held compiled = (.error fault, after) →
            ∃ fault' after', p.eval m fuel held nested = (.error fault', after') ∧
              (LeadsToRoot m fuel held p compiled fault →
                fault' = fault.calledFrom (start.callers held parent)) ∧
              (¬ LeadsToRoot m fuel held p compiled fault → fault' = fault) := by
  cases read : source.phrase with
  | error errors =>
    have refused (caller : Option FrameId) :
        compile names held caller source start = (.ok (.error errors), start) := by
      rw [compile, read]
      rfl
    rw [refused none, refused (some parent)]
    refine ⟨?_, fun _ _ same => (by cases same), fun _ _ same => (by cases same)⟩
    rintro _ _ ⟨⟩
    rw [Source.calledFrom_of_phrase read]
  | ok phrase =>
    obtain ⟨frame, found⟩ : ∃ frame, start.frame? parent = some frame :=
      Option.isSome_iff_exists.mp (by simp [Heap.frame?, (Heap.live_iff.mp live).1])
    have alone : compile names held none source start = _ :=
      compile_run names held (by simp) read
    have nested : compile names held (some parent) source start = _ :=
      compile_run names held (fun _ same => ⟨frame, Option.some.inj same ▸ found⟩) read
    rw [alone, nested]
    rcases phrase.analyze names with (e | d | _) | resolved
    · refine ⟨?_, fun _ _ same => (by cases same), fun _ _ same => (by cases same)⟩
      rintro _ _ ⟨⟩
      simp [ProgramError.calledFrom, Exception.calledFrom]
    · refine ⟨fun _ _ same => (by cases same), ?_, fun _ _ same => (by cases same)⟩
      rintro _ _ ⟨⟩
      rfl
    · refine ⟨fun _ _ same => (by cases same), ?_, fun _ _ same => (by cases same)⟩
      rintro _ _ ⟨⟩
      rfl
    · refine ⟨fun _ _ same => (by cases same), fun _ _ same => (by cases same), ?_⟩
      rintro p compiled ⟨⟩
      refine ⟨_, rfl, fun fuel room => ?_⟩
      have same := start.root_on (groundOf start parent) resolved.slotCount
      obtain ⟨returns, fails⟩ :=
        eval_nested made live (Heap.Secluded.root start resolved.slotCount) rfl room
      rw [same] at returns fails
      refine ⟨returns, fun fault after ran => ?_⟩
      obtain ⟨reached, last, ends, marked⟩ := fails fault after ran
      exact ⟨_, last, ends, calledFrom_of_marked marked _⟩

section Calling

/-- A call in a program that compiles another one while it is under way. -/
def callSite : Location := ⟨⟨"test", "sqrt(1)"⟩, 0, 7⟩

/-- The root frame of the program, and the frame of the call. -/
def calling : Heap := ⟨#[⟨[], none, none, none, 0⟩, ⟨[], some 0, some 0, some callSite, 1⟩], 0⟩

/-- A program that fails in a call. -/
def failing : Source := ⟨"child", "let f(x) = error(x) in f(\"nested\")"⟩

private theorem made_calling : calling.Made .standard :=
  .call [] 0 0 0 callSite (.root 0 none .empty rfl) rfl

/-- What the program fails with if the frame asks for it or nobody does. -/
def failure (m : Machine) (caller : Option FrameId) : Option Fault :=
  match compile .standard [.frame 1] caller failing calling with
  | (.ok (.ok p), compiled) =>
    match p.eval m 9 [.frame 1] compiled with
    | (.error fault, _) => some fault
    | (.ok _, _) => none
  | (.ok (.error _), _) => none
  | (.error _, _) => none

private theorem failure_eq :
    failure .standard none = some (.exception ⟨.userError "nested", [⟨failing, 23, 34⟩]⟩) ∧
    failure (Machine.standard.withLimit 999) none =
      some (.exception ⟨.userError "nested", [⟨failing, 23, 34⟩]⟩) ∧
    failure .standard (some 1) =
      some (.exception ⟨.userError "nested", [⟨failing, 23, 34⟩, callSite]⟩) := by
  decide +kernel

/-- The call in the program that fails is listed first, and the call that asked for the program
after it. -/
theorem parent_extends_diagnostics_failing : ∃ p compiled nested fault after after',
    compile .standard [.frame 1] none failing calling = (.ok (.ok p), compiled) ∧
    compile .standard [.frame 1] (some 1) failing calling = (.ok (.ok p), nested) ∧
    p.eval .standard 9 [.frame 1] compiled = (.error fault, after) ∧
    LeadsToRoot .standard 9 [.frame 1] p compiled fault ∧
    p.eval .standard 9 [.frame 1] nested = (.error (fault.calledFrom [callSite]), after') ∧
    fault = .exception ⟨.userError "nested", [⟨failing, 23, 34⟩]⟩ := by
  obtain ⟨alone, restricted, asked⟩ := failure_eq
  have live : calling.Live ([Held.frame 1].flatMap Held.frames) 1 := by
    unfold Heap.Live
    decide
  have callers : calling.callers [.frame 1] 1 = [callSite] := by decide
  obtain ⟨-, -, accepts⟩ := parent_extends_diagnostics .standard made_calling [.frame 1] live
    .standard failing
  rw [callers] at accepts
  rcases accepted : compile .standard [.frame 1] none failing calling with
    ⟨fault | errors | p, compiled⟩
  · simp [failure, accepted] at alone
  · simp [failure, accepted] at alone
  obtain ⟨nested, accepted', evaluates⟩ := accepts p compiled accepted
  rcases ran : p.eval .standard 9 [.frame 1] compiled with ⟨fault | value, after⟩
  · obtain rfl : fault = _ := by simpa [failure, accepted, ran] using alone
    have room (fault : Fault) (after : Heap)
        (ran : p.eval (Machine.standard.withLimit 999) 9 [.frame 1] compiled =
          (.error fault, after)) : ¬ fault.Overflow := by
      obtain rfl : fault = _ := by simpa [failure, accepted, ran] using restricted
      rintro ⟨limit, same⟩
      cases same
    obtain ⟨-, fails⟩ := evaluates 9 room
    obtain ⟨fault, after', ran', shows, hides⟩ := fails _ after ran
    by_cases leads : LeadsToRoot .standard 9 [.frame 1] p compiled
      (.exception ⟨.userError "nested", [⟨failing, 23, 34⟩]⟩)
    · obtain rfl := shows leads
      exact ⟨p, compiled, nested, _, after, after', rfl, accepted', ran, leads, ran', rfl⟩
    · obtain rfl := hides leads
      simp [failure, accepted', ran'] at asked
  · simp [failure, accepted, ran] at alone

end Calling

end Program

end ShapeLang
