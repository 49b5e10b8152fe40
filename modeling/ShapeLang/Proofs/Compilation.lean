import ShapeLang.Program
import ShapeLang.Proofs.Eval.Operations
import ShapeLang.Proofs.Eval.Work

/-! # What compiling a program does

A text that can be parsed either has a mistake, which is blamed on the calls around the frame that
asks for the program, or becomes a program with a frame of its own. No other frame is made, and no
frame changes.
-/

namespace ShapeLang

namespace Program

variable {names : Namespace} {held : List Held} {caller : Option FrameId} {source : Source}
  {heap : Heap}

/-- What becomes of a text that can be parsed. The calls around a mistake are those around the frame
that asks for the program; so is the depth of the program's own frame. -/
theorem compile_run {phrase : Phrase} (names : Namespace) (held : List Held)
    (known : ∀ id, caller = some id → ∃ frame, heap.frame? id = some frame)
    (read : source.phrase = .ok phrase) :
    compile names held caller source heap =
      match phrase.analyze names with
      | .ok resolved =>
        (.ok (.ok ⟨source, phrase, resolved.expr, heap.frames.size⟩),
          (heap.alloc resolved.slotCount none caller none (caller.elim 0 heap.depthOf)).2)
      | .error (.exception e) =>
        (.ok (.error [.exception (e.calledFrom (caller.elim [] (heap.callers held)))]), heap)
      | .error fault => (.error fault, heap) := by
  have root (slotCount : Nat) : Eval.allocRoot slotCount caller heap = (.ok heap.frames.size,
      (heap.alloc slotCount none caller none (caller.elim 0 heap.depthOf)).2) := by
    cases caller with
    | none => rfl
    | some id =>
      obtain ⟨frame, found⟩ := known id rfl
      have depth : (Frame.depth <$> Eval.frame id) heap = (.ok (heap.depthOf id), heap) :=
        Ends.exact (.map (.frame_found found ⟨by simp [Heap.depthOf, found], rfl⟩))
      rw [Eval.allocRoot, bind_run, depth]
      rfl
  have resolving : resolve names held caller phrase heap =
      (match phrase.analyze names with
        | .ok resolved => .ok resolved
        | .error (.exception e) =>
          .error (.exception (e.calledFrom (caller.elim [] (heap.callers held))))
        | .error fault => .error fault, heap) := by
    unfold resolve
    rcases phrase.analyze names with (e | d | _) | resolved
    · cases caller <;> rfl
    · rfl
    · rfl
    · rfl
  simp only [compile, read, catching, bind_run, resolving]
  rcases phrase.analyze names with (e | d | _) | resolved
  · rfl
  · rfl
  · rfl
  · simp only [root]
    rfl

/-- Whether a computation fails does not matter to what holds of the frames in any case. -/
theorem ends_catching {α : Type} {action : Eval α} {always : Heap → Prop}
    (ends : Ends action heap (fun _ => always) fun _ => always) :
    Ends (catching action) heap (fun _ => always) fun _ => always := by
  unfold Ends catching
  unfold Ends at ends
  rcases ran : action heap with ⟨(e | d | _) | a, later⟩ <;> simpa only [ran] using ends

/-- What making the program's own frame keeps up, compiling a program does. -/
theorem ends_compile {always : Heap → Prop} (now : always heap)
    (root : ∀ slotCount, Ends (Eval.allocRoot slotCount caller) heap (fun _ => always)
      fun _ => always) :
    Ends (compile names held caller source) heap (fun _ => always) fun _ => always := by
  unfold compile
  split
  · exact now
  · rename_i phrase _
    apply ends_catching
    have resolving : Ends (resolve names held caller phrase) heap (fun _ later => later = heap)
        fun _ => always := by
      unfold resolve
      split
      · exact .pure rfl
      · exact now
      · exact now
    apply resolving.bind
    rintro resolved _ rfl
    exact (root resolved.slotCount).bind fun _ _ kept => kept

end Program

end ShapeLang
