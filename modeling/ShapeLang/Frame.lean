import ShapeLang.Escape
import ShapeLang.Value

/-! # Frames

A frame holds the values of one activation: of a program, a call, a module or one round of a loop.
Frames are made one after the other and never removed; a frame refers to frames before it as its
lexical parent and as its caller. The parent is what its slots' expressions can reach. The caller
only serves error messages.
-/

namespace ShapeLang

/-- One place of a frame. -/
inductive Slot where
  | empty
  /-- A definition that was not needed yet. -/
  | pending (expr : Expr)
  /-- A definition that is being evaluated. -/
  | busy
  | ready (value : Value)

structure Frame where
  slots : List Slot
  parent : Option FrameId
  caller : Option FrameId
  /-- The call that the frame was made for; only frames of calls have one. -/
  callSite : Option Location
  /-- Number of calls around the frame, as counted by the frames' callers. -/
  depth : Nat

namespace Frame

/-- The frames that this one holds on to: its parent and what the values in its slots hold. The
caller is not one of them. -/
def references (frame : Frame) : List FrameId :=
  frame.parent.toList ++ frame.slots.flatMap fun slot =>
    match slot with
    | .ready value => value.frames
    | _ => []

/-- A short description of a frame, without its contents. -/
def summary (frame : Frame) : String :=
  let site := match frame.callSite with
    | some site => "Some(" ++ Escape.quote site.label ++ ")"
    | none => "None"
  s!"Frame \x7b nslots: {frame.slots.length}, depth: {frame.depth}, call_phrase: " ++ site ++
    " \x7d"

end Frame

/-- All frames, by number, and how many closures were made. -/
structure Heap where
  frames : Array Frame
  closures : Nat

namespace Heap

def empty : Heap := ⟨#[], 0⟩

/-- The frame of a number. -/
def frame? (heap : Heap) (id : FrameId) : Option Frame := heap.frames[id]?

/-- Adds a frame with empty slots. -/
def alloc (heap : Heap) (slotCount : Nat) (parent caller : Option FrameId)
    (callSite : Option Location) (depth : Nat) : FrameId × Heap :=
  (heap.frames.size,
    { heap with
      frames := heap.frames.push
        ⟨List.replicate slotCount .empty, parent, caller, callSite, depth⟩ })

/-- Replaces the slots of a frame. -/
def mapSlots (heap : Heap) (id : FrameId) (f : List Slot → List Slot) : Heap :=
  { heap with
    frames := heap.frames.modify id fun frame => { frame with slots := f frame.slots } }

/-- Puts something into a slot, if the frame has it. -/
def put (heap : Heap) (id : FrameId) (slot : Nat) (content : Slot) : Heap :=
  heap.mapSlots id (·.set slot content)

/-- The frame that is `depth` steps along the parents. -/
def ancestor? (heap : Heap) (id : FrameId) : Nat → Option FrameId
  | 0 => some id
  | depth + 1 =>
    match (heap.frame? id).bind (·.parent) with
    | some parent => heap.ancestor? parent depth
    | none => none

end Heap

end ShapeLang
