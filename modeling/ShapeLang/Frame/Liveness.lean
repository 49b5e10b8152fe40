import ShapeLang.Frame

/-! # Live frames

Error messages list the calls that led to a mistake by following callers. A frame does not keep
its caller: a caller that has returned and that nothing refers to any more is gone, and ends the
list. What is left is decided by counting references. A frame whose count is zero is released, and
so are the references that it holds; frames that refer to each other in a circle are never
released.
-/

namespace ShapeLang

/-- Something that a computation under way holds on to. -/
inductive Held where
  | frame (id : FrameId)
  /-- A call that was entered and has not returned: its frame and where it was made. -/
  | call (id : FrameId) (site : Location)
  | value (value : Value)
  | values (values : List Value)

namespace Held

def frames : Held → List FrameId
  | frame id => [id]
  | call id _ => [id]
  | value v => v.frames
  | values vs => vs.flatMap Value.frames

end Held

/-- For each frame, how often something refers to it. -/
abbrev ReferenceCounts := Array Nat

namespace Heap

def references (heap : Heap) (id : FrameId) : List FrameId :=
  match heap.frame? id with
  | some frame => frame.references
  | none => []

/-- The counts while no frame is released yet. -/
def referenceCounts (heap : Heap) (roots : List FrameId) : ReferenceCounts :=
  let count (counts : ReferenceCounts) (ids : List FrameId) : ReferenceCounts :=
    ids.foldl (fun counts id => counts.modify id (· + 1)) counts
  heap.frames.foldl (fun counts frame => count counts frame.references)
    (count (Array.replicate heap.frames.size 0) roots)

/-- Takes one reference away. A frame that loses its last one joins the frames to release. -/
def drop (state : ReferenceCounts × List FrameId) (id : FrameId) :
    ReferenceCounts × List FrameId :=
  let (counts, released) := state
  match counts[id]? with
  | some 1 => (counts.set! id 0, id :: released)
  | some n => (counts.set! id (n - 1), released)
  | none => state

/-- Releases frames until none is left to release. Each frame is released at most once. -/
def release (heap : Heap) : Nat → List FrameId → ReferenceCounts → ReferenceCounts
  | 0, _, counts => counts
  | _ + 1, [], counts => counts
  | fuel + 1, id :: rest, counts =>
    let (counts, released) := (heap.references id).foldl drop (counts, rest)
    heap.release fuel released counts

/-- The counts after everything is released that the roots and circles do not keep. -/
def liveCounts (heap : Heap) (roots : List FrameId) : ReferenceCounts :=
  let counts := heap.referenceCounts roots
  let unused := (List.range heap.frames.size).filter fun id => counts[id]? == some 0
  heap.release (heap.frames.size + 1) unused counts

/-- The call sites of a frame and its callers, the innermost first, up to the first caller that is
gone. A caller is older than the frame, so the number of frames bounds the list. -/
def callChain (heap : Heap) (live : ReferenceCounts) : Nat → FrameId → List Location
  | 0, _ => []
  | fuel + 1, id =>
    match heap.frame? id with
    | none => []
    | some frame =>
      frame.callSite.toList ++
        match frame.caller with
        | some caller =>
          if live[caller]?.getD 0 = 0 then [] else heap.callChain live fuel caller
        | none => []

/-- The call sites around a frame, given what is held on to. -/
def callers (heap : Heap) (held : List Held) (id : FrameId) : List Location :=
  heap.callChain (heap.liveCounts (id :: held.flatMap Held.frames)) (heap.frames.size + 1) id

end Heap

/-- What an exception is blamed on. -/
inductive Context where
  /-- Nothing in particular. -/
  | empty
  /-- The call that the frame was made for, and the calls around it. -/
  | frame (id : FrameId)
  /-- A place in the text, and the calls around the frame that is evaluated, if there is one. -/
  | place (location : Location) (frame : Option FrameId)

namespace Context

/-- The places to report, the innermost first. -/
def locations (heap : Heap) (held : List Held) : Context → List Location
  | empty => []
  | frame id => heap.callers held id
  | place location none => [location]
  | place location (some id) => location :: heap.callers held id

end Context

end ShapeLang
