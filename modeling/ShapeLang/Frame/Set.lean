/-! # Sets of frames

The frames that something holds on to, as a set of frame numbers. A list that many others share is
reached from them in very many ways, so that its frames are not looked for each time: whoever
contains it joins the sets of its parts once.
-/

namespace ShapeLang

/-- The number of a frame, in the order in which frames are made. -/
abbrev FrameId := Nat

/-- The numbers of some frames, in increasing order. -/
abbrev FrameSet := List FrameId

namespace FrameSet

/-- Joins the set of `a` and greater numbers with another set, given how the greater numbers are
joined with sets. -/
def unionCons (a : FrameId) (join : FrameSet → FrameSet) : FrameSet → FrameSet
  | [] => a :: join []
  | b :: bs =>
    if a < b then a :: join (b :: bs)
    else if b < a then b :: unionCons a join bs
    else a :: join bs

/-- The frames that are in one of two sets. -/
def union : FrameSet → FrameSet → FrameSet
  | [], bs => bs
  | a :: as, bs => unionCons a (union as) bs

/-- The frames that are in one of the sets. -/
def unions (sets : List FrameSet) : FrameSet := sets.foldr union []

end FrameSet

end ShapeLang
