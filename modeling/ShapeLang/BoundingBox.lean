import ShapeLang.Value

/-! # Bounding boxes

A box has its sides along the axes and is given by two opposite corners. A box of two dimensions
has no height: its corners lie in the plane where `z` is zero. A box whose least corner is above
its greatest one contains no point.
-/

namespace ShapeLang

/-- A point of space. -/
structure Point where
  x : Float
  y : Float
  z : Float

/-- A box between its least and its greatest corner. -/
structure BoundingBox where
  least : Point
  greatest : Point

namespace BoundingBox

/-- The number above all others. -/
def infinity : Float := 1.0 / 0.0

/-- The box of two dimensions without any point. -/
def empty2 : BoundingBox := ⟨⟨infinity, infinity, 0.0⟩, ⟨-infinity, -infinity, 0.0⟩⟩

/-- The box of three dimensions without any point. -/
def empty3 : BoundingBox := ⟨⟨infinity, infinity, infinity⟩, ⟨-infinity, -infinity, -infinity⟩⟩

/-- The box that covers the plane. -/
def infinite2 : BoundingBox := ⟨⟨-infinity, -infinity, 0.0⟩, ⟨infinity, infinity, 0.0⟩⟩

/-- The box that covers all of space. -/
def infinite3 : BoundingBox :=
  ⟨⟨-infinity, -infinity, -infinity⟩, ⟨infinity, infinity, infinity⟩⟩

/-- Nothing is known about a box that is not given, so that it covers all of space. -/
instance : Inhabited BoundingBox := ⟨infinite3⟩

/-- The box that a value describes: a list of two corners, both with two or both with three
coordinates. -/
def ofValue? : Value → Option BoundingBox
  | .list [least, greatest] _ => do
    match ← least.numbers?, ← greatest.numbers? with
    | [x, y], [x', y'] => some ⟨⟨x, y, 0.0⟩, ⟨x', y', 0.0⟩⟩
    | [x, y, z], [x', y', z'] => some ⟨⟨x, y, z⟩, ⟨x', y', z'⟩⟩
    | _, _ => none
  | _ => none

/-- The extent along `x` and `y`. -/
def size2 (box : BoundingBox) : List Float :=
  [box.greatest.x - box.least.x, box.greatest.y - box.least.y]

/-- The extent along all axes. -/
def size3 (box : BoundingBox) : List Float :=
  box.size2 ++ [box.greatest.z - box.least.z]

end BoundingBox

end ShapeLang
