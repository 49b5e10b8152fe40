/-! # Source texts and places in them

Offsets count bytes of the encoded text. A line ends at a line feed; lines and columns start at
one, and a column counts characters, not bytes.
-/

namespace ShapeLang

/-- Number of bytes that a list of characters occupies in the encoded text. -/
def byteLength : List Char → Nat
  | [] => 0
  | c :: cs => c.utf8Size + byteLength cs

/-- The characters that end at or before the byte offset. -/
def takeBytes : List Char → Nat → List Char
  | [], _ => []
  | c :: cs, offset =>
    if c.utf8Size ≤ offset then c :: takeBytes cs (offset - c.utf8Size) else []

/-- The characters from a byte offset on, if a character starts there or the text ends there. -/
def dropBytes? : List Char → Nat → Option (List Char)
  | cs, 0 => some cs
  | [], _ + 1 => none
  | c :: cs, offset + 1 =>
    if c.utf8Size ≤ offset + 1 then dropBytes? cs (offset + 1 - c.utf8Size) else none

/-- The first `length` bytes, if they end on a character boundary. -/
def takeBytes? : List Char → Nat → Option (List Char)
  | _, 0 => some []
  | [], _ + 1 => none
  | c :: cs, length + 1 =>
    if c.utf8Size ≤ length + 1 then
      (takeBytes? cs (length + 1 - c.utf8Size)).map (c :: ·)
    else none

/-- A line and a column, both counted from one. -/
structure Position where
  line : Nat
  column : Nat
deriving DecidableEq, Repr

namespace Position

/-- The place where every text starts. -/
def first : Position := ⟨1, 1⟩

/-- The place after one more character. -/
def advance (position : Position) (c : Char) : Position :=
  if c = '\n' then ⟨position.line + 1, 1⟩ else ⟨position.line, position.column + 1⟩

/-- The place after the given characters, from the start of a text. -/
def after (cs : List Char) : Position := cs.foldl advance first

end Position

/-- A named text, usually the contents of a file. -/
structure Source where
  name : String
  text : String
deriving DecidableEq, Repr

namespace Source

def chars (source : Source) : List Char := source.text.toList

/-- Number of bytes of the text. -/
def size (source : Source) : Nat := byteLength source.chars

/-- The place of a byte offset. An offset past the end stands for the end. -/
def position (source : Source) (offset : Nat) : Position :=
  Position.after (takeBytes source.chars offset)

/-- The text of a byte range. It is empty if the range is reversed, leaves the text or cuts a
character. -/
def slice (source : Source) (start stop : Nat) : String :=
  if start ≤ stop then
    match (dropBytes? source.chars start).bind (takeBytes? · (stop - start)) with
    | some cs => String.ofList cs
    | none => ""
  else ""

end Source

/-- A range of bytes of a source: what an error points at. -/
structure Location where
  source : Source
  start : Nat
  stop : Nat
deriving DecidableEq, Repr

namespace Location

/-- The smallest range of the first source that covers both. -/
def join (first second : Location) : Location :=
  ⟨first.source, min first.start second.start, max first.stop second.stop⟩

/-- The source text that the range covers. -/
def text (location : Location) : String := location.source.slice location.start location.stop

/-- Where the range starts. -/
def position (location : Location) : Position := location.source.position location.start

/-- The form in which messages name a place: source, line and column of the start. -/
def label (location : Location) : String :=
  let position := location.position
  s!"{location.source.name}:{position.line}:{position.column}"

end Location

end ShapeLang
