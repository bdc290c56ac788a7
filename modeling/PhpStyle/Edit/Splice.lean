/-!
# Splicing text

A `TextEdit` replaces one span of bytes of a text. `splice` applies a list of them. It orders them
by position, those of one position as they are given, refuses spans that leave the text, cut a
character or overlap, and then replaces one span after the other, from the last to the first: what
is in front of a replaced span keeps its offsets, so the spans still to come mean what they meant in
the source.
-/

namespace PhpStyle

/-- A replacement for the bytes from `start` up to and without `stop`. -/
structure TextEdit where
  start : Nat
  stop : Nat
  replacement : String
  deriving DecidableEq, Repr

/-- Why text edits cannot be applied. -/
inductive SpliceError
  /-- An edit starts before the end of the one in front of it. -/
  | overlap (offset : Nat)
  /-- A span ends past the text, or before its own start. -/
  | outOfBounds (start stop size : Nat)
  /-- A span starts or ends inside a character. -/
  | cutsCharacter (start stop : Nat)
  deriving DecidableEq, Repr

/-- The wording of a splice error. -/
def SpliceError.message : SpliceError → String
  | .overlap offset => s!"Overlapping edits detected at offset {offset}"
  | .outOfBounds start stop size =>
    s!"Edit span {start}..{stop} out of bounds for source length {size}"
  | .cutsCharacter start stop =>
    s!"Edit span {start}..{stop} does not fall on character boundaries"

namespace Splice

/-- Length of a text in bytes of UTF-8. -/
def byteLength : List Char → Nat
  | [] => 0
  | c :: cs => c.utf8Size + byteLength cs

/-- Whether an offset in bytes lies between two characters, or at an end of the text. -/
def isBoundary : List Char → Nat → Bool
  | _, 0 => true
  | [], _ + 1 => false
  | c :: cs, n + 1 => c.utf8Size ≤ n + 1 && isBoundary cs (n + 1 - c.utf8Size)

/-- The characters that fit into the first `n` bytes. -/
def takeBytes : Nat → List Char → List Char
  | _, [] => []
  | n, c :: cs => if c.utf8Size ≤ n then c :: takeBytes (n - c.utf8Size) cs else []

/-- What is left behind the characters that fit into the first `n` bytes. -/
def dropBytes : Nat → List Char → List Char
  | _, [] => []
  | n, c :: cs => if c.utf8Size ≤ n then dropBytes (n - c.utf8Size) cs else c :: cs

/-- Order of edits: by start, then by end. -/
def inOrder (a b : TextEdit) : Bool :=
  a.start < b.start || (a.start == b.start && a.stop ≤ b.stop)

/-- Check edits in order, with `last` the end of the edit in front. -/
def check (source : List Char) (size : Nat) : Nat → List TextEdit → Except SpliceError Unit
  | _, [] => .ok ()
  | last, e :: rest =>
    if size < e.stop ∨ e.stop < e.start then .error (.outOfBounds e.start e.stop size)
    else if ¬ (isBoundary source e.start ∧ isBoundary source e.stop) then
      .error (.cutsCharacter e.start e.stop)
    else if e.start < last then .error (.overlap e.start)
    else check source size e.stop rest

/-- Put the replacement of an edit in the place of its span. -/
def replaceRange (text : List Char) (e : TextEdit) : List Char :=
  takeBytes e.start text ++ e.replacement.toList ++ dropBytes e.stop text

/-- Replace the spans of ordered edits from the last to the first, each in the text that the edits
behind it have left. -/
def applyBackward (text : List Char) (ordered : List TextEdit) : List Char :=
  ordered.reverse.foldl replaceRange text

end Splice

/-- Apply text edits to a source. -/
def splice (source : String) (edits : List TextEdit) : Except SpliceError String :=
  let cs := source.toList
  let ordered := edits.mergeSort Splice.inOrder
  match Splice.check cs source.utf8ByteSize 0 ordered with
  | .error e => .error e
  | .ok () => .ok (String.ofList (Splice.applyBackward cs ordered))

end PhpStyle
