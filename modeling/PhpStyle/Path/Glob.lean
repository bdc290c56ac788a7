/-!
# Glob patterns

Patterns with wildcards: `?` is any character, `*` any text, `**` as a whole part of a path any
number of parts, and brackets hold a set of characters. A wildcard also stands for slashes and
leading dots.
-/

namespace PhpStyle.Path

/-- A piece of a pattern. -/
inductive Wildcard
  | literal (c : Char)
  /-- Any one character. -/
  | one
  /-- Any one character in these ranges, or outside of them. -/
  | oneOf (inside : Bool) (ranges : List (Char × Char))
  /-- Any text. -/
  | any
  /-- Nothing, any text that ends in a slash, or all that is left. -/
  | parts
  deriving DecidableEq, Repr

/-- A pattern, piece by piece. -/
abbrev Glob := List Wildcard

namespace Glob

/-- The ranges of a set: two characters with a dash between them, or a character alone. -/
def ranges : List Char → List (Char × Char)
  | a :: '-' :: b :: rest => (a, b) :: ranges rest
  | a :: rest => (a, a) :: ranges rest
  | [] => []

/-- Where a character of a pattern stands. -/
inductive Place
  /-- Outside of sets, at the start of a part of the path or not. -/
  | outside (start : Bool)
  /-- Inside of a set, which has these characters so far, the last one first. -/
  | inside (inside : Bool) (members : List Char)

/-- Read a pattern. A set has a member before its closing bracket; two stars are a whole part of a
path, and three are an error. -/
def read? : Place → List Char → Option Glob
  | .outside _, [] => some []
  | .outside _, '?' :: rest => (read? (.outside false) rest).map (.one :: ·)
  | .outside _, '*' :: '*' :: '*' :: _ => none
  | .outside start, '*' :: '*' :: '/' :: rest =>
    if start then (read? (.outside true) rest).map (.parts :: ·) else none
  | .outside start, ['*', '*'] => if start then some [.parts] else none
  | .outside _, '*' :: '*' :: _ => none
  | .outside _, '*' :: rest => (read? (.outside false) rest).map (.any :: ·)
  | .outside _, '[' :: '!' :: c :: rest => read? (.inside false [c]) rest
  | .outside _, ['[', '!'] => none
  | .outside _, '[' :: c :: rest => read? (.inside true [c]) rest
  | .outside _, ['['] => none
  | .outside _, c :: rest => (read? (.outside (c = '/')) rest).map (.literal c :: ·)
  | .inside _ _, [] => none
  | .inside inside members, ']' :: rest =>
    (read? (.outside false) rest).map (.oneOf inside (ranges members.reverse) :: ·)
  | .inside inside members, c :: rest => read? (.inside inside (c :: members)) rest

/-- Read a pattern; a malformed one has no reading. -/
def ofText? (pattern : String) : Option Glob := read? (.outside true) pattern.toList

/-- A text and all that is left of it after some characters. -/
def suffixes : List Char → List (List Char)
  | [] => [[]]
  | c :: rest => (c :: rest) :: suffixes rest

/-- What is left of a text after each of its slashes. -/
def afterSlashes : List Char → List (List Char)
  | [] => []
  | c :: rest => if c = '/' then rest :: afterSlashes rest else afterSlashes rest

/-- Whether a character is in one of some ranges. -/
def inRanges (c : Char) (ranges : List (Char × Char)) : Bool :=
  ranges.any fun r => r.1 ≤ c && c ≤ r.2

/-- Whether the pieces of a pattern spell a text. -/
def spells : Glob → List Char → Bool
  | [], s => s.isEmpty
  | .literal c :: rest, s =>
    match s with
    | d :: s => c = d && spells rest s
    | [] => false
  | .one :: rest, s =>
    match s with
    | _ :: s => spells rest s
    | [] => false
  | .oneOf inside ranges :: rest, s =>
    match s with
    | d :: s => (inRanges d ranges == inside) && spells rest s
    | [] => false
  | .any :: rest, s => (suffixes s).any (spells rest)
  | .parts :: rest, s => (s :: afterSlashes s ++ [[]]).any (spells rest)

/-- Whether a pattern describes a whole text. -/
def describes (pattern text : String) : Bool :=
  match ofText? pattern with
  | some g => spells g text.toList
  | none => false

end Glob

end PhpStyle.Path
