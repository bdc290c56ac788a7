/-!
# Paths

Paths are texts with slashes between their parts. They are compared part by part, so that a
directory and all it holds come before a longer name.
-/

namespace PhpStyle.Path

/-- A part of a path. -/
inductive Part
  /-- The root of the file system, in front of a path. -/
  | root
  /-- The current directory, in front of a path. -/
  | here
  /-- The directory above. -/
  | above
  | name (text : String)
  deriving DecidableEq, Repr

namespace Part

/-- Where a part stands among parts of other kinds. -/
def rank : Part → Nat
  | .root => 0
  | .here => 1
  | .above => 2
  | .name _ => 3

/-- Whether a part comes before another. -/
def precedes : Part → Part → Bool
  | .name a, .name b => a < b
  | a, b => a.rank < b.rank

end Part

/-- The texts between the slashes of a path. -/
def segments (path : String) : List String := path.splitOn "/"

/-- The part that a segment stands for; empty segments and single dots stand for none. -/
def part? (segment : String) : Option Part :=
  if segment.isEmpty || segment = "." then none
  else if segment = ".." then some .above
  else some (.name segment)

/-- The parts of a path. A single dot counts in front of a path only. -/
def parts (path : String) : List Part :=
  let front := match segments path with
    | "" :: _ :: _ => [.root]
    | "." :: _ => [.here]
    | _ => []
  front ++ (segments path).filterMap part?

/-- Whether a list of parts comes before another or equals it. -/
def partsLe : List Part → List Part → Bool
  | [], _ => true
  | _ :: _, [] => false
  | a :: as, b :: bs => if a = b then partsLe as bs else a.precedes b

/-- Whether a path comes before another or has the same parts. -/
def le (a b : String) : Bool := partsLe (parts a) (parts b)

/-- The name that a path ends with. -/
def fileName? (path : String) : Option String :=
  match (parts path).getLast? with
  | some (.name text) => some text
  | _ => none

/-- The end of a file name behind its last dot, if something stands before that dot. -/
def extension? (path : String) : Option String :=
  (fileName? path).bind fun name =>
    let reversed := name.toList.reverse
    match reversed.dropWhile (· != '.') with
    | _ :: _ :: _ => some (String.ofList (reversed.takeWhile (· != '.')).reverse)
    | _ => none

/-- The path of a name in a directory. -/
def join (directory name : String) : String :=
  if directory.toList.getLast? = some '/' then directory ++ name else directory ++ "/" ++ name

/-- A directory and all above it, given by an absolute path. -/
def withAncestors (path : String) : List String :=
  let names := (segments path).filter (!·.isEmpty)
  (List.range (names.length + 1)).reverse.map fun n => "/" ++ "/".intercalate (names.take n)

end PhpStyle.Path
