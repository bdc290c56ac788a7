import PhpStyle.Path.Basic

/-!
# Access to files

What the program asks of a file system, and a file system in memory. The operations run in any
monad, so the program is the same over files on a disk and over a value.
-/

namespace PhpStyle.Command

/-- What a path leads to. -/
inductive PathKind
  | file
  | directory
  | nothing
  deriving DecidableEq, Repr

/-- Why a file cannot be read or written. -/
inductive AccessError
  | absent
  | isDirectory
  | notDirectory
  /-- The bytes of the file are not UTF-8. -/
  | notText
  | other (message : String)
  deriving DecidableEq, Repr

/-- The wording of an access error. -/
def AccessError.message : AccessError → String
  | .absent => "No such file or directory (os error 2)"
  | .isDirectory => "Is a directory (os error 21)"
  | .notDirectory => "Not a directory (os error 20)"
  | .notText => "stream did not contain valid UTF-8"
  | .other message => message

/-- What the program asks of a file system. -/
structure FileAccess (m : Type → Type) where
  kind : String → m PathKind
  /-- Paths of the files in a directory and the directories below. -/
  below : String → m (List String)
  read : String → m (Except AccessError String)
  write : String → String → m (Except AccessError Unit)
  /-- The current directory and all above it. -/
  directories : m (List String)

/-- Files in memory. A directory is there if it has a file somewhere below, or is the current one or
above it. -/
structure Tree where
  /-- How the path of the root directory is written. -/
  root : String
  /-- The current directory, as names from the root. -/
  current : List String
  /-- The bytes of each file, by the names that lead to it. -/
  files : List (List String × ByteArray)

namespace Tree

/-- Whether names lead to a file. -/
def isFile (t : Tree) (names : List String) : Bool := t.files.any (·.1 == names)

/-- Whether names lead to a directory. -/
def isDirectory (t : Tree) (names : List String) : Bool :=
  names.isPrefixOf t.current ||
    t.files.any fun f => names.isPrefixOf f.1 && names.length < f.1.length

/-- Take a step from names, which have to lead to a directory. -/
def step (t : Tree) (names : List String) (segment : String) : Except AccessError (List String) :=
  if t.isFile names then .error .notDirectory
  else if !t.isDirectory names then .error .absent
  else if segment.isEmpty || segment = "." then .ok names
  else if segment = ".." then (if names.isEmpty then .error .absent else .ok names.dropLast)
  else .ok (names ++ [segment])

/-- The names that a path leads to, whether or not something is there. -/
def locate (t : Tree) (path : String) : Except AccessError (List String) :=
  let fromRoot := t.root.toList ++ ['/']
  if path = t.root then .ok []
  else if fromRoot.isPrefixOf path.toList then
    (Path.segments (String.ofList (path.toList.drop fromRoot.length))).foldlM t.step []
  else if path.toList.head? = some '/' then .error .absent
  else (Path.segments path).foldlM t.step t.current

/-- What a path leads to. -/
def kind (t : Tree) (path : String) : PathKind :=
  match t.locate path with
  | .error _ => .nothing
  | .ok names =>
    if t.isFile names then .file
    else if t.isDirectory names then .directory
    else .nothing

/-- The paths of the files below a directory. -/
def below (t : Tree) (path : String) : List String :=
  match t.locate path with
  | .error _ => []
  | .ok names =>
    t.files.filterMap fun f =>
      if names.isPrefixOf f.1 && names.length < f.1.length then
        some (Path.join path ("/".intercalate (f.1.drop names.length)))
      else none

/-- The text of a file. -/
def read (t : Tree) (path : String) : Except AccessError String := do
  let names ← t.locate path
  match t.files.lookup names with
  | some bytes =>
    match String.fromUTF8? bytes with
    | some text => .ok text
    | none => .error .notText
  | none => .error (if t.isDirectory names then .isDirectory else .absent)

/-- The tree with another text in a file. -/
def write (t : Tree) (path text : String) : Except AccessError Tree := do
  let names ← t.locate path
  if t.isDirectory names then .error .isDirectory
  else .ok { t with files := (names, text.toUTF8) :: t.files.filter (·.1 != names) }

/-- The current directory and all above it. -/
def directories (t : Tree) : List String :=
  (List.range (t.current.length + 1)).reverse.map fun n =>
    (t.current.take n).foldl Path.join t.root

/-- Access to files in memory. -/
def access : FileAccess (StateM Tree) where
  kind path := do return (← get).kind path
  below path := do return (← get).below path
  read path := do return (← get).read path
  write path text := do
    match (← get).write path text with
    | .ok t =>
      set t
      return .ok ()
    | .error e => return .error e
  directories := do return (← get).directories

end Tree

end PhpStyle.Command
