import PhpStyle.Config.Toml.Definition
import PhpStyle.Config.Toml.Scalar

/-!
# Documents of TOML

A document is a list of statements on lines of their own: headers, which say what table comes next,
and keys with values. `Toml.parse?` answers the table that the statements define.
-/

namespace PhpStyle.Config.Toml

open Text Text.Reader

/-- How deep lists and tables may nest within a value, and how many parts a key may have. -/
def depthLimit : Nat := 79

/-! ### Keys -/

/-- Characters of a key without quotes. -/
def isKeyChar (c : Char) : Bool := c.isAlphanum || c = '_' || c = '-'

/-- One part of a key. -/
def keyPart : Reader String := do
  gap
  let part ← match ← peek? with
    | some '"' => shortText '"'
    | some '\'' => shortText '\''
    | _ => do
      let cs ← takeWhile isKeyChar
      guard (!cs.isEmpty)
      pure (String.ofList cs)
  gap
  return part

/-- A key: the parts before the last, and the last. -/
def key : Reader (List String × String) := do
  let first ← keyPart
  let rest ← repeated do
    if ← skip? "." then some <$> keyPart else return none
  guard (rest.length < depthLimit)
  let parts := first :: rest
  return (parts.dropLast, parts.getLastD first)

/-! ### Values -/

/-- Take a comment up to the end of its line, if one comes next. -/
def comment : Reader Unit := do
  if ← skip? "#" then discard <| takeWhile isPlain

/-- Take space, line breaks, and comments that a line break ends. -/
def spread : Reader Unit := do
  discard <| repeated do
    gap
    match ← peek? with
    | some '\n' => do
      discard next
      return some ()
    | some '#' => do
      comment
      expect "\n"
      return some ()
    | _ => return none

/-- The items of a list, from behind its opening bracket to behind its closing one. -/
def listItems (item : Reader Value) : Reader (List Value) := do
  repeated do
    spread
    if ← skip? "]" then return none
    let v ← item
    spread
    unless ← skip? "," do
      guard ((← peek?) = some ']')
    return some v

/-- A key with its value. -/
def pairWith (item : Reader Value) : Reader ((List String × String) × Value) := do
  let k ← key
  expect "="
  gap
  return (k, ← item)

/-- The entries of a table in braces, from behind its opening brace to behind its closing one. -/
def tablePairs (item : Reader Value) : Reader (List ((List String × String) × Value)) := do
  gap
  if ← skip? "\x7d" then return []
  let entry : Reader ((List String × String) × Value) := do
    let pair ← pairWith item
    gap
    return pair
  let first ← entry
  let rest ← repeated do
    if ← skip? "," then some <$> entry else return none
  expect "\x7d"
  return first :: rest

/-- The table that keys with values define. -/
def tableOf? (pairs : List ((List String × String) × Value)) : Option Definitions :=
  pairs.foldlM (fun t p => t.assign p.1.2 p.2 p.1.1) []

/-- A value with lists and tables that nest at most so deep. -/
def value : Nat → Reader Value
  | 0 => scalar
  | depth + 1 => do
    if ← skip? "[" then
      return .list (← listItems (value depth))
    else if ← skip? "\x7b" then
      match tableOf? (← tablePairs (value depth)) with
      | some t => return .table (Definition.entries t)
      | none => failure
    else scalar

/-! ### Statements -/

/-- A line of a document. -/
inductive Statement
  /-- The table that the lines behind define. -/
  | header (path : List String) (key : String)
  /-- The series of tables that the lines behind add one to. -/
  | seriesHeader (path : List String) (key : String)
  | pair (path : List String) (key : String) (v : Value)
  /-- An empty line. -/
  | blank

/-- What a line says, without the end of the line. -/
def statement : Reader Statement := do
  if ← skip? "[[" then
    let (path, last) ← key
    expect "]]"
    return .seriesHeader path last
  else if ← skip? "[" then
    let (path, last) ← key
    expect "]"
    return .header path last
  else
    match ← peek? with
    | none | some '\n' | some '#' => return .blank
    | _ => do
      let ((path, last), v) ← pairWith (value depthLimit)
      return .pair path last v

/-- The statements of a document. -/
def statements : Reader (List Statement) := do
  repeated do
    if ← atEnd then return none
    gap
    let s ← statement
    gap
    comment
    unless ← atEnd do expect "\n"
    return some s

/-- A document that is being read: what it defines so far, and the table that lines define. -/
structure Draft where
  root : Definitions := []
  path : List String := []

/-- Read a statement into a document. -/
def Draft.add (d : Draft) : Statement → Option Draft
  | .header path key =>
    (d.root.within (·.openTable key) path).map fun root => ⟨root, path ++ [key]⟩
  | .seriesHeader path key =>
    (d.root.within (·.openSeries key) path).map fun root => ⟨root, path ++ [key]⟩
  | .pair path key v =>
    (d.root.within (·.assign key v path) d.path).map fun root => { d with root }
  | .blank => some d

/-- Line feeds for all line breaks. -/
def joinBreaks : List Char → List Char
  | '\r' :: '\n' :: rest => '\n' :: joinBreaks rest
  | c :: rest => c :: joinBreaks rest
  | [] => []

/-- The characters of a document, without a mark of the byte order. -/
def content (text : String) : List Char :=
  match text.toList with
  | '\uFEFF' :: rest => joinBreaks rest
  | cs => joinBreaks cs

/-- The table that a document defines, unless it breaks the rules of TOML. -/
def parse? (text : String) : Option (List (String × Value)) := do
  let lines ← statements.readAll? (content text)
  let draft ← lines.foldlM Draft.add {}
  return Definition.entries draft.root

end PhpStyle.Config.Toml
