import PhpStyle.Text.Shortest

/-!
# Values of a configuration file

The values that a configuration file can hold, and how they are written in messages: as TOML on one
line.
-/

namespace PhpStyle.Config

/-- A value of a configuration file. -/
inductive Value
  /-- An explicit absence. -/
  | nothing
  | flag (value : Bool)
  | integer (value : Int)
  | decimal (value : Float)
  | text (value : String)
  /-- A date, a time or both, in normal form. -/
  | moment (value : String)
  | list (items : List Value)
  /-- Values by key; a key occurs once. -/
  | table (entries : List (String × Value))
  deriving Inhabited

namespace Value

/-! ### Texts -/

/-- Characters that a text has to escape wherever it is written. -/
def isControl (c : Char) : Bool :=
  (c.toNat < 0x20 && c != '\t' && c != '\n') || c.toNat = 0x7F

/-- A digit in base sixteen. -/
def hexDigit (n : Nat) : Char := (Nat.toDigits 16 n).headD '0' |>.toUpper

/-- How a character is written after a backslash, if it has to be. -/
def escape? (c : Char) : Option String :=
  match c with
  | '\x08' => some "\\b"
  | '\t' => some "\\t"
  | '\n' => some "\\n"
  | '\x0c' => some "\\f"
  | '\r' => some "\\r"
  | '\\' => some "\\\\"
  | c =>
    if isControl c then
      some (String.ofList ['\\', 'u', '0', '0', hexDigit (c.toNat / 16), hexDigit (c.toNat % 16)])
    else none

/-- The longest run of a character in a text. -/
def longestRun (c : Char) (s : String) : Nat :=
  (s.toList.foldl (fun (run, best) d => if d = c then (run + 1, max best (run + 1)) else (0, best))
    (0, 0)).2

/-- The characters of a text between double quotes; of every run of double quotes, those after the
first `bare` are escaped. Line breaks stay as they are if `lines` says so. -/
def escapeQuoted (bare : Nat) (lines : Bool) (run : Nat) : List Char → String
  | [] => ""
  | '"' :: rest =>
    if run < bare then "\"" ++ escapeQuoted bare lines (run + 1) rest
    else "\\\"" ++ escapeQuoted bare lines 0 rest
  | c :: rest =>
    let written := if c = '\n' && lines then "\n" else (escape? c).getD (String.singleton c)
    written ++ escapeQuoted bare lines 0 rest

/-- A text between single double quotes. -/
def quote (s : String) : String := "\"" ++ escapeQuoted 0 false 0 s.toList ++ "\""

/-- A text in the first form that needs no escapes: between double quotes, between single quotes,
between three double quotes or between three single quotes; if there is none, between double
quotes. -/
def renderText (s : String) : String :=
  let lines := s.toList.contains '\n'
  let controls := s.toList.any isControl
  let backslash := s.toList.contains '\\'
  let doubles := longestRun '"' s
  let singles := longestRun '\'' s
  let start := if lines then "\n" else ""
  let long := "\"\"\"" ++ start ++ escapeQuoted 2 true 0 s.toList ++ "\"\"\""
  if !controls && !backslash && doubles = 0 && !lines then quote s
  else if !controls && singles = 0 && !lines then "'" ++ s ++ "'"
  else if !controls && !backslash && doubles ≤ 2 then long
  else if !controls && singles ≤ 2 then "'''" ++ start ++ s ++ "'''"
  else if lines then long
  else quote s

/-- Characters of a key that is written without quotes. -/
def isBare (c : Char) : Bool := c.isAlphanum || c = '_' || c = '-'

/-- A key: bare, or between quotes. -/
def renderKey (s : String) : String :=
  let controls := s.toList.any fun c => isControl c || c = '\n'
  if !s.isEmpty && s.toList.all isBare then s
  else if !controls && !s.toList.contains '\\' && !s.toList.contains '"' then quote s
  else if !controls && !s.toList.contains '\'' then "'" ++ s ++ "'"
  else quote s

/-! ### Values -/

/-- Texts with a separator between them. -/
def separate (separator : String) (texts : List String) : String := separator.intercalate texts

mutual

/-- A value as TOML on one line, with the entries of tables sorted by key. -/
def render : Value → String
  | .nothing => ""
  | .flag value => if value then "true" else "false"
  | .integer value => toString value
  | .decimal value => Text.decimal value
  | .text value => renderText value
  | .moment value => value
  | .list items => "[" ++ separate ", " (renderItems items) ++ "]"
  | .table [] => "\x7b\x7d"
  | .table entries =>
    let written := (renderEntries entries).mergeSort fun a b => a.1 ≤ b.1
    "\x7b " ++ separate ", " (written.map (·.2)) ++ " \x7d"

/-- The values of a list, each as TOML. -/
def renderItems : List Value → List String
  | [] => []
  | v :: rest => render v :: renderItems rest

/-- The entries of a table, each with its key. -/
def renderEntries : List (String × Value) → List (String × String)
  | [] => []
  | (key, v) :: rest => (key, renderKey key ++ " = " ++ render v) :: renderEntries rest

end

/-- The key under which a table holds a date that stands for the table. -/
def momentKey : String := "$__toml_private_datetime"

/-- A value as messages tell it: a date that stands alone as the table that it stands for, all else
as TOML. -/
def describe : Value → String
  | .moment value => (Value.table [(momentKey, .text value)]).render
  | v => v.render

end Value

end PhpStyle.Config
