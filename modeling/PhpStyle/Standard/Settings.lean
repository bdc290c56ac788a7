import PhpStyle.Text.Blank
import PhpStyle.Text.Decimal

/-!
# Settings of a standard

How lines are indented, which line break is written where a file shows none, and named options of
single rules.
-/

namespace PhpStyle

/-- What a level of indentation is made of. -/
inductive IndentStyle
  /-- So many spaces. -/
  | spaces (width : Nat)
  /-- One tab. -/
  | tabs
  deriving DecidableEq, Repr

namespace IndentStyle

/-- The character of indentation. -/
def char : IndentStyle → Char
  | .spaces _ => ' '
  | .tabs => '\t'

/-- Indentation over so many columns; a column is a character, so tabs fill one each. -/
def pad (style : IndentStyle) (columns : Nat) : String :=
  String.ofList (List.replicate columns style.char)

/-- Columns of one level. -/
def width : IndentStyle → Nat
  | .spaces width => width
  | .tabs => 1

/-- Read a style: a word for tabs, or a number of spaces above zero. -/
def ofText? (text : String) : Option IndentStyle :=
  let text := Text.lowerAscii (Text.trim text)
  if ["tab", "tabs", "\t", "\\t"].contains text then some .tabs
  else (Text.nat64? text).bind fun n => if n = 0 then none else some (.spaces n)

end IndentStyle

/-- A way to end lines. -/
inductive LineEnding
  | lf
  | crlf
  deriving DecidableEq, Repr

namespace LineEnding

/-- The characters of a line ending. -/
def text : LineEnding → String
  | .lf => "\n"
  | .crlf => "\r\n"

/-- Read a line ending. -/
def ofText? (text : String) : Option LineEnding :=
  let text := Text.lowerAscii (Text.trim text)
  if ["lf", "\n", "\\n"].contains text then some .lf
  else if ["crlf", "\r\n", "\\r\\n"].contains text then some .crlf
  else none

end LineEnding

/-- The value of an option. -/
inductive OptionValue
  | flag (value : Bool)
  | number (value : Int)
  | text (value : String)
  | texts (values : List String)
  deriving DecidableEq, Repr

/-- The settings with which the rules of a standard are made. -/
structure Settings where
  indent : IndentStyle := .spaces 4
  /-- The line break for files that have none of their own. -/
  lineEnding : LineEnding := .lf
  /-- Options by name; a name occurs once. -/
  options : List (String × OptionValue) := []
  deriving DecidableEq, Repr

namespace Settings

/-- The settings of the Stefna standard, which indents with tabs. -/
def stefna : Settings := { indent := .tabs }

/-- Set an option. -/
def withOption (s : Settings) (name : String) (value : OptionValue) : Settings :=
  { s with options := s.options.filter (·.1 != name) ++ [(name, value)] }

/-- The value of an option. -/
def option? (s : Settings) (name : String) : Option OptionValue := s.options.lookup name

/-- An option as a number, which may be written as text. -/
def number? (s : Settings) (name : String) : Option Int :=
  match s.option? name with
  | some (.number n) => some n
  | some (.text t) => Text.int64? t
  | _ => none

/-- An option as text. -/
def text? (s : Settings) (name : String) : Option String :=
  match s.option? name with
  | some (.text t) => some t
  | _ => none

end Settings

end PhpStyle
