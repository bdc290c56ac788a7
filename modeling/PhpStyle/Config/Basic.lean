import PhpStyle.Config.Toml.Scalar
import PhpStyle.Config.Value
import PhpStyle.Path.Basic
import PhpStyle.Path.Glob
import PhpStyle.Run.Engine
import PhpStyle.Standard.Settings

/-!
# Configuration

What a configuration file says: which rules run and with which settings, which files are left out,
how the answer is written and how many passes a run may make. All of it may be left open.
-/

namespace PhpStyle

/-- The indentation that a configuration asks for. -/
inductive IndentChoice
  | width (columns : Nat)
  | name (text : String)
  deriving DecidableEq, Repr

/-- A configuration. -/
structure Config where
  /-- The only rules that run, if given. -/
  enabled : Option (List String) := none
  /-- Rules that do not run. -/
  disabled : List String := []
  /-- Options of rules, sorted by name. -/
  options : List (String × Config.Value) := []
  /-- Patterns of paths that are left out. -/
  exclude : List String := []
  format : Option String := none
  passBudget : Option Nat := none
  indent : Option IndentChoice := none
  lineEnding : Option String := none

namespace Config

/-! ### Reading a value as a configuration -/

/-- Look up the fields of a section. A section may be given as a list of its fields in order; where
`strict` holds, a list with more items is refused. A date is a section without fields. -/
def fields? (strict : Bool) (names : List String) : Value → Option (String → Option Value)
  | .table entries => some fun name => entries.lookup name
  | .list items =>
    if strict && names.length < items.length then none
    else some fun name => (names.zip items).lookup name
  | .moment _ => some fun _ => none
  | _ => none

/-- A field that may be left out. -/
def field? {α : Type} (read : Value → Option α) (default : α) : Option Value → Option α
  | none => some default
  | some v => read v

/-- A field that may be left out or be absent explicitly. -/
def optional? {α : Type} (read : Value → Option α) : Option Value → Option (Option α)
  | none | some .nothing => some none
  | some v => (read v).map some

/-- Read a text. -/
def text? : Value → Option String
  | .text t => some t
  | _ => none

/-- Read a list of texts. -/
def texts? : Value → Option (List String)
  | .list items => items.mapM text?
  | _ => none

/-- Read a whole number of 64 bits without a sign. -/
def natural? : Value → Option Nat
  | .integer n => if Text.fitsUnsigned n then some n.toNat else none
  | _ => none

/-- Read an indentation. -/
def indent? : Value → Option IndentChoice
  | .text t => some (.name t)
  | v => (natural? v).map .width

/-- Whether a table stands for a date: the first of its keys says so. -/
def holdsMoment (entries : List (String × Value)) : Bool :=
  entries.head?.any fun e => e.1 = Value.momentKey

/-- Read the date in front of a table. Where `strict` holds, there is nothing behind it. -/
def moment? (strict : Bool) : List (String × Value) → Option Value
  | (_, .text t) :: rest =>
    if strict && !rest.isEmpty then none else (Toml.moment? t.toList).map .moment
  | _ => none

mutual

/-- Read the value of an option. Nothing in it is absent, its integers fit into 64 bits with a sign,
and tables that stand for dates are dates. -/
def option? (strict : Bool) : Value → Option Value
  | .nothing => none
  | .integer n => if Text.fitsSigned n then some (.integer n) else none
  | .list items => (items? strict items).map .list
  | .table entries =>
    if holdsMoment entries then moment? strict entries else (entries? strict entries).map .table
  | v => some v

/-- Read the items of a list in an option. -/
def items? (strict : Bool) : List Value → Option (List Value)
  | [] => some []
  | v :: rest => do
    let v ← option? strict v
    let rest ← items? strict rest
    return v :: rest

/-- Read the entries of a table in an option. -/
def entries? (strict : Bool) : List (String × Value) → Option (List (String × Value))
  | [] => some []
  | (key, v) :: rest => do
    let v ← option? strict v
    let rest ← entries? strict rest
    return (key, v) :: rest

end

/-- Read options, sorted by name. -/
def options? (strict : Bool) : Value → Option (List (String × Value))
  | .table entries => (entries? strict entries).map (·.mergeSort fun a b => a.1 ≤ b.1)
  | .moment value => some [(Value.momentKey, .text value)]
  | _ => none

/-- Read a configuration. Unknown fields are ignored; the first field of the wrong shape makes the
whole unreadable. -/
def ofValue? (strict : Bool) (v : Value) : Option Config := do
  let sections ← fields? strict ["sniffs", "paths", "output", "engine", "whitespace"] v
  let rules ← field? (fields? strict ["enabled", "disabled", "options"]) (fun _ => none)
    (sections "sniffs")
  let paths ← field? (fields? strict ["exclude"]) (fun _ => none) (sections "paths")
  let output ← field? (fields? strict ["format"]) (fun _ => none) (sections "output")
  let engine ← field? (fields? strict ["pass_budget"]) (fun _ => none) (sections "engine")
  let space ← field? (fields? strict ["indent", "line_ending"]) (fun _ => none)
    (sections "whitespace")
  return {
    enabled := ← optional? texts? (rules "enabled")
    disabled := ← field? texts? [] (rules "disabled")
    options := ← field? (options? strict) [] (rules "options")
    exclude := ← field? texts? [] (paths "exclude")
    format := ← optional? text? (output "format")
    passBudget := ← optional? natural? (engine "pass_budget")
    indent := ← optional? indent? (space "indent")
    lineEnding := ← optional? text? (space "line_ending") }

/-! ### What a configuration says -/

/-- Why a configuration gives no settings. -/
inductive SettingsError
  | zeroIndent
  | unknownIndent (text : String)
  | unknownLineEnding (text : String)
  /-- A list holds something else than texts. -/
  | mixedList (name : String) (item : Value)
  | unsupported (name : String) (value : Value)

/-- The wording of a settings error. -/
def SettingsError.message : SettingsError → String
  | .zeroIndent => "Invalid indent width 0"
  | .unknownIndent text => s!"Invalid indent '{text}'. Valid options: tab or a width"
  | .unknownLineEnding text => s!"Invalid line ending '{text}'. Valid options: lf, crlf"
  | .mixedList name item => s!"Option '{name}' must be a list of strings, found {item.describe}"
  | .unsupported name value => s!"Unsupported value for option '{name}': {value.describe}"

/-- The value of an option. -/
def optionValue (name : String) : Value → Except SettingsError OptionValue
  | .flag value => .ok (.flag value)
  | .integer value => .ok (.number value)
  | .text value => .ok (.text value)
  | .list items =>
    OptionValue.texts <$> items.mapM fun item =>
      match item with
      | .text t => Except.ok t
      | item => .error (.mixedList name item)
  | value => .error (.unsupported name value)

/-- The indentation that a configuration asks for. -/
def indentStyle : Option IndentChoice → Except SettingsError IndentStyle
  | none => .ok Settings.stefna.indent
  | some (.width 0) => .error .zeroIndent
  | some (.width columns) => .ok (.spaces columns)
  | some (.name text) =>
    match IndentStyle.ofText? text with
    | some style => .ok style
    | none => .error (.unknownIndent text)

/-- The line ending that a configuration asks for. -/
def lineEndingOf : Option String → Except SettingsError LineEnding
  | none => .ok Settings.stefna.lineEnding
  | some text =>
    match LineEnding.ofText? text with
    | some ending => .ok ending
    | none => .error (.unknownLineEnding text)

/-- The settings of a configuration: those of the Stefna standard where it says nothing. Indentation
is looked at first, then the line ending, then the options by name. -/
def settings (c : Config) : Except SettingsError Settings := do
  let indent ← indentStyle c.indent
  let lineEnding ← lineEndingOf c.lineEnding
  let options ← c.options.mapM fun o => do
    let value ← optionValue o.1 o.2
    return (o.1, value)
  return options.foldl (fun s o => s.withOption o.1 o.2) { Settings.stefna with indent, lineEnding }

/-- The names of the rules to run: those asked for, or else all that the configuration leaves
enabled. -/
def ruleNames (c : Config) (all asked : List String) : List String :=
  if !asked.isEmpty then asked
  else all.filter fun name => c.enabled.all (·.contains name) && !c.disabled.contains name

/-- The number of passes that a run may make: as asked for, or else as configured. -/
def budget (c : Config) (asked : Option Nat) : Nat :=
  (asked.orElse fun _ => c.passBudget).getD Engine.defaultBudget

/-- Whether a text holds another. -/
def holds (s part : List Char) : Bool :=
  part.isPrefixOf s ||
    match s with
    | [] => false
    | _ :: rest => holds rest part

/-- Whether a pattern that ends in a slash names a directory that a path goes through. -/
def namesDirectory (pattern path : String) : Bool :=
  match pattern.toList.reverse with
  | '/' :: rest =>
    let directory := (rest.dropWhile (· = '/')).reverse ++ ['/']
    holds path.toList ('/' :: directory) || directory.isPrefixOf path.toList
  | _ => false

/-- Whether a path is left out: a pattern describes it or its file name, or names a directory that
it goes through. -/
def excludes (c : Config) (path : String) : Bool :=
  c.exclude.any fun pattern =>
    Path.Glob.describes pattern path ||
      (Path.fileName? path).any (Path.Glob.describes pattern) ||
      namesDirectory pattern path

end Config

end PhpStyle
