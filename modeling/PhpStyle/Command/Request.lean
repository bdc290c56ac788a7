import PhpStyle.Text.Decimal

/-!
# Requests

What the arguments of the program ask for. Options stand anywhere among the paths, up to a double
dash; those that are given twice or contradict each other are refused, and so is a request without a
path.
-/

namespace PhpStyle.Command

/-- An option without a value. -/
inductive Flag
  | check
  | fix
  | verbose
  | json
  | noConfig
  | listRules
  deriving DecidableEq, Repr

/-- An option with a value. -/
inductive Choice
  | rule
  | format
  | passBudget
  | config
  deriving DecidableEq, Repr

/-- A part of the arguments. -/
inductive Argument
  | flag (flag : Flag)
  | choice (choice : Choice) (value : String)
  | path (path : String)
  deriving DecidableEq, Repr

/-- The flag with a long name. -/
def Flag.ofName? (name : String) : Option Flag :=
  [("check", Flag.check), ("fix", .fix), ("verbose", .verbose), ("json", .json),
    ("no-config", .noConfig), ("list-sniffs", .listRules)].lookup name

/-- The choice with a long name. -/
def Choice.ofName? (name : String) : Option Choice :=
  [("sniff", Choice.rule), ("format", .format), ("pass-budget", .passBudget),
    ("config", .config)].lookup name

namespace Argument

/-- Whether an argument can be the value of the option before it: it does not look like an
option. -/
def isValue (argument : String) : Bool :=
  argument = "-" || argument.toList.head? != some '-'

/-- Read what stands behind one dash: flags, and a choice with its value, which may have an equals
sign in front. A choice without a value is waiting for the next argument. -/
def readShort? : List Char → Option (List Argument × Option Choice)
  | [] => some ([], none)
  | 'v' :: rest =>
    (readShort? rest).map fun (arguments, open_) => (.flag .verbose :: arguments, open_)
  | ['s'] => some ([], some .rule)
  | 's' :: '=' :: value => some ([.choice .rule (String.ofList value)], none)
  | 's' :: value => some ([.choice .rule (String.ofList value)], none)
  | _ => none

/-- Read what stands behind two dashes. -/
def readLong? (text : List Char) : Option (List Argument × Option Choice) :=
  let name := String.ofList (text.takeWhile (· != '='))
  match Flag.ofName? name, Choice.ofName? name, text.dropWhile (· != '=') with
  | some f, _, [] => some ([.flag f], none)
  | none, some c, [] => some ([], some c)
  | none, some c, _ :: value => some ([.choice c (String.ofList value)], none)
  | _, _, _ => none

/-- Read arguments; `open_` is a choice that waits for its value. -/
def readAll? (open_ : Option Choice) : List String → Option (List Argument)
  | [] => if open_.isNone then some [] else none
  | argument :: rest =>
    match open_ with
    | some c =>
      if isValue argument then (readAll? none rest).map (.choice c argument :: ·) else none
    | none =>
      match argument.toList with
      | ['-', '-'] => some (rest.map .path)
      | '-' :: '-' :: text =>
        (readLong? text).bind fun (arguments, open_) => (readAll? open_ rest).map (arguments ++ ·)
      | '-' :: c :: text =>
        (readShort? (c :: text)).bind fun (arguments, open_) =>
          (readAll? open_ rest).map (arguments ++ ·)
      | _ => (readAll? none rest).map (.path argument :: ·)

end Argument

/-- What the arguments ask for. -/
structure Request where
  paths : List String
  fix : Bool
  verbose : Bool
  /-- Names of the only rules to run. -/
  rules : List String
  /-- Whether the format is JSON whatever else is said. -/
  json : Bool
  format : Option String
  passBudget : Option Nat
  /-- Path of the configuration. -/
  config : Option String
  noConfig : Bool
  listRules : Bool
  deriving DecidableEq, Repr

namespace Request

/-- The values of a choice. -/
def values (choice : Choice) (arguments : List Argument) : List String :=
  arguments.filterMap fun
    | .choice c value => if c = choice then some value else none
    | _ => none

/-- Whether a flag is given; it may be given once. -/
def flag? (flag : Flag) (arguments : List Argument) : Option Bool :=
  let times := arguments.count (.flag flag)
  if times ≤ 1 then some (times = 1) else none

/-- The value of a choice that may be made once. -/
def single? (choice : Choice) (arguments : List Argument) : Option (Option String) :=
  match values choice arguments with
  | [] => some none
  | [value] => some (some value)
  | _ => none

/-- The request that arguments make, if they are in order. -/
def ofArguments? (arguments : List String) : Option Request := do
  let all ← Argument.readAll? none arguments
  let check ← flag? .check all
  let fix ← flag? .fix all
  let verbose ← flag? .verbose all
  let json ← flag? .json all
  let noConfig ← flag? .noConfig all
  let listRules ← flag? .listRules all
  let format ← single? .format all
  let config ← single? .config all
  let passBudget ← match ← single? .passBudget all with
    | none => pure none
    | some text => (Text.nat64? text).map some
  let paths := all.filterMap fun
    | .path path => some path
    | _ => none
  guard (!(check && fix) && !(json && format.isSome))
  guard (listRules || !paths.isEmpty)
  guard (paths.all (· != "") && config.all (· != ""))
  return { paths, fix, verbose, rules := values .rule all, json, format, passBudget, config
           noConfig, listRules }

end Request

end PhpStyle.Command
