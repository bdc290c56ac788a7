import PhpStyle.Config.Value

/-!
# Definitions of tables

A TOML document defines its tables bit by bit: by headers, by headers of tables further in, by keys
with dots. How a table came to be decides what may still be added to it.
-/

namespace PhpStyle.Config.Toml

/-- How a table came to be. -/
inductive Origin
  /-- By its own header. -/
  | header
  /-- By the header of a table inside it. -/
  | passed
  /-- By a key with dots. -/
  | dotted
  deriving DecidableEq, Repr

/-- What a key is defined as so far. -/
inductive Definition
  | value (v : Value)
  | table (origin : Origin) (entries : List (String × Definition))
  /-- Tables under one header, the last of which is being defined. -/
  | series (tables : List (List (String × Definition)))

/-- What the keys of a table are defined as so far; a key occurs once. -/
abbrev Definitions := List (String × Definition)

namespace Definitions

/-- Put a definition in the place of that of the same key. -/
def replace (t : Definitions) (key : String) (d : Definition) : Definitions :=
  t.map fun e => if e.1 = key then (key, d) else e

/-- Change the last table of a series. -/
def changeLast (f : Definitions → Option Definitions) : List Definitions → Option (List Definitions)
  | [] => none
  | [t] => (f t).map fun t => [t]
  | t :: rest => (changeLast f rest).map (t :: ·)

/-- Define a value under a key with dots, given the parts before the last. The parts lead through
tables without a header of their own, and the value goes into one that keys with dots have made. -/
def assign (key : String) (v : Value) (t : Definitions) : List String → Option Definitions
  | [] => if (t.lookup key).isSome then none else some (t ++ [(key, .value v)])
  | part :: parts =>
    match t.lookup part with
    | none => (assign key v [] parts).map fun inner => t ++ [(part, .table .dotted inner)]
    | some (.table origin inner) =>
      if origin = .header || (parts.isEmpty && origin != .dotted) then none
      else (assign key v inner parts).map fun inner => t.replace part (.table origin inner)
    | some (.series tables) =>
      if parts.isEmpty then none
      else (changeLast (fun inner => assign key v inner parts) tables).map fun tables =>
        t.replace part (.series tables)
    | some (.value _) => none

/-- Change the table that a header leads to; tables on the way are made if need be. -/
def within (f : Definitions → Option Definitions) (t : Definitions) :
    List String → Option Definitions
  | [] => f t
  | part :: parts =>
    match t.lookup part with
    | none => (within f [] parts).map fun inner => t ++ [(part, .table .passed inner)]
    | some (.table origin inner) =>
      (within f inner parts).map fun inner => t.replace part (.table origin inner)
    | some (.series tables) =>
      (changeLast (fun inner => within f inner parts) tables).map fun tables =>
        t.replace part (.series tables)
    | some (.value _) => none

/-- Give a table its own header; it has none yet. -/
def openTable (key : String) (t : Definitions) : Option Definitions :=
  match t.lookup key with
  | none => some (t ++ [(key, .table .header [])])
  | some (.table .passed inner) => some (t.replace key (.table .header inner))
  | _ => none

/-- Add a table to a series. -/
def openSeries (key : String) (t : Definitions) : Option Definitions :=
  match t.lookup key with
  | none => some (t ++ [(key, .series [[]])])
  | some (.series tables) => some (t.replace key (.series (tables ++ [[]])))
  | _ => none

end Definitions

mutual

/-- The value that a key is defined as. -/
def Definition.toValue : Definition → Value
  | .value v => v
  | .table _ entries => .table (Definition.entries entries)
  | .series tables => .list (Definition.tables tables)

/-- The entries that the keys of a table are defined as. -/
def Definition.entries : List (String × Definition) → List (String × Value)
  | [] => []
  | (key, d) :: rest => (key, d.toValue) :: Definition.entries rest

/-- The tables that the tables of a series are defined as. -/
def Definition.tables : List (List (String × Definition)) → List Value
  | [] => []
  | t :: rest => .table (Definition.entries t) :: Definition.tables rest

end

end PhpStyle.Config.Toml
