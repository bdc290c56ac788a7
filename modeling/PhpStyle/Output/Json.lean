/-!
# JSON

JSON values as they are written out: with an indentation of two spaces, entries in the order given.
-/

namespace PhpStyle.Output

/-- A JSON value. -/
inductive Json
  | flag (value : Bool)
  | number (value : Nat)
  | text (value : String)
  | list (items : List Json)
  | record (entries : List (String × Json))

namespace Json

/-- A digit in base sixteen. -/
def hexDigit (n : Nat) : Char := (Nat.toDigits 16 n).headD '0'

/-- How a character is written between quotes. -/
def escape (c : Char) : List Char :=
  match c with
  | '"' => ['\\', '"']
  | '\\' => ['\\', '\\']
  | '\x08' => ['\\', 'b']
  | '\x0c' => ['\\', 'f']
  | '\n' => ['\\', 'n']
  | '\r' => ['\\', 'r']
  | '\t' => ['\\', 't']
  | c =>
    if c.toNat < 0x20 then
      ['\\', 'u', '0', '0', hexDigit (c.toNat / 16), hexDigit (c.toNat % 16)]
    else [c]

/-- A text between quotes. -/
def quote (s : String) : String := String.ofList ('"' :: s.toList.flatMap escape ++ ['"'])

/-- Spaces in front of a line at a depth. -/
def indent (depth : Nat) : String := String.ofList (List.replicate (2 * depth) ' ')

/-- Lines between two brackets; without any, the brackets stand side by side. -/
def block (depth : Nat) (left right : String) : List String → String
  | [] => left ++ right
  | lines =>
    left ++ "\n" ++ ",\n".intercalate (lines.map (indent (depth + 1) ++ ·)) ++ "\n" ++
      indent depth ++ right

mutual

/-- A value at a depth. -/
def render (depth : Nat) : Json → String
  | .flag value => if value then "true" else "false"
  | .number value => toString value
  | .text value => quote value
  | .list items => block depth "[" "]" (renderItems (depth + 1) items)
  | .record entries => block depth "\x7b" "\x7d" (renderEntries (depth + 1) entries)

/-- The items of a list at a depth. -/
def renderItems (depth : Nat) : List Json → List String
  | [] => []
  | v :: rest => render depth v :: renderItems depth rest

/-- The entries of a record at a depth. -/
def renderEntries (depth : Nat) : List (String × Json) → List String
  | [] => []
  | (key, v) :: rest => (quote key ++ ": " ++ render depth v) :: renderEntries depth rest

end

end Json

end PhpStyle.Output
