/-!
# Decimal numbers

Reading whole numbers from text. A sign is allowed in front where the reader says so, and there has
to be at least one digit.
-/

namespace PhpStyle.Text

/-- The number spelled by digits of ASCII, if there are any and nothing else. -/
def digits? (cs : List Char) : Option Nat :=
  if cs.isEmpty || !cs.all Char.isDigit then none
  else some (cs.foldl (fun n c => 10 * n + (c.toNat - '0'.toNat)) 0)

/-- Whether a number fits into 64 bits without a sign. -/
def fitsUnsigned (n : Int) : Bool := 0 ≤ n && n < 0x10000000000000000

/-- Whether a number fits into 64 bits with a sign. -/
def fitsSigned (n : Int) : Bool := -0x8000000000000000 ≤ n && n < 0x8000000000000000

/-- A number that fits into 64 bits without a sign; a plus may stand in front. -/
def nat64? (s : String) : Option Nat :=
  let number := match s.toList with
    | '+' :: rest => digits? rest
    | cs => digits? cs
  number.filter fun n => fitsUnsigned n

/-- A number that fits into 64 bits with a sign. -/
def int64? (s : String) : Option Int :=
  let number := match s.toList with
    | '+' :: rest => (digits? rest).map Int.ofNat
    | '-' :: rest => (digits? rest).map fun n => -(n : Int)
    | cs => (digits? cs).map Int.ofNat
  number.filter fitsSigned

end PhpStyle.Text
