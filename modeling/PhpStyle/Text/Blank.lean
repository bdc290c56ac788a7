/-!
# Blank text

The characters that count as white space, and texts without their outer white space.
-/

namespace PhpStyle.Text

/-- Characters with the property White_Space. -/
def isSpace (c : Char) : Bool :=
  let n := c.toNat
  (0x9 ≤ n && n ≤ 0xD) || n == 0x20 || n == 0x85 || n == 0xA0 || n == 0x1680 ||
    (0x2000 ≤ n && n ≤ 0x200A) || n == 0x2028 || n == 0x2029 || n == 0x202F || n == 0x205F ||
    n == 0x3000

/-- Whether a text holds nothing but white space. -/
def isBlank (s : String) : Bool := s.toList.all isSpace

/-- A text without the white space at its two ends. -/
def trim (s : String) : String :=
  String.ofList (((s.toList.dropWhile isSpace).reverse.dropWhile isSpace).reverse)

/-- A text with letters of ASCII in lower case. -/
def lowerAscii (s : String) : String :=
  String.ofList (s.toList.map Char.toLower)

/-- Whether a text holds a line break. -/
def hasLineBreak (s : String) : Bool := s.toList.contains '\n'

/-- Write `new` for every `old` in a text, from left to right; `old` is not empty. -/
def replaceFrom (old new : List Char) (skip : Nat) : List Char → List Char
  | [] => []
  | c :: rest =>
    match skip with
    | n + 1 => replaceFrom old new n rest
    | 0 =>
      if old.isPrefixOf (c :: rest) then new ++ replaceFrom old new (old.length - 1) rest
      else c :: replaceFrom old new 0 rest

/-- Write `new` for every `old` in a text. -/
def replace (s old new : String) : String :=
  String.ofList (replaceFrom old.toList new.toList 0 s.toList)

end PhpStyle.Text
