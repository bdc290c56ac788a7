import PhpStyle.Config.Value
import PhpStyle.Text.Decimal
import PhpStyle.Text.Reader

/-!
# Scalars of TOML

Texts between quotes, and words that spell a truth value, a number, a date or a time. Line breaks
are single line feeds by the time these readers see a text.
-/

namespace PhpStyle.Config.Toml

open Text Text.Reader

/-- Characters that stand for themselves in texts and comments: all but controls, the tab apart. -/
def isPlain (c : Char) : Bool := c = '\t' || (0x20 ≤ c.toNat && c.toNat != 0x7F)

/-- Space within a line. -/
def isGap (c : Char) : Bool := c = ' ' || c = '\t'

/-- Take space within a line. -/
def gap : Reader Unit := do discard <| takeWhile isGap

/-! ### Texts -/

/-- The value of a digit in base sixteen. -/
def hexValue (c : Char) : Nat :=
  if c.isDigit then c.toNat - '0'.toNat else c.toLower.toNat - 'a'.toNat + 10

/-- Digits of base sixteen. -/
def isHexDigit (c : Char) : Bool := c.isDigit || ('a' ≤ c.toLower && c.toLower ≤ 'f')

/-- The number spelled by digits in a base up to sixteen. -/
def numberOf (base : Nat) (digits : List Char) : Nat :=
  digits.foldl (fun n c => base * n + hexValue c) 0

/-- The character whose code is spelled by exactly so many digits of base sixteen. -/
def codePoint (count : Nat) : Reader Char := do
  let digits := (← get).take count
  guard (digits.length = count && digits.all isHexDigit)
  modify (·.drop count)
  let n := numberOf 16 digits
  guard (n.isValidChar)
  return Char.ofNat n

/-- What follows a backslash. -/
def escaped : Reader Char := do
  match ← next with
  | 'b' => return '\x08'
  | 't' => return '\t'
  | 'n' => return '\n'
  | 'f' => return '\x0c'
  | 'r' => return '\r'
  | '"' => return '"'
  | '\\' => return '\\'
  | 'u' => codePoint 4
  | 'U' => codePoint 8
  | _ => failure

/-- One character of a text on one line, or nothing at the closing quote. Backslashes escape between
double quotes only. -/
def shortPiece (quote : Char) : Reader (Option Char) := do
  let c ← next
  if c = quote then return none
  else if c = '\\' && quote = '"' then some <$> escaped
  else do
    guard (isPlain c)
    return c

/-- Take a line break and all space and line breaks behind it, if a line break follows but for
space. -/
def skipBreak? : Reader Bool := fun s =>
  match s.dropWhile isGap with
  | '\n' :: rest => some (true, rest.dropWhile fun c => isGap c || c = '\n')
  | _ => some (false, s)

/-- Some characters of a text over several lines, or nothing at the three closing quotes. One or two
quotes stand for themselves, also right before the closing ones; a backslash at the end of a line
takes the space up to the next text away. -/
def longPiece (quote : Char) : Reader (Option (List Char)) := do
  let run := ((← get).takeWhile (· = quote)).length
  if run = 0 then
    let c ← next
    if c = '\\' && quote = '"' then
      if ← skipBreak? then return some []
      else return some [← escaped]
    else do
      guard (isPlain c || c = '\n')
      return some [c]
  else if run < 3 then do
    modify (·.drop run)
    return some (List.replicate run quote)
  else if run = 3 then do
    modify (·.drop 3)
    return none
  else do
    guard (run ≤ 5)
    modify (·.drop (run - 3))
    return some (List.replicate (run - 3) quote)

/-- A text on one line, from its opening quote on. -/
def shortText (quote : Char) : Reader String := do
  expect (String.singleton quote)
  return String.ofList (← repeated (shortPiece quote))

/-- A text on one line or over several, from its opening quote on. A line break right behind three
opening quotes is not part of the text. -/
def quotedText (quote : Char) : Reader String := do
  if ← skip? (String.ofList [quote, quote, quote]) then
    discard <| skip? "\n"
    return String.ofList (← repeated (longPiece quote)).flatten
  else shortText quote

/-! ### Words -/

/-- Digits without the underscores between them; an underscore has a digit on either side. -/
def ungroup? (isDigit : Char → Bool) : List Char → Option (List Char)
  | [] => none
  | [c] => if isDigit c then some [c] else none
  | c :: '_' :: rest => if isDigit c then (ungroup? isDigit rest).map (c :: ·) else none
  | c :: rest => if isDigit c then (ungroup? isDigit rest).map (c :: ·) else none

/-- A sign in front of a word, and the rest of it. -/
def splitSign : List Char → Bool × List Char
  | '+' :: rest => (false, rest)
  | '-' :: rest => (true, rest)
  | word => (false, word)

/-- The digits of a whole number, which does not start with a zero unless it is one. -/
def wholeDigits? (word : List Char) : Option (List Char) :=
  match ungroup? Char.isDigit word with
  | some ('0' :: _ :: _) => none
  | digits => digits

/-- A whole number of 64 bits: decimal with an optional sign, or in base sixteen, eight or two. -/
def integer? (word : List Char) : Option Int :=
  let based (base : Nat) (isDigit : Char → Bool) (rest : List Char) : Option Int :=
    (ungroup? isDigit rest).map fun ds => (numberOf base ds : Int)
  let number := match word with
    | '0' :: 'x' :: rest => based 16 isHexDigit rest
    | '0' :: 'o' :: rest => based 8 (fun c => '0' ≤ c && c ≤ '7') rest
    | '0' :: 'b' :: rest => based 2 (fun c => c = '0' || c = '1') rest
    | word =>
      let (negative, rest) := splitSign word
      (wholeDigits? rest).map fun ds =>
        if negative then -(numberOf 10 ds : Int) else (numberOf 10 ds : Int)
  number.filter Text.fitsSigned

/-- The floating-point number nearest to `m * 10 ^ e`. Numbers beyond the format are infinite,
numbers far below it are zero. -/
def nearest (m : Nat) (e : Int) : Float :=
  if m = 0 then 0.0
  else if 400 < e then 1.0 / 0.0
  else if e + (toString m).length < -400 then 0.0
  else if e < 0 then Float.ofScientific m true (-e).toNat
  else Float.ofScientific m false e.toNat

/-- An exponent: nothing, or a mark, an optional sign and digits. -/
def exponent? : List Char → Option Int
  | [] => some 0
  | mark :: rest =>
    if mark != 'e' && mark != 'E' then none
    else
      let (negative, digits) := splitSign rest
      (ungroup? Char.isDigit digits).map fun ds =>
        if negative then -(numberOf 10 ds : Int) else (numberOf 10 ds : Int)

/-- A floating-point number: a fraction or an exponent or both behind a whole number, or a word for
an infinity or for no number. Positive numbers have to be finite. -/
def decimal? (word : List Char) : Option Float :=
  let (negative, rest) := splitSign word
  let signed (x : Float) : Float := if negative then -x else x
  if rest = ['i', 'n', 'f'] then some (signed (1.0 / 0.0))
  else if rest = ['n', 'a', 'n'] then some (0.0 / 0.0)
  else do
    let isMark (c : Char) : Bool := c = 'e' || c = 'E'
    let whole ← wholeDigits? (rest.takeWhile fun c => c != '.' && !isMark c)
    let behind := rest.dropWhile fun c => c != '.' && !isMark c
    let (fraction, tail) ← match behind with
      | [] => none
      | '.' :: more => do
        let digits ← ungroup? Char.isDigit (more.takeWhile fun c => !isMark c)
        pure (digits, more.dropWhile fun c => !isMark c)
      | tail => some ([], tail)
    let e ← exponent? tail
    let x := signed (nearest (numberOf 10 (whole ++ fraction)) (e - fraction.length))
    if x.isInf && !negative then none else some x

/-! ### Dates and times -/

/-- The number spelled by two digits, if it lies between two bounds. -/
def between? (low high : Nat) (a b : Char) : Option Nat :=
  if a.isDigit && b.isDigit then
    let n := numberOf 10 [a, b]
    if low ≤ n && n ≤ high then some n else none
  else none

/-- Number of days of a month. -/
def daysIn (year month : Nat) : Nat :=
  let leap := year % 4 = 0 && (year % 100 != 0 || year % 400 = 0)
  if month = 2 then (if leap then 29 else 28)
  else if [4, 6, 9, 11].contains month then 30
  else 31

/-- A date in front of a word, and the rest of the word. -/
def date? : List Char → Option (List Char × List Char)
  | y1 :: y2 :: y3 :: y4 :: '-' :: m1 :: m2 :: '-' :: d1 :: d2 :: rest => do
    guard ([y1, y2, y3, y4].all Char.isDigit)
    let month ← between? 1 12 m1 m2
    discard <| between? 1 (daysIn (numberOf 10 [y1, y2, y3, y4]) month) d1 d2
    return ([y1, y2, y3, y4, '-', m1, m2, '-', d1, d2], rest)
  | _ => none

/-- A fraction of a second in front of a word, cut after nine digits and without zeros at the end,
and the rest of the word. -/
def fraction : List Char → List Char × List Char
  | '.' :: rest =>
    let digits := rest.takeWhile Char.isDigit
    if digits.isEmpty then ([], '.' :: rest)
    else
      let kept := ((digits.take 9).reverse.dropWhile (· = '0')).reverse
      (if kept.isEmpty then [] else '.' :: kept, rest.dropWhile Char.isDigit)
  | rest => ([], rest)

/-- A time of day in front of a word, and the rest of the word. -/
def time? : List Char → Option (List Char × List Char)
  | h1 :: h2 :: ':' :: m1 :: m2 :: ':' :: s1 :: s2 :: rest => do
    discard <| between? 0 23 h1 h2
    discard <| between? 0 59 m1 m2
    discard <| between? 0 60 s1 s2
    let (part, rest) := fraction rest
    return ([h1, h2, ':', m1, m2, ':', s1, s2] ++ part, rest)
  | _ => none

/-- A distance from universal time: nothing, a letter, or a sign with hours and minutes. -/
def zone? : List Char → Option (List Char)
  | [] => some []
  | ['Z'] => some ['Z']
  | ['z'] => some ['Z']
  | [sign, h1, h2, ':', m1, m2] => do
    guard (sign = '+' || sign = '-')
    discard <| between? 0 23 h1 h2
    discard <| between? 0 59 m1 m2
    let zero := [h1, h2, m1, m2].all (· = '0')
    return [if zero then '+' else sign, h1, h2, ':', m1, m2]
  | _ => none

/-- A date or a time or both, in normal form. -/
def moment? (word : List Char) : Option String :=
  match date? word with
  | some (date, []) => some (String.ofList date)
  | some (date, mark :: rest) => do
    guard (['T', 't', ' '].contains mark)
    let (time, rest) ← time? rest
    let zone ← zone? rest
    return String.ofList (date ++ 'T' :: time ++ zone)
  | none =>
    match time? word with
    | some (time, []) => some (String.ofList time)
    | _ => none

/-- Characters of words. -/
def isWordChar (c : Char) : Bool := c.isAlphanum || ['+', '-', '_', '.', ':'].contains c

/-- Take a word. A date may be followed by a space and a time. -/
def word : Reader (List Char) := do
  let first ← takeWhile isWordChar
  match date? first, ← get with
  | some (_, []), ' ' :: c :: _ =>
    if c.isDigit then do
      modify (·.drop 1)
      return first ++ ' ' :: (← takeWhile isWordChar)
    else return first
  | _, _ => return first

/-- The value that a word spells. -/
def wordValue? (word : List Char) : Option Value :=
  if word = ['t', 'r', 'u', 'e'] then some (.flag true)
  else if word = ['f', 'a', 'l', 's', 'e'] then some (.flag false)
  else ((moment? word).map Value.moment).orElse fun _ =>
    ((decimal? word).map Value.decimal).orElse fun _ => (integer? word).map Value.integer

/-- A scalar. -/
def scalar : Reader Value := do
  match ← peek? with
  | some '"' => Value.text <$> quotedText '"'
  | some '\'' => Value.text <$> quotedText '\''
  | _ => do
    match wordValue? (← word) with
    | some v => return v
    | none => failure

end PhpStyle.Config.Toml
