/-!
# Readers

A reader takes characters from the front of a text and answers a value, or fails. Loops run as often
as the text has characters left, which is enough for steps that take at least one.
-/

namespace PhpStyle.Text

/-- Reads a value from the front of a text and leaves the rest. -/
abbrev Reader := StateT (List Char) Option

namespace Reader

/-- The next character, left where it is. -/
def peek? : Reader (Option Char) := do return (← get).head?

/-- Take the next character. -/
def next : Reader Char
  | [] => none
  | c :: rest => some (c, rest)

/-- Take a text if it comes next. -/
def skip? (text : String) : Reader Bool := fun s =>
  if text.toList.isPrefixOf s then some (true, s.drop text.length) else some (false, s)

/-- Take a text, which has to come next. -/
def expect (text : String) : Reader Unit := do
  unless ← skip? text do failure

/-- Take characters as long as they pass a test. -/
def takeWhile (test : Char → Bool) : Reader (List Char) := fun s =>
  some (s.takeWhile test, s.dropWhile test)

/-- Whether nothing is left. -/
def atEnd : Reader Bool := do return (← get).isEmpty

/-- Run a step until it answers nothing, at most so often. -/
def repeatFor {α : Type} (step : Reader (Option α)) : Nat → Reader (List α)
  | 0 => failure
  | n + 1 => do
    match ← step with
    | none => return []
    | some a => return a :: (← repeatFor step n)

/-- Run a step until it answers nothing; a step that answers something takes a character. -/
def repeated {α : Type} (step : Reader (Option α)) : Reader (List α) := fun s =>
  repeatFor step (s.length + 1) s

/-- The value of a whole text, if the reader takes all of it. -/
def readAll? {α : Type} (reader : Reader α) (text : List Char) : Option α :=
  match reader text with
  | some (a, []) => some a
  | _ => none

end Reader

end PhpStyle.Text
