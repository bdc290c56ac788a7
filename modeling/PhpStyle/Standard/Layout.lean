import PhpStyle.Rule
import PhpStyle.Standard.Settings
import PhpStyle.Store.Walk

/-!
# Layout of a file

Questions about lines and blanks that several rules ask: which line break to write, where a
statement starts, which tokens stand between two others.
-/

namespace PhpStyle

/-- The line break to write into a file: its own, or that of the settings if it has none. -/
def File.newline (f : File) (settings : Settings) : String :=
  f.lineBreak?.getD settings.lineEnding.text

/-- The length of a blank as messages tell it. -/
def describeBlank (text : String) : String :=
  if Text.hasLineBreak text then "newline" else toString text.length

/-- A text with its line breaks, as a pattern shows them. -/
def showLineBreaks (text : String) : String :=
  Text.replace (Text.replace text "\r\n" "EOL") "\n" "EOL"

namespace Store

/-- The indexes behind token `i` and before token `j`. -/
def between (_ : Store) (i j : Nat) : List Nat :=
  List.range' (i + 1) (j - (i + 1))

/-- Whether two tokens start on one line. -/
def sameLine (s : Store) (i j : Nat) : Bool := s.line i == s.line j

/-- The column of a token, counted from zero. -/
def indentOf (s : Store) (i : Nat) : Nat := (s.token i).column - 1

/-- The first token after `i`, and before `stop` if it is given, that is not whitespace. -/
def nextVisible? (s : Store) (i : Nat) (stop : Option Nat) : Option Nat :=
  (s.next? i).bind fun j => s.findNext (.except (.isKind .whitespace)) j stop

/-- The last token before `i`, but not before `stop`, that is not whitespace. -/
def prevVisible? (s : Store) (i : Nat) (stop : Option Nat) : Option Nat :=
  (s.prev? i).bind fun j => s.findPrevious (.except (.isKind .whitespace)) j stop

/-- The last token before `i`, but not before `stop`, that is code. -/
def prevCodeDownTo? (s : Store) (i stop : Nat) : Option Nat :=
  (s.prev? i).bind fun j => s.findPrevious (fun t => !t.isTrivia) j (some stop)

/-- The first token on the line of `i` that is not whitespace. -/
def firstVisible (s : Store) (i : Nat) : Nat :=
  (s.findFirstOnLine (.except (.isKind .whitespace)) i).getD i

/-- The first token on the line of `i` that is neither whitespace nor text outside PHP. -/
def firstContent (s : Store) (i : Nat) : Nat :=
  (s.findFirstOnLine (.except (.oneOf [.whitespace, .inlineHtml])) i).getD i

/-- Go back from a line that starts inside a string to the line on which the strings before it
start. -/
def beforeWrappedStrings (s : Store) (i : Nat) : Nat :=
  if s.kind i = .quotedString ∧ 0 < i ∧ s.kind (i - 1) = .quotedString then
    let j := s.firstContent (i - 1)
    if j < i then s.beforeWrappedStrings j else i
  else i
  termination_by i

/-- The token at the start of the line on which the statement around `i` starts. -/
def statementLineStart (s : Store) (i : Nat) : Nat :=
  s.beforeWrappedStrings (s.firstContent i)

/-- Of tokens in order, those that start on the lines between line `low` and line `high`: tokens on
`low` are passed over, and the first one on `high` ends the search. -/
def onLinesBetween (s : Store) (low high : Nat) (tokens : List Nat) : List Nat :=
  (tokens.takeWhile fun p => s.line p == low || s.line p != high).filter fun p => s.line p != low

end Store

end PhpStyle
