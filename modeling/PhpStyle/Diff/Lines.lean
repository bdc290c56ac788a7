import PhpStyle.Diff.Script

/-!
# Differences between texts, line by line

For a reader, lines are compared without their line breaks; a line break at the end of just one of
the texts counts as an empty line more.
-/

namespace PhpStyle.Diff

/-- A line from its last character on, without its line break: a line feed, also behind a carriage
return. -/
def withoutBreak : List Char → List Char
  | '\n' :: '\r' :: rest => rest
  | '\n' :: rest => rest
  | rest => rest

/-- Cut a text behind every character that a test picks; `line` is the start of a line, last
character first. The rest of the text decides with the character. -/
def cutFrom (ends : Char → List Char → Bool) (line : List Char) : List Char → List (List Char)
  | [] => if line.isEmpty then [] else [line.reverse]
  | c :: rest =>
    if ends c rest then (c :: line).reverse :: cutFrom ends [] rest
    else cutFrom ends (c :: line) rest

/-- The lines of a text without their line breaks. -/
def plainLines (text : String) : List String :=
  (cutFrom (fun c _ => c = '\n') [] text.toList).map fun line =>
    String.ofList (withoutBreak line.reverse).reverse

/-- Whether a text ends in a line feed. -/
def endsInBreak (text : String) : Bool := text.toList.getLast? = some '\n'

/-- The steps that turn the lines of a text into those of another. -/
def plainScript (old new : String) : List (Step String) :=
  let steps := script (plainLines old) (plainLines new)
  match endsInBreak old, endsInBreak new with
  | true, false => steps ++ [.removed ""]
  | false, true => steps ++ [.added ""]
  | _, _ => steps

end PhpStyle.Diff
