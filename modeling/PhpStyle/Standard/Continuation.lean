import PhpStyle.Standard.Layout
import PhpStyle.Text.Case

/-!
# Braces around control structures

Two rules for the lines on which control structures begin and go on. The first puts a line break
between a closing brace and the keyword behind it, and allows no comment on the line of the keyword.
The second compares `else`, `elseif` and `catch` with the pattern they are to follow, and wants
every opening brace to end its line; it only reports.
-/

namespace PhpStyle

namespace BracePlacement

/-- The edit that breaks the line behind a closing brace. The next line keeps the indentation of the
line of the brace. -/
def breakBehind (file : File) (newline : String) (close : Nat) : Changeset :=
  let s := file.store
  let first := s.lineStart close
  let indent := if first ≠ close ∧ s.kind first = .whitespace then s.text first else ""
  match s.next? close with
  | some next =>
    if s.kind next = .whitespace ∧ ¬ Text.hasLineBreak (s.text next) then
      [.replace next (newline ++ indent)]
    else [.append close (newline ++ indent)]
  | none => [.append close (newline ++ indent)]

/-- A closing brace before the keyword on its line. -/
def braceFindings (settings : Settings) (file : File) (i : Nat) : List Finding :=
  let s := file.store
  let close := (s.prev? i).bind fun p => s.findPrevious (.isKind .closeCurly) p none
  (close.filter fun c => s.sameLine c i).toList.map fun c =>
    { code := "BracketBeforeControlStatement", index := c
      message := "Closing brace must be on a line by itself"
      fix := some (breakBehind file (file.newline settings) c) }

/-- A comment behind the keyword on its line. -/
def commentFindings (s : Store) (i : Nat) : List Finding :=
  if (s.findNext (fun t => t.kind.isComment) i none).any fun c => s.sameLine c i then
    [{ code := "CommentAfterControlStatement", index := i
       message := "Can't have comment on same line as control statement" }]
  else []

/-- The rule for the line of a control structure. -/
def rule (settings : Settings) : Rule :=
  { name := "Stefna.ControlStructures.BracketPlacement"
    description := "Closing brace must be on a line by itself before a control structure"
    kinds := [.kwDo, .kwWhile, .kwFor, .kwIf, .kwForeach, .kwElse, .kwElseIf, .kwSwitch, .kwCatch,
      .kwFinally]
    check := .anywhere fun file i =>
      braceFindings settings file i ++ commentFindings file.store i }

end BracePlacement

namespace Continuation

/-- Keywords that go on a control structure behind a closing brace. -/
def continues : Kind → Bool
  | .kwElse | .kwElseIf | .kwCatch => true
  | _ => false

/-- A continuing keyword on the line of the closing brace before it. -/
def keywordFindings (s : Store) (i : Nat) : List Finding :=
  let brace := if continues (s.kind i) then s.prevCode? i else none
  (brace.filter fun b => s.kind b == .closeCurly && s.sameLine b i).toList.map fun b =>
    { code := "ContinuationNotOnNewLine", index := i
      message := "Expected \"\x7dEOL" ++ Text.lower (s.text i) ++ "\"; found \"" ++
        showLineBreaks (s.textBetween b i) ++ "\"" }

/-- Code on the line of the opening brace and behind it. -/
def braceFindings (s : Store) (i : Nat) : List Finding :=
  match s.scope? i with
  | none => []
  | some g =>
    ((s.nextCode? g.opener).filter fun c => s.sameLine c g.opener).toList.map fun c =>
      { code := "ContentAfterOpenBrace", index := g.opener
        message := "Expected \"" ++ Text.lower (s.text i) ++ " ... \x7bEOL\"; found \"" ++
          showLineBreaks (s.textBetween g.opener c) ++ "\"" }

/-- The rule for the pattern of a control structure. -/
def rule : Rule :=
  { name := "Stefna.ControlStructures.ElseCatch"
    description :=
      "Closing brace and continuation keyword on separate lines, opening brace at end of line"
    kinds := [.kwTry, .kwCatch, .kwDo, .kwWhile, .kwFor, .kwIf, .kwForeach, .kwElse, .kwElseIf]
    check := .anywhere fun file i =>
      keywordFindings file.store i ++ braceFindings file.store i }

end Continuation

end PhpStyle
