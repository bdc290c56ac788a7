import PhpStyle.Diff.Lines

/-!
# Unified diffs

A unified diff shows changed lines with up to three lines of context around them. Lines that are
near a change form hunks, each with the ranges of lines that it covers. Here a line includes its
line break.
-/

namespace PhpStyle.Diff

/-- Lines of context on either side of a change. -/
def context : Nat := 3

/-- The lines of a text with their line breaks: line feeds, carriage returns, or both in a row. -/
def wholeLines (text : String) : List String :=
  let ends (c : Char) (rest : List Char) : Bool := c = '\n' || (c = '\r' && rest.head? != some '\n')
  (cutFrom ends [] text.toList).map String.ofList

/-- How many steps ago the last change was, at each step; at the start it was `ago` steps ago. -/
def sinceChange {α : Type} (ago : Nat) : List (Step α) → List Nat
  | [] => []
  | s :: rest =>
    let ago := if s.isChange then 0 else ago + 1
    ago :: sinceChange ago rest

/-- A step with the numbers of old and of new lines before it. -/
structure Placed where
  step : Step String
  old : Nat
  new : Nat

/-- Number the lines of a script. -/
def place (old new : Nat) : List (Step String) → List Placed
  | [] => []
  | s :: rest =>
    ⟨s, old, new⟩ ::
      place (if s.isOld then old + 1 else old) (if s.isNew then new + 1 else new) rest

/-- The hunks of a script: the longest runs of steps with a change at most `context` steps away. -/
def hunks (steps : List (Step String)) : List (List Placed) :=
  let before := sinceChange context steps
  let behind := (sinceChange context steps.reverse).reverse
  let near := List.zipWith (fun a b => a ≤ context || b ≤ context) before behind
  (((place 0 0 steps).zip near).splitBy fun a b => a.2 == b.2).filterMap fun run =>
    if run.all (·.2) then some (run.map (·.1)) else none

/-- A range of lines: the number of the first and how many there are, unless there is one. A range
without lines stands behind the line before it. -/
def range (before count : Nat) : String :=
  if count = 1 then toString (before + 1)
  else if count = 0 then s!"{before},0"
  else s!"{before + 1},{count}"

/-- The mark in front of a line. -/
def mark {α : Type} : Step α → String
  | .kept _ => " "
  | .removed _ => "-"
  | .added _ => "+"

/-- A line of a hunk. A line without a line break gets one, and a remark behind it. -/
def hunkLine (s : Step String) : String :=
  let line := s.element
  let ended := match line.toList.getLast? with
    | some c => c = '\n' || c = '\r'
    | none => false
  mark s ++ line ++ if ended then "" else "\n\\ No newline at end of file\n"

/-- A hunk with its ranges. -/
def hunkText (hunk : List Placed) : String :=
  match hunk with
  | [] => ""
  | first :: _ =>
    let steps := hunk.map (·.step)
    let old := range first.old (steps.countP (·.isOld))
    let new := range first.new (steps.countP (·.isNew))
    s!"@@ -{old} +{new} @@\n" ++ String.join (steps.map hunkLine)

/-- The unified diff between two texts of a file; texts without a difference have an empty one. -/
def unified (path old new : String) : String :=
  match hunks (script (wholeLines old) (wholeLines new)) with
  | [] => ""
  | all => s!"--- a/{path}\n+++ b/{path}\n" ++ String.join (all.map hunkText)

end PhpStyle.Diff
