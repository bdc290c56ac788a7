import PhpStyle.Diff.Lines
import PhpStyle.Output.Summary

/-!
# Answers as text

What a reader sees of a file and of a whole run, line by line.
-/

namespace PhpStyle.Output

/-- A text filled up with spaces on the left to a width. -/
def padLeft (width : Nat) (s : String) : String :=
  String.ofList (List.replicate (width - s.length) ' ') ++ s

/-- A text filled up with spaces on the right to a width. -/
def padRight (width : Nat) (s : String) : String :=
  s ++ String.ofList (List.replicate (width - s.length) ' ')

/-- The line of a changed line; kept lines have none. -/
def changeLine? : Diff.Step String → Option String
  | .removed line => some ("  - " ++ line)
  | .added line => some ("  + " ++ line)
  | .kept _ => none

/-- The line of a pass. -/
def passLine (p : PassSummary) : String :=
  let codes := ", ".intercalate (p.fixes.map fun e => s!"{e.1} x{e.2}")
  s!"    pass {p.pass}: {p.applied} applied, {p.conflicted.length} conflicted ({codes})"

/-- The line of a diagnostic. -/
def diagnosticLine (d : Diagnostic) : String :=
  let place := padLeft 4 (toString d.line) ++ ":" ++ padRight 3 (toString d.column)
  let mark := if d.fixable then "[x]" else "[ ]"
  let status := match d.status with
    | .conflicted | .malformed => " [" ++ d.status.word ++ "]"
    | _ => ""
  s!"  {place} {d.severity.word} {mark} {d.message}{status} ({d.fullCode})"

/-- The lines of a file with something to tell, behind the one with its path. -/
def detailLines (before : String) (r : Report) : List String :=
  let changes :=
    if r.changed before then
      (Diff.plainScript before r.source).filterMap changeLine? ++
        s!"  OK Applied {r.fixCount} fix(es)" :: r.passes.map passLine
    else []
  changes ++ r.diagnostics.map diagnosticLine ++
    r.defects.map (fun d => "  ! sniff defect: " ++ d.message) ++
    (r.outcome.notice.map fun n => "  ! " ++ n).toList ++ [""]

/-- Whether a report has nothing to tell. -/
def isQuiet (before : String) (r : Report) : Bool :=
  r.diagnostics.isEmpty && !r.changed before && r.defects.isEmpty && r.outcome.notice.isNone

/-- The lines of a file with a report. A file with nothing to tell has one at most, if all is
told. -/
def reportLines (verbose : Bool) (path before : String) (r : Report) : List String :=
  if isQuiet before r then (if verbose then [path ++ ": No issues found"] else [])
  else path :: detailLines before r

/-- A line with a count, unless it is zero. -/
def countLine (name : String) (count : Nat) : List String :=
  if count = 0 then [] else [s!"  {name}: {count}"]

/-- The lines at the end of a run. -/
def Summary.lines (s : Summary) (mode : Mode) : List String :=
  ["", "Summary", s!"  Files processed: {s.filesProcessed}",
    s!"  Files with findings: {s.filesWithFindings}",
    s!"  Findings: {s.findings} ({s.fixable} fixable)"] ++
  (match mode with
    | .fix => [s!"  Files fixed: {s.filesFixed}", s!"  Fixes applied: {s.fixesApplied}"]
    | .check => []) ++
  countLine "Did not converge" s.notConverged ++ countLine "Conflicting fixes" s.conflicts ++
  countLine "Sniff defects" s.defects ++ countLine "Errors" s.errors ++
  (if mode = .check && 0 < s.fixable then ["", "Run with --fix to apply fixes"] else [])

end PhpStyle.Output
