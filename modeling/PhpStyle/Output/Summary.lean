import PhpStyle.Run.Report

/-!
# Summaries

What became of single files, and the counts over all of them. The counts decide the status with
which the program ends.
-/

namespace PhpStyle.Output

/-- What became of a file: a report over the text that it had, or an error. -/
inductive Answer
  | report (before : String) (report : Report)
  | error (message : String)

/-- What became of the file at a path. -/
structure FileAnswer where
  path : String
  answer : Answer

/-- Counts over files. -/
structure Summary where
  filesProcessed : Nat := 0
  filesWithFindings : Nat := 0
  filesFixed : Nat := 0
  /-- Findings still there. -/
  findings : Nat := 0
  /-- Findings still there that have a fix. -/
  fixable : Nat := 0
  fixesApplied : Nat := 0
  /-- Files whose fixes did not come to an end. -/
  notConverged : Nat := 0
  /-- Fixes turned down for an earlier one. -/
  conflicts : Nat := 0
  defects : Nat := 0
  errors : Nat := 0
  deriving DecidableEq, Repr

namespace Summary

/-- One if a condition holds. -/
def one (condition : Bool) : Nat := if condition then 1 else 0

/-- Count one more file. -/
def add (s : Summary) : Answer → Summary
  | .error _ => { s with filesProcessed := s.filesProcessed + 1, errors := s.errors + 1 }
  | .report before r =>
    { filesProcessed := s.filesProcessed + 1
      filesWithFindings := s.filesWithFindings + one (!r.diagnostics.isEmpty)
      filesFixed := s.filesFixed + one (r.changed before)
      findings := s.findings + r.diagnostics.length
      fixable := s.fixable + r.fixableCount
      fixesApplied := s.fixesApplied + r.fixCount
      notConverged := s.notConverged + one (!r.outcome.isConverged)
      conflicts := s.conflicts + r.conflictCount
      defects := s.defects + r.defects.length
      errors := s.errors }

/-- The counts over some files. -/
def ofAnswers (answers : List Answer) : Summary := answers.foldl add {}

end Summary

/-- What a run over files does. -/
inductive Mode
  /-- Look for findings. -/
  | check
  /-- Apply fixes. -/
  | fix
  deriving DecidableEq, Repr

/-- How the program ends. -/
inductive Status
  /-- Nothing is left to do. -/
  | clean
  /-- Nothing is left but fixes to apply. -/
  | fixable
  /-- Something is left that no fix resolves. -/
  | failed
  deriving DecidableEq, Repr

/-- The number of a status. -/
def Status.code : Status → Nat
  | .clean => 0
  | .fixable => 2
  | .failed => 1

/-- Findings that a run leaves behind: in a check, those that have no fix. -/
def Summary.remaining (s : Summary) : Mode → Nat
  | .check => s.findings - s.fixable
  | .fix => s.findings

/-- The status that the counts over all files lead to. -/
def Summary.status (s : Summary) (mode : Mode) : Status :=
  if 0 < s.errors || 0 < s.remaining mode || 0 < s.notConverged then .failed
  else if mode = .check && 0 < s.fixable then .fixable
  else .clean

end PhpStyle.Output
