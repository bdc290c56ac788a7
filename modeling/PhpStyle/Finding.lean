import PhpStyle.Edit.Changeset

/-!
# Findings

A `Finding` is a problem that a rule saw at a token of a store. A `Diagnostic` is what is left of it
when the store is gone: its position as line and column, and what became of its fix. A `Defect` is a
fault of a rule itself.
-/

namespace PhpStyle

/-- How much a finding matters. -/
inductive Severity
  | error
  | warning
  deriving DecidableEq, Repr

/-- The word for a severity. -/
def Severity.word : Severity → String
  | .error => "error"
  | .warning => "warning"

/-- A problem at one token, with the changeset that would resolve it. -/
structure Finding where
  /-- Name of the rule; put in when the rule is run. -/
  rule : String := ""
  /-- Code of the problem, unique within the rule. -/
  code : String
  severity : Severity := .error
  /-- Index of the token. -/
  index : Nat
  message : String
  fix : Option Changeset := none
  deriving DecidableEq, Repr

namespace Finding

/-- Whether the finding comes with a fix. -/
def fixable (f : Finding) : Bool := f.fix.isSome

/-- Rule and code. -/
def fullCode (f : Finding) : String := f.rule ++ "." ++ f.code

end Finding

/-- What became of the fix of a finding. -/
inductive FixStatus
  /-- There is no fix. -/
  | notFixable
  /-- There is a fix, and it has not been applied. -/
  | unapplied
  /-- The fix has been applied. -/
  | applied
  /-- An earlier fix of the same pass edits one of the tokens. -/
  | conflicted
  /-- The fix edits a token twice. -/
  | malformed
  deriving DecidableEq, Repr

/-- The word for a status. -/
def FixStatus.word : FixStatus → String
  | .notFixable => "not_fixable"
  | .unapplied => "unapplied"
  | .applied => "applied"
  | .conflicted => "conflicted"
  | .malformed => "malformed"

/-- A finding apart from its store. -/
structure Diagnostic where
  rule : String
  code : String
  severity : Severity
  line : Nat
  column : Nat
  message : String
  fixable : Bool
  status : FixStatus
  deriving DecidableEq, Repr

/-- A finding in a store, detached with a status. -/
def Finding.detach (f : Finding) (store : Store) (status : FixStatus) : Diagnostic :=
  let t := store.token f.index
  { rule := f.rule, code := f.code, severity := f.severity, line := t.line, column := t.column
    message := f.message, fixable := f.fixable, status := status }

namespace Diagnostic

/-- Rule and code. -/
def fullCode (d : Diagnostic) : String := d.rule ++ "." ++ d.code

/-- Two diagnostics report the same problem if rule, code and message agree; positions move while
other fixes are applied. -/
def sameProblem (a b : Diagnostic) : Bool :=
  a.rule == b.rule && a.code == b.code && a.message == b.message

end Diagnostic

/-- A fault of a rule, seen while its fix was applied. -/
structure Defect where
  rule : String
  code : String
  line : Nat
  column : Nat
  reason : String
  deriving DecidableEq, Repr

/-- The wording of a defect. -/
def Defect.message (d : Defect) : String :=
  s!"{d.rule}.{d.code} at {d.line}:{d.column}: {d.reason}"

end PhpStyle
