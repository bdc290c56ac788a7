import PhpStyle.Finding
import PhpStyle.Run.Tally
import PhpStyle.Store.Build

/-!
# Reports

What a run over a file answers: how it ended, the final text, the diagnostics, and a summary of
every pass that changed the text. A run fails only if a text cannot be tokenized or edited.
-/

namespace PhpStyle

/-- Why a text has no tokens. -/
inductive TokenizeError
  /-- The structure declared for the tokens does not fit them. -/
  | badStructure (cause : StructureError)
  /-- The text breaks a rule of its language. -/
  | badText (line : Nat) (message : String)
  /-- The tokens do not spell the text; they depart from it at an offset in bytes. -/
  | differs (offset : Nat)
  deriving DecidableEq, Repr

/-- The wording of a tokenize error. -/
def TokenizeError.message : TokenizeError → String
  | .badStructure cause => "Invalid structure: " ++ cause.message
  | .badText line message => s!"Cannot tokenize line {line}: {message}"
  | .differs offset => s!"Tokens do not reproduce the source from byte {offset}"

/-- Why a run stopped at a pass without a report. -/
inductive RunError
  | tokenize (pass : Nat) (cause : TokenizeError)
  | edit (pass : Nat) (cause : SpliceError)
  deriving DecidableEq, Repr

namespace RunError

/-- The wording of a run error. -/
def message : RunError → String
  | .tokenize pass cause => s!"Tokenizing failed on pass {pass}: " ++ cause.message
  | .edit pass cause => s!"Applying fixes failed on pass {pass}: " ++ cause.message

/-- The pass at which the run stopped, counted from one. -/
def pass : RunError → Nat
  | .tokenize pass _ => pass
  | .edit pass _ => pass

end RunError

/-- How a run ended. -/
inductive Outcome
  /-- The text was looked at once and not changed. -/
  | checked
  /-- The last of so many passes changed nothing. -/
  | converged (passes : Nat)
  /-- All of so many passes changed the text. -/
  | didNotConverge (passes : Nat)
  deriving DecidableEq, Repr

namespace Outcome

/-- Number of passes. -/
def passes : Outcome → Nat
  | .checked => 1
  | .converged passes => passes
  | .didNotConverge passes => passes

/-- Whether the run ended before its budget of passes. -/
def isConverged : Outcome → Bool
  | .didNotConverge _ => false
  | _ => true

/-- What to tell a reader about a run that did not converge. -/
def notice : Outcome → Option String
  | .didNotConverge passes =>
    some (s!"fixes did not converge after {passes} passes; " ++
      "the file may contain rules fighting each other")
  | _ => none

end Outcome

/-- What one pass that changed the text did. -/
structure PassSummary where
  /-- Number of the pass, counted from one. -/
  pass : Nat
  /-- Number of findings. -/
  findings : Nat
  /-- Number of fixes applied. -/
  applied : Nat
  /-- Findings whose fix lost a token to another. -/
  conflicted : List Diagnostic
  /-- Findings whose fix edits a token twice. -/
  malformed : List Diagnostic
  /-- Fixes applied, by rule and code. -/
  fixes : Tally
  deriving DecidableEq, Repr

/-- The answer of a run over one file. -/
structure Report where
  outcome : Outcome
  /-- The final text. -/
  source : String
  /-- Findings in the final text, and behind them those whose fix was turned down in an earlier pass
  and that the final text no longer shows. -/
  diagnostics : List Diagnostic
  /-- Fixes applied in all passes, by rule and code. -/
  fixes : Tally := []
  passes : List PassSummary := []
  defects : List Defect := []
  deriving DecidableEq, Repr

namespace Report

/-- Number of fixes applied in all passes. -/
def fixCount (r : Report) : Nat := r.fixes.total

/-- Number of diagnostics with a fix. -/
def fixableCount (r : Report) : Nat := r.diagnostics.countP (·.fixable)

/-- Number of fixes turned down in all passes for an earlier one. -/
def conflictCount (r : Report) : Nat := r.passes.foldl (fun n p => n + p.conflicted.length) 0

/-- Whether the run changed a text. -/
def changed (r : Report) (before : String) : Bool := r.source != before

end Report

end PhpStyle
