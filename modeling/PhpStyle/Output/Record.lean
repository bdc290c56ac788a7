import PhpStyle.Output.Json
import PhpStyle.Output.Summary

/-!
# Answers as JSON

The record of a summary, of the answer for a file, and of all answers of a run. Parts of an answer
that are empty or absent are left out.
-/

namespace PhpStyle.Output

/-- The version of the program. -/
def version : String := "0.1.0"

/-- An entry with a list, unless the list is empty. -/
def listEntry {α : Type} (key : String) (write : α → Json) (items : List α) :
    List (String × Json) :=
  if items.isEmpty then [] else [(key, .list (items.map write))]

/-- An entry with the counts of a tally, unless it is empty. -/
def tallyEntry (key : String) (t : Tally) : List (String × Json) :=
  if t.isEmpty then [] else [(key, .record (t.map fun e => (e.1, .number e.2)))]

/-- An entry with a text, if there is one. -/
def textEntry (key : String) (text : Option String) : List (String × Json) :=
  (text.map fun t => (key, Json.text t)).toList

/-- The record of a diagnostic. -/
def diagnosticRecord (d : Diagnostic) : Json :=
  .record [("sniff", .text d.rule), ("code", .text d.code), ("severity", .text d.severity.word),
    ("line", .number d.line), ("column", .number d.column), ("message", .text d.message),
    ("fixable", .flag d.fixable), ("status", .text d.status.word)]

/-- The record of a pass. -/
def passRecord (p : PassSummary) : Json :=
  .record ([("pass", .number p.pass), ("findings", .number p.findings),
    ("applied", .number p.applied)] ++ tallyEntry "fixes" p.fixes ++
    listEntry "conflicted" diagnosticRecord p.conflicted ++
    listEntry "malformed" diagnosticRecord p.malformed)

/-- The record of a defect. -/
def defectRecord (d : Defect) : Json :=
  .record [("sniff", .text d.rule), ("code", .text d.code), ("line", .number d.line),
    ("column", .number d.column), ("reason", .text d.reason)]

/-- The record of what became of a file. -/
def FileAnswer.record (f : FileAnswer) : Json :=
  .record (("path", .text f.path) ::
    match f.answer with
    | .error message => [("error", .text message)]
    | .report _ r =>
      listEntry "diagnostics" diagnosticRecord r.diagnostics ++ tallyEntry "fixes" r.fixes ++
        listEntry "passes" passRecord r.passes ++ listEntry "defects" defectRecord r.defects ++
        textEntry "notice" r.outcome.notice)

/-- The record of the counts over all files. -/
def Summary.record (s : Summary) : Json :=
  .record [("files_processed", .number s.filesProcessed),
    ("files_with_findings", .number s.filesWithFindings), ("files_fixed", .number s.filesFixed),
    ("findings", .number s.findings), ("fixable", .number s.fixable),
    ("fixes_applied", .number s.fixesApplied), ("not_converged", .number s.notConverged),
    ("conflicts", .number s.conflicts), ("defects", .number s.defects),
    ("errors", .number s.errors)]

/-- The record of a run. -/
def runRecord (files : List FileAnswer) : Json :=
  .record [("version", .text version),
    ("summary", (Summary.ofAnswers (files.map (·.answer))).record),
    ("files", .list (files.map (·.record)))]

end PhpStyle.Output
