import PhpStyle.Diff.Unified
import PhpStyle.Output.Record
import PhpStyle.Output.Text
import PhpStyle.Text.Case

/-!
# Output formats

The three ways to write the answers of a run: as text for a reader, as one JSON document at the end,
or as unified diffs of the files that change.
-/

namespace PhpStyle.Output

/-- A way to write answers. -/
inductive Format
  | text
  | json
  | diff
  deriving DecidableEq, Repr

namespace Format

/-- The word for a format. -/
def word : Format → String
  | .text => "text"
  | .json => "json"
  | .diff => "diff"

/-- The format that a word names, in either case. -/
def ofText? (text : String) : Option Format :=
  [Format.text, .json, .diff].find? fun f => f.word = PhpStyle.Text.lower text

end Format

/-- Something that a program prints. -/
inductive Print
  /-- Text on the standard output. -/
  | out (text : String)
  /-- Text on the standard error output. -/
  | err (text : String)
  deriving DecidableEq, Repr

namespace Print

/-- A line on the standard output. -/
def line (text : String) : Print := .out (text ++ "\n")

/-- A line on the standard error output. -/
def errorLine (text : String) : Print := .err (text ++ "\n")

/-- The text that prints leave on the standard output. -/
def outText (prints : List Print) : String :=
  String.join (prints.filterMap fun
    | .out text => some text
    | .err _ => none)

/-- The text that prints leave on the standard error output. -/
def errText (prints : List Print) : String :=
  String.join (prints.filterMap fun
    | .out _ => none
    | .err text => some text)

end Print

/-- What is printed as soon as a file has its answer. -/
def filePrints (format : Format) (verbose : Bool) (f : FileAnswer) : List Print :=
  match format, f.answer with
  | .text, .error message => [.errorLine s!"Warning: {f.path} - {message}"]
  | .text, .report before r => (reportLines verbose f.path before r).map .line
  | .diff, .report before r =>
    if r.changed before then [.out (Diff.unified f.path before r.source)] else []
  | _, _ => []

/-- What is printed at the end of a run. -/
def finalPrints (format : Format) (mode : Mode) (files : List FileAnswer) : List Print :=
  match format with
  | .text => ((Summary.ofAnswers (files.map (·.answer))).lines mode).map .line
  | .json => [.line ((runRecord files).render 0)]
  | .diff => []

end PhpStyle.Output
