import PhpStyle.Standard.ArrayLiteral
import PhpStyle.Standard.ClosingBrace
import PhpStyle.Standard.Condition
import PhpStyle.Standard.Continuation
import PhpStyle.Standard.DocComment
import PhpStyle.Standard.FileHeader
import PhpStyle.Standard.FunctionHead
import PhpStyle.Standard.MethodName
import PhpStyle.Standard.TryCatch

/-!
# The catalogue of rules

All rules of the standard in a fixed order, and ways to choose among them. The order decides which
rule wins when two fixes touch one token.
-/

namespace PhpStyle

/-- Why rules cannot be chosen. -/
inductive ChoiceError
  | unknownRule (name : String)
  | unknownPreset (name : String)
  deriving DecidableEq, Repr

/-- The wording of a choice error. -/
def ChoiceError.message : ChoiceError → String
  | .unknownRule name => "unknown sniff: " ++ name
  | .unknownPreset name => "unknown preset: " ++ name

namespace Catalogue

/-- The rules of the standard under some settings, in order. -/
def rules (settings : Settings) : List Rule :=
  [FileHeader.rule settings, ArrayLiteral.rule, BracePlacement.rule settings,
   TryCatch.rule settings, Continuation.rule, Condition.rule settings, ClosingBrace.rule settings,
   TrailingComma.rule, Declaration.rule settings, DocComment.rule settings, MethodName.rule]

/-- The general rules that some rules of the standard fall back to. -/
def generalRules (settings : Settings) : List Rule :=
  [DocLayout.rule settings, Condition.strictRule settings, BraceBelow.rule settings]

/-- The rule with a name. -/
def find? (rules : List Rule) (name : String) : Option Rule :=
  rules.find? fun r => r.name == name

/-- The rules with these names, in the order of the list of rules; the first name that no rule has
is an error. -/
def select (rules : List Rule) (names : List String) : Except ChoiceError (List Rule) :=
  match names.find? fun n => (find? rules n).isNone with
  | some name => .error (.unknownRule name)
  | none => .ok (rules.filter fun r => names.contains r.name)

/-- The names of the rules of the Stefna preset. -/
def stefnaNames : List String :=
  ["Stefna.Files.FileHeader", "Generic.Arrays.DisallowLongArraySyntax",
   "Stefna.ControlStructures.BracketPlacement", "Stefna.ControlStructures.TryCatchDeclaration",
   "Stefna.ControlStructures.ElseCatch", "Stefna.ControlStructures.ControlStructureSpacing",
   "Stefna.ControlStructures.ScopeClosingBrace", "Stefna.Functions.ArgumentTrailingComma",
   "Stefna.Functions.MultiLineFunctionDeclaration", "Stefna.Commenting.DocComment",
   "Stefna.Naming.CamelCapsMethodName"]

/-- The rule names of a preset. Its name may be written in either case and with `@` in front. -/
def presetNames? (preset : String) : Option (List String) :=
  let name := String.ofList (preset.toList.dropWhile (· == '@'))
  if Text.lower name = "stefna" then some stefnaNames else none

/-- The rules of a preset. -/
def selectPreset (rules : List Rule) (preset : String) : Except ChoiceError (List Rule) :=
  match presetNames? preset with
  | none => .error (.unknownPreset preset)
  | some names => select rules names

end Catalogue

end PhpStyle
