import PhpStyle.Standard.Layout

/-!
# Heads of functions

Three rules for the declaration of a function. Parameters over several lines end with a comma. The
brace of a named function stands on the line below its declaration, in the column of the declaration
and with nothing behind it. And of a declaration over several lines, the closing parenthesis and the
opening brace stand together on a line of their own; one on a single line goes by the rule before,
save that a method on one line may keep an empty body there.
-/

namespace PhpStyle

namespace TrailingComma

/-- A parameter list over several lines that does not end with a comma. An empty list needs none. -/
def findings (file : File) (i : Nat) : List Finding :=
  let s := file.store
  match s.paren? i with
  | none => []
  | some g =>
    let last := (s.prevVisible? g.closer (some g.opener)).filter (· != g.opener)
    match last with
    | none => []
    | some last =>
      if s.sameLine g.opener g.closer ∨ s.kind last = .comma then []
      else
        [{ code := "MissingTrailingComma", index := last
           message := "Multi-line function declarations must always end with a comma \",\""
           fix := some [.append last ","] }]

/-- The rule for the comma behind the last parameter. -/
def rule : Rule :=
  { name := "Stefna.Functions.ArgumentTrailingComma"
    description := "Multi-line parameter lists end with a comma"
    kinds := [.kwFunction, .closure, .kwFn]
    check := .anywhere findings }

end TrailingComma

namespace BraceBelow

/-- The brace on the line of the declaration: it goes to a new line with the same indentation. -/
def onSameLine (s : Store) (newline : String) (brace : Nat) : List Finding :=
  let first := s.lineStart brace
  let indent := if s.kind first = .whitespace then s.text first else ""
  let clear := if s.kind (brace - 1) = .whitespace then [Edit.replace (brace - 1) ""] else []
  [{ code := "BraceOnSameLine", index := brace
     message := "Opening brace should be on a new line"
     fix := some (.insert brace (newline ++ indent) :: clear) }]

/-- The edits that take away the lines between a declaration that ends at `prev` and its brace. -/
def closeGap (s : Store) (newline : String) (prev brace : Nat) : Changeset :=
  (s.between prev (brace + 1)).filterMap fun p =>
    if !s.sameLine p brace then some (.replace p "")
    else if (s.token p).column = 1 then some (.insert p newline)
    else none

/-- Lines between the declaration, which ends at `prev`, and the brace. A comment among them is left
to the reader. -/
def tooFarBelow (s : Store) (newline : String) (closer prev brace : Nat) : List Finding :=
  let onlyBlank := s.prevVisible? brace (some closer) = some prev
  let blankLines := s.line brace - s.line prev - 1
  [{ code := "BraceSpacing", index := brace
     message := "Opening brace should be on the line after the declaration; " ++
       s!"found {blankLines} blank line(s)"
     fix := if onlyBlank then some (closeGap s newline prev brace) else none }]

/-- Content behind the brace on its line; an empty body is no content. -/
def contentBehind (s : Store) (newline : String) (scope : Group) : List Finding :=
  let brace := scope.opener
  match s.nextVisible? brace none with
  | none => []
  | some next =>
    if s.sameLine next brace ∧ next ≠ scope.closer then
      [{ code := "ContentAfterBrace", index := brace
         message := "Opening brace must be the last content on the line"
         fix := some [.append brace newline] }]
    else []

/-- A brace that is not in the column in which the line of the declaration starts. -/
def indentFindings (settings : Settings) (s : Store) (i brace : Nat) : List Finding :=
  let expected := s.indentOf (s.firstVisible i)
  let found := s.indentOf brace
  if found = expected then []
  else
    [{ code := "BraceIndent", index := brace
       message := s!"Opening brace indented incorrectly; expected {expected} spaces, found {found}"
       fix := some [
         if found = 0 then .insert brace (settings.indent.pad expected)
         else .replace (brace - 1) (settings.indent.pad expected)] }]

/-- What is wrong with the brace of a named function. -/
def findings (settings : Settings) (file : File) (i : Nat) : List Finding :=
  let s := file.store
  let newline := file.newline settings
  match s.scope? i, s.paren? i with
  | some scope, some parens =>
    if s.kind i ≠ .kwFunction then []
    else
      let brace := scope.opener
      let prev := (s.prevCodeDownTo? brace parens.closer).getD parens.closer
      let distance := s.line brace - s.line prev
      let place :=
        if distance = 0 then onSameLine s newline brace
        else if 1 < distance then tooFarBelow s newline parens.closer prev brace
        else []
      place ++ contentBehind s newline scope ++
        if distance = 1 then indentFindings settings s i brace else []
  | _, _ => []

/-- The rule for the brace of a named function. -/
def rule (settings : Settings) : Rule :=
  { name := "Generic.Functions.OpeningFunctionBraceBsdAllman"
    description := "Function opening brace on the line after the declaration"
    kinds := [.kwFunction]
    check := .anywhere (findings settings) }

end BraceBelow

namespace Declaration

/-- The parentheses of the `use` list of a closure. -/
def useParens? (s : Store) (i closer : Nat) : Option Group := do
  guard (s.kind i = .closure)
  let after ← s.next? closer
  let keyword ← s.findNext (.isKind .kwUse) after ((s.scope? i).map (·.opener))
  let opener ← s.findNext (.isKind .openParen) keyword none
  let g ← s.paren? opener
  some { g with opener }

/-- A closing parenthesis of a list over several lines that is not at the start of its line. -/
def closeLine (s : Store) (newline : String) (g : Group) : List Finding :=
  match s.prevVisible? g.closer none with
  | none => []
  | some prev =>
    if s.sameLine g.closer g.opener ∨ ¬ s.sameLine prev g.closer then []
    else
      [{ code := "CloseBracketLine", index := g.closer
         message :=
           "The closing parenthesis of a multi-line function declaration must be on a new line"
         fix := some [.insert g.closer newline] }]

/-- The blank before a brace on the line of the closing parenthesis. -/
def braceBlank (s : Store) (before : Nat) : List Finding :=
  let length := if s.kind before = .whitespace then (s.text before).utf8ByteSize else 0
  if length = 1 then []
  else
    [{ code := "SpaceBeforeOpenBrace", index := before
       message :=
         "There must be a single space between the closing parenthesis and the opening brace of " ++
         "a multi-line function declaration; " ++
         s!"found {length} spaces"
       fix := some [if length = 0 then .append before " " else .replace before " "] }]

/-- The edits that bring a brace from a later line behind the end of the declaration, `prev`. If the
brace was alone on its line, the line goes with it; `lastVisible` is the last token before the brace
that is not whitespace. -/
def raiseBrace (s : Store) (prev lastVisible brace : Nat) : Changeset :=
  let raise := Edit.append prev " \x7b"
  let next := s.nextVisible? brace none
  let alone := s.line lastVisible < s.line brace ∧ next.any fun n => s.line brace < s.line n
  if alone then
    raise :: ((s.between lastVisible (next.getD brace)).filter (s.sameLine · brace)).map
      (Edit.replace · "")
  else
    let gap := next.any fun n => s.sameLine n brace && n != brace + 1
    raise :: .replace brace "" :: if gap then [.replace (brace + 1) ""] else []

/-- A brace that is not on the line of the closing parenthesis. Behind a return type on its own line
it is left to the reader. -/
def braceLine (s : Store) (closer brace : Nat) : List Finding :=
  let prev := (s.prevCodeDownTo? brace closer).getD closer
  let lastVisible := (s.prevVisible? brace (some closer)).getD closer
  [{ code := "NewlineBeforeOpenBrace", index := brace
     message :=
       "The closing parenthesis and the opening brace of a multi-line function declaration must " ++
       "be on the same line"
     fix := if s.sameLine prev brace then none else some (raiseBrace s prev lastVisible brace) }]

/-- What is wrong with a declaration over several lines, with `parens` its parameters. -/
def multiLine (s : Store) (newline : String) (i : Nat) (parens : Group) : List Finding :=
  let use := useParens? s i parens.closer
  let lists := closeLine s newline parens ++ use.toList.flatMap (closeLine s newline)
  let closer := (use.getD parens).closer
  match s.scope? i with
  | none => lists
  | some scope =>
    lists ++
      if s.sameLine scope.opener closer then braceBlank s (scope.opener - 1)
      else braceLine s closer scope.opener

/-- Whether a token is the visibility of a method. -/
def isVisibility (k : Kind) : Bool := k == .kwPublic || k == .kwPrivate || k == .kwProtected

/-- The scope of a method that is declared on one line from its visibility to its closing brace. -/
def oneLineMethod? (s : Store) (i : Nat) : Option Group := do
  let scope ← s.scope? i
  let start := s.statementLineStart i
  let modifier ← if s.kind start = .kwFinal then s.shift? start 2 else some start
  if s.sameLine modifier scope.closer && isVisibility (s.kind modifier) &&
      (s.shift? modifier 4).isSome then some scope
  else none

/-- What is wrong with a declaration on a single line. -/
def singleLine (settings : Settings) (file : File) (i : Nat) : List Finding :=
  let s := file.store
  match oneLineMethod? s i with
  | none => BraceBelow.findings settings file i
  | some scope =>
    if scope.closer = scope.opener + 1 then []
    else if scope.closer = scope.opener + 2 ∧ s.kind (scope.opener + 1) = .whitespace then
      [{ code := "WhiteSpaceBetweenBraces", index := scope.closer
         message := "Whitespace not allowed between braces on empty method"
         fix := some [.replace (scope.opener + 1) ""] }]
    else BraceBelow.findings settings file i

/-- What is wrong with the declaration of a function. -/
def findings (settings : Settings) (file : File) (i : Nat) : List Finding :=
  let s := file.store
  match s.paren? i with
  | none => []
  | some parens =>
    let spans (g : Group) : Bool := !s.sameLine g.opener g.closer
    if spans parens || (useParens? s i parens.closer).any spans then
      multiLine s (file.newline settings) i parens
    else singleLine settings file i

/-- The rule for declarations of functions. -/
def rule (settings : Settings) : Rule :=
  { name := "Stefna.Functions.MultiLineFunctionDeclaration"
    description := "Function declaration brace placement for single and multi-line declarations"
    kinds := [.kwFunction, .closure, .kwFn]
    check := .anywhere (findings settings) }

end Declaration

end PhpStyle
