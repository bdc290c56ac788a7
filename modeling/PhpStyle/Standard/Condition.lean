import PhpStyle.Standard.Layout

/-!
# Conditions of control structures

Two rules for what stands between the parentheses of a control structure. The strict one wants no
blanks inside the parentheses of a single line. Over several lines the condition starts on the line
behind `(`, is indented once more than the structure, and `)` stands alone on a line under the start
of the structure. The lenient one lets a single expression in an `if` start right behind `(`, and
then wants `)` right behind its end.
-/

namespace PhpStyle.Condition

/-- Columns by which a condition over several lines is indented. -/
def indentWidth (settings : Settings) : Nat :=
  match settings.number? "control_structure_spacing.indent" with
  | some (.ofNat n) => n
  | _ => settings.indent.width

/-- Texts whose lines are not to be indented. -/
def isTextKind : Kind → Bool
  | .quotedString | .interpolatedString | .inlineHtml | .heredoc => true
  | _ => false

/-- The last token between the parentheses that is not whitespace, or the opening one. -/
def lastExpression (s : Store) (g : Group) : Nat :=
  (s.prevVisible? g.closer (some g.opener)).getD g.opener

/-- The first of several equal beginnings of a text taken off, again and again. -/
def dropRepeated (start : List Char) (n : Nat) (text : List Char) : List Char :=
  match n with
  | 0 => text
  | n + 1 => if start.isPrefixOf text then dropRepeated start n (text.drop start.length) else text

/-- Number of characters of a text behind the line breaks that it starts with. -/
def lengthBehindBreaks (newline text : String) : Nat :=
  (dropRepeated newline.toList text.length text.toList).length

/-- A blank behind the opening parenthesis of a single line, unless a comment follows it. -/
def openBlank (s : Store) (g : Group) : List Finding :=
  let after := g.opener + 1
  let content := s.findNext (.except (.isKind .whitespace)) after none
  if s.kind after = .whitespace ∧ ¬ (content.any fun p => (s.kind p).isComment) then
    [{ code := "SpacingAfterOpenBrace", index := after
       message := "Expected 0 spaces after opening bracket; " ++ describeBlank (s.text after) ++
         " found"
       fix := some [.replace after ""] }]
  else []

/-- A blank before the closing parenthesis of a single line. -/
def closeBlank (s : Store) (newline : String) (g : Group) : List Finding :=
  let before := g.closer - 1
  let found := lengthBehindBreaks newline (s.text before)
  if s.sameLine (lastExpression s g) g.closer ∧ s.kind before = .whitespace ∧ found ≠ 0 then
    [{ code := "SpaceBeforeCloseBrace", index := before
       message := s!"Expected 0 spaces before closing bracket; {found} found"
       fix := some [.replace before ""] }]
  else []

/-- The first expression, `next`, stands on the line behind the opening parenthesis. -/
def firstLine (s : Store) (newline : String) (g : Group) (next : Nat) : List Finding :=
  if s.line next = s.line g.opener + 1 then []
  else
    let extra :=
      if s.line g.opener + 1 < s.line next then
        (s.between g.opener next).takeWhile fun p => !s.sameLine p next
      else []
    [{ code := "FirstExpressionLine", index := next
       message :=
         "The first expression of a multi-line control structure must be on the line after the " ++
         "opening parenthesis"
       fix := some (extra.map Edit.delete ++ [.append g.opener newline]) }]

/-- The indentation that a line starting with a token lacks, given what is required. A line of a
comment or of a longer text is left alone, and so is an empty one. -/
def missingIndent? (s : Store) (g : Group) (required i : Nat) : Option Nat :=
  let t := s.token i
  if t.column ≠ 1 ∨ t.line < s.line (i + 1) ∨ t.kind.isComment ∨ i + 1 = g.closer ∨
      isTextKind t.kind then
    none
  else
    let found := if t.kind = .whitespace then t.length else 0
    if found < required then some found else none

/-- Every line between the parentheses is indented by the required number of columns. -/
def lineIndents (s : Store) (style : IndentStyle) (g : Group) (required : Nat) : List Finding :=
  (List.range' g.opener (g.closer - g.opener)).filterMap fun i =>
    (missingIndent? s g required i).map fun found =>
      { code := "LineIndent", index := i
        message := "Each line in a multi-line control structure must be indented at least once; " ++
          s!"expected at least {required} spaces, but found {found}"
        fix := some [
          if found = 0 then .insert i (style.pad required) else .replace i (style.pad required)] }

/-- The closing parenthesis stands on the line behind the last expression, `prev`. -/
def closeLine (s : Store) (newline : String) (g : Group) (prev : Nat) : List Finding :=
  if s.line g.closer = s.line prev + 1 then []
  else
    [{ code := "CloseParenthesisLine", index := g.closer
       message :=
         "The closing parenthesis of a multi-line control structure must be on the line after " ++
         "the last expression"
       fix := some (
         if s.sameLine g.closer prev then [.insert g.closer newline]
         else (s.onLinesBetween (s.line prev) (s.line g.closer) (s.between prev g.closer)).map
           Edit.delete) }]

/-- A closing parenthesis on a line of its own stands under `first`, where the structure starts. -/
def closeIndent (s : Store) (style : IndentStyle) (g : Group) (first prev : Nat) : List Finding :=
  let required := s.indentOf first
  let found := s.indentOf g.closer
  if s.sameLine g.closer prev ∨ found = required then []
  else
    [{ code := "CloseParenthesisIndent", index := g.closer
       message :=
         "The closing parenthesis of a multi-line control structure must be indented to the " ++
         "same level as start of the control structure; " ++
         s!"expected {required} spaces but found {found}"
       fix := some [
         if found ≠ 0 ∧ 0 < g.closer then .replace (g.closer - 1) (style.pad required)
         else .insert g.closer (style.pad required)] }]

/-- What the strict rule finds at a control structure. -/
def strictFindings (settings : Settings) (file : File) (i : Nat) : List Finding :=
  let s := file.store
  let newline := file.newline settings
  match s.paren? i with
  | none => []
  | some g =>
    if s.sameLine g.opener g.closer then openBlank s g ++ closeBlank s newline g
    else
      match s.nextVisible? g.opener (some g.closer) with
      | none => []
      | some next =>
        let first := s.firstVisible i
        let prev := lastExpression s g
        firstLine s newline g next ++
          lineIndents s settings.indent g (s.indentOf first + indentWidth settings) ++
          closeLine s newline g prev ++ closeIndent s settings.indent g first prev

/-- The closing parenthesis of a single expression is not on the line behind its end. -/
def joinClose (s : Store) (g : Group) (prev : Nat) : List Finding :=
  if s.line g.closer = s.line prev + 1 then
    let start := (s.shift? g.closer (-2)).getD g.opener
    [{ code := "CloseParenthesisLine", index := g.closer
       message :=
         "The closing parenthesis of a multi-line control structure must be on the same line as " ++
         "the last expression"
       fix := (s.findPrevious (.isKind .whitespace) g.closer (some start)).map fun p =>
         [.replace p ""] }]
  else []

/-- What the lenient rule finds at an `if` with a single expression that starts right behind `(`. -/
def singleExpression (settings : Settings) (s : Store) (i : Nat) (g : Group) : List Finding :=
  let first := s.firstVisible i
  let prev := lastExpression s g
  lineIndents s settings.indent g (s.indentOf first) ++ joinClose s g prev ++
    closeIndent s settings.indent g first prev

/-- Whether the condition of an `if` starts on the line behind `(`, at `next`, or joins several
expressions. -/
def isPlain (s : Store) (g : Group) (next : Nat) : Bool :=
  s.line next == s.line g.opener + 1 ||
    (s.findNext (fun t => t.kind.isBooleanOperator) g.opener (some g.closer)).isSome

/-- What the lenient rule finds at a control structure. -/
def lenientFindings (settings : Settings) (file : File) (i : Nat) : List Finding :=
  let s := file.store
  match s.paren? i with
  | none => []
  | some g =>
    if s.kind i ≠ .kwIf ∨ s.sameLine g.opener g.closer then strictFindings settings file i
    else
      match s.nextVisible? g.opener (some g.closer) with
      | none => []
      | some next =>
        if isPlain s g next then strictFindings settings file i
        else singleExpression settings s i g

/-- Keywords of structures with a condition. -/
def kinds : List Kind :=
  [.kwIf, .kwWhile, .kwForeach, .kwFor, .kwSwitch, .kwElseIf, .kwCatch, .kwMatch]

/-- The strict rule for conditions. -/
def strictRule (settings : Settings) : Rule :=
  { name := "PSR12.ControlStructures.ControlStructureSpacing"
    description := "Spacing and line layout inside control structure parentheses"
    kinds
    check := .anywhere (strictFindings settings) }

/-- The lenient rule for conditions. -/
def rule (settings : Settings) : Rule :=
  { name := "Stefna.ControlStructures.ControlStructureSpacing"
    description := "PSR-12 control structure spacing, allowing a wrapped single expression in if"
    kinds
    check := .anywhere (lenientFindings settings) }

end PhpStyle.Condition
