import PhpStyle.Standard.Layout
import PhpStyle.Text.Case

/-!
# Blanks around `try`, `catch` and `finally`

One blank stands behind the keyword and behind the parentheses of `catch`, the code of a block
starts on the line after its opening brace, and a keyword that follows a closing brace on its line
keeps one blank from it.
-/

namespace PhpStyle.TryCatch

/-- The blank behind the keyword. -/
def keywordBlank (s : Store) (i : Nat) : List Finding :=
  let blank := (s.next? i).filter fun p => s.kind p == .whitespace
  let found := match blank with
    | none => "0"
    | some p => describeBlank (s.text p)
  if found = "1" then []
  else
    [{ code := "SpaceAfterKeyword", index := i
       message := "Expected 1 space(s) after " ++ Text.upper (s.text i) ++ " keyword; " ++ found ++
         " found"
       fix := some [match blank with
         | none => .append i " "
         | some p => .replace p " "] }]

/-- Replace each of these tokens by nothing. -/
def clear (tokens : List Nat) : Changeset := tokens.map (Edit.replace · "")

/-- The edits that bring an opening brace to one blank behind a closing parenthesis. Where a comment
stands between them, the brace moves in front of it, and a line that is left blank behind goes. -/
def joinBrace (s : Store) (closer opener : Nat) (blank : Bool) : Changeset :=
  if closer + 1 = opener then [.append closer " "]
  else if blank then .append closer " " :: clear (s.between closer opener)
  else
    let move := [Edit.append closer (" " ++ s.text opener), .replace opener ""]
    if s.sameLine opener closer then move
    else
      match s.nextVisible? opener none with
      | some next => if s.sameLine next opener then move else move ++ clear (s.between opener next)
      | none => move

/-- The blank between the closing parenthesis and the opening brace. -/
def parenBlank (settings : Settings) (file : File) (i : Nat) : List Finding :=
  let s := file.store
  match s.paren? i, s.scope? i with
  | some parens, some scope =>
    let closer := parens.closer
    let opener := scope.opener
    let content := s.textBetween (closer + 1) (opener - 1)
    let blank := Text.isBlank content
    let found :=
      if blank then describeBlank content
      else "\"" ++ Text.replace content (file.newline settings) "\\n" ++ "\""
    if found = "1" then []
    else
      [{ code := "SpaceAfterCloseParenthesis", index := closer
         message := "Expected 1 space(s) after closing parenthesis; found " ++ found
         fix := some (joinBrace s closer opener blank) }]
  | _, _ => []

/-- Whether a token may stand between an opening brace on a line and the code of its block: blanks,
and on the line itself comments and close tags. -/
def precedesBlock (line : Nat) (t : Token) : Bool :=
  t.kind == .whitespace || (t.kind == .inlineHtml && Text.isBlank t.text) ||
    (t.line == line && (t.isTrivia || t.kind == .closeTag))

/-- The line break behind the opening brace. -/
def braceBreak (settings : Settings) (file : File) (i : Nat) : List Finding :=
  let s := file.store
  match s.scope? i with
  | none => []
  | some scope =>
    let opener := scope.opener
    let line := s.line opener
    match s.findNext (fun t => !precedesBlock line t) (opener + 1) none with
    | none => []
    | some next =>
      if s.line next ≠ line ∨ (s.token next).column = (s.token opener).column + 1 then []
      else
        let blanks := (s.between opener next).takeWhile fun p => Text.isBlank (s.text p)
        [{ code := "NewlineAfterOpenBrace", index := opener
           message := "Newline required after opening brace"
           fix := some (clear blanks ++ [.append opener (file.newline settings)]) }]

/-- The blank between a closing brace and the keyword behind it. A comment in between is left to the
reader. -/
def closeBraceBlank (s : Store) (i : Nat) : List Finding :=
  let follows := s.kind i = .kwCatch ∨ s.kind i = .kwFinally
  let brace := if follows then (s.prevCode? i).filter fun p => s.kind p == .closeCurly else none
  match brace.bind fun closer => (s.next? closer).map fun after => (closer, after) with
  | none => []
  | some (closer, after) =>
    let found :=
      if s.kind after ≠ .whitespace then 0
      else if s.line closer ≠ s.line i ∨ s.text after = " " then 1
      else (s.token after).length
    if found = 1 then []
    else
      let comment := s.findNext (fun t => t.kind.isComment) after (some i)
      [{ code := "SpaceAfterCloseBrace", index := closer
         message := s!"Expected 1 space after closing brace; {found} found"
         fix :=
           if comment.isSome then none
           else some [if found = 0 then .append closer " " else .replace after " "] }]

/-- What is wrong with the blanks around a keyword; one with no code behind it is still being
typed. -/
def findings (settings : Settings) (file : File) (i : Nat) : List Finding :=
  let s := file.store
  if (s.nextCode? i).isNone then []
  else
    keywordBlank s i ++ parenBlank settings file i ++ braceBreak settings file i ++
      closeBraceBlank s i

/-- The rule for blanks around `try`, `catch` and `finally`. -/
def rule (settings : Settings) : Rule :=
  { name := "Stefna.ControlStructures.TryCatchDeclaration"
    description := "Spacing around try, catch and finally declarations"
    kinds := [.kwTry, .kwCatch, .kwFinally]
    check := .anywhere (findings settings) }

end PhpStyle.TryCatch
