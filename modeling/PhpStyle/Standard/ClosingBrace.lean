import PhpStyle.Standard.Layout

/-!
# Closing braces

The closing brace of every scope stands on a line of its own, under the start of the line that
opened the scope. A scope on one line is allowed for an empty `catch`, for an anonymous class that
is thrown, and for a constructor. A constructor promotes one property on each line, and one that
does nothing else has its braces next to each other.
-/

namespace PhpStyle.ClosingBrace

/-- Keywords that say who may use a member. -/
def isVisibility : Kind → Bool
  | .kwPublic | .kwProtected | .kwPrivate => true
  | _ => false

/-- An empty `catch` that names no variable: there is no blank between its parentheses. -/
def isBareCatch (s : Store) (lineStart : Nat) (scope : Group) : Bool :=
  s.kind lineStart == .kwCatch &&
    (s.token scope.closer).column == (s.token scope.opener).column + 1 &&
    match s.shift? lineStart 2 with
    | none => false
    | some paren =>
      match s.paren? paren with
      | none => false
      | some g => (s.findNext (.isKind .whitespace) paren (some g.closer)).isNone

/-- An anonymous class that is thrown where it stands. -/
def isThrownClass (s : Store) (lineStart : Nat) : Bool :=
  s.kind lineStart == .kwThrow &&
    (s.shift? lineStart 4).any fun p => s.kind p == .anonClass

/-- The visibility with which a member starts, past `final`. -/
def visibility? (s : Store) (lineStart : Nat) : Option Nat :=
  if s.kind lineStart = .kwFinal then s.shift? lineStart 2 else some lineStart

/-- A constructor with its visibility in front. -/
def isConstructor (s : Store) (lineStart : Nat) : Bool :=
  (visibility? s lineStart).any fun m =>
    isVisibility (s.kind m) && (s.shift? m 4).any fun p => s.text p == "__construct"

/-- Whether a scope may close on the line of its content. -/
def mayShareLine (s : Store) (lineStart : Nat) (scope : Group) : Bool :=
  isBareCatch s lineStart scope || isThrownClass s lineStart || isConstructor s lineStart

/-- Report promoted properties on a line that is occupied already. -/
def promotions (s : Store) (newline : String) (occupied : List Nat) : List Nat → List Finding
  | [] => []
  | p :: rest =>
    if occupied.contains (s.line p) then
      { code := "ConstructorPropertyPromotion", index := p
        message := "Property promotions needs to be on a separate line"
        fix := some [.insert p newline] } :: promotions s newline occupied rest
    else promotions s newline (s.line p :: occupied) rest

/-- Whether the braces of a scope stand next to each other. -/
def bracesTouch (s : Store) (scope : Group) : Bool :=
  s.sameLine scope.opener scope.closer &&
    (s.token scope.opener).column + 1 == (s.token scope.closer).column

/-- What is wrong with a constructor. -/
def constructorFindings (s : Store) (newline : String) (i : Nat) (scope : Group) : List Finding :=
  let promoted := match s.paren? i with
    | none => []
    | some g =>
      promotions s newline [s.line i]
        ((s.between g.opener g.closer).filter fun p => isVisibility (s.kind p))
  let body := s.between scope.opener scope.closer
  let braces :=
    if bracesTouch s scope || body.any fun p => s.kind p != .whitespace then []
    else
      [{ code := "ConstructorBrackets", index := scope.opener
         message :=
           "Constructor with only property promotions should have the curly brackets next to " ++
           "each other"
         fix := some (body.map (Edit.replace · "")) }]
  promoted ++ braces

/-- A closing brace that is not in the column in which the scope's line starts. Missing columns are
put in front of its line; extra ones are cut off the end of what stands there. -/
def indentFindings (settings : Settings) (s : Store) (lineStart closer : Nat) : List Finding :=
  let first := s.firstContent closer
  let expected := s.indentOf lineStart
  let found := s.indentOf first
  if found = expected then []
  else
    let fix :=
      if found < expected then some [Edit.insert first (settings.indent.pad (expected - found))]
      else (s.prev? first).map fun p =>
        let text := (s.text p).toList
        [Edit.replace p (String.ofList (text.take (text.length - (found - expected))))]
    [{ code := "Indent", index := closer
       message := s!"Closing brace indented incorrectly; expected {expected} spaces, found {found}"
       fix }]

/-- The token from which a scope's line is measured, and whether its indentation is to be checked. A
line that starts with closing braces is measured from what follows them, and not checked. -/
def lineStart? (s : Store) (i : Nat) : Option (Nat × Bool) :=
  let start := s.statementLineStart i
  if s.kind start = .closeCurly then
    (s.findNext (.except (.oneOf [.whitespace, .closeCurly])) start none).map fun p => (p, false)
  else some (start, true)

/-- The last content of a scope before its closing brace, or the opening brace. -/
def lastContent (s : Store) (scope : Group) : Nat :=
  ((s.prev? scope.closer).bind fun p =>
    s.findPrevious (.except (.oneOf [.inlineHtml, .whitespace, .openTag])) p
      (some scope.opener)).getD scope.opener

/-- What is wrong with the closing brace of the scope that a token owns. -/
def findings (settings : Settings) (file : File) (i : Nat) : List Finding :=
  let s := file.store
  let newline := file.newline settings
  match s.scope? i with
  | none => []
  | some scope =>
    match lineStart? s i with
    | none => []
    | some (lineStart, checkIndent) =>
      if s.sameLine (lastContent s scope) scope.closer && !mayShareLine s lineStart scope then
        [{ code := "ContentBefore", index := scope.closer
           message := "Closing brace must be on a line by itself"
           fix := some [.insert scope.closer newline] }]
      else
        let constructor_ :=
          if s.kind i = .kwFunction ∧ s.declarationName? i = some "__construct" then
            constructorFindings s newline i scope
          else []
        constructor_ ++ if checkIndent then indentFindings settings s lineStart scope.closer else []

/-- The rule for closing braces. -/
def rule (settings : Settings) : Rule :=
  { name := "Stefna.ControlStructures.ScopeClosingBrace"
    description := "Closing brace on its own line, indented to the start of the scope"
    kinds := [.kwClass, .anonClass, .kwInterface, .kwTrait, .kwEnum, .kwNamespace,
      .kwFunction, .closure, .kwIf, .kwElseIf, .kwElse, .kwWhile, .kwFor, .kwForeach, .kwDo,
      .kwSwitch, .kwTry, .kwCatch, .kwFinally, .kwDeclare, .kwMatch]
    check := .anywhere (findings settings) }

end PhpStyle.ClosingBrace
