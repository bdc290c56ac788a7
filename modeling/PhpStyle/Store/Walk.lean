import PhpStyle.Store.Basic

/-!
# Walking a store

Queries by which rules find their way from one token to another. Every query that may find nothing
answers with an option, so no rule can run past either end of the file.
-/

namespace PhpStyle

/-- A test on tokens. -/
abbrev TokenTest := Token → Bool

namespace TokenTest

/-- Accepts the tokens of one kind. -/
def isKind (k : Kind) : TokenTest := fun t => t.kind == k

/-- Accepts the tokens of these kinds. -/
def oneOf (kinds : List Kind) : TokenTest := fun t => kinds.contains t.kind

/-- Accepts what a test rejects. -/
def except (test : TokenTest) : TokenTest := fun t => !test t

end TokenTest

namespace Store

/-- The first of `count` tokens from an index on that a test accepts. -/
def scanUp (s : Store) (test : TokenTest) : Nat → Nat → Option Nat
  | _, 0 => none
  | i, count + 1 => if test (s.token i) then some i else s.scanUp test (i + 1) count

/-- The last token below an index, and not below `stop`, that a test accepts. -/
def scanDown (s : Store) (test : TokenTest) (stop : Nat) : Nat → Option Nat
  | 0 => none
  | i + 1 =>
    if i < stop then none
    else if test (s.token i) then some i else s.scanDown test stop i

/-- The lowest index from `start` up to and without `stop` whose token passes the test. -/
def findNext (s : Store) (test : TokenTest) (start : Nat) (stop : Option Nat) : Option Nat :=
  s.scanUp test start (min (stop.getD s.size) s.size - start)

/-- The highest index from `stop` up to and with `start` whose token passes the test. -/
def findPrevious (s : Store) (test : TokenTest) (start : Nat) (stop : Option Nat) : Option Nat :=
  s.scanDown test (stop.getD 0) (start + 1)

/-- The first token of code after a token. -/
def nextCode? (s : Store) (i : Nat) : Option Nat :=
  (s.next? i).bind fun j => s.findNext (fun t => !t.isTrivia) j none

/-- The last token of code before a token. -/
def prevCode? (s : Store) (i : Nat) : Option Nat :=
  (s.prev? i).bind fun j => s.findPrevious (fun t => !t.isTrivia) j none

/-- Walk down while tokens start on the line, and keep the last that passes the test. -/
def firstOnLineBelow (s : Store) (test : TokenTest) (line : Nat) :
    Nat → Option Nat → Option Nat
  | 0, found => found
  | i + 1, found =>
    if s.line i < line then found
    else s.firstOnLineBelow test line i (if test (s.token i) then some i else found)

/-- The lowest index up to `i` whose token starts on the line of token `i` and passes the test. -/
def findFirstOnLine (s : Store) (test : TokenTest) (i : Nat) : Option Nat :=
  s.firstOnLineBelow test (s.line i) (i + 1) none

/-- The lowest index that is reached from `i` through tokens that start on the given line. -/
def lineStartBelow (s : Store) (line : Nat) : Nat → Nat
  | 0 => 0
  | i + 1 => if s.line i ≠ line then i + 1 else s.lineStartBelow line i

/-- The first token that starts on the line on which token `i` starts. -/
def lineStart (s : Store) (i : Nat) : Nat :=
  s.lineStartBelow (s.line i) i

/-- The number of characters before the first token on the line of `i` that is not whitespace. -/
def lineIndent (s : Store) (i : Nat) : Nat :=
  match s.findFirstOnLine (.except (.isKind .whitespace)) i with
  | some first => (s.token first).column - 1
  | none => 0

/-- Tokens that end a statement or an item of a list. -/
def endsStatement : Kind → Bool
  | .semicolon | .comma | .closeTag => true
  | _ => false

/-- Owners of scopes that are part of an expression, so that a statement goes on behind them. -/
def isExpressionScope : Kind → Bool
  | .closure | .anonClass | .kwMatch => true
  | _ => false

/-- If the token opens a scope that ends a statement, the brace at which it closes. -/
def statementScopeEnd? (s : Store) (i : Nat) : Option Nat :=
  match s.scope? i with
  | some g => if g.opener = i && !isExpressionScope (s.kind g.owner) then some g.closer else none
  | none => none

/-- If the token opens a group, the later token that closes it. -/
def groupEnd? (s : Store) (i : Nat) : Option { j : Nat // i < j } :=
  if (s.kind i).opensGroup then
    match s.bracketMatch? i with
    | some j => if h : i < j then some ⟨j, h⟩ else none
    | none => none
  else none

/-- Search the end of a statement from token `i`, with `last` the last token of code before it;
`inside` is false at the token where the search began, which never ends its own statement. -/
def statementEndFrom (s : Store) (inside : Bool) (last i : Nat) : Nat :=
  if i < s.size then
    if inside && endsStatement (s.kind i) then i
    else if inside && (s.kind i).closesGroup then last
    else
      match s.statementScopeEnd? i with
      | some j => j
      | none =>
        match s.groupEnd? i with
        | some ⟨j, _⟩ => s.statementEndFrom true j (j + 1)
        | none => s.statementEndFrom true (if (s.token i).isTrivia then last else i) (i + 1)
  else last
  termination_by s.size - i
  decreasing_by all_goals omega

/-- The token that ends the statement at `i`: a `;`, `,` or `?>`, the closing brace of a block, or
the last token of code before the end of the enclosing group. Groups and the scopes of closures,
anonymous classes and `match` are passed over as a whole. -/
def statementEnd (s : Store) (i : Nat) : Nat :=
  s.statementEndFrom false i i

/-- The text of up to `count` tokens from `i` on. -/
def textOf (s : Store) (i count : Nat) : String :=
  String.join ((s.tokens.extract i (i + count)).toList.map (·.text))

/-- The text from token `i` to token `j`, both with it; nothing if `j` comes first. -/
def textBetween (s : Store) (i j : Nat) : String :=
  if j < i then "" else s.textOf i (j - i + 1)

/-- Declarations that have a name of their own. -/
def isNamedDeclaration : Kind → Bool
  | .kwFunction | .kwClass | .kwInterface | .kwTrait | .kwEnum => true
  | _ => false

/-- The name declared by a function, class, interface, trait or enum. A function that returns by
reference has an `&` before its name. -/
def declarationName? (s : Store) (i : Nat) : Option String := do
  guard (isNamedDeclaration (s.kind i))
  let next ← s.nextCode? i
  let next ← if s.kind next = .bitwiseAnd then s.nextCode? next else some next
  if s.kind next = .identifier then some (s.text next) else none

end Store

end PhpStyle
