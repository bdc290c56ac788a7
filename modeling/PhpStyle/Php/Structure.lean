import PhpStyle.Store.Build

/-!
# The structure of PHP code

Pairs brackets, finds the keyword to which parentheses belong and the braces of every declaration
and control structure, and pairs the ends of documentation comments. Code need not be balanced: a
closing bracket without partner stays alone, and brackets still open when an enclosing one closes
are given up, so the pairs always nest.
-/

namespace PhpStyle.Php

/-- The lexemes of a file with the partner of each bracket, by index. -/
structure Skeleton where
  kinds : Array Kind
  partners : Array (Option Nat)

namespace Brackets

/-- Whether a closing bracket closes groups opened by such a bracket. -/
def fits (closer opener : Kind) : Bool :=
  match closer with
  | .closeCurly => opener == .openCurly
  | .closeParen => opener == .openParen
  | _ => opener == .openSquare || opener == .attribute

/-- Look for the partner of a closing bracket among the open ones, innermost first, and give up
those inside it. Only a closing brace reaches past an open one. -/
def closeIn (closer : Kind) : List (Nat × Kind) → Option (Nat × List (Nat × Kind))
  | [] => none
  | (i, opener) :: outer =>
    if fits closer opener then some (i, outer)
    else if opener = .openCurly then none
    else closeIn closer outer

/-- Pair the brackets of kinds given with their index, where `stack` holds the open ones. -/
def pairFrom (stack : List (Nat × Kind)) : List (Kind × Nat) → List (Nat × Nat)
  | [] => []
  | (kind, i) :: rest =>
    if kind.opensGroup then pairFrom ((i, kind) :: stack) rest
    else if kind.closesGroup then
      match closeIn kind stack with
      | some (opener, outer) => (opener, i) :: pairFrom outer rest
      | none => pairFrom stack rest
    else pairFrom stack rest

/-- The pairs of brackets, in the order in which they close. -/
def pair (kinds : List Kind) : List (Nat × Nat) :=
  pairFrom [] kinds.zipIdx

/-- The partner of each token of a file of this size. -/
def partners (size : Nat) (pairs : List (Nat × Nat)) : Array (Option Nat) :=
  pairs.foldl (fun acc p => (acc.setIfInBounds p.1 (some p.2)).setIfInBounds p.2 (some p.1))
    (Array.replicate size none)

end Brackets

namespace Skeleton

/-- The kind at an index; past the end no kind that the structure knows. -/
def kind (s : Skeleton) (i : Nat) : Kind := s.kinds[i]?.getD .unknown

/-- The partner of a bracket. -/
def partner? (s : Skeleton) (i : Nat) : Option Nat := s.partners[i]?.join

/-- The first of `count` indexes from `i` on whose kind passes a test. -/
def scanUp (s : Skeleton) (test : Kind → Bool) : Nat → Nat → Option Nat
  | _, 0 => none
  | i, count + 1 => if test (s.kind i) then some i else s.scanUp test (i + 1) count

/-- The last index below `i` whose kind passes a test. -/
def scanDown (s : Skeleton) (test : Kind → Bool) : Nat → Option Nat
  | 0 => none
  | i + 1 => if test (s.kind i) then some i else s.scanDown test i

/-- The first index behind `i` whose kind passes a test. -/
def after? (s : Skeleton) (test : Kind → Bool) (i : Nat) : Option Nat :=
  s.scanUp test (i + 1) (s.kinds.size - (i + 1))

/-- The next index of code. -/
def nextCode? (s : Skeleton) (i : Nat) : Option Nat := s.after? (fun k => !k.isTrivia) i

/-- The previous index of code. -/
def prevCode? (s : Skeleton) (i : Nat) : Option Nat := s.scanDown (fun k => !k.isTrivia) i

/-- Keywords whose condition in parentheses stands between them and their block. -/
def hasCondition : Kind → Bool
  | .kwIf | .kwElseIf | .kwWhile | .kwFor | .kwForeach | .kwSwitch | .kwCatch | .kwMatch
  | .kwDeclare => true
  | _ => false

/-- Keywords that own the parentheses right behind them. -/
def ownsParens (k : Kind) : Bool :=
  hasCondition k || match k with
    | .kwArray | .kwList | .kwIsset | .kwUnset | .kwEmpty | .anonClass | .closure | .kwFn => true
    | _ => false

/-- Keywords whose block stands right behind them. -/
def isBare : Kind → Bool
  | .kwElse | .kwTry | .kwFinally | .kwDo => true
  | _ => false

/-- The previous index of code if its kind passes a test. -/
def prevCodeIf? (s : Skeleton) (test : Kind → Bool) (i : Nat) : Option Nat :=
  (s.prevCode? i).filter fun p => test (s.kind p)

/-- The function to which parentheses behind its name belong; the name may follow an `&`. -/
def functionOfName? (s : Skeleton) (name : Nat) : Option Nat :=
  let before := (s.prevCodeIf? (· == .bitwiseAnd) name).getD name
  s.prevCodeIf? (· == .kwFunction) before

/-- The keyword to which the parentheses opened at an index belong, or that index itself. -/
def parenOwner (s : Skeleton) (opener : Nat) : Nat :=
  match s.prevCode? opener with
  | none => opener
  | some prev =>
    if ownsParens (s.kind prev) then prev
    else
      let owner := match s.kind prev with
        | .kwUse => (s.prevCodeIf? (· == Kind.closeParen) prev).map fun _ => prev
        | .bitwiseAnd => s.prevCodeIf? (fun k => k == Kind.closure || k == Kind.kwFn) prev
        | .identifier => s.functionOfName? prev
        | _ => none
      owner.getD opener

/-- The index itself if it opens a paired brace that no scope has taken. -/
def freeCurly? (s : Skeleton) (taken : List Nat) (i : Nat) : Option Nat :=
  if s.kind i = .openCurly ∧ (s.partner? i).isSome ∧ ¬ taken.contains i then some i else none

/-- The first opening brace from `i` on within the statement, past whole groups. -/
def blockFrom? (s : Skeleton) (taken : List Nat) (i : Nat) : Option Nat :=
  if i < s.kinds.size then
    match s.kind i with
    | .openCurly => s.freeCurly? taken i
    | .semicolon | .closeCurly | .closeTag => none
    | .openParen | .openSquare | .attribute =>
      match s.partner? i with
      | some j => if i < j then s.blockFrom? taken (j + 1) else none
      | none => none
    | _ => s.blockFrom? taken (i + 1)
  else none
  termination_by s.kinds.size - i
  decreasing_by all_goals omega

/-- The block behind the parentheses opened at an index. -/
def blockPastParens? (s : Skeleton) (opener : Nat) : Option Nat :=
  (s.partner? opener).bind s.nextCode?

/-- The opening brace of the scope that a token owns, given the braces taken by earlier scopes. -/
def scopeOpener? (s : Skeleton) (taken : List Nat) (owner : Nat) : Option Nat :=
  let kind := s.kind owner
  if isBare kind then (s.nextCode? owner).bind (s.freeCurly? taken)
  else if hasCondition kind then do
    let opener ← s.nextCode? owner
    guard (s.kind opener = .openParen)
    let block ← s.blockPastParens? opener
    s.freeCurly? taken block
  else if kind = .kwFunction ∨ kind = .closure then do
    let opener ← s.after? (· == .openParen) owner
    let closer ← s.partner? opener
    s.blockFrom? taken (closer + 1)
  else if kind = .kwNamespace then do
    let next ← s.nextCode? owner
    guard (s.kind next ≠ .nsSeparator)
    if s.kind next = .openCurly then s.freeCurly? taken next else s.blockFrom? taken (owner + 1)
  else if kind.isClassLike then
    if (s.prevCodeIf? (· == .doubleColon) owner).isSome then none
    else s.blockFrom? taken (owner + 1)
  else none

/-- The scope that a token owns. -/
def scope? (s : Skeleton) (taken : List Nat) (owner : Nat) : Option Group := do
  let opener ← s.scopeOpener? taken owner
  let closer ← s.partner? opener
  some ⟨owner, opener, closer⟩

/-- The scopes owned by these tokens in turn, given the braces taken before. -/
def scopesFrom (s : Skeleton) (taken : List Nat) : List Nat → List Group
  | [] => []
  | owner :: rest =>
    match s.scope? taken owner with
    | some g => g :: s.scopesFrom (g.opener :: taken) rest
    | none => s.scopesFrom taken rest

/-- The scopes of a file, in the order of their owners. -/
def scopes (s : Skeleton) : List Group :=
  s.scopesFrom [] (List.range s.kinds.size)

end Skeleton

/-- Pair each end of a documentation comment with the start last seen, if no end came since. -/
def pairComments (start : Option Nat) : List (Kind × Nat) → List (Nat × Nat)
  | [] => []
  | (.docOpen, i) :: rest => pairComments (some i) rest
  | (.docClose, i) :: rest =>
    match start with
    | some opener => (opener, i) :: pairComments none rest
    | none => pairComments none rest
  | _ :: rest => pairComments start rest

/-- The outline of PHP code. -/
def outline (lexemes : List Lexeme) : Outline :=
  let kinds := lexemes.map (·.kind)
  let brackets := Brackets.pair kinds
  let skeleton : Skeleton := ⟨kinds.toArray, Brackets.partners kinds.length brackets⟩
  { brackets
    parens := (brackets.filter fun p => skeleton.kind p.1 = .openParen).map fun p =>
      ⟨skeleton.parenOwner p.1, p.1, p.2⟩
    scopes := skeleton.scopes
    comments := pairComments none kinds.zipIdx }

end PhpStyle.Php
