import PhpStyle.Store.Basic

/-!
# Building a store

An `Outline` declares pairs of brackets, groups, scopes and comment tags by token index.
`Store.build?` puts the lexemes in place and accepts the outline only if every pair lies inside the
file, opens before it closes, shares no token with another pair of its family, and nests with the
pairs of all families. It reports the first fault that it meets.
-/

namespace PhpStyle

/-- The pairs declared for a list of lexemes, by index. -/
structure Outline where
  brackets : List (Nat × Nat) := []
  parens : List Group := []
  scopes : List Group := []
  comments : List (Nat × Nat) := []
  deriving Repr

/-- Why an outline does not fit its lexemes. -/
inductive StructureError
  /-- There is no token at an index. -/
  | outOfBounds (index size : Nat)
  /-- A pair closes at its opener or before it. -/
  | inverted (opener closer : Nat)
  /-- The owner of a group stands after its opener. -/
  | ownerAfterOpener (owner opener closer : Nat)
  /-- Two pairs overlap and neither holds the other. -/
  | crossing (first second : Nat × Nat)
  /-- Two pairs of one family share a token. -/
  | conflicting (index : Nat)
  deriving DecidableEq, Repr

/-- The wording of a structure error. -/
def StructureError.message : StructureError → String
  | .outOfBounds index size => s!"Token index {index} out of bounds for {size} tokens"
  | .inverted opener closer => s!"Pair {opener}..{closer} does not open before it closes"
  | .ownerAfterOpener owner opener closer =>
    s!"Owner {owner} of pair {opener}..{closer} comes after its opener"
  | .crossing (a, b) (c, d) => s!"Pairs ({a}, {b}) and ({c}, {d}) cross each other"
  | .conflicting index => s!"Token {index} is claimed by two different pairs"

namespace Outline

/-- Look-up entries of one family, at most one for each token. -/
abbrev Slots (α : Type) := Array (Option α)

/-- Enter a value for a token that has none yet. -/
def claim {α : Type} (slots : Slots α) (i : Nat) (value : α) : Except StructureError (Slots α) :=
  match slots[i]? with
  | some none => .ok (slots.setIfInBounds i (some value))
  | _ => .error (.conflicting i)

/-- Reject an index at which there is no token. -/
def checkIndex (size i : Nat) : Except StructureError Unit :=
  if i < size then .ok () else .error (.outOfBounds i size)

/-- Enter a pair, each end as the partner of the other. -/
def claimPair (size : Nat) (slots : Slots Nat) (pair : Nat × Nat) :
    Except StructureError (Slots Nat) := do
  checkIndex size pair.1
  checkIndex size pair.2
  if pair.2 ≤ pair.1 then .error (.inverted pair.1 pair.2)
  else claim (← claim slots pair.1 pair.2) pair.2 pair.1

/-- Reject a group that does not lie in the file with its owner in front. -/
def checkGroup (size : Nat) (g : Group) : Except StructureError Unit := do
  checkIndex size g.owner
  checkIndex size g.opener
  checkIndex size g.closer
  if g.closer ≤ g.opener then .error (.inverted g.opener g.closer)
  else if g.opener < g.owner then .error (.ownerAfterOpener g.owner g.opener g.closer)
  else .ok ()

/-- Enter parentheses at their two ends and then at their owner. -/
def claimParen (size : Nat) (slots : Slots Group) (g : Group) :
    Except StructureError (Slots Group) := do
  checkGroup size g
  let slots ← claim slots g.opener g
  let slots ← claim slots g.closer g
  if g.owner = g.opener then .ok slots else claim slots g.owner g

/-- Enter a scope at its owner and then at its two braces. -/
def claimScope (size : Nat) (slots : Slots Group) (g : Group) :
    Except StructureError (Slots Group) := do
  checkGroup size g
  let slots ← claim slots g.owner g
  let slots ← if g.opener = g.owner then .ok slots else claim slots g.opener g
  claim slots g.closer g

/-- The ends of all pairs of all families. -/
def intervals (o : Outline) : List (Nat × Nat) :=
  o.brackets ++ o.parens.map (fun g => (g.opener, g.closer)) ++
    o.scopes.map (fun g => (g.opener, g.closer)) ++ o.comments

/-- Order of intervals for nesting: by opener, and of two that open together the longer first. -/
def outerFirst (a b : Nat × Nat) : Bool :=
  a.1 < b.1 || (a.1 == b.1 && b.2 ≤ a.2)

/-- Check intervals in nesting order against those still open, innermost first. -/
def checkNested : List (Nat × Nat) → List (Nat × Nat) → Except StructureError Unit
  | _, [] => .ok ()
  | stack, next :: rest =>
    match stack.dropWhile (fun held => held.2 < next.1) with
    | [] => checkNested [next] rest
    | top :: held =>
      if top.2 < next.2 then .error (.crossing top next)
      else checkNested (next :: top :: held) rest

/-- Record the owner of a scope for every token strictly between its braces. -/
def enclose (tokens : Array Token) (conditions : Array (List (Nat × Kind))) (g : Group) :
    Array (List (Nat × Kind)) :=
  let entry := (g.owner, (tokens[g.owner]?.getD .absent).kind)
  (List.range' (g.opener + 1) (g.closer - (g.opener + 1))).foldl
    (fun acc i => acc.modify i (· ++ [entry])) conditions

/-- The scopes around every token: scopes are entered by opener, so outer ones come first. -/
def conditions (tokens : Array Token) (scopes : List Group) : Array (List (Nat × Kind)) :=
  (scopes.mergeSort fun a b => a.opener ≤ b.opener).foldl (enclose tokens)
    (Array.replicate tokens.size [])

end Outline

/-- The store of these lexemes with this outline, or the first fault of the outline. -/
def Store.build? (lexemes : List Lexeme) (outline : Outline) : Except StructureError Store := do
  let tokens := (Token.layout lexemes).toArray
  let size := tokens.size
  let brackets ← outline.brackets.foldlM (Outline.claimPair size) (Array.replicate size none)
  let parens ← outline.parens.foldlM (Outline.claimParen size) (Array.replicate size none)
  let scopes ← outline.scopes.foldlM (Outline.claimScope size) (Array.replicate size none)
  let comments ← outline.comments.foldlM (Outline.claimPair size) (Array.replicate size none)
  Outline.checkNested [] (outline.intervals.mergeSort Outline.outerFirst)
  .ok {
    source := String.join (lexemes.map (·.text))
    tokens, brackets, parens, scopes, comments
    conditions := Outline.conditions tokens outline.scopes }

end PhpStyle
