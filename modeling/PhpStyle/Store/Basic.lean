import PhpStyle.Token.Basic

/-!
# Token stores

A store holds the tokens of one file together with their structure: which brackets and documentation
comment tags belong together, which keyword owns a group or a scope, and which scopes enclose a
token. It is made by `Store.build?` (see `PhpStyle.Store.Build`) and only ever looked up. Tokens are
named by their index.
-/

namespace PhpStyle

/-- A bracketed group with the token that it belongs to, such as an `if` or a `function`. A group
that belongs to no keyword is owned by its own opener. -/
structure Group where
  owner : Nat
  opener : Nat
  closer : Nat
  deriving DecidableEq, Repr

/-- The tokens of a file with the structure declared for them. Every look-up array has one entry for
each token. -/
structure Store where
  /-- The concatenation of all token texts. -/
  source : String
  tokens : Array Token
  /-- The partner of each bracket. -/
  brackets : Array (Option Nat)
  /-- The parentheses that a token opens, closes or owns. -/
  parens : Array (Option Group)
  /-- The braces of a scope that a token opens, closes or owns. -/
  scopes : Array (Option Group)
  /-- The partner of each opening or closing documentation comment tag. -/
  comments : Array (Option Nat)
  /-- The owners of the scopes around a token with their kinds, outermost first. -/
  conditions : Array (List (Nat × Kind))

namespace Store

/-- Number of tokens. -/
def size (s : Store) : Nat := s.tokens.size

/-- The token at an index, and `Token.absent` past the end. -/
def token (s : Store) (i : Nat) : Token := s.tokens[i]?.getD .absent

/-- The kind of a token. -/
def kind (s : Store) (i : Nat) : Kind := (s.token i).kind

/-- The text of a token. -/
def text (s : Store) (i : Nat) : String := (s.token i).text

/-- The line on which a token starts. -/
def line (s : Store) (i : Nat) : Nat := (s.token i).line

/-- The index, if there is a token at it. -/
def index? (s : Store) (i : Nat) : Option Nat := if i < s.size then some i else none

/-- The index of the first token. -/
def first? (s : Store) : Option Nat := s.index? 0

/-- The index of the last token. -/
def last? (s : Store) : Option Nat := if s.size = 0 then none else some (s.size - 1)

/-- The token after a token. -/
def next? (s : Store) (i : Nat) : Option Nat := s.index? (i + 1)

/-- The token before a token. -/
def prev? (_ : Store) (i : Nat) : Option Nat := if i = 0 then none else some (i - 1)

/-- The token some distance after a token, or before it if the distance is negative. -/
def shift? (s : Store) (i : Nat) (distance : Int) : Option Nat :=
  let target := (i : Int) + distance
  if target < 0 then none else s.index? target.toNat

/-- The partner of a bracket. -/
def bracketMatch? (s : Store) (i : Nat) : Option Nat := s.brackets[i]?.join

/-- The partner of an opening or closing documentation comment tag. -/
def commentMatch? (s : Store) (i : Nat) : Option Nat := s.comments[i]?.join

/-- The parentheses that a token opens, closes or owns. -/
def paren? (s : Store) (i : Nat) : Option Group := s.parens[i]?.join

/-- The scope that a token opens, closes or owns. -/
def scope? (s : Store) (i : Nat) : Option Group := s.scopes[i]?.join

/-- The keyword that owns the parentheses at a token, if they do not own themselves. -/
def parenOwner? (s : Store) (i : Nat) : Option Nat :=
  (s.paren? i).bind fun g => if g.owner = g.opener then none else some g.owner

/-- The owners of the scopes around a token with their kinds, outermost first. -/
def conditionsAt (s : Store) (i : Nat) : List (Nat × Kind) := s.conditions[i]?.getD []

/-- The owner of the innermost scope around a token. -/
def deepestCondition? (s : Store) (i : Nat) : Option (Nat × Kind) := (s.conditionsAt i).getLast?

/-- Whether a scope of one of these kinds encloses a token. -/
def hasCondition (s : Store) (i : Nat) (kinds : List Kind) : Bool :=
  (s.conditionsAt i).any fun c => kinds.contains c.2

end Store

end PhpStyle
