import PhpStyle.Edit.Splice
import PhpStyle.Store.Basic

/-!
# Edits of tokens

An `Edit` changes the text of one token, and a changeset is the list of edits that together resolve
one finding. A changeset stands or falls as a whole and may touch no token twice.
-/

namespace PhpStyle

/-- What happens to the text of a token. -/
inductive Change
  /-- Put text in front of the token. -/
  | insert (text : String)
  /-- Put text behind the token. -/
  | append (text : String)
  /-- Put text in place of the token. -/
  | replace (text : String)
  /-- Remove the token. -/
  | delete
  deriving DecidableEq, Repr

namespace Change

/-- The text of a token after a change. -/
def applyTo (old : String) : Change → String
  | .insert text => text ++ old
  | .append text => old ++ text
  | .replace text => text
  | .delete => ""

/-- Place of a change among those at one token: before it, on it, or behind it. -/
def rank : Change → Nat
  | .insert _ => 0
  | .replace _ | .delete => 1
  | .append _ => 2

end Change

/-- A change to the token with the given index. -/
structure Edit where
  target : Nat
  change : Change
  deriving DecidableEq, Repr

namespace Edit

/-- Put text in front of a token. -/
def insert (i : Nat) (text : String) : Edit := ⟨i, .insert text⟩

/-- Put text behind a token. -/
def append (i : Nat) (text : String) : Edit := ⟨i, .append text⟩

/-- Put text in place of a token. -/
def replace (i : Nat) (text : String) : Edit := ⟨i, .replace text⟩

/-- Remove a token. -/
def delete (i : Nat) : Edit := ⟨i, .delete⟩

/-- The span of source that an edit replaces, and by what. An edit of no token of the store replaces
nothing. -/
def toTextEdit? (store : Store) (e : Edit) : Option TextEdit :=
  store.tokens[e.target]?.map fun t =>
    match e.change with
    | .insert text => ⟨t.offset, t.offset, text⟩
    | .append text => ⟨t.endOffset, t.endOffset, text⟩
    | .replace text => ⟨t.offset, t.endOffset, text⟩
    | .delete => ⟨t.offset, t.endOffset, ""⟩

/-- Whether an edit leaves its token as it is. -/
def isNoop (store : Store) (e : Edit) : Bool :=
  e.change.applyTo (store.text e.target) == store.text e.target

/-- Order of edits in a text: by token, then by rank. -/
def inOrder (a b : Edit) : Bool :=
  a.target < b.target || (a.target == b.target && a.change.rank ≤ b.change.rank)

end Edit

/-- The edits that resolve one finding. -/
abbrev Changeset := List Edit

namespace Changeset

/-- Remove every token from `i` up to and with `j`. -/
def deleteRange (i j : Nat) : Changeset :=
  (List.range' i (j + 1 - i)).map Edit.delete

/-- The tokens that a changeset edits, in the order of its edits. -/
def targets (c : Changeset) : List Nat := c.map (·.target)

/-- The first element of a sorted list that stands there twice. -/
def firstTwin? : List Nat → Option Nat
  | a :: b :: rest => if a = b then some a else firstTwin? (b :: rest)
  | _ => none

/-- The lowest token that a changeset edits twice. -/
def editedTwice? (c : Changeset) : Option Nat :=
  firstTwin? (c.targets.mergeSort (· ≤ ·))

end Changeset

end PhpStyle
