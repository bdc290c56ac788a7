/-!
# Edit scripts

A script turns one list into another by keeping, removing and adding elements. `Diff.script` keeps
the common front, the common back and, between them, a longest common subsequence; where several
would do, it is the one found from the back by adding before removing before keeping.
-/

namespace PhpStyle.Diff

/-- A step of a script. -/
inductive Step (α : Type)
  | kept (a : α)
  | removed (a : α)
  | added (a : α)
  deriving DecidableEq, Repr

namespace Step

/-- Whether a step changes something. -/
def isChange {α : Type} : Step α → Bool
  | .kept _ => false
  | _ => true

/-- Whether the element of a step is in the old list. -/
def isOld {α : Type} : Step α → Bool
  | .added _ => false
  | _ => true

/-- Whether the element of a step is in the new list. -/
def isNew {α : Type} : Step α → Bool
  | .removed _ => false
  | _ => true

/-- The element of a step. -/
def element {α : Type} : Step α → α
  | .kept a | .removed a | .added a => a

end Step

variable {α : Type} [DecidableEq α]

/-- Lengths of longest common subsequences: row `i` and column `j` are about the first `i` elements
of the old list and the first `j` of the new one. -/
abbrev Table := Array (Array Nat)

/-- The length for the first `i` old and the first `j` new elements. -/
def Table.length (t : Table) (i j : Nat) : Nat := (t.getD i #[]).getD j 0

/-- The row behind a row, for one more old element. -/
def nextRow (a : α) (new : List α) (row : Array Nat) : Array Nat :=
  new.zipIdx.foldl (fun next (b, j) =>
    next.push (if a = b then row.getD j 0 + 1 else max (row.getD (j + 1) 0) (next.getD j 0))) #[0]

/-- The table of two lists. -/
def table (old new : List α) : Table :=
  old.foldl (fun t a => t.push (nextRow a new (t.back?.getD #[])))
    #[Array.replicate (new.length + 1) 0]

/-- The script of two lists, given back to front, in front of the steps `after`. -/
def walk (t : Table) (after : List (Step α)) : List α → List α → List (Step α)
  | [], [] => after
  | [], b :: new => walk t (.added b :: after) [] new
  | a :: old, [] => walk t (.removed a :: after) old []
  | a :: old, b :: new =>
    let i := old.length
    let j := new.length
    if t.length (i + 1) (j + 1) = t.length (i + 1) j then walk t (.added b :: after) (a :: old) new
    else if t.length (i + 1) (j + 1) = t.length i (j + 1) then
      walk t (.removed a :: after) old (b :: new)
    else walk t (.kept a :: after) old new
termination_by old new => old.length + new.length

/-- The elements that two lists have in common in front. -/
def commonFront : List α → List α → List α
  | a :: as, b :: bs => if a = b then a :: commonFront as bs else []
  | _, _ => []

/-- The script that turns a list into another. -/
def script (old new : List α) : List (Step α) :=
  let front := commonFront old new
  let old := old.drop front.length
  let new := new.drop front.length
  let back := commonFront old.reverse new.reverse
  let old := old.take (old.length - back.length)
  let new := new.take (new.length - back.length)
  front.map .kept ++ walk (table old new) [] old.reverse new.reverse ++ back.reverse.map .kept

end PhpStyle.Diff
