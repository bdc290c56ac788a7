/-!
# Tallies

A tally counts how often each key occurs. Its entries are sorted by key and no key occurs twice, so
tallies with the same counts are equal.
-/

namespace PhpStyle

/-- Counts by key, sorted by key. -/
abbrev Tally := List (String × Nat)

namespace Tally

/-- Count `n` more of a key. -/
def add (t : Tally) (key : String) (n : Nat) : Tally :=
  match t with
  | [] => [(key, n)]
  | (k, m) :: rest =>
    if key < k then (key, n) :: (k, m) :: rest
    else if key = k then (k, m + n) :: rest
    else (k, m) :: add rest key n

/-- Count all that another tally counts. -/
def addAll (t other : Tally) : Tally :=
  other.foldl (fun acc entry => acc.add entry.1 entry.2) t

/-- The number of all that is counted. -/
def total : Tally → Nat
  | [] => 0
  | (_, n) :: rest => n + total rest

end Tally

end PhpStyle
