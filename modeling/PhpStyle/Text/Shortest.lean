/-!
# Shortest decimals

Every number of a binary format stands for the numbers that round to it. The shortest decimal of
such a number is the one on the coarsest decimal grid that has a point among them, and of two such
points the nearer one. It is found in whole numbers, without rounding.
-/

namespace PhpStyle.Text

/-- A positive number with the numbers that round to it, all in units of a power of two. -/
structure Neighbourhood where
  value : Nat
  /-- The least number that rounds to the value. -/
  low : Nat
  /-- The greatest number that rounds to the value. -/
  high : Nat
  /-- Whether the two ends round to the value themselves. -/
  closed : Bool
  /-- The exponent of the unit. -/
  unit : Int

namespace Neighbourhood

/-- The neighbourhood of `m * 2 ^ q` in the format with 53 binary digits, in quarters of the last
place. Below a power of two the numbers lie twice as dense, unless there are none smaller. -/
def ofBinary (m : Nat) (q : Int) (dense : Bool) : Neighbourhood :=
  { value := 4 * m, low := 4 * m - (if dense then 1 else 2), high := 4 * m + 2
    closed := m % 2 = 0, unit := q - 2 }

/-- The multiple of `10 ^ k` that is nearest to the value among those that round to it; the greater
one if two are equally near. -/
def multipleOf? (n : Neighbourhood) (k : Int) : Option Nat :=
  let scaled (x : Nat) : Nat := x * Nat.pow 2 n.unit.toNat * Nat.pow 10 (-k).toNat
  let step := Nat.pow 10 k.toNat * Nat.pow 2 (-n.unit).toNat
  let inside (d : Nat) : Bool :=
    if n.closed then scaled n.low ≤ d * step && d * step ≤ scaled n.high
    else scaled n.low < d * step && d * step < scaled n.high
  let d := scaled n.value / step
  match inside d, inside (d + 1) with
  | false, false => none
  | true, false => some d
  | false, true => some (d + 1)
  | true, true => some (if 2 * scaled n.value < (2 * d + 1) * step then d else d + 1)

/-- The digits and the exponent of the shortest decimal, looked for on so many grids from `10 ^ k`
on. -/
def shortestFrom (n : Neighbourhood) (k : Int) : Nat → Nat × Int
  | 0 => (0, k)
  | grids + 1 =>
    match n.multipleOf? k with
    | some d => (d, k)
    | none => n.shortestFrom (k - 1) grids

/-- The digits and the exponent of the shortest decimal of a number of at most 64 bits. -/
def shortest (n : Neighbourhood) : Nat × Int := n.shortestFrom 310 700

end Neighbourhood

/-- The number `digits * 10 ^ k` in positional notation, with a point and at least one digit on
either side of it. -/
def positional (digits : Nat) (k : Int) : String :=
  let ds := (toString digits).toList
  let places := (-k).toNat
  if 0 ≤ k then String.ofList (ds ++ List.replicate k.toNat '0') ++ ".0"
  else
    let ds := List.replicate (places + 1 - ds.length) '0' ++ ds
    String.ofList (ds.take (ds.length - places)) ++ "." ++
      String.ofList (ds.drop (ds.length - places))

/-- A floating-point number as its shortest decimal in positional notation. -/
def decimal (x : Float) : String :=
  let bits : Nat := x.toBits.toNat
  let sign := if bits >>> 63 = 1 then "-" else ""
  let exponent : Nat := (bits >>> 52) % 2048
  let fraction : Nat := bits % (1 <<< 52)
  if exponent = 2047 then
    if fraction = 0 then sign ++ "inf" else "nan"
  else if exponent = 0 && fraction = 0 then sign ++ "0.0"
  else
    let n :=
      if exponent = 0 then Neighbourhood.ofBinary fraction (-1074) false
      else
        let dense := fraction = 0 && exponent != 1
        Neighbourhood.ofBinary ((1 <<< 52) + fraction) ((exponent : Int) - 1075) dense
    let (digits, k) := n.shortest
    sign ++ positional digits k

end PhpStyle.Text
