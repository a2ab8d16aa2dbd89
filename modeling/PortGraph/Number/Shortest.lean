import PortGraph.Number.Binary64
import PortGraph.Text.Decimal

/-!
The shortest decimal digits that read back as a double. The values that round to it form an
interval; for one digit, then two, up to seventeen, the two neighbours of the value on that decimal
grid are tried. The first grid with a neighbour in the interval wins, of two hits the nearer, and of
two equally near the even one.
-/

namespace PortGraph.Binary64

/-- `0.d₁d₂… · 10 ^ point`: the digits have no zero at either end, and none for zero. -/
structure Digits where
  digits : List Char
  point : Int
deriving DecidableEq, Repr

/-- The least `t` with `num / den < 10 ^ t`, for a positive quotient. -/
def decimalPoint (num den : Nat) : Int :=
  if den ≤ num then (Text.Decimal.length (num / den) : Int)
  else 1 - (Text.Decimal.length ((den + num - 1) / num - 1) : Int)

/-- The interval of reals that round to a value, in quarters of its unit in the last place. -/
structure Interval where
  low : Nat
  value : Nat
  high : Nat
  closed : Bool

def interval (x : Binary64) : Interval :=
  let m := x.mantissa
  let low := if m = Nat.pow 2 52 ∧ leastExponent < x.exponent then 4 * m - 1 else 4 * m - 2
  ⟨low, 4 * m, 4 * m + 2, m % 2 == 0⟩

/-- Whether the quotient `a / b` lies in the interval scaled by `num / den`. -/
private def Interval.holds (i : Interval) (num den a b : Nat) : Bool :=
  let left := i.low * num * b
  let here := a * den
  let right := i.high * num * b
  if i.closed then left ≤ here && here ≤ right else left < here && here < right

/-- The digits at `count` places, when one of the two neighbours on that grid reads back. -/
def digitsAt? (x : Binary64) (point : Int) (count : Nat) : Option (Nat × Int) :=
  let i := x.interval
  -- a quarter of a unit in the last place is `num / den`
  let e := x.exponent - 2
  let (num, den) := if 0 ≤ e then (Nat.pow 2 e.toNat, 1) else (1, Nat.pow 2 (-e).toNat)
  -- the grid has steps of `10 ^ scale`
  let scale := point - count
  let (up, down) := if 0 ≤ scale then (Nat.pow 10 scale.toNat, 1) else (1, Nat.pow 10 (-scale).toNat)
  let below := i.value * num * down / (den * up)
  let above := below + 1
  let hit (k : Nat) := i.holds num den (k * up) down
  match hit below, hit above with
  | false, false => none
  | true, false => some (below, scale)
  | false, true => some (above, scale)
  | true, true =>
      -- twice the value against the sum of the neighbours
      let left := 2 * (i.value * num * down)
      let right := (below + above) * (den * up)
      if left < right then some (below, scale)
      else if right < left then some (above, scale)
      else some (if below % 2 = 0 then below else above, scale)

def stripZeros (ds : List Char) : List Char := (ds.reverse.dropWhile (· == '0')).reverse

def shortest (x : Binary64) : Digits :=
  if x.isZero then ⟨[], 0⟩
  else
    let (num, den) := x.ratio
    let point := decimalPoint num den
    match (List.range 17).findSome? fun k => x.digitsAt? point (k + 1) with
    | none => ⟨[], 0⟩
    | some (n, scale) =>
        let ds := Text.Decimal.natural n
        ⟨stripZeros ds, scale + ds.length⟩

end PortGraph.Binary64
