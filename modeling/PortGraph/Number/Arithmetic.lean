import PortGraph.Number.Binary64

/-!
The four operations on doubles: the exact result, rounded once. A result too large is an overflow,
which keeps its sign; a quotient by zero is infinite or, from zero, undefined.
-/

namespace PortGraph.Binary64

/-- What an operation gives. -/
inductive Result
  | finite (x : Binary64)
  | infinite (negative : Bool)
  | undefined
deriving DecidableEq, Repr

def rounded (negative : Bool) (num den : Nat) : Result :=
  match ofRatio? negative num den with
  | some x => .finite x
  | none => .infinite negative

/-- The signed mantissa over the exponent `e`, which is at most the value's own. -/
def signedAt (x : Binary64) (e : Int) : Int :=
  let m : Int := (x.mantissa * Nat.pow 2 (x.exponent - e).toNat : Nat)
  if x.negative then -m else m

def neg (x : Binary64) : Binary64 := { x with negative := !x.negative }

/-- An exact sum of zero is negative only when both terms are. -/
def add (x y : Binary64) : Result :=
  let e := min x.exponent y.exponent
  let sum := x.signedAt e + y.signedAt e
  if sum = 0 then
    .finite (zero (x.negative && y.negative))
  else if 0 ≤ e then
    rounded (decide (sum < 0)) (sum.natAbs * Nat.pow 2 e.toNat) 1
  else
    rounded (decide (sum < 0)) sum.natAbs (Nat.pow 2 (-e).toNat)

def sub (x y : Binary64) : Result := x.add y.neg

def mul (x y : Binary64) : Result :=
  let (a, b) := x.ratio
  let (c, d) := y.ratio
  rounded (x.negative != y.negative) (a * c) (b * d)

def div (x y : Binary64) : Result :=
  let (a, b) := x.ratio
  let (c, d) := y.ratio
  if y.isZero then
    if x.isZero then .undefined else .infinite (x.negative != y.negative)
  else
    rounded (x.negative != y.negative) (a * d) (b * c)

end PortGraph.Binary64
