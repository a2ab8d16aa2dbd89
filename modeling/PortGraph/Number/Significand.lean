import PortGraph.Number.Arithmetic
import PortGraph.Text.Decimal

/-!
Numbers of a document as doubles. The digits are gathered in a word of 64 bits and the place of the
point in a power of ten; the two are then joined by multiplying or dividing doubles. So digits
without room in the word do not count, and the result may lie next to the nearest double.
-/

namespace PortGraph.Binary64

structure Significand where
  /-- The digits for which there is room. -/
  word : Nat
  /-- The power of ten that the word is scaled by. -/
  scale : Int
deriving DecidableEq, Repr

namespace Significand

def wordBound : Nat := Nat.pow 2 64

/-- The word with one more digit, if there is room for it. -/
def extend? (word : Nat) (d : Char) : Option Nat :=
  let n := 10 * word + Text.Decimal.digitValue d
  if n < wordBound then some n else none

/-- Digits before the point. From the first without room on, each is a power of ten. -/
def whole (word : Nat) : List Char → Significand
  | [] => ⟨word, 0⟩
  | d :: ds =>
      match extend? word d with
      | some n => whole n ds
      | none => ⟨word, (d :: ds).length⟩

/-- Digits after the point. From the first without room on, they are dropped. -/
def fraction (s : Significand) : List Char → Significand
  | [] => s
  | d :: ds =>
      match extend? s.word d with
      | some n => fraction ⟨n, s.scale - 1⟩ ds
      | none => s

/-- The digits on both sides of a point, and the exponent after them. -/
def ofParts (before after : List Char) (exponent : Int) : Significand :=
  let s := (whole 0 before).fraction after
  { s with scale := s.scale + exponent }

end Significand

/-- The greatest power of ten that a double can hold. -/
def greatestPower : Nat := 308

def powerOfTen (n : Nat) : Binary64 := (ofRatio? false (Nat.pow 10 n) 1).getD (zero false)

/-- A double times a power of ten, unless that is too large. A power too small for a double is
divided out in parts. -/
def shift? (x : Binary64) (e : Int) : Option Binary64 :=
  let finite? : Result → Option Binary64
    | .finite y => some y
    | .infinite _ | .undefined => none
  if e.natAbs ≤ greatestPower then
    finite? (if 0 ≤ e then x.mul (powerOfTen e.toNat) else x.div (powerOfTen (-e).toNat))
  else if x.isZero then some x
  else if 0 ≤ e then none
  else (finite? (x.div (powerOfTen greatestPower))).bind fun y => shift? y (e + greatestPower)
termination_by e.natAbs
decreasing_by simp only [greatestPower] at *; omega

/-- The double that a number of a document stands for; `none` when it is too large. -/
def Significand.toDouble? (negative : Bool) (s : Significand) : Option Binary64 :=
  (shift? ((ofInt? s.word).getD (zero false)) s.scale).map fun x => { x with negative }

end PortGraph.Binary64
