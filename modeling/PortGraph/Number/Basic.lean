import PortGraph.Number.Literal
import PortGraph.Number.Notation
import PortGraph.Number.Significand

/-!
Numbers of a document: integers of a 64-bit word, signed or unsigned, and doubles. The two never
mix: `1` and `1.0` are different numbers with different texts.
-/

namespace PortGraph

inductive Number
  | integer (n : Int)
  | double (x : Binary64)
deriving DecidableEq, Repr

namespace Number

/-- The integers that a document can hold as integers. -/
def InRange (n : Int) : Prop := -(Nat.pow 2 63) ≤ n ∧ n < Nat.pow 2 64

instance (n : Int) : Decidable (InRange n) := inferInstanceAs (Decidable (_ ∧ _))

def toText : Number → List Char
  | .integer n => Text.Decimal.integer n
  | .double x => x.format .document

/-- The value as a double; an integer goes to the nearest one. -/
def toDouble : Number → Binary64
  | .integer n => (Binary64.ofInt? n).getD (Binary64.zero false)
  | .double x => x

end Number

end PortGraph
