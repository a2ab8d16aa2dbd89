import PortGraph.Number.Binary64
import PortGraph.Text.Decimal

/-!
Reading a decimal as a double. A literal is a whole part, a fraction and a power of ten; its value
is exact and rounded once.
-/

namespace PortGraph.Binary64

structure Literal where
  negative : Bool
  /-- All digits, those of the fraction included. -/
  digits : List Char
  /-- The power of ten that the digits are scaled by. -/
  scale : Int
deriving DecidableEq, Repr

/-- The double nearest to a literal; `none` when it is too large. A value far outside the range is
told from its digit count, so no power of ten is ever large. -/
def Literal.value? (l : Literal) : Option Binary64 :=
  let n := Text.Decimal.value l.digits
  if n = 0 then some (zero l.negative)
  else
    let magnitude : Int := Text.Decimal.length n + l.scale
    if 400 < magnitude then none
    else if magnitude < -400 then some (zero l.negative)
    else if 0 ≤ l.scale then ofRatio? l.negative (n * Nat.pow 10 l.scale.toNat) 1
    else ofRatio? l.negative n (Nat.pow 10 (-l.scale).toNat)

/-- The exponent after `e`, with an optional sign and at least one digit; the rest of the text. -/
def exponent? (cs : List Char) : Option (Int × List Char) :=
  let (negative, body) := match cs with
    | '-' :: rest => (true, rest)
    | '+' :: rest => (false, rest)
    | _ => (false, cs)
  match Text.Decimal.span body with
  | ([], _) => none
  | (ds, rest) =>
      let e : Int := Text.Decimal.value ds
      some (if negative then -e else e, rest)

/-- A whole text as a decimal: an optional sign, digits with at most one point and at least one
digit, and an optional exponent. -/
def Literal.ofText? (cs : List Char) : Option Literal :=
  let (negative, body) := match cs with
    | '-' :: rest => (true, rest)
    | '+' :: rest => (false, rest)
    | _ => (false, cs)
  let (whole, rest) := Text.Decimal.span body
  let (fraction, rest) := match rest with
    | '.' :: after => Text.Decimal.span after
    | _ => ([], rest)
  if whole.isEmpty && fraction.isEmpty then none
  else
    let scale : Int := -(fraction.length : Int)
    match rest with
    | [] => some ⟨negative, whole ++ fraction, scale⟩
    | 'e' :: after | 'E' :: after =>
        match exponent? after with
        | some (e, []) => some ⟨negative, whole ++ fraction, scale + e⟩
        | _ => none
    | _ => none

/-- The finite double that a whole text spells. -/
def ofText? (cs : List Char) : Option Binary64 := (Literal.ofText? cs).bind Literal.value?

end PortGraph.Binary64
