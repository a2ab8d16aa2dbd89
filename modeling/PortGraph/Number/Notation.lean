import PortGraph.Number.Shortest

/-!
How digits become text. A style says which exponents are written positionally and whether a whole
number keeps a point; outside that range the text is scientific, with a sign on the exponent.
-/

namespace PortGraph.Binary64

structure Style where
  /-- The scientific exponents written without an exponent; `none` for all of them. -/
  positional : Option (Int × Int)
  /-- Whether a whole number is written with `.0`. -/
  wholePoint : Bool

/-- Numbers inside documents: positional from `0.00001` to sixteen whole digits, and told apart
from integers by a point or an exponent. -/
def Style.document : Style := ⟨some (-5, 15), true⟩

/-- Numbers inside sentences: never an exponent, and no point on a whole number. -/
def Style.plain : Style := ⟨none, false⟩

def zeros (n : Nat) : List Char := List.replicate n '0'

def positionalText (whole : Bool) (d : Digits) : List Char :=
  let count : Int := d.digits.length
  if d.digits.isEmpty then if whole then ['0', '.', '0'] else ['0']
  else if d.point ≤ 0 then '0' :: '.' :: zeros (-d.point).toNat ++ d.digits
  else if count ≤ d.point then
    d.digits ++ zeros (d.point - count).toNat ++ if whole then ['.', '0'] else []
  else d.digits.take d.point.toNat ++ '.' :: d.digits.drop d.point.toNat

def scientificText (d : Digits) : List Char :=
  let e := d.point - 1
  let lead := match d.digits with
    | [] => ['0']
    | [c] => [c]
    | c :: rest => c :: '.' :: rest
  let sign := if e < 0 then '-' else '+'
  lead ++ 'e' :: sign :: Text.Decimal.natural e.natAbs

def format (style : Style) (x : Binary64) : List Char :=
  let d := x.shortest
  let body := match style.positional with
    | none => positionalText style.wholePoint d
    | some (low, high) =>
        if d.digits.isEmpty ∨ (low ≤ d.point - 1 ∧ d.point - 1 ≤ high) then
          positionalText style.wholePoint d
        else scientificText d
  if x.negative then '-' :: body else body

def documentText (x : Binary64) : String := String.ofList (x.format .document)

def plainText (x : Binary64) : String := String.ofList (x.format .plain)

end PortGraph.Binary64
