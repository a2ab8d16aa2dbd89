/-!
Decimal digits. `natural` writes a number without leading zeros, `value` reads a run of digits, and
`natural?` and `integer?` read a whole text with an optional sign.
-/

namespace PortGraph.Text.Decimal

def digit (n : Nat) : Char := Char.ofNat (48 + n % 10)

def isDigit (c : Char) : Bool := 48 ≤ c.val.toNat && c.val.toNat ≤ 57

def digitValue (c : Char) : Nat := c.val.toNat - 48

def natural (n : Nat) : List Char :=
  if n < 10 then [digit n] else natural (n / 10) ++ [digit n]
termination_by n
decreasing_by omega

def integer : Int → List Char
  | .ofNat n => natural n
  | .negSucc n => '-' :: natural (n + 1)

/-- The number that a run of digits spells, most significant digit first. -/
def value (ds : List Char) : Nat := ds.foldl (fun n c => 10 * n + digitValue c) 0

/-- The leading digits and what follows them. -/
def span (cs : List Char) : List Char × List Char := (cs.takeWhile isDigit, cs.dropWhile isDigit)

/-- A nonempty run of digits and nothing else. -/
def digits? (cs : List Char) : Option Nat :=
  if !cs.isEmpty && cs.all isDigit then some (value cs) else none

/-- A natural number below `bound`, with an optional plus sign. -/
def natural? (bound : Nat) (cs : List Char) : Option Nat :=
  let body := match cs with
    | '+' :: rest => rest
    | _ => cs
  (digits? body).filter (· < bound)

/-- An integer of a signed 64-bit word, with an optional sign. -/
def integer? (cs : List Char) : Option Int :=
  match cs with
  | '-' :: rest => (digits? rest).filter (· ≤ Nat.pow 2 63) |>.map fun n => -(n : Int)
  | '+' :: rest => (digits? rest).filter (· < Nat.pow 2 63) |>.map fun n => (n : Int)
  | _ => (digits? cs).filter (· < Nat.pow 2 63) |>.map fun n => (n : Int)

def naturalText (n : Nat) : String := String.ofList (natural n)

def integerText (n : Int) : String := String.ofList (integer n)

/-- The count of decimal digits of a number. -/
def length (n : Nat) : Nat := (natural n).length

end PortGraph.Text.Decimal
