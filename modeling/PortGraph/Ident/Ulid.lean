import PortGraph.Text.Decimal

/-!
Identifiers of 128 bits, written as 26 digits of base 32, most significant first. The digits are the
decimal digits and the letters without I, L, O and U; reading takes letters of either case, and the
digits count modulo 2 ^ 128.
-/

namespace PortGraph

structure Ulid where
  value : Nat
  value_lt : value < Nat.pow 2 128
deriving DecidableEq

namespace Ulid

inductive Fault
  | length
  | character
deriving DecidableEq, Repr

def Fault.message : Fault → String
  | .length => "invalid length"
  | .character => "invalid character"

def ofNat (n : Nat) : Ulid := ⟨n % Nat.pow 2 128, Nat.mod_lt _ (by decide)⟩

def alphabet : List Char := "0123456789ABCDEFGHJKMNPQRSTVWXYZ".toList

def digitChar (n : Nat) : Char := alphabet.getD n '0'

def digitValue? (c : Char) : Option Nat := alphabet.findIdx? (· == c.toUpper)

/-- The last `count` digits of a number. -/
def digitsOf (count : Nat) (n : Nat) : List Char :=
  match count with
  | 0 => []
  | k + 1 => digitsOf k (n / 32) ++ [digitChar (n % 32)]

def write (u : Ulid) : List Char := digitsOf 26 u.value

/-- The number that digits spell. -/
def valueOf? (cs : List Char) : Option Nat :=
  cs.foldlM (fun n c => (digitValue? c).map (32 * n + ·)) 0

def parse (text : String) : Except Fault Ulid :=
  if text.utf8ByteSize ≠ 26 then .error .length
  else
    match valueOf? text.toList with
    | some n => .ok (ofNat n)
    | none => .error .character

/-- Milliseconds since the epoch: the top 48 bits. -/
def timestamp (u : Ulid) : Nat := u.value / Nat.pow 2 80

/-- The bits below the timestamp. -/
def random (u : Ulid) : Nat := u.value % Nat.pow 2 80

end Ulid

end PortGraph
