import PortGraph.Text.Decimal

/-!
Bytes as text: base 64 with the standard alphabet and required padding, read strictly. Faults give
the offset of the byte that does not fit.
-/

namespace PortGraph.Base64

open Text.Decimal

inductive Fault
  | symbol (byte : UInt8) (offset : Nat)
  | length (n : Nat)
  | padding
  | lastSymbol (byte : UInt8) (offset : Nat)
deriving DecidableEq, Repr

def Fault.message : Fault → String
  | .symbol b n => s!"Invalid symbol {naturalText b.toNat}, offset {naturalText n}."
  | .length n => s!"Invalid input length: {naturalText n}"
  | .padding => "Invalid padding"
  | .lastSymbol b n =>
      s!"Invalid last symbol {naturalText b.toNat}, offset {naturalText n}."

def pad : UInt8 := 61

/-- The six bits that a letter of the alphabet stands for. -/
def sextet? (b : UInt8) : Option Nat :=
  let n := b.toNat
  if 65 ≤ n ∧ n ≤ 90 then some (n - 65)
  else if 97 ≤ n ∧ n ≤ 122 then some (n - 71)
  else if 48 ≤ n ∧ n ≤ 57 then some (n + 4)
  else if n = 43 then some 62
  else if n = 47 then some 63
  else none

/-- The letters of a group of four. -/
def group (offset : Nat) : List UInt8 → Except Fault (List Nat)
  | [] => .ok []
  | b :: rest =>
      match sextet? b with
      | none => .error (.symbol b offset)
      | some n => (group (offset + 1) rest).map (n :: ·)

private def threeBytes (bits : Nat) : List UInt8 :=
  [UInt8.ofNat (bits / 65536), UInt8.ofNat (bits / 256), UInt8.ofNat bits]

/-- What the last group holds: its letters so far, the last of them, and where padding began. -/
structure Tail where
  sextets : List Nat
  last : UInt8
  padAt : Option Nat
  pads : Nat

/-- Reads the last group, byte `i` of it first; it begins at `offset`. -/
def scanTail (offset i : Nat) (t : Tail) : List UInt8 → Except Fault Tail
  | [] => .ok t
  | b :: rest =>
      if b = pad then
        if i < 2 then .error (.symbol b (offset + i))
        else
          scanTail offset (i + 1) { t with padAt := some (t.padAt.getD i), pads := t.pads + 1 } rest
      else
        match t.padAt with
        | some p => .error (.symbol pad (offset + p))
        | none =>
            match sextet? b with
            | none => .error (.symbol b (offset + i))
            | some n =>
                scanTail offset (i + 1) { t with sextets := t.sextets ++ [n], last := b } rest

/-- The bytes of the last group, which has at most four letters and marks. -/
def decodeTail (offset : Nat) (bs : List UInt8) : Except Fault (List UInt8) := do
  let t ← scanTail offset 0 ⟨[], 0, none, 0⟩ bs
  let count := t.sextets.length
  if bs.isEmpty then .ok []
  else if count < 2 then .error (.length (offset + count))
  else if count + t.pads ≠ 4 then .error .padding
  else
    let used := count * 6 / 8
    let bits := t.sextets.foldl (fun n s => n * 64 + s) 0 * Nat.pow 64 (4 - count)
    if bits % Nat.pow 256 (3 - used) ≠ 0 then .error (.lastSymbol t.last (offset + count - 1))
    else .ok ((threeBytes bits).take used)

/-- Whole groups from the left, then the last group. -/
def decodeFrom (offset : Nat) : List UInt8 → Except Fault (List UInt8)
  | a :: b :: c :: d :: e :: rest => do
      let ns ← group offset [a, b, c, d]
      let bits := ns.foldl (fun n s => n * 64 + s) 0
      return threeBytes bits ++ (← decodeFrom (offset + 4) (e :: rest))
  | tail => decodeTail offset tail

/-- A lone byte after the last whole group is looked at first. -/
def decode (text : String) : Except Fault (List UInt8) :=
  let bs := text.toUTF8.toList
  match bs.length % 4, bs.getLast? with
  | 1, some last =>
      if last ≠ pad ∧ (sextet? last).isNone then .error (.symbol last (bs.length - 1))
      else decodeFrom 0 bs
  | _, _ => decodeFrom 0 bs

end PortGraph.Base64
