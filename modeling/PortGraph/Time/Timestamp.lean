import PortGraph.Text.Blank
import PortGraph.Text.Decimal
import PortGraph.Time.Calendar
import PortGraph.Wire.Reader

/-!
Points in time, to the nanosecond. They are written in UTC in the form of RFC 3339 with as many
groups of three fraction digits as are needed, and read with any offset.
-/

namespace PortGraph

/-- Seconds since the epoch, and nanoseconds within the second. A leap second is the second before
it with a thousand million nanoseconds more. -/
structure Timestamp where
  seconds : Int
  nanos : Nat
deriving DecidableEq, Repr

namespace Timestamp

inductive Fault
  | invalid
  | short
  | long
  | outOfRange
  | impossible
deriving DecidableEq, Repr

def Fault.message : Fault → String
  | .invalid => "input contains invalid characters"
  | .short => "premature end of input"
  | .long => "trailing input"
  | .outOfRange => "input is out of range"
  | .impossible => "no possible date and time matching input"

def epoch : Timestamp := ⟨0, 0⟩

/-- The years in which a time can lie. -/
def firstYear : Int := -262143

def lastYear : Int := 262142

def addMillis (t : Timestamp) (ms : Nat) : Timestamp :=
  let nanos := t.nanos + ms % 1000 * 1000000
  ⟨t.seconds + (ms / 1000 + nanos / 1000000000 : Nat), nanos % 1000000000⟩

/-- Whole milliseconds from one time to another; none when it lies before. -/
def millisSince (t start : Timestamp) : Nat :=
  let nanos := (t.seconds - start.seconds) * 1000000000 + t.nanos - start.nanos
  (Int.tdiv nanos 1000000).toNat

/-! ### Writing -/

private def padded (width n : Nat) : List Char :=
  let ds := Text.Decimal.natural n
  List.replicate (width - ds.length) '0' ++ ds

private def fractionText (nanos : Nat) : List Char :=
  if nanos = 0 then []
  else if nanos % 1000000 = 0 then '.' :: padded 3 (nanos / 1000000)
  else if nanos % 1000 = 0 then '.' :: padded 6 (nanos / 1000)
  else '.' :: padded 9 nanos

private def yearText (year : Int) : List Char :=
  if 0 ≤ year ∧ year ≤ 9999 then padded 4 year.toNat
  else (if year < 0 then '-' else '+') :: padded 4 year.natAbs

def text (t : Timestamp) : String :=
  let date := Calendar.dateOf (Int.fdiv t.seconds 86400)
  let second := (Int.fmod t.seconds 86400).toNat
  let leap := t.nanos / 1000000000
  String.ofList <|
    yearText date.year ++ '-' :: padded 2 date.month ++ '-' :: padded 2 date.day ++ 'T' ::
      padded 2 (second / 3600) ++ ':' :: padded 2 (second / 60 % 60) ++ ':' ::
      padded 2 (second % 60 + leap) ++ fractionText (t.nanos % 1000000000) ++ ['Z']

/-! ### Reading -/

abbrev Scan (α : Type) := List Char → Except Fault (α × List Char)

/-- One to `most` digits at the head of a text. -/
def digitsHere (most : Nat) : Scan Nat := fun cs =>
  match (cs.take most).takeWhile Text.Decimal.isDigit with
  | [] => .error (if cs.isEmpty then .short else .invalid)
  | ds => .ok (Text.Decimal.value ds, cs.drop ds.length)

/-- One to `most` digits, blanks before them passed over. -/
def digits (most : Nat) : Scan Nat := fun cs => digitsHere most (Text.trimStart cs)

/-- A year: four digits, or any count after a sign. -/
def year : Scan Int := fun cs =>
  match Text.trimStart cs with
  | '+' :: rest => (digitsHere rest.length rest).map fun (n, rest) => ((n : Int), rest)
  | '-' :: rest => (digitsHere rest.length rest).map fun (n, rest) => (-(n : Int), rest)
  | cs => (digitsHere 4 cs).map fun (n, rest) => ((n : Int), rest)

/-- A mark, blanks before it passed over. -/
def mark (c : Char) : Scan Unit := fun cs =>
  match Text.trimStart cs with
  | [] => .error .short
  | d :: rest => if d = c then .ok ((), rest) else .error .invalid

/-- The fraction of a second after a point, cut off behind nanoseconds. -/
def fraction : Scan Nat
  | '.' :: rest =>
      match rest.takeWhile Text.Decimal.isDigit with
      | [] => .error (if rest.isEmpty then .short else .invalid)
      | ds =>
          let kept := ds.take 9
          .ok (Text.Decimal.value kept * Nat.pow 10 (9 - kept.length), rest.drop ds.length)
  | cs => .ok (0, cs)

/-- Two digits at the head of a text. -/
def pair : Scan Nat
  | a :: b :: rest =>
      if Text.Decimal.isDigit a && Text.Decimal.isDigit b then
        .ok (Text.Decimal.value [a, b], rest)
      else .error .invalid
  | _ => .error .short

/-- An offset from UTC in seconds: `Z`, `UTC`, or a sign, hours and minutes. -/
def offset : Scan Int := fun cs =>
  if (cs.take 3).map Char.toUpper = ['U', 'T', 'C'] then .ok (0, cs.drop 3)
  else
    match cs with
    | [] => .error .short
    | 'z' :: rest | 'Z' :: rest => .ok (0, rest)
    | sign :: rest =>
        if sign = '+' ∨ sign = '-' ∨ sign = '−' then do
          let (hours, rest) ← pair rest
          let rest := rest.dropWhile fun c => c == ':' || Text.isBlank c
          let (minutes, rest) ← pair rest
          if 60 ≤ minutes then .error .outOfRange
          else
            let seconds : Int := hours * 3600 + minutes * 60
            return (if sign = '+' then seconds else -seconds, rest)
        else .error .invalid

def parse (text : String) : Except Fault Timestamp := do
  let (year, cs) ← year text.toList
  let ((), cs) ← mark '-' cs
  let (month, cs) ← digits 2 cs
  if month = 0 ∨ 12 < month then .error .outOfRange
  let ((), cs) ← mark '-' cs
  let (day, cs) ← digits 2 cs
  if day = 0 ∨ 31 < day then .error .outOfRange
  let cs ← match cs with
    | [] => .error .short
    | c :: rest => if c = 't' ∨ c = 'T' ∨ c = ' ' then .ok rest else .error .invalid
  let (hour, cs) ← digits 2 cs
  if 23 < hour then .error .outOfRange
  let ((), cs) ← mark ':' cs
  let (minute, cs) ← digits 2 cs
  if 59 < minute then .error .outOfRange
  let ((), cs) ← mark ':' cs
  let (second, cs) ← digits 2 cs
  if 60 < second then .error .outOfRange
  let (nanos, cs) ← fraction cs
  let (offset, cs) ← offset (Text.trimStart cs)
  if (Text.trimStart cs).isEmpty = false then .error .long
  if 86400 ≤ offset.natAbs then .error .outOfRange
  let date : Calendar.Date := ⟨year, month, day⟩
  if ¬ date.Valid ∨ year < firstYear ∨ lastYear < year then .error .outOfRange
  let (second, nanos) := if second = 60 then (59, nanos + 1000000000) else (second, nanos)
  let seconds := Calendar.dayNumber date * 86400 + (hour * 3600 + minute * 60 + second : Nat)
  return ⟨seconds - offset, nanos⟩

def reader : Reader Timestamp
  | _, .string (some s) =>
      match parse s with
      | .ok t => .ok t
      | .error e => .error (.refused e.message)
  | _, s => Reader.unfit "an RFC 3339 formatted date and time string" s

end Timestamp

end PortGraph
