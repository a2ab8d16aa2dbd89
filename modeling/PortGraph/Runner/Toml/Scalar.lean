import PortGraph.Number.Literal
import PortGraph.Runner.Value

/-!
Single values of a TOML document: strings in four forms, numbers, truth values and dates. A date is
kept as its text.
-/

namespace PortGraph.Runner.Toml

/-- A value and the text after it. -/
abbrev Scan (α : Type) := List Char → Option (α × List Char)

def isControl (c : Char) : Bool :=
  let n := c.val.toNat
  (n < 0x20 && n != 0x09) || n == 0x7F

def hexValue? (c : Char) : Option Nat :=
  if c.isDigit then some (c.val.toNat - 48)
  else if 'a' ≤ c ∧ c ≤ 'f' then some (c.val.toNat - 87)
  else if 'A' ≤ c ∧ c ≤ 'F' then some (c.val.toNat - 55)
  else none

/-- The character with the given code, written in `count` hexadecimal digits. -/
def codePoint (count : Nat) : Scan Char := fun cs => do
  let ds := cs.take count
  if ds.length ≠ count then none
  let n ← ds.foldlM (fun n c => (hexValue? c).map (16 * n + ·)) 0
  if n.isValidChar then some (Char.ofNat n, cs.drop count) else none

/-- What follows a backslash. -/
def escape : Scan Char
  | 'b' :: rest => some ('\x08', rest)
  | 'e' :: rest => some ('\x1b', rest)
  | 't' :: rest => some ('\t', rest)
  | 'n' :: rest => some ('\n', rest)
  | 'f' :: rest => some ('\x0c', rest)
  | 'r' :: rest => some ('\r', rest)
  | '"' :: rest => some ('"', rest)
  | '\\' :: rest => some ('\\', rest)
  | 'x' :: rest => codePoint 2 rest
  | 'u' :: rest => codePoint 4 rest
  | 'U' :: rest => codePoint 8 rest
  | _ => none

/-- The rest of a string on one line. -/
def shortString (fuel : Nat) (mark : Char) (escapes : Bool) (read : List Char) : Scan String
  | [] => none
  | c :: rest =>
      match fuel with
      | 0 => none
      | fuel + 1 =>
          if c = mark then some (String.ofList read.reverse, rest)
          else if c = '\\' && escapes then
            match escape rest with
            | some (e, rest) => shortString fuel mark escapes (e :: read) rest
            | none => none
          else if isControl c then none
          else shortString fuel mark escapes (c :: read) rest

def isSpace (c : Char) : Bool := c == ' ' || c == '\t'

/-- A line that ends in a backslash goes on at the next character that is no space. -/
def continued? (cs : List Char) : Option (List Char) :=
  match cs.dropWhile isSpace with
  | '\n' :: rest | '\r' :: '\n' :: rest =>
      some (rest.dropWhile fun c => isSpace c || c == '\n' || c == '\r')
  | _ => none

/-- The rest of a string over several lines. Up to two marks may stand before the three that end
it. -/
def longString (fuel : Nat) (mark : Char) (escapes : Bool) (read : List Char) : Scan String
  | [] => none
  | c :: rest =>
      match fuel with
      | 0 => none
      | fuel + 1 =>
          let marks := (c :: rest).takeWhile (· == mark)
          if 3 ≤ marks.length then
            let extra := min 2 (marks.length - 3)
            some (String.ofList (read.reverse ++ List.replicate extra mark),
              (c :: rest).drop (3 + extra))
          else if c = '\\' && escapes then
            match continued? rest with
            | some rest => longString fuel mark escapes read rest
            | none =>
                match escape rest with
                | some (e, rest) => longString fuel mark escapes (e :: read) rest
                | none => none
          else if c = '\r' then
            match rest with
            | '\n' :: rest => longString fuel mark escapes ('\n' :: read) rest
            | _ => none
          else if isControl c && c != '\n' then none
          else longString fuel mark escapes (c :: read) rest

/-- A string on one line, from its opening mark. -/
def lineString : Scan String
  | '"' :: rest => shortString rest.length '"' true [] rest
  | '\'' :: rest => shortString rest.length '\'' false [] rest
  | _ => none

/-- Any string. A line end right after the opening marks is not part of it. -/
def string : Scan String := fun cs =>
  let body (rest : List Char) : List Char :=
    match rest with
    | '\n' :: rest | '\r' :: '\n' :: rest => rest
    | rest => rest
  match cs with
  | '"' :: '"' :: '"' :: rest => longString rest.length '"' true [] (body rest)
  | '\'' :: '\'' :: '\'' :: rest => longString rest.length '\'' false [] (body rest)
  | cs => lineString cs

/-! ### Numbers -/

/-- Digits with single underscores between them, as the digits alone. -/
def grouped? (isDigit : Char → Bool) : List Char → Option (List Char)
  | [] => none
  | [c] => if isDigit c then some [c] else none
  | c :: '_' :: rest => if isDigit c then (grouped? isDigit rest).map (c :: ·) else none
  | c :: rest => if isDigit c then (grouped? isDigit rest).map (c :: ·) else none

def based? (base : Nat) (cs : List Char) : Option Nat := do
  let ds ← grouped? (fun c => (hexValue? c).any (· < base)) cs
  ds.foldlM (fun n c => (hexValue? c).map (base * n + ·)) 0

def signed (cs : List Char) : Bool × List Char :=
  match cs with
  | '-' :: rest => (true, rest)
  | '+' :: rest => (false, rest)
  | _ => (false, cs)

/-- Digits that do not begin with a zero, unless that is all. -/
def plain? (cs : List Char) : Option (List Char) :=
  match grouped? Text.Decimal.isDigit cs with
  | some ('0' :: _ :: _) => none
  | other => other

def inRange (n : Int) : Option Value :=
  if -(Nat.pow 2 63) ≤ n ∧ n < Nat.pow 2 63 then some (.integer n) else none

def integer? (cs : List Char) : Option Value :=
  match cs with
  | '0' :: 'x' :: ds => (based? 16 ds).bind fun n => inRange n
  | '0' :: 'o' :: ds => (based? 8 ds).bind fun n => inRange n
  | '0' :: 'b' :: ds => (based? 2 ds).bind fun n => inRange n
  | _ =>
      let (negative, ds) := signed cs
      (plain? ds).bind fun ds =>
        let n : Int := Text.Decimal.value ds
        inRange (if negative then -n else n)

/-- A whole part, then a fraction, an exponent, or both. -/
def float? (cs : List Char) : Option Value := do
  let (negative, body) := signed cs
  match body with
  | ['i', 'n', 'f'] => return .real (.infinite negative)
  | ['n', 'a', 'n'] => return .real .undefined
  | _ =>
      let isMark (c : Char) : Bool := c == '.' || c == 'e' || c == 'E'
      let whole ← plain? (body.takeWhile (!isMark ·))
      let rest := body.dropWhile (!isMark ·)
      let (fraction, rest) ← match rest with
        | '.' :: rest =>
            (grouped? Text.Decimal.isDigit (rest.takeWhile (!isMark ·))).map fun ds =>
              (ds, rest.dropWhile (!isMark ·))
        | rest => some ([], rest)
      let scale : Int ← match rest with
        | [] => if fraction.isEmpty then none else some 0
        | 'e' :: rest | 'E' :: rest =>
            let (down, ds) := signed rest
            (grouped? Text.Decimal.isDigit ds).map fun ds =>
              let n : Int := Text.Decimal.value ds
              if down then -n else n
        | _ => none
      let literal : Binary64.Literal := ⟨negative, whole ++ fraction, scale - fraction.length⟩
      (literal.value?).map fun x => .real (.finite x)

/-! ### Dates -/

def twoDigits (most : Nat) : Scan Unit
  | a :: b :: rest =>
      if a.isDigit && b.isDigit && Text.Decimal.value [a, b] ≤ most then some ((), rest) else none
  | _ => none

def mark (c : Char) : Scan Unit
  | d :: rest => if c = d then some ((), rest) else none
  | [] => none

def daysIn (year month : Nat) : Nat :=
  let leap := (year % 4 == 0 && year % 100 != 0) || year % 400 == 0
  if month = 2 then (if leap then 29 else 28)
  else if [4, 6, 9, 11].contains month then 30
  else 31

def date : Scan Unit := fun cs => do
  let year := cs.take 4
  if year.length ≠ 4 ∨ year.all Char.isDigit = false then none
  let (_, rest) ← mark '-' (cs.drop 4)
  let month := Text.Decimal.value (rest.take 2)
  let (_, rest) ← twoDigits 12 rest
  let (_, rest) ← mark '-' rest
  let day := Text.Decimal.value (rest.take 2)
  let (_, rest) ← twoDigits 31 rest
  if month = 0 ∨ day = 0 ∨ daysIn (Text.Decimal.value year) month < day then none
  return ((), rest)

/-- Seconds and a fraction of them, which may both be left out. -/
def seconds : Scan Unit
  | ':' :: rest => do
      let (_, rest) ← twoDigits 60 rest
      match rest with
      | '.' :: rest =>
          if (rest.takeWhile Char.isDigit).isEmpty then none
          else return ((), rest.dropWhile Char.isDigit)
      | rest => return ((), rest)
  | rest => some ((), rest)

def time : Scan Unit := fun cs => do
  let (_, rest) ← twoDigits 23 cs
  let (_, rest) ← mark ':' rest
  let (_, rest) ← twoDigits 59 rest
  seconds rest

def zone : Scan Unit
  | 'Z' :: rest | 'z' :: rest => some ((), rest)
  | '+' :: rest | '-' :: rest => do
      let (_, rest) ← twoDigits 23 rest
      let (_, rest) ← mark ':' rest
      twoDigits 59 rest
  | rest => some ((), rest)

/-- Whether a text is a date, a time, or both. -/
def isDate (cs : List Char) : Bool :=
  let withTime (rest : List Char) : Bool :=
    match (time rest).bind fun (_, rest) => zone rest with
    | some ((), []) => true
    | _ => false
  let onlyTime (rest : List Char) : Bool := match time rest with
    | some ((), []) => true
    | _ => false
  match date cs with
  | some ((), []) => true
  | some ((), c :: rest) => (c == 'T' || c == 't' || c == ' ') && withTime rest
  | none => onlyTime cs

/-! ### Words -/

def isWordChar (c : Char) : Bool := c.isAlphanum || "+-_.:".contains c

/-- The characters of a value without marks; a single space may stand between a date and a time. -/
def word (cs : List Char) : List Char × List Char :=
  let first := cs.takeWhile isWordChar
  let rest := cs.dropWhile isWordChar
  match date first, rest with
  | some ((), []), ' ' :: d :: more =>
      if d.isDigit then
        (first ++ ' ' :: (d :: more).takeWhile isWordChar, (d :: more).dropWhile isWordChar)
      else (first, rest)
  | _, _ => (first, rest)

def scalar : Scan Value := fun cs =>
  match cs with
  | '"' :: _ | '\'' :: _ => (string cs).map fun (s, rest) => (.text s, rest)
  | _ =>
      let (w, rest) := word cs
      let v? : Option Value :=
        if w = "true".toList then some (.bool true)
        else if w = "false".toList then some (.bool false)
        else (integer? w).orElse fun _ => (float? w).orElse fun _ =>
          if isDate w then some (.text (String.ofList w)) else none
      v?.map fun v => (v, rest)

end PortGraph.Runner.Toml
