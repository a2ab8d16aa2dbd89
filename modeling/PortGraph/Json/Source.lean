import PortGraph.Json.Basic
import PortGraph.Text.Blank
import PortGraph.Text.Parts

/-!
Document text as a tree of what was written, duplicate fields and order included. A text that breaks
off is a tree too: `broken` stands where it does, as the last thing in reading order, so a reader
that stops earlier never meets it. A number too large for a double and a string whose escapes name
no character are kept without a value, because only a reader that looks at them minds.
-/

namespace PortGraph

inductive Source
  | null
  | bool (b : Bool)
  | number (value : Option Number)
  | string (value : Option String)
  | array (items : List Source)
  | object (fields : List (Option String × Source))
  | broken
deriving Repr

namespace Source

mutual

/-- Whether the text goes on to the end of the value. -/
def intact : Source → Bool
  | .broken => false
  | .array items => intactItems items
  | .object fields => intactFields fields
  | _ => true

def intactItems : List Source → Bool
  | [] => true
  | v :: rest => intact v && intactItems rest

def intactFields : List (Option String × Source) → Bool
  | [] => true
  | (_, v) :: rest => intact v && intactFields rest

end

mutual

/-- A value as a tree, its fields in table order. -/
def ofJson : Json → Source
  | .null => .null
  | .bool b => .bool b
  | .number n => .number (some n)
  | .string s => .string (some s)
  | .array items => .array (ofItems items)
  | .object fields => .object (ofFields fields)

def ofItems : List Json → List Source
  | [] => []
  | v :: rest => ofJson v :: ofItems rest

def ofFields : List (String × Json) → List (Option String × Source)
  | [] => []
  | (k, v) :: rest => (some k, ofJson v) :: ofFields rest

end

def isSpace (c : Char) : Bool := c == ' ' || c == '\n' || c == '\t' || c == '\r'

def skipSpace (cs : List Char) : List Char := cs.dropWhile isSpace

/-- What scanning gives: the tree, and the text that follows it unless the text broke off. -/
abbrev Scanned (α : Type) := α × Option (List Char)

/-! ### Strings -/

def hexValue? (c : Char) : Option Nat :=
  let n := c.val.toNat
  if 48 ≤ n ∧ n ≤ 57 then some (n - 48)
  else if 97 ≤ n ∧ n ≤ 102 then some (n - 87)
  else if 65 ≤ n ∧ n ≤ 70 then some (n - 55)
  else none

def hex4? : List Char → Option (Nat × List Char)
  | a :: b :: c :: d :: rest => do
      let a ← hexValue? a
      let b ← hexValue? b
      let c ← hexValue? c
      let d ← hexValue? d
      some (((a * 16 + b) * 16 + c) * 16 + d, rest)
  | _ => none

/-- One step through a string: an escape or a character for itself. Halves of a surrogate pair stay
apart until the string is complete. -/
inductive StringUnit
  | char (c : Char)
  | half (n : Nat)

def simpleEscape? : Char → Option Char
  | '"' => some '"'
  | '\\' => some '\\'
  | '/' => some '/'
  | 'b' => some '\x08'
  | 'f' => some '\x0c'
  | 'n' => some '\n'
  | 'r' => some '\r'
  | 't' => some '\t'
  | _ => none

def isHalf (n : Nat) : Bool := 0xD800 ≤ n && n ≤ 0xDFFF

/-- The units up to the closing quotation mark, and the text after it. -/
def scanUnits : List Char → Option (List StringUnit × List Char)
  | [] => none
  | '"' :: rest => some ([], rest)
  | ['\\'] => none
  | '\\' :: 'u' :: a :: b :: c :: d :: rest =>
      match hex4? [a, b, c, d] with
      | none => none
      | some (n, _) =>
          (scanUnits rest).map fun (us, after) =>
            ((if isHalf n then .half n else .char (Char.ofNat n)) :: us, after)
  | '\\' :: c :: rest =>
      match simpleEscape? c with
      | none => none
      | some e => (scanUnits rest).map fun (us, after) => (.char e :: us, after)
  | c :: rest =>
      if c.val.toNat < 0x20 then none
      else (scanUnits rest).map fun (us, after) => (.char c :: us, after)

/-- The characters that units spell: a high half needs the low half after it. -/
def characters? : List StringUnit → Option (List Char)
  | [] => some []
  | .char c :: rest => (characters? rest).map (c :: ·)
  | .half h :: .half l :: rest =>
      if h < 0xDC00 && 0xDC00 ≤ l then
        (characters? rest).map (Char.ofNat (0x10000 + (h - 0xD800) * 0x400 + (l - 0xDC00)) :: ·)
      else none
  | .half _ :: _ => none

/-- The string whose opening quotation mark is already read. -/
def scanString (cs : List Char) : Option (Option String × List Char) :=
  (scanUnits cs).map fun (us, rest) => ((characters? us).map String.ofList, rest)

/-! ### Numbers -/

/-- A minus sign, if there is one, and the text after it. -/
def scanSign : List Char → Bool × List Char
  | '-' :: rest => (true, rest)
  | cs => (false, cs)

/-- The digits after a point, if there is one: at least one digit. -/
def scanFraction : List Char → Option (Option (List Char) × List Char)
  | '.' :: after =>
      let (ds, rest) := Text.Decimal.span after
      if ds.isEmpty then none else some (some ds, rest)
  | cs => some (none, cs)

/-- The exponent, if there is one. -/
def scanExponent : List Char → Option (Option Int × List Char)
  | 'e' :: after | 'E' :: after => (Binary64.exponent? after).map fun (e, rest) => (some e, rest)
  | cs => some (none, cs)

/-- The number of the given parts, unless it is too large. Without point and exponent it is an
integer if a 64-bit word can hold it. -/
def numberOf (negative : Bool) (whole : List Char) (fraction : Option (List Char))
    (exponent : Option Int) : Option Number :=
  let digits := Binary64.Significand.ofParts whole (fraction.getD []) (exponent.getD 0)
  let double := (digits.toDouble? negative).map Number.double
  let n := Text.Decimal.value whole
  match fraction, exponent with
  | none, none =>
      if negative then
        if 0 < n ∧ n ≤ Nat.pow 2 63 then some (.integer (-(n : Int))) else double
      else if n < Nat.pow 2 64 then some (.integer n) else double
  | _, _ => double

/-- The number at the head of a text: no leading zeros, digits on both sides of a point, digits in
an exponent. -/
def scanNumber (cs : List Char) : Scanned Source :=
  let (negative, body) := scanSign cs
  let (whole, rest) := Text.Decimal.span body
  match whole with
  | [] | '0' :: _ :: _ => (.broken, none)
  | whole =>
      match scanFraction rest with
      | none => (.broken, none)
      | some (fraction, rest) =>
          match scanExponent rest with
          | none => (.broken, none)
          | some (exponent, rest) =>
              (.number (numberOf negative whole fraction exponent), some rest)

/-! ### Values -/

def scanWord (word : List Char) (value : Source) (cs : List Char) : Scanned Source :=
  match Text.stripStart? word cs with
  | some rest => (value, some rest)
  | none => (.broken, none)

mutual

/-- The value at the head of a text. The fuel bounds the count of values and separators and is
never short when it exceeds the length of the text. -/
def scanValue (fuel : Nat) (cs : List Char) : Scanned Source :=
  match fuel with
  | 0 => (.broken, none)
  | fuel + 1 =>
      match skipSpace cs with
      | [] => (.broken, none)
      | '[' :: rest =>
          match skipSpace rest with
          | ']' :: rest => (.array [], some rest)
          | rest =>
              let (items, rest) := scanItems fuel rest
              (.array items, rest)
      | '{' :: rest =>
          match skipSpace rest with
          | '}' :: rest => (.object [], some rest)
          | rest =>
              let (fields, rest) := scanFields fuel rest
              (.object fields, rest)
      | '"' :: rest =>
          match scanString rest with
          | some (s, rest) => (.string s, some rest)
          | none => (.broken, none)
      | 'n' :: rest => scanWord ['u', 'l', 'l'] .null rest
      | 't' :: rest => scanWord ['r', 'u', 'e'] (.bool true) rest
      | 'f' :: rest => scanWord ['a', 'l', 's', 'e'] (.bool false) rest
      | c :: rest =>
          if c == '-' || Text.Decimal.isDigit c then scanNumber (c :: rest) else (.broken, none)

/-- The elements up to the closing bracket, at least one. -/
def scanItems (fuel : Nat) (cs : List Char) : Scanned (List Source) :=
  match fuel with
  | 0 => ([.broken], none)
  | fuel + 1 =>
      match scanValue fuel cs with
      | (v, none) => ([v], none)
      | (v, some rest) =>
          match skipSpace rest with
          | ']' :: rest => ([v], some rest)
          | ',' :: rest =>
              let (vs, rest) := scanItems fuel rest
              (v :: vs, rest)
          | _ => ([v, .broken], none)

/-- The fields up to the closing brace, at least one. -/
def scanFields (fuel : Nat) (cs : List Char) : Scanned (List (Option String × Source)) :=
  match fuel with
  | 0 => ([(none, .broken)], none)
  | fuel + 1 =>
      match skipSpace cs with
      | '"' :: rest =>
          match scanString rest with
          | none => ([(none, .broken)], none)
          | some (key, rest) =>
              match skipSpace rest with
              | ':' :: rest =>
                  match scanValue fuel rest with
                  | (v, none) => ([(key, v)], none)
                  | (v, some rest) =>
                      match skipSpace rest with
                      | '}' :: rest => ([(key, v)], some rest)
                      | ',' :: rest =>
                          let (fs, rest) := scanFields fuel rest
                          ((key, v) :: fs, rest)
                      | _ => ([(key, v), (none, .broken)], none)
              | _ => ([(key, .broken)], none)
      | _ => ([(none, .broken)], none)

end

/-- A whole text: its tree, and whether nothing but space follows it. -/
def ofText (text : String) : Source × Bool :=
  let cs := text.toList
  match scanValue (2 * cs.length + 1) cs with
  | (v, none) => (v, false)
  | (v, some rest) => (v, (skipSpace rest).isEmpty)

end Source

end PortGraph
