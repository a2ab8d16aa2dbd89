import PortGraph.Json.Source
import PortGraph.Wire.Mismatch

/-!
Readers take typed values out of a document tree and name the first thing, in reading order, that
does not fit. A reader of a text counts how deep it is inside arrays and objects, because documents
nest at most `depthLimit` levels; a tree that was in memory before has no such limit. Where a tree
comes from also decides two smaller questions: what is said of an array with elements to spare, and
which spellings of a choice will do.
-/

namespace PortGraph

def depthLimit : Nat := 127

/-- Where the tree that is read comes from. -/
inductive Origin
  | text
  /-- A value in memory. -/
  | value
  /-- Part of a larger tree, set aside until its tag was known. -/
  | buffer
deriving DecidableEq, Repr

structure Reading where
  origin : Origin
  /-- How many arrays and objects are open. -/
  depth : Nat

abbrev Reader (α : Type) := Reading → Source → Except Mismatch α

namespace Reading

/-- Goes into an array or an object. -/
def enter (r : Reading) : Except Mismatch Reading :=
  if r.origin = .text ∧ depthLimit ≤ r.depth then .error .malformed
  else .ok { r with depth := r.depth + 1 }

/-- Reads on in what was set aside. -/
def aside (r : Reading) : Reading := { r with origin := .buffer }

/-- An array has `extra` elements more than the `taken` ones that were asked for. -/
def surplus (r : Reading) (taken extra : Nat) : Mismatch :=
  match r.origin with
  | .text => .malformed
  | .value => .wrongLength (taken + extra) "fewer elements in array"
  | .buffer => .wrongLength (taken + extra) s!"{Mismatch.elements taken} in sequence"

end Reading

namespace Reader

def found : Source → Except Mismatch Found
  | .null => .ok .null
  | .bool b => .ok (.bool b)
  | .number (some (.integer n)) => .ok (.integer n)
  | .number (some (.double x)) => .ok (.double x)
  | .string (some s) => .ok (.string s)
  | .array _ => .ok .sequence
  | .object _ => .ok .map
  | .number none | .string none | .broken => .error .malformed

/-- The value is none of what was expected. -/
def unfit {α : Type} (expected : String) (s : Source) : Except Mismatch α := do
  .error (.wrongType (← found s) expected)

theorem unfit_ne_ok {α : Type} {expected : String} {s : Source} {a : α} :
    (unfit expected s : Except Mismatch α) ≠ .ok a := by
  unfold unfit
  cases found s <;> simp [bind, Except.bind]

def text : Reader String
  | _, .string (some s) => .ok s
  | _, s => unfit "a string" s

def bool : Reader Bool
  | _, .bool b => .ok b
  | _, s => unfit "a boolean" s

/-- A natural number of a word of `bits` bits; `kind` is the name of such words. -/
def natural (bits : Nat) (kind : String) : Reader Nat
  | _, .number (some (.integer n)) =>
      if 0 ≤ n ∧ n < Nat.pow 2 bits then .ok n.toNat else .error (.wrongValue (.integer n) kind)
  | _, s => unfit kind s

def nat16 : Reader Nat := natural 16 "u16"

def nat32 : Reader Nat := natural 32 "u32"

def nat64 : Reader Nat := natural 64 "u64"

/-- A count: a natural number of a machine word. -/
def count : Reader Nat := natural 64 "usize"

def double : Reader Binary64
  | _, .number (some n) => .ok n.toDouble
  | _, s => unfit "f64" s

/-- Nothing: null or, in what was set aside, an object without fields. -/
def unit : Reader Unit
  | _, .null => .ok ()
  | r, .object [] => if r.origin = .buffer then .ok () else .error (.wrongType .map "unit")
  | _, s => unfit "unit" s

mutual

/-- Any value at all. Of two fields with one key the later stays. -/
def any (r : Reading) : Source → Except Mismatch Json
  | .null => .ok .null
  | .bool b => .ok (.bool b)
  | .number (some n) => .ok (.number n)
  | .string (some s) => .ok (.string s)
  | .array items => do
      let r ← r.enter
      return .array (← anyItems r items)
  | .object fields => do
      let r ← r.enter
      return .object (← anyFields r [] fields)
  | .number none | .string none | .broken => .error .malformed

def anyItems (r : Reading) : List Source → Except Mismatch (List Json)
  | [] => .ok []
  | v :: rest => do
      let v ← any r v
      return v :: (← anyItems r rest)

def anyFields (r : Reading) (read : Table Json) :
    List (Option String × Source) → Except Mismatch (Table Json)
  | [] => .ok read
  | (none, _) :: _ => .error .malformed
  | (some k, v) :: rest => do
      let v ← any r v
      anyFields r (read.insert k v) rest

end

/-- Any object. -/
def fields : Reader (Table Json)
  | r, .object fs => do anyFields (← r.enter) [] fs
  | _, s => unfit "a map" s

def optional {α : Type} (read : Reader α) : Reader (Option α)
  | _, .null => .ok none
  | r, s => some <$> read r s

def listItems {α : Type} (read : Reader α) (r : Reading) : List Source → Except Mismatch (List α)
  | [] => .ok []
  | v :: rest => do
      let v ← read r v
      return v :: (← listItems read r rest)

def list {α : Type} (read : Reader α) : Reader (List α)
  | r, .array items => do listItems read (← r.enter) items
  | _, s => unfit "a sequence" s

/-- A string that a further parser turns into a value. -/
def parsed {α ε : Type} (parse : String → Except ε α) (explain : ε → String) : Reader α
  | r, s => do
      match parse (← text r s) with
      | .ok v => return v
      | .error e => .error (.refused (explain e))

/-- Reads a whole text: the value, then nothing but space. -/
def readText {α : Type} (read : Reader α) (text : String) : Except Mismatch α := do
  let (source, ended) := Source.ofText text
  let v ← read ⟨.text, 0⟩ source
  if ended then return v else .error .malformed

/-- Reads a value that is in memory. -/
def readJson {α : Type} (read : Reader α) (v : Json) : Except Mismatch α :=
  read ⟨.value, 0⟩ (Source.ofJson v)

end Reader

/-- The value that a text spells. -/
def Json.parse (text : String) : Except Mismatch Json := Reader.readText Reader.any text

end PortGraph
