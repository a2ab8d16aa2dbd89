import PortGraph.Json.Basic
import PortGraph.Text.Blank
import PortGraph.Text.Parts

/-!
Paths into a value: `$`, `.key`, `['key']`, `["key"]` and `[index]`, one after the other, with no
wildcards. The leading `$` may be left out, and so may the point of a first key.
-/

namespace PortGraph

inductive Segment
  | key (name : String)
  | index (i : Nat)
deriving DecidableEq, Repr

abbrev Path := List Segment

namespace Path

inductive Fault
  | emptyKey
  | unclosed
  | badBracket
  | misplaced
deriving DecidableEq, Repr

def Fault.message : Fault → String
  | .emptyKey => "empty key after '.'"
  | .unclosed => "unclosed '['"
  | .badBracket => "brackets must hold an index or a quoted key"
  | .misplaced => "expected '.' or '['"

/-- An expression that is no path. -/
structure Error where
  expression : String
  fault : Fault
deriving DecidableEq, Repr

def Error.message (e : Error) : String := s!"invalid path '{e.expression}': {e.fault.message}"

def endsKey (c : Char) : Bool := c == '.' || c == '['

/-- The text between two equal quotation marks. -/
def unquoted? (cs : List Char) : Option (List Char) :=
  let between (q : Char) := (Text.stripStart? [q] cs).bind (Text.stripEnd? [q])
  (between '\'').orElse fun _ => between '"'

/-- What stands in brackets, blanks around it aside. -/
def bracketed? (cs : List Char) : Option Segment :=
  let inner := Text.trim cs
  match unquoted? inner with
  | some key => some (.key (String.ofList key))
  | none => (Text.Decimal.natural? (Nat.pow 2 64) inner).map .index

/-- The segment at the head of an expression, and the rest. -/
def step (first : Bool) : List Char → Except Fault (Segment × List Char)
  | '.' :: after =>
      match after.takeWhile (!endsKey ·) with
      | [] => .error .emptyKey
      | key => .ok (.key (String.ofList key), after.dropWhile (!endsKey ·))
  | '[' :: after =>
      match after.dropWhile (· != ']') with
      | [] => .error .unclosed
      | _ :: rest =>
          match bracketed? (after.takeWhile (· != ']')) with
          | some segment => .ok (segment, rest)
          | none => .error .badBracket
  | c :: rest =>
      if first then
        .ok (.key (String.ofList (c :: rest.takeWhile (!endsKey ·))), rest.dropWhile (!endsKey ·))
      else .error .misplaced
  | [] => .error .misplaced

theorem length_dropWhile_le (p : Char → Bool) (cs : List Char) :
    (cs.dropWhile p).length ≤ cs.length := (List.dropWhile_suffix p).length_le

theorem length_of_step {first : Bool} {cs rest : List Char} {segment : Segment}
    (h : step first cs = .ok (segment, rest)) : rest.length < cs.length := by
  unfold step at h
  split at h
  · rename_i after
    split at h
    · cases h
    · injection h with h
      injection h with _ h
      subst h
      exact Nat.lt_succ_of_le (length_dropWhile_le _ _)
  · rename_i after
    split at h
    · cases h
    · rename_i tail heq
      split at h
      · injection h with h
        injection h with _ h
        subst h
        have := length_dropWhile_le (· != ']') after
        rw [heq] at this
        simp only [List.length_cons] at this ⊢
        omega
      · cases h
  · split at h
    · injection h with h
      injection h with _ h
      subst h
      exact Nat.lt_succ_of_le (length_dropWhile_le _ _)
    · cases h
  · cases h

/-- All segments of an expression. -/
def segments (first : Bool) (cs : List Char) : Except Fault Path :=
  match cs with
  | [] => .ok []
  | c :: cs =>
      match h : step first (c :: cs) with
      | .error e => .error e
      | .ok (segment, rest) =>
          have : rest.length < (c :: cs).length := length_of_step h
          (segments false rest).map (segment :: ·)
termination_by cs.length
decreasing_by assumption

def parse (expression : String) : Except Error Path :=
  let cs := Text.trim expression.toList
  let body := (Text.stripStart? ['$'] cs).getD cs
  (segments true body).mapError fun fault => ⟨expression, fault⟩

def isRoot (p : Path) : Bool := p.isEmpty

end Path

namespace Segment

/-- A key takes a field of an object, an index an element of an array. -/
def select? : Segment → Json → Option Json
  | .key name, v => v.field? name
  | .index i, v => v.item? i

/-- The segment in brackets, its key in single quotation marks. -/
def write : Segment → List Char
  | .key name => '[' :: '\'' :: (name.toList ++ ['\'', ']'])
  | .index i => '[' :: (Text.Decimal.natural i ++ [']'])

end Segment

namespace Path

/-- Follows the segments one by one. -/
def select? (p : Path) (v : Json) : Option Json := p.foldlM (fun v s => s.select? v) v

/-- The path from the root with every segment in brackets. -/
def write (p : Path) : String := String.ofList ('$' :: p.flatMap Segment.write)

end Path

end PortGraph
