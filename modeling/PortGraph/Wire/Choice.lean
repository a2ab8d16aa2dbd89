import PortGraph.Wire.Record

/-!
Choices between named alternatives. A bare choice is its name, or an object with the name as its
only key and null under it. An alternative that carries a record is tagged: the name stands in a
field of the record itself, or the name and the record stand in two fields beside each other.
-/

namespace PortGraph

namespace Reader

variable {α : Type}

private def choose (choices : List (String × α)) (name : String) : Except Mismatch α :=
  match choices.find? fun c => c.1 == name with
  | some c => .ok c.2
  | none => .error (.unknownChoice name (choices.map (·.1)))

/-- A bare choice. -/
def choice (choices : List (String × α)) : Reader α
  | _, .string (some name) => choose choices name
  | r, .object fields =>
      if r.origin = .text then do
        let r ← r.enter
        match fields with
        | (some name, v) :: rest =>
            let c ← choose choices name
            unit r v
            if rest.isEmpty then return c else .error .malformed
        | _ => .error .malformed
      else
        match fields with
        | [(some name, v)] => do
            let c ← choose choices name
            unit r v
            return c
        | _ => .error (.wrongValue .map "map with a single key")
  | r, s => if r.origin = .text then .error .malformed else unfit "string or map" s

/-- The name of an alternative in a tag field; in what was set aside its position will do. -/
def tagName (choices : List (String × α)) : Reader α
  | _, .string (some name) => choose choices name
  | r, .number (some (.integer n)) =>
      if r.origin ≠ .buffer ∨ n < 0 then .error (.wrongType (.integer n) "variant identifier")
      else
        match choices[n.toNat]? with
        | some c => .ok c.2
        | none =>
            let bound := Text.Decimal.naturalText choices.length
            .error (.wrongValue (.integer n) s!"variant index 0 <= i < {bound}")
  | _, s => unfit "variant identifier" s

/-- The record of a tagged alternative. -/
inductive Alternative (α : Type)
  | bare (value : α)
  | record (label : String) (rec : Record α)

/-- Reads the rest of a tagged object or array, which is set aside by now. A bare alternative passes
over fields, but its array ends after the tag. -/
def Alternative.ofRest (r : Reading) : Alternative α → Source → Except Mismatch α
  | .bare _, .array (v :: rest) => .error (r.surplus 0 (v :: rest).length)
  | .bare value, _ => .ok value
  | .record label rec, s => rec.reader label r s

private def tagFields (tag : String) (names : List (String × Alternative α)) (r : Reading)
    (chosen : Option (Alternative α)) (rest : List (Option String × Source)) :
    List (Option String × Source) →
      Except Mismatch (Option (Alternative α) × List (Option String × Source))
  | [] => .ok (chosen, rest.reverse)
  | (none, _) :: _ => .error .malformed
  | (some key, v) :: more =>
      if key == tag then
        match chosen with
        | some _ => .error (.duplicateField tag)
        | none => do
            let c ← tagName names r v
            tagFields tag names r (some c) rest more
      else do
        let _ ← any r v
        tagFields tag names r chosen ((some key, v) :: rest) more

/-- A choice whose name stands in the field `tag` among the fields of its record. -/
def tagged (label tag : String) (names : List (String × Alternative α)) : Reader α
  | r, .object fields => do
      let r ← r.enter
      match ← tagFields tag names r none [] fields with
      | (some c, rest) => c.ofRest r.aside (.object rest)
      | (none, _) => .error (.missingField tag)
  | r, .array items => do
      let r ← r.enter
      match items with
      | [] => .error (.missingField tag)
      | v :: rest =>
          let c ← tagName names r v
          let _ ← anyItems r rest
          c.ofRest r.aside (.array rest)
  | _, s => unfit s!"internally tagged enum {label}" s

/-- The first field called `tag` or `content`, and what follows it. Others are passed over. -/
private def nextOf (tag content : String) :
    List (Option String × Source) →
      Except Mismatch (Option (Bool × Source × List (Option String × Source)))
  | [] => .ok none
  | (none, _) :: _ => .error .malformed
  | (some key, v) :: rest =>
      if key == tag then .ok (some (true, v, rest))
      else if key == content then .ok (some (false, v, rest))
      else if v.intact then nextOf tag content rest
      else .error .malformed

/-- A choice whose name stands in the field `tag` and its record in the field `content`. -/
def adjacent (label tag content : String) (names : List (String × Reader α)) : Reader α
  | r, .object fields => do
      let r ← r.enter
      let last (v : α) (rest : List (Option String × Source)) : Except Mismatch α := do
        match ← nextOf tag content rest with
        | none => return v
        | some (true, _) => .error (.duplicateField tag)
        | some (false, _) => .error (.duplicateField content)
      match ← nextOf tag content fields with
      | none => .error (.missingField tag)
      | some (true, name, rest) =>
          let read ← choice names r name
          match ← nextOf tag content rest with
          | none => .error (.missingField content)
          | some (true, _) => .error (.duplicateField tag)
          | some (false, body, rest) => last (← read r body) rest
      | some (false, body, rest) =>
          let _ ← any r body
          match ← nextOf tag content rest with
          | none => .error (.missingField tag)
          | some (false, _) => .error (.duplicateField content)
          | some (true, name, rest) =>
              let read ← choice names r name
              last (← read r.aside body) rest
  | r, .array items => do
      let r ← r.enter
      let full := s!"adjacently tagged enum {label}"
      match items with
      | [] => .error (.wrongLength 0 full)
      | [name] =>
          let _ ← choice names r name
          .error (.wrongLength 1 full)
      | name :: body :: rest =>
          let read ← choice names r name
          let v ← read r body
          if rest.isEmpty then return v else .error (r.surplus 2 rest.length)
  | _, s => unfit s!"adjacently tagged enum {label}" s

end Reader

end PortGraph
