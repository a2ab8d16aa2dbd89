import PortGraph.Wire.Reader

/-!
Records. A record is written as an object or, its fields in declared order, as an array. Fields of
an object are read in the order in which they are written, so the first that does not fit is named;
a missing field is noticed at the end, in declared order. Unknown fields are passed over.
-/

namespace PortGraph

/-- What is known of a field before its value has a type. -/
structure Field where
  name : String
  check : Reading → Source → Except Mismatch Unit
  /-- Whether an array may end before it. -/
  omissible : Bool

structure Record (α : Type) where
  fields : List Field
  build : Reading → (String → Option Source) → Except Mismatch α

namespace Record

variable {α β : Type}

instance : Applicative Record where
  pure a := ⟨[], fun _ _ => .ok a⟩
  seq f a := ⟨f.fields ++ (a ()).fields, fun r get => do
    let f ← f.build r get
    return f (← (a ()).build r get)⟩

def checkWith (read : Reader α) : Reading → Source → Except Mismatch Unit :=
  fun r s => (fun _ => ()) <$> read r s

def field (name : String) (read : Reader α) : Record α :=
  ⟨[⟨name, checkWith read, false⟩], fun r get =>
    match get name with
    | some s => read r s
    | none => .error (.missingField name)⟩

/-- A field that may be missing. -/
def fieldOr (name : String) (read : Reader α) (default : α) : Record α :=
  ⟨[⟨name, checkWith read, true⟩], fun r get =>
    match get name with
    | some s => read r s
    | none => .ok default⟩

/-- A field that may be missing from an object, but not from an array. -/
def fieldIn (name : String) (read : Reader α) : Record (Option α) :=
  ⟨[⟨name, checkWith (Reader.optional read), false⟩], fun r get =>
    match get name with
    | some s => Reader.optional read r s
    | none => .ok none⟩

/-- Reads the known fields where they stand, and refuses the second of one name. -/
def checkFields (known : List Field) (r : Reading) (seen : List String) :
    List (Option String × Source) → Except Mismatch Unit
  | [] => .ok ()
  | (none, _) :: _ => .error .malformed
  | (some name, v) :: rest =>
      match known.find? fun f => f.name == name with
      | none => if v.intact then checkFields known r seen rest else .error .malformed
      | some f =>
          if seen.contains name then .error (.duplicateField name)
          else do
            f.check r v
            checkFields known r (name :: seen) rest

/-- Reads the fields of an array by position, from field `i` on. -/
def checkItems (label : String) (total : Nat) (r : Reading) (i : Nat) :
    List Field → List Source → Except Mismatch Unit
  | [], [] => .ok ()
  | [], extra => .error (r.surplus total extra.length)
  | f :: fs, [] =>
      if f.omissible then checkItems label total r (i + 1) fs []
      else .error (.wrongLength i s!"{label} with {Mismatch.elements total}")
  | f :: fs, v :: rest => do
      f.check r v
      checkItems label total r (i + 1) fs rest

def lookup (fields : List (Option String × Source)) (name : String) : Option Source :=
  (fields.find? fun f => f.1 == some name).map (·.2)

/-- The record in an object. -/
def ofFields (rec : Record α) (r : Reading) (fields : List (Option String × Source)) :
    Except Mismatch α := do
  checkFields rec.fields r [] fields
  rec.build r (lookup fields)

/-- The record in an array. -/
def ofItems (label : String) (rec : Record α) (r : Reading) (items : List Source) :
    Except Mismatch α := do
  checkItems label rec.fields.length r 0 rec.fields items
  rec.build r (lookup ((rec.fields.map fun f => some f.name).zip items))

/-- Reads a record; `label` names it in complaints. -/
def reader (label : String) (rec : Record α) : Reader α
  | r, .object fields => do rec.ofFields (← r.enter) fields
  | r, .array items => do rec.ofItems label (← r.enter) items
  | _, s => Reader.unfit label s

/-- Takes a field out of an object as it is read. The other fields wait in memory. -/
def takeField (name : String) (read : Reader α) (r : Reading) (taken : Option α)
    (rest : List (Option String × Source)) :
    List (Option String × Source) → Except Mismatch (Option α × List (Option String × Source))
  | [] => .ok (taken, rest.reverse)
  | (none, _) :: _ => .error .malformed
  | (some key, v) :: more =>
      if key == name then
        match taken with
        | some _ => .error (.duplicateField name)
        | none => do
            let a ← read r v
            takeField name read r (some a) rest more
      else do
        let _ ← Reader.any r v
        takeField name read r taken ((some key, v) :: rest) more

/-- A field and the fields of a record side by side in one object. -/
def beside (label name : String) (read : Reader α) (rec : Record β) : Reader (α × β)
  | r, .object fields => do
      let r ← r.enter
      match ← takeField name read r none [] fields with
      | (none, _) => .error (.missingField name)
      | (some a, rest) => return (a, ← rec.ofFields r.aside rest)
  | _, s => Reader.unfit label s

end Record

end PortGraph
