/-!
Tables: lists of entries in ascending order of their text keys, at most one entry a key. `insert`
keeps both; `find?` reads.
-/

namespace PortGraph

abbrev Table (α : Type) := List (String × α)

namespace Table

variable {α β : Type}

/-- The keys ascend, so no key is there twice. -/
def Ordered (t : Table α) : Prop := t.Pairwise fun a b => a.1 < b.1

def find? : Table α → String → Option α
  | [], _ => none
  | (k, v) :: rest, key => if k = key then some v else find? rest key

def contains (t : Table α) (key : String) : Bool := (find? t key).isSome

/-- Puts a value under a key; a value that was there gives way. -/
def insert (t : Table α) (key : String) (value : α) : Table α :=
  match t with
  | [] => [(key, value)]
  | (k, v) :: rest =>
      if key < k then (key, value) :: (k, v) :: rest
      else if key = k then (key, value) :: rest
      else (k, v) :: insert rest key value

def erase (t : Table α) (key : String) : Table α := t.filter fun e => !(e.1 == key)

/-- Entries put in one after the other: of two with one key the later stays. -/
def ofEntries (es : List (String × α)) : Table α := es.foldl (fun t e => insert t e.1 e.2) []

/-- The entries of `u` put into `t`. -/
def overlay (t u : Table α) : Table α := u.foldl (fun t e => insert t e.1 e.2) t

def keys (t : Table α) : List String := t.map (·.1)

/-- Changes the value under a key, if there is one. -/
def modify (t : Table α) (key : String) (f : α → α) : Table α :=
  t.map fun e => if e.1 == key then (e.1, f e.2) else e

end Table

/-- Puts a text into an ascending list of texts that does not hold it yet. -/
def insertSorted (ts : List String) (s : String) : List String :=
  match ts with
  | [] => [s]
  | t :: rest =>
      if s < t then s :: t :: rest
      else if s = t then t :: rest
      else t :: insertSorted rest s

/-- The texts in ascending order, each once. -/
def ascending (ts : List String) : List String := ts.foldl insertSorted []

/-- Puts an element before the first one that it need not come after. -/
def insertBy {α : Type} (le : α → α → Bool) (a : α) : List α → List α
  | [] => [a]
  | b :: rest => if le a b then a :: b :: rest else b :: insertBy le a rest

/-- The elements in order; those that tie stay as they stood. -/
def sortBy {α : Type} (le : α → α → Bool) (l : List α) : List α := l.foldr (insertBy le) []

end PortGraph
