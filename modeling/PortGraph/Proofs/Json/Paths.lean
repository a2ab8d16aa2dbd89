import Mathlib.Data.List.TakeWhile
import PortGraph.Json.Path
import PortGraph.Proofs.Text.Decimal
import PortGraph.Proofs.Text.Parts

/-!
The grammar of paths, and what a path selects. A text is read as a path just when the grammar spells
it so, which it does in at most one way. The path then leads from a value to the one that its
segments lead to, one after the other, and to nothing where a segment leads nowhere.
-/

namespace PortGraph

namespace Path

/-- A nonempty text in which no further segment begins. -/
structure Bare (cs : List Char) : Prop where
  ne_nil : cs ≠ []
  point : '.' ∉ cs
  bracket : '[' ∉ cs

/-- What may stand in brackets, blanks around it aside: a quoted key, or an index of a 64-bit word
with an optional plus sign. -/
inductive Held (cs : List Char) : Segment → Prop
  | quoted {q : Char} {key : List Char} (hq : q = '\'' ∨ q = '"') (h : cs = q :: (key ++ [q])) :
      Held cs (.key (String.ofList key))
  | index {ds : List Char} (hsign : cs = ds ∨ cs = '+' :: ds) (hrun : Text.Decimal.Run ds)
      (hword : Text.Decimal.value ds < Nat.pow 2 64) : Held cs (.index (Text.Decimal.value ds))

end Path

/-- The texts of a segment. Only the first one of a path may be a key without a point. -/
inductive Segment.Spelled (first : Bool) : Segment → List Char → Prop
  | dotted {run : List Char} (h : Path.Bare run) :
      Spelled first (.key (String.ofList run)) ('.' :: run)
  | bracketed {inner : List Char} {s : Segment} (hclose : ']' ∉ inner)
      (h : Path.Held (Text.trim inner) s) : Spelled first s ('[' :: (inner ++ [']']))
  | bare {run : List Char} (hfirst : first = true) (h : Path.Bare run) :
      Spelled first (.key (String.ofList run)) run

theorem Segment.Spelled.ne_nil {first : Bool} {s : Segment} {text : List Char}
    (h : s.Spelled first text) : text ≠ [] := by
  cases h with
  | dotted _ => simp
  | bracketed _ _ => simp
  | bare _ hbare => exact hbare.ne_nil

namespace Path

/-- The texts of a path: those of its segments, one after the other. -/
inductive Spells : Bool → List Char → Path → Prop
  | nil {first : Bool} : Spells first [] []
  | cons {first : Bool} {text rest : List Char} {s : Segment} {p : Path} (hs : s.Spelled first text)
      (hp : Spells false rest p) : Spells first (text ++ rest) (s :: p)

/-- The expression without blanks at its ends and without a dollar sign in front. -/
def body (expression : String) : List Char :=
  match Text.trim expression.toList with
  | '$' :: cs => cs
  | cs => cs

/-! ### Brackets -/

theorem unquoted?_eq_some {cs key : List Char} :
    unquoted? cs = some key ↔ ∃ q, (q = '\'' ∨ q = '"') ∧ cs = q :: (key ++ [q]) := by
  have hbetween : ∀ (q : Char) (key : List Char),
      (Text.stripStart? [q] cs).bind (Text.stripEnd? [q]) = some key ↔ cs = q :: (key ++ [q]) := by
    intro q key
    simp [Option.bind_eq_some_iff, Text.stripStart?_eq_some, Text.stripEnd?_eq_some]
  have hsingle := hbetween '\''
  unfold unquoted?
  dsimp only
  generalize (Text.stripStart? ['\''] cs).bind (Text.stripEnd? ['\'']) = single at hsingle
  cases single with
  | none =>
    have hno : cs ≠ '\'' :: (key ++ ['\'']) := by simpa using hsingle key
    simp [hbetween, hno]
  | some found =>
    have hfound := (hsingle found).mp rfl
    constructor
    · intro h
      exact ⟨'\'', Or.inl rfl, (hsingle key).mp h⟩
    · rintro ⟨q, rfl | rfl, h⟩
      · exact (hsingle key).mpr h
      · simp [hfound] at h

/-- An index does not begin with a quotation mark. -/
theorem unquoted?_of_index {cs ds : List Char} (hsign : cs = ds ∨ cs = '+' :: ds)
    (hrun : Text.Decimal.Run ds) : unquoted? cs = none := by
  rw [Option.eq_none_iff_forall_ne_some]
  intro key hkey
  obtain ⟨q, hq, h⟩ := unquoted?_eq_some.mp hkey
  rcases hsign with rfl | rfl
  · have hdigit := hrun.all q (by simp [h])
    rcases hq with rfl | rfl <;> exact absurd hdigit (by decide)
  · rcases hq with rfl | rfl <;> simp at h

theorem bracketed?_eq_some {cs : List Char} {s : Segment} :
    bracketed? cs = some s ↔ Held (Text.trim cs) s := by
  unfold bracketed?
  dsimp only
  generalize Text.trim cs = inner
  constructor
  · intro h
    split at h
    · rename_i key hkey
      obtain ⟨q, hq, hinner⟩ := unquoted?_eq_some.mp hkey
      obtain rfl := Option.some.inj h
      exact .quoted hq hinner
    · obtain ⟨n, hn, rfl⟩ := Option.map_eq_some_iff.mp h
      obtain ⟨ds, hsign, hrun, rfl, hword⟩ := Text.Decimal.natural?_eq_some.mp hn
      exact .index hsign hrun hword
  · intro h
    cases h with
    | quoted hq hinner => rw [unquoted?_eq_some.mpr ⟨_, hq, hinner⟩]
    | index hsign hrun hword =>
      rw [unquoted?_of_index hsign hrun,
        Text.Decimal.natural?_eq_some.mpr ⟨_, hsign, hrun, rfl, hword⟩]
      rfl

/-! ### One segment -/

theorem endsKey_eq_false {c : Char} : endsKey c = false ↔ c ≠ '.' ∧ c ≠ '[' := by
  simp [endsKey]

theorem bare_iff {cs : List Char} : Bare cs ↔ cs ≠ [] ∧ ∀ c ∈ cs, (!endsKey c) = true := by
  simp only [Bool.not_eq_true', endsKey_eq_false]
  constructor
  · intro h
    refine ⟨h.ne_nil, fun c hc => ⟨?_, ?_⟩⟩
    · rintro rfl
      exact h.point hc
    · rintro rfl
      exact h.bracket hc
  · rintro ⟨hne, hall⟩
    exact ⟨hne, fun h => (hall _ h).1 rfl, fun h => (hall _ h).2 rfl⟩

theorem spelled_of_step {first : Bool} {cs rest : List Char} {s : Segment}
    (h : step first cs = .ok (s, rest)) : ∃ text, cs = text ++ rest ∧ s.Spelled first text := by
  unfold step at h
  split at h
  · rename_i after
    split at h
    · simp at h
    · rename_i hkey
      obtain ⟨rfl, rfl⟩ := Prod.mk.inj (Except.ok.inj h)
      have hbare : Bare (after.takeWhile (!endsKey ·)) :=
        bare_iff.mpr ⟨hkey, fun c => List.mem_takeWhile_imp (p := (!endsKey ·))⟩
      exact ⟨_, by simp, .dotted hbare⟩
  · rename_i after
    split at h
    · simp at h
    · rename_i head tail hafter
      split at h
      · rename_i s' hs
        obtain ⟨rfl, rfl⟩ := Prod.mk.inj (Except.ok.inj h)
        have hclose : ']' ∉ after.takeWhile (· != ']') := fun hmem =>
          absurd (List.mem_takeWhile_imp hmem) (by decide)
        obtain rfl : head = ']' := by
          simpa using Text.stopped_dropWhile (· != ']') after head (by simp [hafter])
        refine ⟨_, ?_, .bracketed hclose (bracketed?_eq_some.mp hs)⟩
        have hcut := List.takeWhile_append_dropWhile (p := (· != ']')) (l := after)
        rw [hafter] at hcut
        simpa using hcut.symm
      · simp at h
  · rename_i c tail hpoint hbracket
    split_ifs at h with hfirst
    obtain ⟨rfl, rfl⟩ := Prod.mk.inj (Except.ok.inj h)
    have hbare : Bare (c :: tail.takeWhile (!endsKey ·)) := by
      refine bare_iff.mpr ⟨by simp, fun d hd => ?_⟩
      rcases List.mem_cons.mp hd with rfl | hd
      · simpa [endsKey_eq_false] using And.intro hpoint hbracket
      · exact List.mem_takeWhile_imp (p := (!endsKey ·)) hd
    exact ⟨_, by simp, .bare hfirst hbare⟩
  · simp at h

/-- The text is at its end or goes on with a segment that is not a bare key. -/
def Ends (cs : List Char) : Prop := Text.Stopped (!endsKey ·) cs

theorem step_of_spelled {first : Bool} {text rest : List Char} {s : Segment}
    (h : s.Spelled first text) (hrest : Ends rest) : step first (text ++ rest) = .ok (s, rest) := by
  cases h with
  | @dotted run hbare =>
    obtain ⟨hne, hall⟩ := bare_iff.mp hbare
    obtain ⟨c, cs, rfl⟩ := List.exists_cons_of_ne_nil hne
    rw [List.cons_append, step, Text.takeWhile_append_stopped hall hrest,
      Text.dropWhile_append_stopped hall hrest]
  | @bracketed inner _ hclose hheld =>
    have hall : ∀ c ∈ inner, (c != ']') = true := by
      rintro c hc
      simp only [bne_iff_ne, ne_eq]
      rintro rfl
      exact hclose hc
    have hstop : Text.Stopped (· != ']') (']' :: rest) := by
      rintro c ⟨⟩
      decide
    rw [List.cons_append, List.append_assoc, List.singleton_append, step,
      Text.dropWhile_append_stopped hall hstop, Text.takeWhile_append_stopped hall hstop]
    simp only [bracketed?_eq_some.mpr hheld]
  | bare hfirst hbare =>
    obtain ⟨hne, hall⟩ := bare_iff.mp hbare
    obtain ⟨c, cs, rfl⟩ := List.exists_cons_of_ne_nil hne
    obtain ⟨hpoint, hbracket⟩ : c ≠ '.' ∧ c ≠ '[' := by
      simpa [endsKey_eq_false] using hall c (by simp)
    have hcs : ∀ d ∈ cs, (!endsKey d) = true := fun d hd => hall d (List.mem_cons_of_mem _ hd)
    rw [List.cons_append]
    unfold step
    split
    · exact absurd (List.cons.inj ‹_›).1 hpoint
    · exact absurd (List.cons.inj ‹_›).1 hbracket
    · rename_i heq
      obtain ⟨rfl, rfl⟩ := List.cons.inj heq
      rw [if_pos hfirst, Text.takeWhile_append_stopped hcs hrest,
        Text.dropWhile_append_stopped hcs hrest]
    · simp at *

/-! ### All segments -/

theorem Spells.ends {cs : List Char} {p : Path} (h : Spells false cs p) : Ends cs := by
  cases h with
  | nil => exact fun _ hc => by simp at hc
  | cons hs _ =>
    cases hs with
    | dotted _ => rintro c ⟨⟩; decide
    | bracketed _ _ => rintro c ⟨⟩; decide
    | bare hfirst _ => simp at hfirst

theorem Spells.of_later {first : Bool} {cs : List Char} {p : Path} (h : Spells false cs p) :
    Spells first cs p := by
  cases h with
  | nil => exact .nil
  | cons hs hp =>
    refine .cons ?_ hp
    cases hs with
    | dotted hbare => exact .dotted hbare
    | bracketed hclose hheld => exact .bracketed hclose hheld
    | bare hfirst _ => simp at hfirst

theorem spells_of_segments {first : Bool} {cs : List Char} {p : Path}
    (h : segments first cs = .ok p) : Spells first cs p := by
  fun_induction segments first cs generalizing p with
  | case1 first =>
    obtain rfl := Except.ok.inj h
    exact .nil
  | case2 first c cs e hstep => simp at h
  | case3 first c cs s rest hstep _ ih =>
    obtain ⟨text, hcs, hs⟩ := spelled_of_step hstep
    cases hrest : segments false rest with
    | error e => simp [hrest, Except.map] at h
    | ok q =>
      obtain rfl : s :: q = p := by simpa [hrest, Except.map] using h
      rw [hcs]
      exact .cons hs (ih hrest)

theorem segments_of_spells {first : Bool} {cs : List Char} {p : Path} (h : Spells first cs p) :
    segments first cs = .ok p := by
  induction h with
  | nil => simp [segments]
  | @cons first text rest s p hs hp ih =>
    have hstep := step_of_spelled hs hp.ends
    obtain ⟨c, cs, hcs⟩ := List.exists_cons_of_ne_nil (l := text ++ rest) (by simp [hs.ne_nil])
    rw [hcs] at hstep ⊢
    unfold segments
    split
    · simp [hstep] at *
    · rename_i hfound
      obtain ⟨rfl, rfl⟩ := Prod.mk.inj (Except.ok.inj (hstep.symm.trans hfound))
      simp [ih, Except.map]

theorem body_eq (expression : String) :
    (Text.stripStart? ['$'] (Text.trim expression.toList)).getD (Text.trim expression.toList) =
      body expression := by
  unfold body
  generalize Text.trim expression.toList = cs
  cases hstrip : Text.stripStart? ['$'] cs with
  | none =>
    split
    · simp [Text.stripStart?] at hstrip
    · rfl
  | some rest =>
    rw [Text.stripStart?_eq_some.mp hstrip]
    rfl

/-- An expression is read just when the grammar spells it, as what it spells. -/
theorem parse_eq_ok {expression : String} {p : Path} :
    parse expression = .ok p ↔ Spells true (body expression) p := by
  unfold parse
  dsimp only
  rw [body_eq]
  constructor
  · intro h
    cases hsegments : segments true (body expression) with
    | error fault => simp [hsegments, Except.mapError] at h
    | ok q =>
      obtain rfl : q = p := by simpa [hsegments, Except.mapError] using h
      exact spells_of_segments hsegments
  · intro h
    rw [segments_of_spells h]
    rfl

/-- Two spelled paths, one after the other, spell the joined path. -/
theorem Spells.append {first : Bool} {a b : List Char} {p q : Path} (hp : Spells first a p)
    (hq : Spells false b q) : Spells first (a ++ b) (p ++ q) := by
  induction hp with
  | nil => exact hq.of_later
  | cons hs _ ih =>
    rw [List.append_assoc, List.cons_append]
    exact .cons hs ih

/-! ### What a path leads to -/

/-- The path leads from the first value to the second: a key to a field of an object, an index to an
element of an array. -/
inductive Leads : Path → Json → Json → Prop
  | here {v : Json} : Leads [] v v
  | field {fields : List (String × Json)} {name : String} {v w : Json} {p : Path}
      (hfield : Table.find? fields name = some v) (hp : Leads p v w) :
      Leads (.key name :: p) (.object fields) w
  | item {items : List Json} {i : Nat} {v w : Json} {p : Path} (hitem : items[i]? = some v)
      (hp : Leads p v w) : Leads (.index i :: p) (.array items) w

theorem select?_cons (s : Segment) (p : Path) (v : Json) :
    select? (s :: p) v = (s.select? v).bind (select? p) := rfl

theorem select?_append (p q : Path) (v : Json) :
    select? (p ++ q) v = (select? p v).bind (select? q) := by
  induction p generalizing v with
  | nil => rfl
  | cons s p ih =>
    rw [List.cons_append, select?_cons, select?_cons, Option.bind_assoc]
    exact congrArg (s.select? v).bind (funext ih)

theorem leads_of_select? {p : Path} {v w : Json} (h : select? p v = some w) : Leads p v w := by
  induction p generalizing v with
  | nil =>
    obtain rfl := Option.some.inj h
    exact .here
  | cons s p ih =>
    rw [select?_cons] at h
    obtain ⟨u, hu, hw⟩ := Option.bind_eq_some_iff.mp h
    cases s with
    | key name =>
      cases v with
      | object fields => exact .field hu (ih hw)
      | _ => simp [Segment.select?, Json.field?] at hu
    | index i =>
      cases v with
      | array items => exact .item hu (ih hw)
      | _ => simp [Segment.select?, Json.item?] at hu

theorem select?_eq_some {p : Path} {v w : Json} : select? p v = some w ↔ Leads p v w := by
  refine ⟨leads_of_select?, fun h => ?_⟩
  induction h with
  | here => rfl
  | field hfield _ ih => simpa [select?_cons, Segment.select?, Json.field?, hfield] using ih
  | item hitem _ ih => simpa [select?_cons, Segment.select?, Json.item?, hitem] using ih

/-- Paths are read exactly as the grammar spells them, in both directions, and select what their
segments lead to. So of two paths in one expression the second selects inside what the first
selects. -/
theorem grammarExact :
    (∀ {expression p}, parse expression = .ok p ↔ Spells true (body expression) p) ∧
    (∀ {p v w}, select? p v = some w ↔ Leads p v w) ∧
    ∀ {a b p q expression}, Spells true a p → Spells false b q → body expression = a ++ b →
      parse expression = .ok (p ++ q) ∧
        ∀ v, select? (p ++ q) v = (select? p v).bind (select? q) := by
  refine ⟨parse_eq_ok, select?_eq_some, fun hp hq hbody => ⟨?_, select?_append _ _⟩⟩
  rw [parse_eq_ok, hbody]
  exact hp.append hq

/-- Blanks, a bare key and an index with a sign. -/
theorem padded_grammarExact :
    body "\t$tags[ +07 ] " = ['t', 'a', 'g', 's'] ++ ['[', ' ', '+', '0', '7', ' ', ']'] ∧
    parse "\t$tags[ +07 ] " = .ok [.key "tags", .index 7] ∧
    ∀ v, select? [.key "tags", .index 7] v =
      (select? [.key "tags"] v).bind (select? [.index 7]) := by
  have hbody : body "\t$tags[ +07 ] " =
      ['t', 'a', 'g', 's'] ++ ['[', ' ', '+', '0', '7', ' ', ']'] := by decide +kernel
  have hbare : Bare ['t', 'a', 'g', 's'] := ⟨by simp, by decide, by decide⟩
  have hkey : Spells true ['t', 'a', 'g', 's'] [.key "tags"] := .cons (.bare rfl hbare) .nil
  have hindex : Spells false ['[', ' ', '+', '0', '7', ' ', ']'] [.index 7] := by
    have hrun : Text.Decimal.Run ['0', '7'] := ⟨by simp, List.all_eq_true.mp (by decide)⟩
    have hheld : Held (Text.trim [' ', '+', '0', '7', ' ']) (.index 7) :=
      .index (Or.inr (by decide)) hrun (by decide)
    exact .cons (.bracketed (by decide) hheld) .nil
  exact ⟨hbody, grammarExact.2.2 hkey hindex hbody⟩

end Path

end PortGraph
