import Mathlib.Data.Int.Notation
import Mathlib.Data.Nat.Notation
import Mathlib.Tactic.Common
import PortGraph.Json.Source

/-!
The integers of a document are those of a 64-bit word: whatever else a text spells, a number beyond
the words is no integer but a double.
-/

namespace PortGraph

namespace Number

/-- All integers are those of a 64-bit word, signed or unsigned. -/
def Ranged (ns : List Number) : Prop := ∀ i : ℤ, .integer i ∈ ns → InRange i

theorem ranged_nil : Ranged [] := fun _ hi => absurd hi List.not_mem_nil

theorem Ranged.append {ns ns' : List Number} (h : Ranged ns) (h' : Ranged ns') :
    Ranged (ns ++ ns') := by
  intro i hi
  exact (List.mem_append.mp hi).elim (h i) (h' i)

end Number

open Number

namespace Source

mutual

/-- The numbers in a tree. -/
def numbers : Source → List Number
  | .number (some n) => [n]
  | .array items => itemNumbers items
  | .object fields => fieldNumbers fields
  | _ => []

def itemNumbers : List Source → List Number
  | [] => []
  | v :: rest => numbers v ++ itemNumbers rest

def fieldNumbers : List (Option String × Source) → List Number
  | [] => []
  | (_, v) :: rest => numbers v ++ fieldNumbers rest

end

theorem ranged_numberOf {negative : Bool} {whole : List Char} {fraction : Option (List Char)}
    {exponent : Option ℤ} {i : ℤ}
    (h : numberOf negative whole fraction exponent = some (.integer i)) : InRange i := by
  have hdouble : ∀ x : Option Binary64, x.map Number.double ≠ some (.integer i) := by
    intro x
    cases x <;> simp
  unfold numberOf at h
  unfold Number.InRange
  dsimp only at h
  split at h
  · split_ifs at h with hnegative hrange hrange
    · cases h
      omega
    · exact absurd h (hdouble _)
    · cases h
      omega
    · exact absurd h (hdouble _)
  · exact absurd h (hdouble _)

theorem ranged_number {value : Option Number} (h : ∀ i : ℤ, value = some (.integer i) →
    InRange i) : Ranged (Source.number value).numbers := by
  cases value with
  | none => exact ranged_nil
  | some n =>
    intro i hi
    exact h i (by rw [List.mem_singleton.mp hi])

theorem ranged_scanNumber (cs : List Char) : Ranged (scanNumber cs).1.numbers := by
  unfold scanNumber
  dsimp only
  split
  · exact ranged_nil
  · exact ranged_nil
  · split
    · exact ranged_nil
    · split
      · exact ranged_nil
      · exact ranged_number fun i hi => ranged_numberOf hi

theorem ranged_scanWord (word : List Char) {value : Source} (h : value.numbers = [])
    (cs : List Char) : Ranged (scanWord word value cs).1.numbers := by
  unfold scanWord
  split
  · exact h ▸ ranged_nil
  · exact ranged_nil

/-- Values, elements and fields call each other, so the three go together. -/
theorem ranged_scan (fuel : ℕ) :
    (∀ cs, Ranged (scanValue fuel cs).1.numbers) ∧
      (∀ cs, Ranged (itemNumbers (scanItems fuel cs).1)) ∧
      ∀ cs, Ranged (fieldNumbers (scanFields fuel cs).1) := by
  induction fuel with
  | zero => exact ⟨fun _ => ranged_nil, fun _ => ranged_nil, fun _ => ranged_nil⟩
  | succ fuel ih =>
    obtain ⟨hvalue, hitems, hfields⟩ := ih
    have hfirst : ∀ {cs v rest}, scanValue fuel cs = (v, rest) → Ranged v.numbers := by
      intro cs v rest hscan
      simpa only [hscan] using hvalue cs
    refine ⟨fun cs => ?_, fun cs => ?_, fun cs => ?_⟩
    · unfold scanValue
      split
      · exact ranged_nil
      · split
        · exact ranged_nil
        · exact hitems _
      · split
        · exact ranged_nil
        · exact hfields _
      · split <;> exact ranged_nil
      · exact ranged_scanWord _ (by rfl) _
      · exact ranged_scanWord _ (by rfl) _
      · exact ranged_scanWord _ (by rfl) _
      · split_ifs
        · exact ranged_scanNumber _
        · exact ranged_nil
    · unfold scanItems
      split
      · rename_i hscan
        exact (hfirst hscan).append ranged_nil
      · rename_i hscan
        split
        · exact (hfirst hscan).append ranged_nil
        · exact (hfirst hscan).append (hitems _)
        · exact (hfirst hscan).append ranged_nil
    · unfold scanFields
      split
      · split
        · exact ranged_nil
        · split
          · split
            · rename_i hscan
              exact (hfirst hscan).append ranged_nil
            · rename_i hscan
              split
              · exact (hfirst hscan).append ranged_nil
              · exact (hfirst hscan).append (hfields _)
              · exact (hfirst hscan).append ranged_nil
          · exact ranged_nil
      · exact ranged_nil

theorem ranged_ofText (text : String) : Ranged (ofText text).1.numbers := by
  unfold ofText
  dsimp only
  have h := (ranged_scan (2 * text.toList.length + 1)).1 text.toList
  split
  all_goals
    rename_i hscan
    rwa [hscan] at h

end Source

end PortGraph
