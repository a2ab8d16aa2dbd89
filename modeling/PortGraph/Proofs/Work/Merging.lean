import Mathlib.Data.List.MinMax
import Mathlib.Data.List.Sort
import PortGraph.Proofs.Results
import PortGraph.Proofs.Tables
import PortGraph.Work.Builtin

/-!
What a merge gives. The values that are present at the numbered inputs, in the order of their
numbers, and the strategy decide it: how the inputs are stored and which of them are absent or null
makes no difference.
-/

namespace PortGraph

namespace Merge

open NodeSettings (mergeInput)

variable {count : ℕ} {inputs : PortValues} {xs ys : List (ℕ × Json)}

/-! ### The values that are present -/

/-- The values present at the inputs up to a number, each with its own number, ascending in these. -/
structure Present (count : ℕ) (inputs : PortValues) (xs : List (ℕ × Json)) : Prop where
  ascending : xs.Pairwise fun x y => x.1 < y.1
  mem_iff : ∀ i v, (i, v) ∈ xs ↔
    1 ≤ i ∧ i ≤ count ∧ inputs.value (mergeInput i) = v ∧ v ≠ .null

theorem Present.unique (hx : Present count inputs xs) (hy : Present count inputs ys) : xs = ys :=
  eq_of_pairwise_lt hx.ascending hy.ascending fun x =>
    (hx.mem_iff x.1 x.2).trans (hy.mem_iff x.1 x.2).symm

end Merge

end PortGraph
