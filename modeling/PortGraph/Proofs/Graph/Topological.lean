import PortGraph.Proofs.Graph.Reach
import PortGraph.Proofs.Graph.Search

/-!
The depth-first search sorts: without cycles, a node is finished after all that its edges lead to.
Above a node on the stack that is still open lie only nodes which it leads to, so a successor that
is open too would close a cycle.
-/

namespace PortGraph.Order

open Relation

variable {next : Successors} {nodes : List NodeId}

def Acyclic (next : Successors) : Prop := ∀ n, ¬ TransGen (Leads next) n n

namespace Search

/-- What lies on the stack above a node. -/
def above (s : Search) (n : NodeId) : List NodeId := s.stack.takeWhile fun m => m ≠ n

/-- Discovered, and not yet left. -/
def Open (s : Search) (n : NodeId) : Prop := n ∈ s.discovered ∧ n ∉ s.finished

/-- What a search keeps on a graph without cycles. -/
structure Sorted (next : Successors) (s : Search) : Prop where
  finished : respects next s.finished = true
  /-- The successors of an open node are finished, or to be finished before it. -/
  covered : ∀ u, s.Open u → ∀ m ∈ next u, m ∈ s.finished ∨ m ∈ s.above u
  path : ∀ u, s.Open u → ∀ m ∈ s.above u, TransGen (Leads next) u m

theorem Sorted.pop {n : NodeId} {rest discovered finished : List NodeId}
    (h : Sorted next ⟨n :: rest, discovered, finished⟩) (hd : n ∈ discovered) :
    Sorted next ⟨rest, discovered,
      if finished.contains n then finished else n :: finished⟩ := by
  have hkept : ∀ m ∈ finished, m ∈ if finished.contains n then finished else n :: finished := by
    intro m hm
    split_ifs
    · exact hm
    · exact List.mem_cons_of_mem _ hm
  have hleft : n ∈ if finished.contains n then finished else n :: finished := by
    by_cases hf : n ∈ finished <;> simp [hf]
  -- a node that stays open is not the one that leaves, so only the top goes from above it
  have hopen : ∀ u, Open ⟨rest, discovered,
      if finished.contains n then finished else n :: finished⟩ u →
      Open ⟨n :: rest, discovered, finished⟩ u ∧
        above ⟨n :: rest, discovered, finished⟩ u =
          n :: above ⟨rest, discovered,
            if finished.contains n then finished else n :: finished⟩ u := by
    intro u hu
    have hne : n ≠ u := fun heq => hu.2 (heq ▸ hleft)
    exact ⟨⟨hu.1, fun hfin => hu.2 (hkept u hfin)⟩, by simp [above, hne]⟩
  refine ⟨?_, ?_, ?_⟩
  · by_cases hf : n ∈ finished
    · simpa [hf] using h.finished
    · have hcovered : ∀ m ∈ next n, m ∈ finished := by
        intro m hm
        rcases h.covered n ⟨hd, hf⟩ m hm with hfin | habove
        · exact hfin
        · simp [above] at habove
      have hfinished := h.finished
      simp [hf, respects, hfinished]
      exact hcovered
  · intro u hu m hm
    obtain ⟨hbefore, habove⟩ := hopen u hu
    rcases h.covered u hbefore m hm with hfin | hm'
    · exact Or.inl (hkept m hfin)
    · rw [habove] at hm'
      rcases List.mem_cons.mp hm' with rfl | hm'
      · exact Or.inl hleft
      · exact Or.inr hm'
  · intro u hu m hm
    obtain ⟨hbefore, habove⟩ := hopen u hu
    exact h.path u hbefore m (habove ▸ List.mem_cons_of_mem _ hm)

theorem Sorted.push (hacyclic : Acyclic next) {n : NodeId} {rest discovered finished : List NodeId}
    (h : Sorted next ⟨n :: rest, discovered, finished⟩) (hd : n ∉ discovered) :
    Sorted next ⟨((next n).filter fun m => !(n :: discovered).contains m).reverse ++ n :: rest,
      n :: discovered, finished⟩ := by
  set fresh := ((next n).filter fun m => !(n :: discovered).contains m).reverse with hfresh
  have hmem : ∀ m, m ∈ fresh ↔ m ∈ next n ∧ m ≠ n ∧ m ∉ discovered := by
    intro m
    simp [hfresh]
  have hself : above ⟨fresh ++ n :: rest, n :: discovered, finished⟩ n = fresh := by
    unfold above
    rw [List.takeWhile_append_of_pos]
    · simp
    · intro m hm
      simpa using ((hmem m).mp hm).2.1
  have hother : ∀ u ∈ discovered, above ⟨fresh ++ n :: rest, n :: discovered, finished⟩ u =
      fresh ++ above ⟨n :: rest, discovered, finished⟩ u := by
    intro u hu
    unfold above
    rw [List.takeWhile_append_of_pos]
    intro m hm
    have hnot := ((hmem m).mp hm).2.2
    simpa using fun heq : m = u => hnot (heq ▸ hu)
  have hbefore : ∀ u ∈ discovered, u ∉ finished → Open ⟨n :: rest, discovered, finished⟩ u ∧
      n ∈ above ⟨n :: rest, discovered, finished⟩ u := by
    intro u hu hfin
    have hne : n ≠ u := fun heq => hd (heq ▸ hu)
    exact ⟨⟨hu, hfin⟩, by simp [above, hne]⟩
  refine ⟨h.finished, ?_, ?_⟩
  · rintro u ⟨hu, hfin⟩ m hm
    rcases List.mem_cons.mp hu with rfl | hu
    · -- an edge back to an open node, or to the node itself, would close a cycle
      rw [hself, hmem]
      by_cases hself : m = u
      · exact absurd (TransGen.single (hself ▸ hm : Leads next u u)) (hacyclic u)
      · by_cases hdisc : m ∈ discovered
        · refine Or.inl (by_contra fun hopen => ?_)
          obtain ⟨hop, habove⟩ := hbefore m hdisc hopen
          exact hacyclic m ((h.path m hop u habove).tail hm)
        · exact Or.inr ⟨hm, hself, hdisc⟩
    · rw [hother u hu]
      rcases h.covered u (hbefore u hu hfin).1 m hm with hdone | habove
      · exact Or.inl hdone
      · exact Or.inr (List.mem_append_right _ habove)
  · rintro u ⟨hu, hfin⟩ m hm
    rcases List.mem_cons.mp hu with rfl | hu
    · rw [hself] at hm
      exact TransGen.single ((hmem m).mp hm).1
    · rw [hother u hu] at hm
      obtain ⟨hop, hn⟩ := hbefore u hu hfin
      rcases List.mem_append.mp hm with hm | hm
      · exact (h.path u hop n hn).tail ((hmem m).mp hm).1
      · exact h.path u hop m hm

theorem Sorted.step (hacyclic : Acyclic next) {s : Search} (h : s.Sorted next) :
    (s.step next).Sorted next := by
  obtain ⟨stack, discovered, finished⟩ := s
  cases stack with
  | nil => exact h
  | cons n rest =>
    by_cases hd : n ∈ discovered
    · rw [step_seen hd]
      exact h.pop hd
    · rw [step_new hd]
      exact h.push hacyclic hd

theorem Sorted.run (hacyclic : Acyclic next) (fuel : ℕ) {s : Search} (h : s.Sorted next) :
    (s.run next fuel).Sorted next := by
  induction fuel generalizing s with
  | zero => exact h
  | succ fuel ih =>
    unfold Search.run
    split_ifs
    · exact h
    · exact ih (h.step hacyclic)

theorem Sorted.visit (hacyclic : Acyclic next) (fuel : ℕ) {s : Search} (h : s.Sorted next)
    (hgood : s.Good next nodes) (hstack : s.stack = []) (a : NodeId) :
    (s.visit next fuel a).Sorted next := by
  unfold Search.visit
  split_ifs
  · exact h
  · -- nothing is open between two visits
    have hclosed : ∀ u, ¬ Open { s with stack := [a] } u :=
      fun u hu => hu.2 (hgood.finished_of_discovered hstack hu.1)
    exact Sorted.run hacyclic fuel
      ⟨h.finished, fun u hu => absurd hu (hclosed u), fun u hu => absurd hu (hclosed u)⟩

end Search

/-- On a graph without cycles every edge points to a later place of the order. -/
theorem respects_reverseFinishing (hacyclic : Acyclic next)
    (hnext : ∀ n ∈ nodes, ∀ m ∈ next n, m ∈ nodes) :
    respects next (reverseFinishing next nodes) = true := by
  have hall : ∀ (todo : List NodeId), (∀ n ∈ todo, n ∈ nodes) → ∀ s : Search,
      s.Good next nodes → s.stack = [] → s.Sorted next → (todo.foldl (Search.visit next
        (2 * nodes.length + (nodes.flatMap next).length + 1)) s).Sorted next := by
    intro todo
    induction todo with
    | nil => exact fun _ _ _ _ h => h
    | cons a rest ih =>
      intro htodo s hgood hstack h
      obtain ⟨hgood', hstack', -, -⟩ :=
        Search.good_visit hnext (fuel_le next nodes) hgood hstack (htodo a (by simp))
      exact ih (fun n hn => htodo n (List.mem_cons_of_mem _ hn)) _ hgood' hstack'
        (h.visit hacyclic _ hgood hstack a)
  exact (hall nodes (fun _ hn => hn) ⟨[], [], []⟩ good_empty rfl
    ⟨rfl, by simp [Search.Open], by simp [Search.Open]⟩).finished

end PortGraph.Order
