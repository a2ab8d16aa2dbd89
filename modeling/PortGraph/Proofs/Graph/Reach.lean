import Mathlib.Algebra.BigOperators.Group.List.Basic
import Mathlib.Algebra.GroupWithZero.Nat
import Mathlib.Data.List.Basic
import Mathlib.Logic.Relation
import PortGraph.Graph.Order

/-!
What a search through a graph finds. With fuel for every edge the list is closed along edges, and
nothing is in it that no path leads to, so it holds just the nodes on paths from the start.
-/

namespace PortGraph.Order

open Relation

/-- An edge as a relation between nodes. -/
def Leads (next : Successors) (a b : NodeId) : Prop := b ∈ next a

/-- The edges of the nodes that the search has still to see. -/
def unseenEdges (next : Successors) (nodes seen : List NodeId) : ℕ :=
  ((nodes.filter fun n => !seen.contains n).map fun n => (next n).length).sum

theorem unseenEdges_nil (next : Successors) (nodes : List NodeId) :
    unseenEdges next nodes [] = (nodes.map fun n => (next n).length).sum := by
  simp [unseenEdges]

private theorem unseenEdges_cons (next : Successors) (a : NodeId) (nodes seen : List NodeId) :
    unseenEdges next (a :: nodes) seen =
      (if a ∈ seen then 0 else (next a).length) + unseenEdges next nodes seen := by
  by_cases h : a ∈ seen <;> simp [unseenEdges, h]

theorem unseenEdges_snoc_le (next : Successors) (nodes seen : List NodeId) (n : NodeId) :
    unseenEdges next nodes (seen ++ [n]) ≤ unseenEdges next nodes seen := by
  induction nodes with
  | nil => simp [unseenEdges]
  | cons a rest ih =>
    simp only [unseenEdges_cons, List.mem_append, List.mem_singleton]
    by_cases ha : a ∈ seen
    · simpa [ha] using ih
    · by_cases hn : a = n <;> simp [ha, hn] <;> omega

/-- A node that is seen takes its edges out of the account. -/
theorem unseenEdges_snoc (next : Successors) (nodes seen : List NodeId) (n : NodeId)
    (hn : n ∈ nodes) (hseen : n ∉ seen) :
    unseenEdges next nodes (seen ++ [n]) + (next n).length ≤ unseenEdges next nodes seen := by
  induction nodes with
  | nil => simp at hn
  | cons a rest ih =>
    simp only [unseenEdges_cons, List.mem_append, List.mem_singleton]
    by_cases han : a = n
    · subst han
      have hle := unseenEdges_snoc_le next rest seen a
      simp [hseen]
      omega
    · have hrest : n ∈ rest := (List.mem_cons.mp hn).resolve_left fun h => han h.symm
      have hih := ih hrest
      by_cases ha : a ∈ seen <;> simp [ha, han] <;> omega

section Search

variable {next : Successors} {nodes : List NodeId} (hnodes : ∀ n, next n ≠ [] → n ∈ nodes)
include hnodes

/-- Everything seen or waiting is found, and what is found is seen already or has its edges
followed. -/
theorem reach_closed (fuel : ℕ) (seen queue : List NodeId)
    (hfuel : queue.length + unseenEdges next nodes seen ≤ fuel) :
    (∀ n ∈ seen, n ∈ reach next fuel seen queue) ∧
    (∀ n ∈ queue, n ∈ reach next fuel seen queue) ∧
    ∀ n ∈ reach next fuel seen queue, n ∈ seen ∨ ∀ m ∈ next n, m ∈ reach next fuel seen queue := by
  induction fuel generalizing seen queue with
  | zero =>
    have hq : queue = [] := List.eq_nil_of_length_eq_zero (by omega)
    subst hq
    exact ⟨by simp [reach], by simp, fun n hn => Or.inl (by simpa [reach] using hn)⟩
  | succ fuel ih =>
    cases queue with
    | nil => exact ⟨by simp [reach], by simp, fun n hn => Or.inl (by simpa [reach] using hn)⟩
    | cons n rest =>
      by_cases hn : n ∈ seen
      · have hstep : reach next (fuel + 1) seen (n :: rest) = reach next fuel seen rest := by
          simp [reach, hn]
        rw [hstep]
        obtain ⟨hs, hq, hc⟩ := ih seen rest (by simp only [List.length_cons] at hfuel; omega)
        refine ⟨hs, ?_, hc⟩
        intro m hm
        rcases List.mem_cons.mp hm with rfl | hm
        · exact hs m hn
        · exact hq m hm
      · have hstep : reach next (fuel + 1) seen (n :: rest) =
            reach next fuel (seen ++ [n]) (rest ++ next n) := by
          simp [reach, hn]
        have hroom : (rest ++ next n).length + unseenEdges next nodes (seen ++ [n]) ≤ fuel := by
          simp only [List.length_append, List.length_cons] at hfuel ⊢
          by_cases hnil : next n = []
          · have hle := unseenEdges_snoc_le next nodes seen n
            simp only [hnil, List.length_nil]
            omega
          · have hle := unseenEdges_snoc next nodes seen n (hnodes n hnil) hn
            omega
        rw [hstep]
        obtain ⟨hs, hq, hc⟩ := ih (seen ++ [n]) (rest ++ next n) hroom
        refine ⟨fun m hm => hs m (List.mem_append_left _ hm), ?_, ?_⟩
        · intro m hm
          rcases List.mem_cons.mp hm with rfl | hm
          · exact hs m (by simp)
          · exact hq m (List.mem_append_left _ hm)
        · intro m hm
          rcases hc m hm with hmem | hclosed
          · rcases List.mem_append.mp hmem with hseen | hself
            · exact Or.inl hseen
            · rw [List.mem_singleton.mp hself]
              exact Or.inr fun k hk => hq k (List.mem_append_right _ hk)
          · exact Or.inr hclosed

omit hnodes in
theorem reach_sound (fuel : ℕ) (seen queue : List NodeId) :
    ∀ m ∈ reach next fuel seen queue,
      m ∈ seen ∨ ∃ q ∈ queue, ReflTransGen (Leads next) q m := by
  induction fuel generalizing seen queue with
  | zero =>
    intro m hm
    exact Or.inl (by simpa [reach] using hm)
  | succ fuel ih =>
    cases queue with
    | nil =>
      intro m hm
      exact Or.inl (by simpa [reach] using hm)
    | cons n rest =>
      intro m hm
      by_cases hn : n ∈ seen
      · have hm' : m ∈ reach next fuel seen rest := by simpa [reach, hn] using hm
        rcases ih seen rest m hm' with hs | ⟨q, hq, hpath⟩
        · exact Or.inl hs
        · exact Or.inr ⟨q, List.mem_cons_of_mem _ hq, hpath⟩
      · have hm' : m ∈ reach next fuel (seen ++ [n]) (rest ++ next n) := by
          simpa [reach, hn] using hm
        rcases ih (seen ++ [n]) (rest ++ next n) m hm' with hs | ⟨q, hq, hpath⟩
        · rcases List.mem_append.mp hs with hs | hself
          · exact Or.inl hs
          · rw [List.mem_singleton.mp hself]
            exact Or.inr ⟨n, by simp, ReflTransGen.refl⟩
        · rcases List.mem_append.mp hq with hrest | hnext
          · exact Or.inr ⟨q, List.mem_cons_of_mem _ hrest, hpath⟩
          · exact Or.inr ⟨n, by simp, ReflTransGen.head hnext hpath⟩

/-- The search finds just the nodes that paths from the start lead to. -/
theorem mem_reach_iff (fuel : ℕ) (start : List NodeId)
    (hfuel : start.length + (nodes.map fun n => (next n).length).sum ≤ fuel) (m : NodeId) :
    m ∈ reach next fuel [] start ↔ ∃ q ∈ start, ReflTransGen (Leads next) q m := by
  constructor
  · intro hm
    exact (reach_sound fuel [] start m hm).resolve_left (by simp)
  · rintro ⟨q, hq, hpath⟩
    obtain ⟨-, hqueue, hclosed⟩ :=
      reach_closed hnodes fuel [] start (by rw [unseenEdges_nil]; exact hfuel)
    induction hpath with
    | refl => exact hqueue q hq
    | tail _ hstep ih => exact (hclosed _ ih).resolve_left (by simp) _ hstep

end Search

end PortGraph.Order
