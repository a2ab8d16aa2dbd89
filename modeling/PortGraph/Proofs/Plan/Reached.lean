import PortGraph.Proofs.Plan.Gates

/-!
The nodes that no source reaches. What feeds such a node is one itself, so a node behind a branch
of a condition that is not reached is not reached either.
-/

namespace PortGraph.Plan

open Relation

/-- An edge of any kind leads from one node to the other. -/
def Links (g : Graph) (a b : NodeId) : Prop := ∃ e ∈ g.edges, e.source = a ∧ e.target = b

/-- No edge leads into the node. -/
def IsEntry (g : Graph) (n : NodeId) : Prop := n ∈ g.ids ∧ ∀ e ∈ g.edges, e.target ≠ n

theorem mem_entries_iff {g : Graph} {n : NodeId} : n ∈ g.entries.map Node.id ↔ IsEntry g n := by
  unfold IsEntry Graph.entries Graph.ids
  simp only [List.mem_map, List.mem_filter, List.isEmpty_iff]
  have hfree : (g.predecessors n) = [] ↔ ∀ e ∈ g.edges, e.target ≠ n := by
    rw [List.eq_nil_iff_forall_not_mem]
    constructor
    · rintro h e he rfl
      exact h ⟨e.source, e.label⟩ (Graph.mem_predecessors.mpr he)
    · exact fun h c hc => h _ (Graph.mem_predecessors.mp hc) rfl
  constructor
  · rintro ⟨node, ⟨hnode, hnil⟩, rfl⟩
    exact ⟨⟨node, hnode, rfl⟩, hfree.mp hnil⟩
  · rintro ⟨⟨node, hnode, rfl⟩, hnone⟩
    exact ⟨node, ⟨hnode, hfree.mpr hnone⟩, rfl⟩

/-- The edges of a graph as the search follows them. -/
def nextOf (g : Graph) (id : NodeId) : List NodeId := (g.successors id).map Connection.node

theorem leads_nextOf (g : Graph) : Order.Leads (nextOf g) = Links g := by
  funext a b
  refine propext ⟨?_, ?_⟩
  · intro h
    obtain ⟨c, hc, rfl⟩ := List.mem_map.mp h
    exact ⟨_, Graph.mem_successors.mp hc, rfl, rfl⟩
  · rintro ⟨e, he, rfl, rfl⟩
    exact List.mem_map.mpr ⟨⟨e.target, e.label⟩, Graph.mem_successors.mpr he, rfl⟩

theorem mem_unreachableOf {g : Graph} (hg : g.WellFormed) {n : NodeId} :
    n ∈ unreachableOf g ↔ n ∈ g.ids ∧
      ¬ ∃ m ∈ g.entries.map Node.id, ReflTransGen (Order.Leads (nextOf g)) m n := by
  have hnodes : ∀ m, nextOf g m ≠ [] → m ∈ g.ids := by
    intro m hne
    obtain ⟨k, hk⟩ := List.exists_mem_of_ne_nil _ hne
    obtain ⟨c, hc, -⟩ := List.mem_map.mp hk
    exact hg.source_mem (Graph.mem_successors.mp hc)
  have hlength : ∀ m, (nextOf g m).length = (g.edges.filter fun e => e.source == m).length := by
    intro m
    unfold nextOf Graph.successors
    rw [List.length_map, List.length_map]
  have hsum : (g.ids.map fun m => (nextOf g m).length).sum ≤ g.edges.length := by
    simp only [hlength]
    exact Graph.sum_outgoing_le g.edges hg.ids_nodup
  have hreach := fun fuel h => Order.mem_reach_iff hnodes fuel (g.entries.map Node.id) h n
  unfold unreachableOf
  rw [mem_ascending, List.mem_filter]
  refine and_congr_right fun _ => ?_
  simp only [Bool.not_eq_true', ← Bool.not_eq_true, List.contains_iff_mem]
  refine not_congr (hreach _ ?_)
  omega

namespace Sound

variable {p : Plan} (hp : p.Sound)
include hp

theorem mem_unreachable_iff {n : NodeId} :
    n ∈ p.unreachable ↔ n ∈ p.graph.ids ∧
      ¬ ∃ m ∈ p.graph.entries.map Node.id, ReflTransGen (Order.Leads (nextOf p.graph)) m n := by
  rw [hp.unreachable_eq]
  exact mem_unreachableOf hp.graph

/-- What leads to a node that is not reached is not reached. -/
theorem unreachable_of_edge {e : Edge} (he : e ∈ p.graph.edges) (h : e.target ∈ p.unreachable) :
    e.source ∈ p.unreachable := by
  refine hp.mem_unreachable_iff.mpr ⟨hp.graph.source_mem he, ?_⟩
  rintro ⟨m, hm, hpath⟩
  refine (hp.mem_unreachable_iff.mp h).2 ⟨m, hm, hpath.tail ?_⟩
  exact List.mem_map.mpr ⟨⟨e.target, e.label⟩, Graph.mem_successors.mpr he, rfl⟩

theorem unreachable_of_path {m n : NodeId} (hpath : ReflTransGen (Links p.graph) m n)
    (h : n ∈ p.unreachable) : m ∈ p.unreachable := by
  induction hpath with
  | refl => exact h
  | tail _ hlast ih =>
    obtain ⟨e, he, rfl, rfl⟩ := hlast
    exact ih (hp.unreachable_of_edge he h)

/-- The nodes that no source reaches are those that no path from a node without edges into it
leads to. -/
theorem mem_unreachable_iff_paths {n : NodeId} :
    n ∈ p.unreachable ↔ n ∈ p.graph.ids ∧
      ¬ ∃ m, IsEntry p.graph m ∧ ReflTransGen (Links p.graph) m n := by
  simp only [hp.mem_unreachable_iff, mem_entries_iff, leads_nextOf]

/-- A loop leads to the nodes that run in its iterations. -/
theorem path_of_member {l n : NodeId} (hn : n ∈ p.membersIn (some l)) :
    ReflTransGen (Links p.graph) l n := by
  obtain ⟨-, hbody⟩ := hp.holds_of_scopeOf (hp.mem_membersIn.mp hn).2
  obtain ⟨-, c, hc, hpath⟩ := (Nesting.mem_bodyOf hp.graph).mp hbody
  have hseed : Links p.graph l c.node :=
    ⟨_, Graph.mem_successors.mp (List.mem_filter.mp hc).1, rfl, rfl⟩
  refine .head hseed (ReflTransGen.mono ?_ _ _ hpath)
  intro a b hab
  obtain ⟨label, he, -⟩ := Graph.mem_forward.mp (Nesting.leads_around.mp hab).2
  exact ⟨_, he, rfl, rfl⟩

theorem unreachable_of_exclusive (hu : p.Untangled) {gate : Gate} {n : NodeId}
    (h : n ∈ p.exclusive gate) (hc : gate.condition ∈ p.unreachable) : n ∈ p.unreachable := by
  induction h using hp.exclusive_induction hu with
  | step n h ih =>
    obtain ⟨-, -, -, hne, hfeeds⟩ := (hp.mem_exclusive_iff hu).mp h
    obtain ⟨c, hcarried⟩ := List.exists_mem_of_ne_nil _ hne
    obtain ⟨he, -⟩ := Graph.mem_carried.mp hcarried
    refine hp.unreachable_of_edge he ?_
    rcases hfeeds c hcarried with ⟨hcond, -⟩ | hin
    · rw [hcond]
      exact hc
    · exact ih c hcarried hin

end Sound

end PortGraph.Plan
