import Mathlib.Algebra.Order.BigOperators.Group.List
import Mathlib.Data.List.Perm.Subperm
import PortGraph.Plan.Nesting
import PortGraph.Proofs.Graph.Reach
import PortGraph.Proofs.Graph.WellFormed
import PortGraph.Proofs.Tables

/-!
Bodies of loops as paths: a body holds what the seeds of its loop lead to around the loop. Of two
loops, one in the body of the other, the bodies are nested unless each loop lies in the other one.
-/

namespace PortGraph

open PortGraph.Order Relation

namespace Graph

/-- The edges that leave listed nodes are edges. -/
theorem sum_outgoing_le (edges : List Edge) {ids : List NodeId} (hids : ids.Nodup) :
    (ids.map fun n => (edges.filter fun e => e.source == n).length).sum ≤ edges.length := by
  induction edges with
  | nil => simp
  | cons e rest ih =>
    have hone : (ids.map fun n => if e.source = n then 1 else 0).sum ≤ 1 := by
      clear ih
      induction ids with
      | nil => simp
      | cons a tail iht =>
        have hnd := List.nodup_cons.mp hids
        simp only [List.map_cons, List.sum_cons]
        by_cases ha : e.source = a
        · have hzero : (tail.map fun n => if e.source = n then 1 else 0).sum = 0 := by
            apply List.sum_eq_zero
            intro k hk
            obtain ⟨n, hn, rfl⟩ := List.mem_map.mp hk
            have hne : e.source ≠ n := fun h => hnd.1 (ha ▸ h ▸ hn)
            simp [hne]
          simp [ha] at hzero ⊢
          omega
        · simpa [ha] using iht hnd.2
    have hsplit : (ids.map fun n => ((e :: rest).filter fun e => e.source == n).length).sum =
        (ids.map fun n => if e.source = n then 1 else 0).sum +
          (ids.map fun n => (rest.filter fun e => e.source == n).length).sum := by
      rw [← List.sum_map_add]
      congr 1
      apply List.map_congr_left
      intro n _
      by_cases h : e.source = n <;> simp [h, Nat.add_comm]
    rw [hsplit, List.length_cons]
    omega

theorem length_forward_le (g : Graph) (n : NodeId) :
    (g.forward n).length ≤ (g.edges.filter fun e => e.source == n).length := by
  unfold forward successors
  rw [List.length_reverse, List.length_map]
  exact (List.length_filter_le _ _).trans (by rw [List.length_map])

end Graph

namespace Nesting

/-- The forward edges of a graph, those of one loop left out. -/
def around (g : Graph) (loop : NodeId) : Successors :=
  fun n => if n = loop then [] else g.forward n

theorem leads_around {g : Graph} {loop a b : NodeId} :
    Leads (around g loop) a b ↔ a ≠ loop ∧ b ∈ g.forward a := by
  unfold Leads around
  by_cases h : a = loop <;> simp [h]

variable {g : Graph} (hg : g.WellFormed)
include hg

theorem mem_bodyOf {loop m : NodeId} :
    m ∈ bodyOf g loop ↔
      m ≠ loop ∧ ∃ c ∈ seeds g loop, ReflTransGen (Leads (around g loop)) c.node m := by
  have hnodes : ∀ n, around g loop n ≠ [] → n ∈ g.ids := by
    intro n hn
    obtain ⟨b, hb⟩ := List.exists_mem_of_ne_nil _ hn
    obtain ⟨label, he, -⟩ := Graph.mem_forward.mp (leads_around.mp hb).2
    exact hg.source_mem he
  have hfuel : ((seeds g loop).map Connection.node).length +
      (g.ids.map fun n => (around g loop n).length).sum ≤
        ((seeds g loop).map Connection.node).length + g.edges.length + 1 := by
    have hle : (g.ids.map fun n => (around g loop n).length).sum ≤
        (g.ids.map fun n => (g.edges.filter fun e => e.source == n).length).sum := by
      apply List.sum_le_sum
      intro n _
      have hlen := g.length_forward_le n
      unfold around
      by_cases h : n = loop
      · simp [h]
      · rw [if_neg h]
        exact hlen
    have hall := Graph.sum_outgoing_le g.edges hg.ids_nodup
    omega
  have hreach := mem_reach_iff hnodes _ _ hfuel m
  change m ∈ ascending ((reach (around g loop) _ [] _).filter fun n => n ≠ loop) ↔ _
  rw [mem_ascending, List.mem_filter, hreach]
  simp only [List.mem_map, decide_eq_true_eq]
  constructor
  · rintro ⟨⟨q, ⟨c, hc, rfl⟩, hpath⟩, hne⟩
    exact ⟨hne, c, hc, hpath⟩
  · rintro ⟨hne, c, hc, hpath⟩
    exact ⟨⟨c.node, ⟨c, hc, rfl⟩, hpath⟩, hne⟩

theorem loop_notMem_body (loop : NodeId) : loop ∉ bodyOf g loop :=
  fun h => ((mem_bodyOf hg).mp h).1 rfl

omit hg in
theorem nodup_bodyOf (g : Graph) (loop : NodeId) : (bodyOf g loop).Nodup := nodup_ascending _

theorem seed_mem_body {loop : NodeId} {c : Connection} (hc : c ∈ seeds g loop)
    (hne : c.node ≠ loop) : c.node ∈ bodyOf g loop :=
  (mem_bodyOf hg).mpr ⟨hne, c, hc, ReflTransGen.refl⟩

theorem body_mem_ids {loop m : NodeId} (h : m ∈ bodyOf g loop) : m ∈ g.ids := by
  obtain ⟨-, c, hc, hpath⟩ := (mem_bodyOf hg).mp h
  cases hpath with
  | refl => exact hg.target_mem (Graph.mem_successors.mp (List.mem_filter.mp hc).1)
  | tail _ hstep =>
    obtain ⟨label, he, -⟩ := Graph.mem_forward.mp (leads_around.mp hstep).2
    exact hg.target_mem he

/-! ### Accepted bodies -/

omit hg in
/-- A body that feeds itself and the result of its loop only. -/
structure Closed (g : Graph) (loop : NodeId) : Prop where
  inward : ∀ m ∈ bodyOf g loop, ∀ c ∈ g.successors m,
    c.node = loop ∧ c.label.targetPort = PortName.result ∨ c.node ∈ bodyOf g loop
  results : ∀ c ∈ g.successors loop, c.label.sourcePort = PortName.results →
    c.node ∉ bodyOf g loop
  result : ∀ r, g.inbound? loop PortName.result = some r → r.node ∈ bodyOf g loop

omit hg in
theorem leak?_eq_none_iff {loop node : NodeId} {body : List NodeId} (hbody : loop ∉ body) :
    leak? g loop body node = none ↔ ∀ c ∈ g.successors node,
      c.node = loop ∧ c.label.targetPort = PortName.result ∨ c.node ∈ body := by
  unfold leak?
  rw [List.findSome?_eq_none_iff]
  refine forall₂_congr fun c _ => ?_
  by_cases hloop : c.node = loop
  · simp [hloop, hbody]
  · simp [hloop]

/-- The check of a body leaves the closed ones. -/
theorem bodyFault?_eq_none_iff {loop : NodeId} :
    bodyFault? g loop (bodyOf g loop) = none ↔ Closed g loop := by
  unfold bodyFault?
  simp only [Option.orElse_eq_or, Option.or_eq_none_iff, List.findSome?_eq_none_iff,
    leak?_eq_none_iff (loop_notMem_body hg loop)]
  have hresults : (∀ c ∈ g.successors loop, (if c.label.sourcePort = PortName.results ∧
        (bodyOf g loop).contains c.node = true then some (BodyFault.resultsInside c.node)
        else none) = none) ↔
      ∀ c ∈ g.successors loop, c.label.sourcePort = PortName.results →
        c.node ∉ bodyOf g loop := by
    refine forall₂_congr fun c _ => ?_
    simp
  rw [hresults]
  constructor
  · rintro ⟨hinward, hresults, hresult⟩
    refine ⟨hinward, hresults, ?_⟩
    intro r hr
    by_contra hbody
    simp [hr, hbody] at hresult
  · rintro ⟨hinward, hresults, hresult⟩
    refine ⟨hinward, hresults, ?_⟩
    cases hr : g.inbound? loop PortName.result with
    | none => rfl
    | some r => simp [hresult r hr]

/-- A body that holds a loop but not the other way round holds the body of that loop. -/
theorem body_subset {outer inner : NodeId} (hclosed : Closed g outer)
    (hmem : inner ∈ bodyOf g outer) (hnot : outer ∉ bodyOf g inner) :
    ∀ m ∈ bodyOf g inner, m ∈ bodyOf g outer := by
  have hne : inner ≠ outer := by
    rintro rfl
    exact loop_notMem_body hg inner hmem
  -- A path from a seed of the inner loop stays inside: it leaves the outer body only for the
  -- outer loop, which it would then put into the inner body.
  have hpath : ∀ c ∈ seeds g inner, ∀ m, ReflTransGen (Leads (around g inner)) c.node m →
      m ∈ bodyOf g outer := by
    intro c hc m hm
    induction hm with
    | refl =>
      rcases hclosed.inward inner hmem c (List.mem_filter.mp hc).1 with ⟨heq, -⟩ | h
      · exact absurd (heq ▸ seed_mem_body hg hc (heq.trans_ne hne.symm)) hnot
      · exact h
    | tail hinit hstep ih =>
      rename_i a b
      obtain ⟨-, hforward⟩ := leads_around.mp hstep
      obtain ⟨label, he, -⟩ := Graph.mem_forward.mp hforward
      rcases hclosed.inward a ih ⟨b, label⟩ (Graph.mem_successors.mpr he) with ⟨heq, -⟩ | h
      · have houter : outer ∈ bodyOf g inner :=
          (mem_bodyOf hg).mpr ⟨hne.symm, c, hc, heq ▸ hinit.tail hstep⟩
        exact absurd houter hnot
      · exact h
  intro m hm
  obtain ⟨-, c, hc, hm⟩ := (mem_bodyOf hg).mp hm
  exact hpath c hc m hm

/-- The body of such a loop is smaller. -/
theorem length_body_lt {outer inner : NodeId} (hclosed : Closed g outer)
    (hmem : inner ∈ bodyOf g outer) (hnot : outer ∉ bodyOf g inner) :
    (bodyOf g inner).length < (bodyOf g outer).length := by
  have hsub : (inner :: bodyOf g inner) ⊆ bodyOf g outer := by
    intro m hm
    rcases List.mem_cons.mp hm with rfl | hm
    · exact hmem
    · exact body_subset hg hclosed hmem hnot m hm
  have hnd : (inner :: bodyOf g inner).Nodup :=
    List.nodup_cons.mpr ⟨loop_notMem_body hg inner, nodup_bodyOf g inner⟩
  have hle := (hnd.subperm hsub).length_le
  rw [List.length_cons] at hle
  omega

end Nesting

end PortGraph
