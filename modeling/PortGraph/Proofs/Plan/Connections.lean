import PortGraph.Proofs.Plan.Gates

/-!
Values by the inputs that they are meant for. An input has one edge into it, so no two of the values
that a node sends, that begin an iteration or that a loop takes in for its body share a target.
-/

namespace PortGraph

open Plan Nesting

namespace Graph.WellFormed

variable {g : Graph} (hg : g.WellFormed)
include hg

theorem edge_of_target {e e' : Edge} (he : e ∈ g.edges) (he' : e' ∈ g.edges)
    (h : e.targetRef = e'.targetRef) : e = e' :=
  hg.edge_unique he he' (congrArg PortRef.node h) (congrArg PortRef.port h)

theorem nodup_targets : (g.edges.map Edge.targetRef).Nodup := by
  refine List.pairwise_map.mpr (hg.single.imp ?_)
  intro e e' h heq
  exact h ⟨congrArg PortRef.node heq, congrArg PortRef.port heq⟩

theorem nodup_captures {body : List NodeId} (hbody : body.Nodup) (l : NodeId) :
    ((captures g l body).map Link.target).Nodup := by
  unfold captures
  rw [List.map_flatMap]
  refine List.nodup_flatMap.mpr ⟨?_, ?_⟩
  · intro n _
    refine hg.nodup_targets.sublist ?_
    rw [List.map_map]
    unfold predecessors
    rw [List.filter_map, List.map_map]
    have hsub : (((g.edges.filter fun e => e.target == n).filter
        ((fun c : Connection => c.node ≠ l && !body.contains c.node) ∘
          fun e => ⟨e.source, e.label⟩)).map Edge.targetRef).Sublist
            (g.edges.map Edge.targetRef) :=
      (List.filter_sublist.trans List.filter_sublist).map _
    convert hsub using 1
    apply List.map_congr_left
    intro e he
    have htarget := (List.mem_filter.mp (List.mem_filter.mp he).1).2
    simp only [Function.comp_apply, Edge.targetRef]
    rw [beq_iff_eq.mp htarget]
  · refine hbody.imp ?_
    intro a b hab
    change List.Disjoint _ _
    rw [List.disjoint_left]
    intro t ht ht'
    have hnode : ∀ n, t ∈ (((g.predecessors n).filter fun c => c.node ≠ l &&
        !body.contains c.node).map fun c => (⟨⟨c.node, c.label.sourcePort⟩,
          ⟨n, c.label.targetPort⟩⟩ : Link)).map Link.target → t.node = n := by
      intro n hn
      obtain ⟨link, hlink, rfl⟩ := List.mem_map.mp hn
      obtain ⟨c, -, rfl⟩ := List.mem_map.mp hlink
      rfl
    exact hab ((hnode a ht).symm.trans (hnode b ht'))

end Graph.WellFormed

namespace Plan

/-- The input at the other end of a connection. -/
def inputOf (c : Connection) : PortRef := ⟨c.node, c.label.targetPort⟩

theorem mem_outboundValues {p : Plan} {m : NodeId} {o : Table Json} {t : PortRef} {v : Json} :
    (t, v) ∈ p.outboundValues m o ↔ ∃ c ∈ p.forwardOut m, inputOf c = t ∧
      (o.find? c.label.sourcePort).getD .null = v := by
  unfold outboundValues
  simp only [List.mem_map, Prod.mk.injEq]
  rfl

theorem mem_iterationValues {p : Plan} {l : NodeId} {item : Json} {i : ℕ} {t : PortRef} {v : Json} :
    (t, v) ∈ p.iterationValues l item i ↔ ∃ c ∈ p.seeds l, inputOf c = t ∧
      (if c.label.sourcePort = PortName.index then .ofNat i else item) = v := by
  unfold iterationValues
  simp only [List.mem_map, Prod.mk.injEq]
  rfl

theorem keys_outboundValues (p : Plan) (m : NodeId) (o : Table Json) :
    (p.outboundValues m o).map (·.1) = (p.forwardOut m).map inputOf := by
  unfold outboundValues
  rw [List.map_map]
  rfl

theorem keys_iterationValues (p : Plan) (l : NodeId) (item : Json) (i : ℕ) :
    (p.iterationValues l item i).map (·.1) = (p.seeds l).map inputOf := by
  unfold iterationValues
  rw [List.map_map]
  rfl

/-- An input inside the body of a loop that gets its value from the loop or from outside it. -/
def External (p : Plan) (owner : ScopeId) (t : PortRef) : Prop :=
  ∃ l, owner = some l ∧ ∃ e ∈ p.graph.edges, e.targetRef = t ∧
    (e.source = l ∧ p.graph.StartsIteration e ∨
      e.link ∈ captures p.graph l (bodyOf p.graph l))

/-- Values for just the inputs of a scope that are fed from elsewhere, one for each. -/
structure Proper (p : Plan) (owner : ScopeId) (given : List (PortRef × Json)) : Prop where
  nodup : (given.map (·.1)).Nodup
  complete : ∀ t, t ∈ given.map (·.1) ↔ p.External owner t

namespace Sound

variable {p : Plan} (hp : p.Sound)
include hp

private theorem nodup_connections {q : Connection → Bool} {m : NodeId} :
    (((p.graph.successors m).filter q).map inputOf).Nodup := by
  refine hp.graph.nodup_targets.sublist ?_
  unfold Graph.successors
  rw [List.filter_map, List.map_map]
  exact (List.filter_sublist.trans List.filter_sublist).map _

theorem nodup_forwardOut (m : NodeId) : ((p.forwardOut m).map inputOf).Nodup :=
  nodup_connections hp

theorem nodup_seeds (l : NodeId) : ((p.seeds l).map inputOf).Nodup := nodup_connections hp

/-- Only one node feeds an input, from one of its outputs. -/
theorem forwardOut_unique {m m' : NodeId} {c c' : Connection} (hc : c ∈ p.forwardOut m)
    (hc' : c' ∈ p.forwardOut m') (h : inputOf c = inputOf c') : m = m' ∧ c = c' := by
  obtain ⟨he, -⟩ := Graph.mem_carried.mp hc
  obtain ⟨he', -⟩ := Graph.mem_carried.mp hc'
  have heq := hp.graph.edge_of_target he he' h
  obtain ⟨hm, hn, hl⟩ := Edge.mk.inj heq
  refine ⟨hm, ?_⟩
  cases c
  cases c'
  simp_all

theorem inbound?_of_forwardOut {m : NodeId} {c : Connection} (hc : c ∈ p.forwardOut m) :
    p.graph.inbound? (inputOf c).node (inputOf c).port = some ⟨m, c.label.sourcePort⟩ := by
  obtain ⟨he, -⟩ := Graph.mem_carried.mp hc
  exact hp.graph.inbound?_eq_some.mpr ⟨c.label, he, rfl, rfl⟩

/-- What is fed from elsewhere is not fed by a member. -/
theorem external_not_member {owner : ScopeId} {t : PortRef} (h : p.External owner t) {m : NodeId}
    {c : Connection} (hc : c ∈ p.forwardOut m) (ht : inputOf c = t) : m ∉ p.membersIn owner := by
  obtain ⟨l, rfl, e, he, htarget, hsource⟩ := h
  obtain ⟨hce, hcarried⟩ := Graph.mem_carried.mp hc
  have heq : e = ⟨m, c.node, c.label⟩ := hp.graph.edge_of_target he hce (htarget.trans ht.symm)
  intro hm
  have hscope := (hp.mem_membersIn.mp hm).2
  rcases hsource with ⟨-, hstarts⟩ | hcapture
  · exact hcarried (heq ▸ hstarts)
  · obtain ⟨e', he', hlink, -, -, hout⟩ := Graph.mem_captures.mp hcapture
    have hsame : e'.source = e.source := congrArg (fun k => k.source.node) hlink
    rw [hsame, heq] at hout
    exact hout (hp.holds_of_scopeOf hscope).2

theorem external_inbound? {owner : ScopeId} {t : PortRef} (h : p.External owner t) :
    p.graph.inbound? t.node t.port ≠ none := by
  obtain ⟨l, -, e, he, rfl, -⟩ := h
  have hsome : p.graph.inbound? e.target e.label.targetPort =
      some ⟨e.source, e.label.sourcePort⟩ := hp.graph.inbound?_eq_some.mpr ⟨e.label, he, rfl, rfl⟩
  change p.graph.inbound? e.target e.label.targetPort ≠ none
  rw [hsome]
  simp

end Sound

end Plan

end PortGraph
