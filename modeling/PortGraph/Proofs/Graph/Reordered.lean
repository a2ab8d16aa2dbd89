import Mathlib.Data.List.Flatten
import PortGraph.Proofs.Graph.Definitions

/-!
Definitions that list the same nodes and links in another order. They are well formed together, and
their graphs hold the same nodes and edges; what a graph says of one node is then the same, up to
the order of the edges at the node.
-/

namespace PortGraph

open Relation

/-- The same nodes and links, listed in another order. -/
structure Definition.Reorders (d d' : Definition) : Prop where
  nodes : d.nodes.Perm d'.nodes
  links : d.links.Perm d'.links

/-- The same nodes and edges, listed in another order. -/
structure Graph.Reorders (g g' : Graph) : Prop where
  nodes : g.nodes.Perm g'.nodes
  edges : g.edges.Perm g'.edges

namespace Definition.Reorders

variable {d d' : Definition} (h : d.Reorders d')
include h

theorem symm : d'.Reorders d := ⟨h.nodes.symm, h.links.symm⟩

theorem declares_iff {n : Node} : d'.Declares n ↔ d.Declares n := by
  unfold Declares
  simp only [h.nodes.mem_iff]

theorem gives_iff {r : PortRef} {t : PortType} : d'.Gives r t ↔ d.Gives r t := by
  unfold Gives
  simp only [h.declares_iff]

theorem takes_iff {r : PortRef} {t : PortType} : d'.Takes r t ↔ d.Takes r t := by
  unfold Takes
  simp only [h.declares_iff]

theorem forward_eq : d'.Forward = d.Forward := by
  funext a b
  unfold Forward Returns
  simp only [h.declares_iff, h.links.mem_iff]

theorem wellFormed (hd : d.WellFormed) : d'.WellFormed where
  tags n hn := hd.tags n (h.nodes.mem_iff.mpr hn)
  properties n hn := hd.properties n (h.nodes.mem_iff.mpr hn)
  ids := (h.nodes.map _).nodup_iff.mp hd.ids
  ends l hl := by
    simp only [h.gives_iff, h.takes_iff]
    exact hd.ends l (h.links.mem_iff.mpr hl)
  single := (h.links.map _).nodup_iff.mp hd.single
  types l hl s t := by
    rw [h.gives_iff, h.takes_iff]
    exact hd.types l (h.links.mem_iff.mpr hl) s t
  defaults n hn port t v := by
    simp only [h.takes_iff, ← h.links.mem_iff]
    exact hd.defaults n (h.nodes.mem_iff.mpr hn) port t v
  acyclic := h.forward_eq ▸ hd.acyclic

end Definition.Reorders

namespace Graph

theorem Joins.unique {g : Graph} {l : Link} {e e' : Edge} (h : g.Joins l e) (h' : g.Joins l e') :
    e = e' := by
  obtain ⟨-, target, -, -, -, htarget, -, -, -, rfl⟩ := h
  obtain ⟨-, target', -, -, -, htarget', -, -, -, rfl⟩ := h'
  obtain rfl := Option.some.inj (htarget.symm.trans htarget')
  rfl

theorem node?_eq_of_perm {g g' : Graph} (h : g.nodes.Perm g'.nodes) (hids : g.ids.Nodup)
    (id : NodeId) : g'.node? id = g.node? id := by
  have hids' : g'.ids.Nodup := (h.map Node.id).nodup_iff.mp hids
  ext n
  rw [node?_eq_some_iff hids, node?_eq_some_iff hids', h.mem_iff]

/-- What a reordering of a definition makes of its graph. -/
theorem reorders_ofDefinition {d d' : Definition} (h : d.Reorders d') {g : Graph}
    (hg : ofDefinition d = .ok g) : ∃ g', ofDefinition d' = .ok g' ∧ g.Reorders g' := by
  obtain ⟨g', hg'⟩ := (h.wellFormed (definition_wellFormed hg)).ofDefinition
  have hr := realizes_of_definition hg
  have hr' := realizes_of_definition hg'
  have hnodes : g.nodes.Perm g'.nodes :=
    List.rel_perm_imp (fun _ _ _ hm hn => hm.unique hn) hr.nodes hr'.nodes h.nodes
  -- which edge a link makes depends on the nodes alone
  have hjoins : g'.Joins = g.Joins := by
    funext l e
    unfold Joins
    simp only [node?_eq_of_perm hnodes hr.ids_nodup]
  exact ⟨g', hg', hnodes, List.rel_perm_imp (fun _ _ _ he he' => he.unique he') hr.edges
    (hjoins ▸ hr'.edges) h.links⟩

namespace Reorders

variable {g g' : Graph} (h : g.Reorders g')
include h

theorem symm : g'.Reorders g := ⟨h.nodes.symm, h.edges.symm⟩

theorem ids : g.ids.Perm g'.ids := h.nodes.map _

theorem successors (n : NodeId) : (g.successors n).Perm (g'.successors n) :=
  (h.edges.filter _).map _

theorem predecessors (n : NodeId) : (g.predecessors n).Perm (g'.predecessors n) :=
  (h.edges.filter _).map _

theorem mem_forward_iff {a b : NodeId} : b ∈ g'.forward a ↔ b ∈ g.forward a := by
  simp only [mem_forward, h.edges.mem_iff]

/-- The nodes without edges into them. -/
theorem entries : g.entries.Perm g'.entries := by
  have hentry : ∀ n : Node, (g'.predecessors n.id).isEmpty = (g.predecessors n.id).isEmpty :=
    fun n => (h.predecessors n.id).symm.isEmpty_eq
  unfold Graph.entries
  simp only [hentry]
  exact h.nodes.filter _

variable (hg : g.WellFormed) (hg' : g'.WellFormed)
include hg

theorem kind?_eq (id : NodeId) : g'.kind? id = g.kind? id := by
  unfold kind?
  rw [node?_eq_of_perm h.nodes hg.ids_nodup]

include hg'

theorem order : g.order.Perm g'.order := hg.order_perm.trans (h.ids.trans hg'.order_perm.symm)

/-- An input is fed by the same output. -/
theorem inbound?_eq (id : NodeId) (port : String) : g'.inbound? id port = g.inbound? id port := by
  ext r
  rw [hg.inbound?_eq_some, hg'.inbound?_eq_some]
  simp only [h.edges.mem_iff]

end Reorders

end Graph

end PortGraph
