import Mathlib.Data.List.Pairwise
import PortGraph.Proofs.Graph.Building
import PortGraph.Proofs.Graph.Search

/-!
What a graph that was accepted satisfies. The checks are spread over the nodes, the links, the
port defaults and the order; later modules use this record and never look at the checks again.
-/

namespace PortGraph

namespace Graph

structure WellFormed (g : Graph) : Prop where
  ids_nodup : g.ids.Nodup
  ports : ∀ n ∈ g.nodes, n.inputs = n.settings.inputs ∧ n.outputs = n.settings.outputs
  source : ∀ e ∈ g.edges, ∃ n, g.node? e.source = some n ∧ (n.output? e.label.sourcePort).isSome
  target : ∀ e ∈ g.edges, ∃ n, g.node? e.target = some n ∧
    (n.input? e.label.targetPort).isSome ∧ e.label.loopBack = returnsToLoop n e.label.targetPort
  single : g.edges.Pairwise fun e e' =>
    ¬ (e.target = e'.target ∧ e.label.targetPort = e'.label.targetPort)
  defaults : ∀ n ∈ g.nodes, ∀ port ∈ n.inputs, ∀ v, n.properties.find? port.name = some v →
    g.inbound? n.id port.name = none → ∃ w, Conversion.convert v port.type = .ok w
  order_perm : g.order.Perm g.ids
  order_respects : Order.respects g.forward g.order = true

namespace WellFormed

variable {g : Graph} (hg : g.WellFormed)
include hg

theorem source_mem {e : Edge} (he : e ∈ g.edges) : e.source ∈ g.ids := by
  obtain ⟨n, hn, -⟩ := hg.source e he
  exact (isSome_node?_iff e.source).mp (by simp [hn])

theorem target_mem {e : Edge} (he : e ∈ g.edges) : e.target ∈ g.ids := by
  obtain ⟨n, hn, -⟩ := hg.target e he
  exact (isSome_node?_iff e.target).mp (by simp [hn])

/-- An input has at most one edge into it. -/
theorem edge_unique {e e' : Edge} (he : e ∈ g.edges) (he' : e' ∈ g.edges)
    (htarget : e.target = e'.target) (hport : e.label.targetPort = e'.label.targetPort) :
    e = e' := by
  by_contra hne
  have : Std.Symm fun e e' : Edge =>
      ¬ (e.target = e'.target ∧ e.label.targetPort = e'.label.targetPort) :=
    ⟨fun a b h hba => h ⟨hba.1.symm, hba.2.symm⟩⟩
  exact hg.single.forall he he' hne ⟨htarget, hport⟩

theorem inbound?_eq_some {id : NodeId} {port : String} {r : PortRef} :
    g.inbound? id port = some r ↔
      ∃ label : EdgeLabel, ⟨r.node, id, label⟩ ∈ g.edges ∧ label.targetPort = port ∧
        label.sourcePort = r.port := by
  unfold inbound?
  constructor
  · intro h
    obtain ⟨c, hc, rfl⟩ := Option.map_eq_some_iff.mp h
    exact ⟨c.label, mem_predecessors.mp (List.mem_of_find?_eq_some hc),
      by simpa using List.find?_some hc, rfl⟩
  · rintro ⟨label, he, hport, hsource⟩
    have hex : ((g.predecessors id).find? fun c => c.label.targetPort == port).isSome := by
      rw [List.find?_isSome]
      exact ⟨⟨r.node, label⟩, mem_predecessors.mpr he, by simpa using hport⟩
    obtain ⟨c, hc⟩ := Option.isSome_iff_exists.mp hex
    have hce := mem_predecessors.mp (List.mem_of_find?_eq_some hc)
    have hcp : c.label.targetPort = port := by simpa using List.find?_some hc
    have heq : (⟨c.node, id, c.label⟩ : Edge) = ⟨r.node, id, label⟩ :=
      hg.edge_unique hce he rfl (hcp.trans hport.symm)
    rw [hc, Option.map_some, (Edge.mk.inj heq).1, (Edge.mk.inj heq).2.2, hsource]

/-- The edge returns a value to its loop. -/
theorem loopBack_iff {e : Edge} (he : e ∈ g.edges) :
    e.label.loopBack = true ↔
      g.kind? e.target = some .loop ∧ e.label.targetPort = PortName.result := by
  obtain ⟨node, hnode, -, hlabel⟩ := hg.target e he
  unfold kind?
  rw [hlabel, hnode]
  simp [returnsToLoop]

theorem mem_order_iff (id : NodeId) : id ∈ g.order ↔ id ∈ g.ids := hg.order_perm.mem_iff

theorem order_nodup : g.order.Nodup := hg.order_perm.nodup_iff.mpr hg.ids_nodup

end WellFormed

/-- The place of a node in the order. -/
def place (g : Graph) (id : NodeId) : ℕ := g.order.idxOf id

theorem WellFormed.place_lt {g : Graph} (hg : g.WellFormed) {a b : NodeId}
    (h : b ∈ g.forward a) : g.place a < g.place b := by
  obtain ⟨label, he, -⟩ := mem_forward.mp h
  have ha : a ∈ g.order := (hg.mem_order_iff a).mpr (hg.source_mem he)
  obtain ⟨pre, post, hsplit⟩ := List.append_of_mem ha
  have hb : b ∈ post := Order.respects_split (hsplit ▸ hg.order_respects) b h
  have hnd : (pre ++ a :: post).Nodup := hsplit ▸ hg.order_nodup
  obtain ⟨-, htail, hdisjoint⟩ := List.nodup_append.mp hnd
  have hapre : a ∉ pre := fun hmem => hdisjoint a hmem a (by simp) rfl
  have hbpre : b ∉ pre := fun hmem => hdisjoint b hmem b (by simp [hb]) rfl
  have hne : a ≠ b := fun heq => (List.nodup_cons.mp htail).1 (heq ▸ hb)
  unfold place
  rw [hsplit, List.idxOf_append_of_notMem hapre, List.idxOf_append_of_notMem hbpre,
    List.idxOf_cons_self, List.idxOf_cons_ne _ hne]
  omega

/-! ### Accepted graphs -/

theorem Joins.ends {g : Graph} {l : Link} {e : Edge} (h : g.Joins l e) :
    (∃ n, g.node? e.source = some n ∧ (n.output? e.label.sourcePort).isSome) ∧
      ∃ n, g.node? e.target = some n ∧ (n.input? e.label.targetPort).isSome ∧
        e.label.loopBack = returnsToLoop n e.label.targetPort := by
  obtain ⟨source, target, output, input, hsource, htarget, houtput, hinput, -, rfl⟩ := h
  exact ⟨⟨source, hsource, by simp [houtput]⟩, target, htarget, by simp [hinput], rfl⟩

theorem map_link_of_joins {g : Graph} {ls : List Link} {es : List Edge}
    (h : List.Forall₂ g.Joins ls es) : es.map Edge.link = ls := by
  induction h with
  | nil => rfl
  | cons he _ ih => exact congrArg₂ List.cons he.link ih

theorem map_id_of_describes {ds : List NodeDefinition} {ns : List Node}
    (h : List.Forall₂ NodeDefinition.Describes ds ns) :
    ns.map Node.id = ds.map NodeDefinition.id := by
  induction h with
  | nil => rfl
  | cons hn _ ih => exact congrArg₂ List.cons hn.id ih

theorem mem_ids_of_forward {g : Graph} {ls : List Link} (h : List.Forall₂ g.Joins ls g.edges)
    {a b : NodeId} (hb : b ∈ g.forward a) : b ∈ g.ids := by
  obtain ⟨label, he, -⟩ := mem_forward.mp hb
  obtain ⟨l, -, hjoins⟩ := exists_of_mem_right h he
  obtain ⟨n, hn, -⟩ := hjoins.ends.2
  exact (isSome_node?_iff b).mp (by simp [show g.node? b = some n from hn])

theorem pairwise_targets {es : List Edge} {ls : List Link} (hlinks : es.map Edge.link = ls)
    (h : (ls.map Link.target).Nodup) : es.Pairwise fun e e' =>
      ¬ (e.target = e'.target ∧ e.label.targetPort = e'.label.targetPort) := by
  rw [← hlinks, List.map_map] at h
  refine (List.pairwise_map.mp h).imp fun hne hsame => hne ?_
  exact congrArg₂ PortRef.mk hsame.1 hsame.2

theorem wellFormed_of_definition {d : Definition} {g : Graph} (h : ofDefinition d = .ok g) :
    g.WellFormed := by
  obtain ⟨ns, es, hns, hids, hes, htargets, hdefaults, harrange⟩ := ofDefinition_eq_ok.mp h
  have hnodup : (ids ⟨ns, es, []⟩).Nodup := by
    change (ns.map Node.id).Nodup
    rw [map_id_of_describes hns]
    exact hids
  have hends : ∀ e ∈ es, _ := fun e he =>
    (exists_of_mem_right hes he).choose_spec.2.ends
  have hnext : ∀ n ∈ ids ⟨ns, es, []⟩, ∀ m ∈ forward ⟨ns, es, []⟩ n, m ∈ ids ⟨ns, es, []⟩ :=
    fun _ _ _ hm => mem_ids_of_forward (show List.Forall₂ (Joins ⟨ns, es, []⟩) _ _ from hes) hm
  unfold arrange at harrange
  simp only at harrange
  split_ifs at harrange with hrespects
  obtain rfl := Except.ok.inj harrange
  exact {
    ids_nodup := hnodup
    ports := by
      intro n hn
      obtain ⟨d, -, hd⟩ := exists_of_mem_right hns hn
      exact ⟨hd.inputs, hd.outputs⟩
    source := fun e he => (hends e he).1
    target := fun e he => (hends e he).2
    single := pairwise_targets (map_link_of_joins hes) htargets
    defaults := hdefaults
    order_perm := Order.reverseFinishing_perm hnodup hnext
    order_respects := hrespects }

end Graph

end PortGraph
