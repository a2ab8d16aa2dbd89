import Mathlib.Data.List.Forall2
import PortGraph.Proofs.Graph.Reordered

/-!
Which nodes are named when a definition is refused for a cycle. In a partition into strongly connected
components, a node lies on a cycle just if its component has another node or an edge from the node
to itself; the report is therefore the same for every such partition, and for every order in which
the definition lists its nodes and links.
-/

namespace PortGraph

open Relation

namespace Order

variable {next : Successors} {nodes : List NodeId}

/-- A partition of the nodes into strongly connected components. -/
structure Components (next : Successors) (nodes : List NodeId) (cs : List (List NodeId)) :
    Prop where
  covers : ∀ n ∈ nodes, ∃ c ∈ cs, n ∈ c
  nodup : ∀ c ∈ cs, c.Nodup
  mem_nodes : ∀ c ∈ cs, ∀ n ∈ c, n ∈ nodes
  /-- Nodes share a component when each of them leads to the other. -/
  mem_iff : ∀ c ∈ cs, ∀ a ∈ c, ∀ b ∈ nodes,
    b ∈ c ↔ ReflTransGen (Leads next) a b ∧ ReflTransGen (Leads next) b a

theorem cyclic_iff {c : List NodeId} (hc : c.Nodup) :
    cyclic next c = true ↔ ∃ a ∈ c, ∃ b ∈ c, a ≠ b ∨ Leads next a b := by
  cases c with
  | nil => simp [cyclic]
  | cons a rest =>
    cases rest with
    | nil => simp [cyclic, Leads]
    | cons b rest =>
      have hne : a ≠ b := fun h => (List.nodup_cons.mp hc).1 (by simp [h])
      have hmany : cyclic next (a :: b :: rest) = true := by simp [cyclic]
      exact iff_of_true hmany ⟨a, by simp, b, by simp, Or.inl hne⟩

/-- The nodes of the components that hold a cycle are those on a cycle. -/
theorem Components.mem_onCycle_iff {cs : List (List NodeId)} (h : Components next nodes cs)
    (hnext : ∀ a, ∀ b ∈ next a, b ∈ nodes) {n : NodeId} :
    n ∈ onCycle next cs ↔ TransGen (Leads next) n n := by
  simp only [onCycle, mem_ascending, List.mem_flatten, List.mem_filter]
  constructor
  · rintro ⟨c, ⟨hc, hcyclic⟩, hn⟩
    have hboth : ∀ m ∈ c, ReflTransGen (Leads next) n m ∧ ReflTransGen (Leads next) m n :=
      fun m hm => (h.mem_iff c hc n hn m (h.mem_nodes c hc m hm)).mp hm
    obtain ⟨a, ha, b, hb, hab⟩ := (cyclic_iff (h.nodup c hc)).mp hcyclic
    have hstep : TransGen (Leads next) a b := by
      rcases hab with hne | hstep
      · have hpath := (hboth a ha).2.trans (hboth b hb).1
        exact (reflTransGen_iff_eq_or_transGen.mp hpath).resolve_left (Ne.symm hne)
      · exact TransGen.single hstep
    exact TransGen.trans_left (TransGen.trans_right (hboth a ha).1 hstep) (hboth b hb).2
  · intro hcycle
    obtain ⟨m, hstep, hback⟩ := TransGen.head'_iff.mp hcycle
    obtain ⟨k, -, hlast⟩ := TransGen.tail'_iff.mp hcycle
    obtain ⟨c, hc, hn⟩ := h.covers n (hnext k n hlast)
    have hm : m ∈ c := (h.mem_iff c hc n hn m (hnext n m hstep)).mpr ⟨.single hstep, hback⟩
    exact ⟨c, ⟨hc, (cyclic_iff (h.nodup c hc)).mpr ⟨n, hn, m, hm, Or.inr hstep⟩⟩, hn⟩

section Search

variable (hnodes : ∀ n, next n ≠ [] → n ∈ nodes)
include hnodes

theorem mem_reachFrom_iff {a b : NodeId} :
    b ∈ reachFrom next nodes a ↔ TransGen (Leads next) a b := by
  have hfuel : (next a).length + (nodes.map fun n => (next n).length).sum ≤
      (nodes.flatMap next).length + (next a).length + 1 := by
    rw [List.length_flatMap]
    omega
  rw [TransGen.head'_iff]
  exact mem_reach_iff hnodes _ _ hfuel b

/-- The groups of nodes that lead to each other are the strongly connected components. -/
theorem components_spec (hnodup : nodes.Nodup) :
    Components next nodes (components next nodes) := by
  unfold components
  set leads : NodeId → NodeId → Bool := fun a b =>
    ((nodes.map fun n => (n, reachFrom next nodes n)).lookup a).any fun ms => ms.contains b
    with hdef
  have hleads : ∀ a ∈ nodes, ∀ b, leads a b = true ↔ TransGen (Leads next) a b := by
    intro a ha b
    rw [hdef, ← mem_reachFrom_iff hnodes]
    simp [lookup_map_key, ha]
  have hmem : ∀ a ∈ nodes, ∀ b,
      (b ∈ nodes.filter fun m => m == a || (leads a m && leads m a)) ↔
        b ∈ nodes ∧ ReflTransGen (Leads next) a b ∧ ReflTransGen (Leads next) b a := by
    intro a ha b
    rw [List.mem_filter]
    refine and_congr_right fun hb => ?_
    rw [Bool.or_eq_true, Bool.and_eq_true, hleads a ha, hleads b hb, beq_iff_eq,
      reflTransGen_iff_eq_or_transGen, reflTransGen_iff_eq_or_transGen]
    tauto
  have hgroup : ∀ c, c ∈ groups leads nodes ↔
      ∃ a ∈ nodes, (nodes.filter fun m => m == a || (leads a m && leads m a)) = c := by
    intro c
    rw [groups, List.mem_eraseDups, List.mem_map]
  refine ⟨?_, ?_, ?_, ?_⟩
  · intro n hn
    exact ⟨_, (hgroup _).mpr ⟨n, hn, rfl⟩, (hmem n hn n).mpr ⟨hn, .refl, .refl⟩⟩
  · intro c hc
    obtain ⟨a, -, rfl⟩ := (hgroup c).mp hc
    exact hnodup.filter _
  · intro c hc n hn
    obtain ⟨a, ha, rfl⟩ := (hgroup c).mp hc
    exact ((hmem a ha n).mp hn).1
  · intro c hc b hb d hd
    obtain ⟨a, ha, rfl⟩ := (hgroup c).mp hc
    obtain ⟨-, hab, hba⟩ := (hmem a ha b).mp hb
    rw [hmem a ha]
    constructor
    · rintro ⟨-, had, hda⟩
      exact ⟨hba.trans had, hda.trans hab⟩
    · rintro ⟨hbd, hdb⟩
      exact ⟨hd, hab.trans hbd, hdb.trans hba⟩

end Search

end Order

namespace Graph

variable {d d' : Definition}

/-! ### Only the order reports a cycle -/

theorem isCyclic_addNode {g : Graph} {nd : NodeDefinition} {e : GraphError}
    (h : g.addNode nd = .error e) : e.isCyclic = false := by
  unfold addNode at h
  split at h
  · cases h
    rfl
  · split at h
    · cases h
      rfl
    · split_ifs at h
      cases h
      rfl

theorem isCyclic_addLink {g : Graph} {l : Link} {e : GraphError} (h : g.addLink l = .error e) :
    e.isCyclic = false := by
  unfold addLink at h
  split at h
  · cases h
    rfl
  · cases h
    rfl
  · split at h
    · cases h
      rfl
    · cases h
      rfl
    · split_ifs at h <;> cases h <;> rfl

theorem isCyclic_checkDefaults {g : Graph} {e : GraphError} (h : g.checkDefaults = .error e) :
    e.isCyclic = false := by
  obtain ⟨n, -, hn⟩ := error_of_forM h
  obtain ⟨port, -, hport⟩ := error_of_forM hn
  unfold checkDefault at hport
  split at hport
  · cases hport
  · split_ifs at hport
    split at hport
    · cases hport
    · cases hport
      rfl

/-- The graph that a definition makes passes all checks, as far as they come before its nodes are put
in order. -/
structure Assembles (g : Graph) (d : Definition) : Prop extends g.Realizes d where
  targets : (d.links.map Link.target).Nodup
  defaults : g.Defaulted
  order : g.order = []

namespace Assembles

variable {g : Graph} (h : g.Assembles d)
include h

theorem ofDefinition_eq : ofDefinition d = g.arrange := by
  obtain ⟨nodes, edges, order⟩ := g
  obtain rfl : order = [] := h.order
  have hnodes : d.nodes.foldlM addNode ⟨[], [], []⟩ = .ok ⟨nodes, [], []⟩ :=
    addNodes_eq_ok.mpr ⟨nodes, h.nodes, h.ids, by simp [Graph.ids], rfl⟩
  have hlinks : d.links.foldlM addLink ⟨nodes, [], []⟩ = .ok ⟨nodes, edges, []⟩ :=
    addLinks_eq_ok.mpr ⟨edges, h.edges, h.targets, by simp, rfl⟩
  rw [ofDefinition, hnodes, ok_bind, hlinks, ok_bind, checkDefaults_eq_ok.mpr h.defaults, ok_bind]

/-- Listed in another order, the definition makes a graph too. -/
theorem reorder (hd : d.Reorders d') : ∃ g' : Graph, g'.Assembles d' := by
  obtain ⟨nodes', hnodes', hperm⟩ := List.perm_comp_forall₂ hd.nodes.symm h.nodes
  obtain ⟨edges', hedges', -⟩ := List.perm_comp_forall₂ hd.links.symm h.edges
  -- which edge a link makes depends on the nodes alone
  have hjoins : Joins ⟨nodes', edges', []⟩ = g.Joins := by
    funext l e
    unfold Joins
    simp only [@node?_eq_of_perm g ⟨nodes', edges', []⟩ hperm.symm h.ids_nodup]
  have hrealizes : Realizes ⟨nodes', edges', []⟩ d' :=
    ⟨hnodes', (hd.nodes.map _).nodup_iff.mp h.ids, hjoins ▸ hedges'⟩
  have hdefaults := h.defaulted_iff.mp h.defaults
  refine ⟨⟨nodes', edges', []⟩, hrealizes, (hd.links.map _).nodup_iff.mp h.targets,
    hrealizes.defaulted_iff.mpr fun n hn port t v => ?_, rfl⟩
  simp only [hd.takes_iff, ← hd.links.mem_iff]
  exact hdefaults n (hd.nodes.mem_iff.mpr hn) port t v

theorem components_spec :
    Order.Components g.forward g.ids (Order.components g.forward g.ids) := by
  refine Order.components_spec (fun n hn => ?_) h.ids_nodup
  obtain ⟨m, hm⟩ := List.exists_mem_of_ne_nil _ hn
  obtain ⟨label, he, -⟩ := mem_forward.mp hm
  obtain ⟨l, -, hjoins⟩ := exists_of_mem_right h.edges he
  obtain ⟨⟨source, hsource, -⟩, -⟩ := hjoins.ends
  exact (isSome_node?_iff n).mp (Option.isSome_iff_exists.mpr ⟨source, hsource⟩)

end Assembles

/-- A definition that is refused for a cycle passes every other check. -/
theorem assembles_of_cycle {ns : List NodeId} (h : ofDefinition d = .error (.cycle ns)) :
    ∃ g : Graph, g.Assembles d := by
  have hcyclic : ¬ (GraphError.cycle ns).isCyclic = false := Bool.noConfusion
  unfold ofDefinition at h
  rcases error_of_bind h with hnodes | ⟨g, hnodes, h⟩
  · obtain ⟨_, _, -, hadd⟩ := error_of_foldlM hnodes
    exact absurd (isCyclic_addNode hadd) hcyclic
  rcases error_of_bind h with hlinks | ⟨g', hlinks, h⟩
  · obtain ⟨_, _, -, hadd⟩ := error_of_foldlM hlinks
    exact absurd (isCyclic_addLink hadd) hcyclic
  rcases error_of_bind h with hdefaults | ⟨⟨⟩, hdefaults, -⟩
  · exact absurd (isCyclic_checkDefaults hdefaults) hcyclic
  obtain ⟨nodes, hdescribes, hids, -, rfl⟩ := addNodes_eq_ok.mp hnodes
  obtain ⟨edges, hjoins, htargets, -, rfl⟩ := addLinks_eq_ok.mp hlinks
  exact ⟨_, ⟨hdescribes, hids, hjoins⟩, htargets, checkDefaults_eq_ok.mp hdefaults, rfl⟩

/-! ### The report -/

/-- The nodes named are those on a cycle, in ascending order, and there are some. -/
theorem cycle_exact {ns : List NodeId} (h : ofDefinition d = .error (.cycle ns)) :
    ns ≠ [] ∧ ns.Pairwise (· < ·) ∧ ∀ n, n ∈ ns ↔ TransGen d.Forward n n := by
  obtain ⟨g, hg⟩ := assembles_of_cycle h
  have hnext : ∀ a, ∀ b ∈ g.forward a, b ∈ g.ids := fun _ _ hb => mem_ids_of_forward hg.edges hb
  have hforward : d.Forward = Order.Leads g.forward := by
    funext a b
    exact propext hg.forward_iff
  have hmem : ∀ n, n ∈ Order.onCycle g.forward (Order.components g.forward g.ids) ↔
      TransGen d.Forward n n := by
    intro n
    rw [hforward, hg.components_spec.mem_onCycle_iff hnext]
  rw [hg.ofDefinition_eq, arrange] at h
  split_ifs at h with hrespects
  obtain rfl := GraphError.cycle.inj (Except.error.inj h)
  refine ⟨fun hnil => hrespects ?_, pairwise_ascending _, hmem⟩
  -- with nothing on a cycle the search would have put the nodes in order
  refine Order.respects_reverseFinishing (fun n hn => ?_) fun n _ => hnext n
  rw [← hforward, ← hmem, hnil] at hn
  simp at hn

/-- Once the other checks are passed, a cycle is all that a definition can be refused for. -/
theorem Assembles.ofDefinition_error {g : Graph} (h : g.Assembles d) {e : GraphError}
    (he : ofDefinition d = .error e) : ∃ ns, e = .cycle ns := by
  rw [h.ofDefinition_eq, arrange] at he
  split_ifs at he
  exact ⟨_, (Except.error.inj he).symm⟩

/-- A cycle is reported exactly: the nodes named are those that lie on one, each once and in ascending
order, and the report does not depend on the order of the definition. -/
theorem cycleReported {ns : List NodeId} (h : ofDefinition d = .error (.cycle ns)) :
    ns ≠ [] ∧ ns.Pairwise (· < ·) ∧ (∀ n, n ∈ ns ↔ TransGen d.Forward n n) ∧
      ∀ d', d.Reorders d' → ofDefinition d' = .error (.cycle ns) := by
  obtain ⟨hne, hsorted, hmem⟩ := cycle_exact h
  refine ⟨hne, hsorted, hmem, fun d' hd => ?_⟩
  obtain ⟨g, hg⟩ := assembles_of_cycle h
  obtain ⟨g', hg'⟩ := hg.reorder hd
  cases hd' : ofDefinition d' with
  | ok g'' =>
    obtain ⟨n, hn⟩ := List.exists_mem_of_ne_nil ns hne
    have hcycle : TransGen d'.Forward n n := hd.forward_eq ▸ (hmem n).mp hn
    exact absurd hcycle (acyclic_of_definition hd' n)
  | error e =>
    obtain ⟨ns', rfl⟩ := hg'.ofDefinition_error hd'
    obtain ⟨-, hsorted', hmem'⟩ := cycle_exact hd'
    have hsame : ∀ n, n ∈ ns' ↔ n ∈ ns := by
      intro n
      rw [hmem', hmem, hd.forward_eq]
    rw [hsorted'.eq_of_mem_iff hsorted hsame]

/-- A ring of two nodes, a node that feeds itself, and nodes that lead into the ring and out of it; the
loop's result closes no cycle. -/
def ringAndEcho : Definition :=
  ⟨[⟨"in", "data-input", []⟩, ⟨"zig", "logic-merge", []⟩, ⟨"zag", "data-transform", []⟩,
    ⟨"echo", "logic-merge", []⟩, ⟨"rows", "logic-loop", []⟩, ⟨"row", "data-transform", []⟩],
   [⟨⟨"in", "value"⟩, ⟨"zig", "input1"⟩⟩, ⟨⟨"zig", "merged"⟩, ⟨"zag", "input"⟩⟩,
    ⟨⟨"zag", "output"⟩, ⟨"zig", "input2"⟩⟩, ⟨⟨"echo", "merged"⟩, ⟨"echo", "input1"⟩⟩,
    ⟨⟨"zag", "output"⟩, ⟨"rows", "collection"⟩⟩, ⟨⟨"rows", "item"⟩, ⟨"row", "input"⟩⟩,
    ⟨⟨"row", "output"⟩, ⟨"rows", "result"⟩⟩]⟩

theorem ringAndEcho_cycleReported :
    ofDefinition ringAndEcho = .error (.cycle ["echo", "zag", "zig"]) ∧
      (∀ n, n ∈ ["echo", "zag", "zig"] ↔ TransGen ringAndEcho.Forward n n) ∧
      ∀ d, ringAndEcho.Reorders d → ofDefinition d = .error (.cycle ["echo", "zag", "zig"]) := by
  have h : ofDefinition ringAndEcho = .error (.cycle ["echo", "zag", "zig"]) := by decide +kernel
  obtain ⟨-, -, hmem, hreorders⟩ := cycleReported h
  exact ⟨h, hmem, hreorders⟩

end Graph

end PortGraph
