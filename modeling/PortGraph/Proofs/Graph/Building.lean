import Mathlib.Data.List.Forall2
import PortGraph.Graph.Basic
import PortGraph.Proofs.Node.Settings

/-!
Building a graph: exactly which nodes, links and defaults each step takes, and what it adds to the
graph.
-/

namespace PortGraph

/-! ### Lists side by side -/

theorem exists_of_mem_left {α β : Type} {R : α → β → Prop} {as : List α} {bs : List β}
    (h : List.Forall₂ R as bs) {a : α} (ha : a ∈ as) : ∃ b ∈ bs, R a b := by
  induction h with
  | nil => simp at ha
  | cons hr _ ih =>
    rcases List.mem_cons.mp ha with rfl | ha
    · exact ⟨_, by simp, hr⟩
    · obtain ⟨b, hb, hab⟩ := ih ha
      exact ⟨b, List.mem_cons_of_mem _ hb, hab⟩

theorem exists_of_mem_right {α β : Type} {R : α → β → Prop} {as : List α} {bs : List β}
    (h : List.Forall₂ R as bs) {b : β} (hb : b ∈ bs) : ∃ a ∈ as, R a b := by
  induction h with
  | nil => simp at hb
  | cons hr _ ih =>
    rcases List.mem_cons.mp hb with rfl | hb
    · exact ⟨_, by simp, hr⟩
    · obtain ⟨a, ha, hab⟩ := ih hb
      exact ⟨a, List.mem_cons_of_mem _ ha, hab⟩

theorem exists_forall₂ {α β : Type} {R : α → β → Prop} {as : List α}
    (h : ∀ a ∈ as, ∃ b, R a b) : ∃ bs, List.Forall₂ R as bs := by
  induction as with
  | nil => exact ⟨[], .nil⟩
  | cons a rest ih =>
    obtain ⟨b, hb⟩ := h a (by simp)
    obtain ⟨bs, hbs⟩ := ih fun a ha => h a (List.mem_cons_of_mem _ ha)
    exact ⟨b :: bs, .cons hb hbs⟩

/-! ### Nodes -/

/-- The node that a definition stands for. -/
structure NodeDefinition.Describes (d : NodeDefinition) (n : Node) : Prop where
  id : n.id = d.id
  kind : NodeKind.ofTag? d.tag = some n.kind
  settings : NodeSettings.parse n.kind d.properties = .ok n.settings
  properties : n.properties = d.properties
  inputs : n.inputs = n.settings.inputs
  outputs : n.outputs = n.settings.outputs

theorem NodeDefinition.describes_iff {d : NodeDefinition} {n : Node} :
    d.Describes n ↔
      ∃ kind, NodeKind.ofTag? d.tag = some kind ∧ Node.build d.id kind d.properties = .ok n := by
  constructor
  · intro h
    have hnode : (⟨d.id, n.settings, d.properties, n.settings.inputs, n.settings.outputs⟩ : Node) =
        n := by
      rw [← h.id, ← h.properties, ← h.inputs, ← h.outputs]
    refine ⟨n.kind, h.kind, ?_⟩
    unfold Node.build
    rw [h.settings]
    exact congrArg Except.ok hnode
  · rintro ⟨kind, hkind, hbuild⟩
    unfold Node.build at hbuild
    cases hs : NodeSettings.parse kind d.properties with
    | error c => simp [hs, Except.map] at hbuild
    | ok s =>
      obtain rfl : (⟨d.id, s, d.properties, s.inputs, s.outputs⟩ : Node) = n := by
        simpa [hs, Except.map] using hbuild
      obtain rfl := NodeSettings.kind_of_parse hs
      exact ⟨rfl, hkind, hs, rfl, rfl, rfl⟩

theorem NodeDefinition.Describes.unique {d : NodeDefinition} {m n : Node} (hm : d.Describes m)
    (hn : d.Describes n) : m = n := by
  obtain ⟨kind, hkind, hbuild⟩ := describes_iff.mp hm
  obtain ⟨kind', hkind', hbuild'⟩ := describes_iff.mp hn
  obtain rfl := Option.some.inj (hkind.symm.trans hkind')
  exact Except.ok.inj (hbuild.symm.trans hbuild')

theorem NodeDefinition.Describes.input?_eq_some {d : NodeDefinition} {n : Node}
    (h : d.Describes n) {name : String} {p : Port} :
    n.input? name = some p ↔ p ∈ n.inputs ∧ p.name = name :=
  find?_name_eq_some fun _ hp _ hq => n.settings.input_unique (h.inputs ▸ hp) (h.inputs ▸ hq)

theorem NodeDefinition.Describes.output?_eq_some {d : NodeDefinition} {n : Node}
    (h : d.Describes n) {name : String} {p : Port} :
    n.output? name = some p ↔ p ∈ n.outputs ∧ p.name = name :=
  find?_name_eq_some fun _ hp _ hq => n.settings.output_unique (h.outputs ▸ hp) (h.outputs ▸ hq)

namespace Graph

/-! ### Reading a graph -/

theorem node?_eq_some {g : Graph} {id : NodeId} {n : Node} (h : g.node? id = some n) :
    n ∈ g.nodes ∧ n.id = id :=
  ⟨List.mem_of_find?_eq_some h, by simpa using List.find?_some h⟩

theorem node?_of_mem {g : Graph} (hg : g.ids.Nodup) {n : Node} (hn : n ∈ g.nodes) :
    g.node? n.id = some n := by
  obtain ⟨nodes, edges, order⟩ := g
  change (nodes.map Node.id).Nodup at hg
  change nodes.find? (fun m => m.id == n.id) = some n
  induction nodes with
  | nil => simp at hn
  | cons a rest ih =>
    have hnd : a.id ∉ rest.map Node.id ∧ (rest.map Node.id).Nodup := by simpa using hg
    rcases List.mem_cons.mp hn with rfl | hrest
    · simp
    · have hne : a.id ≠ n.id := fun h => hnd.1 (h ▸ List.mem_map.mpr ⟨n, hrest, rfl⟩)
      rw [List.find?_cons_of_neg (by simpa using hne)]
      exact ih hrest hnd.2

theorem isSome_node?_iff {g : Graph} (id : NodeId) : (g.node? id).isSome ↔ id ∈ g.ids := by
  unfold node? ids
  rw [List.find?_isSome]
  simp [List.mem_map]

theorem mem_successors {g : Graph} {id : NodeId} {c : Connection} :
    c ∈ g.successors id ↔ ⟨id, c.node, c.label⟩ ∈ g.edges := by
  unfold successors
  rw [List.mem_map]
  constructor
  · rintro ⟨e, he, rfl⟩
    obtain ⟨hmem, hsrc⟩ := List.mem_filter.mp he
    have hid : e.source = id := by simpa using hsrc
    rw [← hid]
    exact hmem
  · intro he
    exact ⟨⟨id, c.node, c.label⟩, List.mem_filter.mpr ⟨he, by simp⟩, rfl⟩

theorem mem_predecessors {g : Graph} {id : NodeId} {c : Connection} :
    c ∈ g.predecessors id ↔ ⟨c.node, id, c.label⟩ ∈ g.edges := by
  unfold predecessors
  rw [List.mem_map]
  constructor
  · rintro ⟨e, he, rfl⟩
    obtain ⟨hmem, htgt⟩ := List.mem_filter.mp he
    have hid : e.target = id := by simpa using htgt
    rw [← hid]
    exact hmem
  · intro he
    exact ⟨⟨c.node, id, c.label⟩, List.mem_filter.mpr ⟨he, by simp⟩, rfl⟩

theorem mem_forward {g : Graph} {id m : NodeId} :
    m ∈ g.forward id ↔ ∃ label : EdgeLabel, ⟨id, m, label⟩ ∈ g.edges ∧ label.loopBack = false := by
  unfold forward
  simp only [List.mem_reverse, List.mem_map, List.mem_filter, mem_successors]
  constructor
  · rintro ⟨c, ⟨he, hb⟩, rfl⟩
    exact ⟨c.label, he, by simpa using hb⟩
  · rintro ⟨label, he, hb⟩
    exact ⟨⟨m, label⟩, ⟨he, by simpa using hb⟩, rfl⟩

theorem node?_eq_some_iff {g : Graph} (hg : g.ids.Nodup) {id : NodeId} {n : Node} :
    g.node? id = some n ↔ n ∈ g.nodes ∧ n.id = id := by
  constructor
  · exact node?_eq_some
  · rintro ⟨hn, rfl⟩
    exact node?_of_mem hg hn

/-- An input without an edge into it. -/
theorem inbound?_eq_none_iff {g : Graph} {r : PortRef} :
    g.inbound? r.node r.port = none ↔ r ∉ g.edges.map Edge.targetRef := by
  unfold inbound?
  rw [Option.map_eq_none_iff, List.find?_eq_none, List.mem_map]
  constructor
  · rintro h ⟨e, he, rfl⟩
    exact h ⟨e.source, e.label⟩ (mem_predecessors.mpr he) (beq_self_eq_true _)
  · intro h c hc hport
    exact h ⟨_, mem_predecessors.mp hc, congrArg (PortRef.mk r.node) (beq_iff_eq.mp hport)⟩

theorem isSome_inbound?_iff {g : Graph} {r : PortRef} :
    (g.inbound? r.node r.port).isSome ↔ ∃ e ∈ g.edges, e.targetRef = r := by
  rw [Option.isSome_iff_ne_none, ne_eq, inbound?_eq_none_iff, not_not, List.mem_map]

/-! ### One step -/

theorem addNode_eq_ok {g g' : Graph} {d : NodeDefinition} :
    g.addNode d = .ok g' ↔
      ∃ n, d.Describes n ∧ d.id ∉ g.ids ∧ g' = { g with nodes := g.nodes ++ [n] } := by
  simp only [NodeDefinition.describes_iff]
  rw [← isSome_node?_iff]
  unfold addNode
  cases hkind : NodeKind.ofTag? d.tag with
  | none => simp
  | some kind =>
    cases hbuild : Node.build d.id kind d.properties with
    | error complaints => simp [hbuild]
    | ok n =>
      by_cases hid : (g.node? d.id).isSome
      · simp [hid, hbuild]
      · simp [hid, hbuild, eq_comm]

/-- The edge that a link adds to a graph: both ends exist, and their types are compatible. -/
def Joins (g : Graph) (l : Link) (e : Edge) : Prop :=
  ∃ source target output input, g.node? l.source.node = some source ∧
    g.node? l.target.node = some target ∧ source.output? l.source.port = some output ∧
    target.input? l.target.port = some input ∧ output.type.compatible input.type = true ∧
    e = ⟨l.source.node, l.target.node,
      ⟨l.source.port, l.target.port, returnsToLoop target l.target.port⟩⟩

theorem Joins.link {g : Graph} {l : Link} {e : Edge} (h : g.Joins l e) : e.link = l := by
  obtain ⟨-, -, -, -, -, -, -, -, -, rfl⟩ := h
  rfl

theorem addLink_eq_ok {g g' : Graph} {l : Link} :
    g.addLink l = .ok g' ↔
      ∃ e, g.Joins l e ∧ l.target ∉ g.edges.map Edge.targetRef ∧
        g' = { g with edges := g.edges ++ [e] } := by
  rw [← inbound?_eq_none_iff]
  unfold addLink Joins
  cases hsource : g.node? l.source.node with
  | none => simp
  | some source =>
    cases htarget : g.node? l.target.node with
    | none => simp
    | some target =>
      cases houtput : source.output? l.source.port with
      | none => simp [houtput]
      | some output =>
        cases hinput : target.input? l.target.port with
        | none => simp [houtput, hinput]
        | some input =>
          cases hfree : g.inbound? l.target.node l.target.port with
          | some r => simp [houtput, hinput]
          | none =>
            cases htypes : output.type.compatible input.type with
            | false => simp [houtput, hinput, htypes]
            | true => simpa [houtput, hinput, htypes] using eq_comm

theorem checkDefault_eq_ok {g : Graph} {n : Node} {port : Port} :
    g.checkDefault n port = .ok () ↔
      ∀ v, n.properties.find? port.name = some v → g.inbound? n.id port.name = none →
        ∃ w, Conversion.convert v port.type = .ok w := by
  unfold checkDefault
  cases hv : n.properties.find? port.name with
  | none => simp
  | some v =>
    cases hfree : g.inbound? n.id port.name with
    | some r => simp
    | none =>
      cases hconvert : Conversion.convert v port.type with
      | error e => simp [hconvert]
      | ok w => simpa [hconvert] using ⟨w.1, w.2, rfl⟩

/-! ### All steps -/

/-- Every property that stands in for an input without an edge fits the port. -/
def Defaulted (g : Graph) : Prop :=
  ∀ n ∈ g.nodes, ∀ port ∈ n.inputs, ∀ v, n.properties.find? port.name = some v →
    g.inbound? n.id port.name = none → ∃ w, Conversion.convert v port.type = .ok w

theorem checkDefaults_eq_ok {g : Graph} : g.checkDefaults = .ok () ↔ g.Defaulted := by
  unfold checkDefaults Defaulted
  simp only [forM_eq_ok, checkDefault_eq_ok]

theorem addNodes_eq_ok {ds : List NodeDefinition} {g g' : Graph} :
    ds.foldlM addNode g = .ok g' ↔
      ∃ ns, List.Forall₂ NodeDefinition.Describes ds ns ∧ (ds.map NodeDefinition.id).Nodup ∧
        (∀ id ∈ ds.map NodeDefinition.id, id ∉ g.ids) ∧ g' = { g with nodes := g.nodes ++ ns } := by
  induction ds generalizing g with
  | nil => simp [pure, Except.pure, eq_comm]
  | cons d rest ih =>
    simp only [List.foldlM_cons, bind_eq_ok, addNode_eq_ok, ih]
    constructor
    · rintro ⟨_, ⟨n, hn, hnew, rfl⟩, ns, hns, hnodup, hrest, rfl⟩
      have hid : ∀ id ∈ rest.map NodeDefinition.id, id ∉ g.ids ∧ id ≠ d.id := by
        intro id hmem
        have hnot := hrest id hmem
        simp only [ids, List.map_append, List.map_cons, List.map_nil, List.mem_append,
          List.mem_singleton, not_or, hn.id] at hnot
        exact hnot
      refine ⟨n :: ns, .cons hn hns, ?_, ?_, by simp⟩
      · exact List.nodup_cons.mpr ⟨fun h => (hid d.id h).2 rfl, hnodup⟩
      · intro id hmem
        rcases List.mem_cons.mp hmem with rfl | hmem
        · exact hnew
        · exact (hid id hmem).1
    · rintro ⟨ns, hns, hnodup, hfresh, rfl⟩
      cases hns with
      | cons hn hns =>
        obtain ⟨hd, hnodup⟩ := List.nodup_cons.mp hnodup
        refine ⟨_, ⟨_, hn, hfresh d.id (by simp), rfl⟩, _, hns, hnodup, ?_, by simp⟩
        intro id hmem
        simp only [ids, List.map_append, List.map_cons, List.map_nil, List.mem_append,
          List.mem_singleton, not_or, hn.id]
        exact ⟨hfresh id (List.mem_cons_of_mem _ hmem), fun heq => hd (heq ▸ hmem)⟩

theorem addLinks_eq_ok {ls : List Link} {g g' : Graph} :
    ls.foldlM addLink g = .ok g' ↔
      ∃ es, List.Forall₂ g.Joins ls es ∧ (ls.map Link.target).Nodup ∧
        (∀ r ∈ ls.map Link.target, r ∉ g.edges.map Edge.targetRef) ∧
        g' = { g with edges := g.edges ++ es } := by
  induction ls generalizing g with
  | nil => simp [pure, Except.pure, eq_comm]
  | cons l rest ih =>
    simp only [List.foldlM_cons, bind_eq_ok, addLink_eq_ok, ih]
    constructor
    · rintro ⟨_, ⟨e, he, hnew, rfl⟩, es, hes, hnodup, hrest, rfl⟩
      have htarget : e.targetRef = l.target := congrArg Link.target he.link
      have href : ∀ r ∈ rest.map Link.target, r ∉ g.edges.map Edge.targetRef ∧ r ≠ l.target := by
        intro r hmem
        have hnot := hrest r hmem
        simp only [List.map_append, List.map_cons, List.map_nil, List.mem_append,
          List.mem_singleton, not_or, htarget] at hnot
        exact hnot
      refine ⟨e :: es, .cons he hes, ?_, ?_, by simp⟩
      · exact List.nodup_cons.mpr ⟨fun h => (href l.target h).2 rfl, hnodup⟩
      · intro r hmem
        rcases List.mem_cons.mp hmem with rfl | hmem
        · exact hnew
        · exact (href r hmem).1
    · rintro ⟨es, hes, hnodup, hfresh, rfl⟩
      cases hes with
      | cons he hes =>
        have htarget := congrArg Link.target he.link
        obtain ⟨hl, hnodup⟩ := List.nodup_cons.mp hnodup
        refine ⟨_, ⟨_, he, hfresh l.target (by simp), rfl⟩, _, hes, hnodup, ?_, by simp⟩
        intro r hmem
        have hne : r ≠ l.target := fun heq => hl (heq ▸ hmem)
        simp only [List.map_append, List.map_cons, List.map_nil, List.mem_append,
          List.mem_singleton, not_or]
        exact ⟨hfresh r (List.mem_cons_of_mem _ hmem), fun heq => hne (heq.trans htarget)⟩

/-- Which definitions become a graph, and which graph. -/
theorem ofDefinition_eq_ok {d : Definition} {g : Graph} :
    ofDefinition d = .ok g ↔
      ∃ ns es, List.Forall₂ NodeDefinition.Describes d.nodes ns ∧
        (d.nodes.map NodeDefinition.id).Nodup ∧
        List.Forall₂ (Joins ⟨ns, [], []⟩) d.links es ∧ (d.links.map Link.target).Nodup ∧
        Defaulted ⟨ns, es, []⟩ ∧ arrange ⟨ns, es, []⟩ = .ok g := by
  unfold ofDefinition
  simp only [bind_eq_ok, addNodes_eq_ok, addLinks_eq_ok]
  constructor
  · rintro ⟨_, ⟨ns, hns, hids, -, rfl⟩, _, ⟨es, hes, htargets, -, rfl⟩, ⟨⟩, hdefaults, harrange⟩
    exact ⟨ns, es, hns, hids, hes, htargets, checkDefaults_eq_ok.mp hdefaults, harrange⟩
  · rintro ⟨ns, es, hns, hids, hes, htargets, hdefaults, harrange⟩
    exact ⟨_, ⟨ns, hns, hids, by simp [ids], rfl⟩, _, ⟨es, hes, htargets, by simp, rfl⟩, ⟨⟩,
      checkDefaults_eq_ok.mpr hdefaults, harrange⟩

end Graph

end PortGraph
