import PortGraph.Proofs.Graph.Topological
import PortGraph.Proofs.Graph.WellFormed

/-!
Which definitions are graphs. A definition is well formed by what it says alone, without the graph
that is built from it; building succeeds for just these definitions, and the graph holds what the
definition says.
-/

namespace PortGraph

open Relation

namespace Definition

/-- A node that the definition stands for. -/
def Declares (d : Definition) (n : Node) : Prop := ∃ nd ∈ d.nodes, nd.Describes n

/-- An output of a type. -/
def Gives (d : Definition) (r : PortRef) (t : PortType) : Prop :=
  ∃ n, d.Declares n ∧ n.id = r.node ∧ ⟨r.port, t⟩ ∈ n.outputs

/-- An input of a type. -/
def Takes (d : Definition) (r : PortRef) (t : PortType) : Prop :=
  ∃ n, d.Declares n ∧ n.id = r.node ∧ ⟨r.port, t⟩ ∈ n.inputs

/-- The `result` input of a loop. -/
def Returns (d : Definition) (r : PortRef) : Prop :=
  r.port = PortName.result ∧ ∃ n, d.Declares n ∧ n.id = r.node ∧ n.kind = .loop

/-- An edge from node to node that returns no result. -/
def Forward (d : Definition) (a b : NodeId) : Prop :=
  ∃ l ∈ d.links, l.source.node = a ∧ l.target.node = b ∧ ¬ d.Returns l.target

structure WellFormed (d : Definition) : Prop where
  tags : ∀ n ∈ d.nodes, ∃ kind, NodeKind.ofTag? n.tag = some kind
  properties : ∀ n ∈ d.nodes, ∀ kind, NodeKind.ofTag? n.tag = some kind →
    ∃ s, NodeSettings.parse kind n.properties = .ok s
  ids : (d.nodes.map NodeDefinition.id).Nodup
  ends : ∀ l ∈ d.links, (∃ t, d.Gives l.source t) ∧ ∃ t, d.Takes l.target t
  /-- No two links lead into one input. -/
  single : (d.links.map Link.target).Nodup
  types : ∀ l ∈ d.links, ∀ s t, d.Gives l.source s → d.Takes l.target t → s.compatible t = true
  /-- A property that stands in for an input without a link into it fits the port. -/
  defaults : ∀ n ∈ d.nodes, ∀ port t v, d.Takes ⟨n.id, port⟩ t →
    (∀ l ∈ d.links, l.target ≠ ⟨n.id, port⟩) → n.properties.find? port = some v →
    ∃ w, Conversion.convert v t = .ok w
  acyclic : ∀ n, ¬ TransGen d.Forward n n

end Definition

namespace Graph

/-- The graph holds what the definition says, with the nodes in an order that all edges but those
into the result of a loop follow. -/
structure Represents (g : Graph) (d : Definition) : Prop where
  nodes : List.Forall₂ NodeDefinition.Describes d.nodes g.nodes
  links : g.edges.map Edge.link = d.links
  loopBack : ∀ e ∈ g.edges, e.label.loopBack = true ↔
    e.label.targetPort = PortName.result ∧ g.kind? e.target = some .loop
  order : g.order.Perm (d.nodes.map NodeDefinition.id) ∧ g.order.Nodup
  later : ∀ e ∈ g.edges, e.label.loopBack = false →
    g.order.idxOf e.source < g.order.idxOf e.target

/-- The nodes and the edges of a graph are those of a definition. -/
structure Realizes (g : Graph) (d : Definition) : Prop where
  nodes : List.Forall₂ NodeDefinition.Describes d.nodes g.nodes
  ids : (d.nodes.map NodeDefinition.id).Nodup
  edges : List.Forall₂ g.Joins d.links g.edges

namespace Realizes

variable {g : Graph} {d : Definition} (h : g.Realizes d)
include h

theorem declares_iff {n : Node} : d.Declares n ↔ n ∈ g.nodes := by
  constructor
  · rintro ⟨nd, hnd, hn⟩
    obtain ⟨m, hm, hmd⟩ := exists_of_mem_left h.nodes hnd
    exact hn.unique hmd ▸ hm
  · intro hn
    exact exists_of_mem_right h.nodes hn

theorem ids_nodup : g.ids.Nodup := by
  unfold Graph.ids
  rw [map_id_of_describes h.nodes]
  exact h.ids

theorem node?_iff {id : NodeId} {n : Node} : g.node? id = some n ↔ d.Declares n ∧ n.id = id := by
  rw [node?_eq_some_iff h.ids_nodup, h.declares_iff]

theorem gives_iff {r : PortRef} {t : PortType} :
    d.Gives r t ↔ ∃ n, g.node? r.node = some n ∧ n.output? r.port = some ⟨r.port, t⟩ := by
  unfold Definition.Gives
  refine exists_congr fun n => ?_
  rw [h.node?_iff, and_assoc]
  refine and_congr_right fun hn => and_congr_right fun _ => ?_
  obtain ⟨nd, -, hnd⟩ := hn
  rw [hnd.output?_eq_some]
  simp

theorem takes_iff {r : PortRef} {t : PortType} :
    d.Takes r t ↔ ∃ n, g.node? r.node = some n ∧ n.input? r.port = some ⟨r.port, t⟩ := by
  unfold Definition.Takes
  refine exists_congr fun n => ?_
  rw [h.node?_iff, and_assoc]
  refine and_congr_right fun hn => and_congr_right fun _ => ?_
  obtain ⟨nd, -, hnd⟩ := hn
  rw [hnd.input?_eq_some]
  simp

theorem gives_unique {r : PortRef} {s t : PortType} (hs : d.Gives r s) (ht : d.Gives r t) :
    s = t := by
  obtain ⟨m, hm, hs⟩ := h.gives_iff.mp hs
  obtain ⟨n, hn, ht⟩ := h.gives_iff.mp ht
  obtain rfl := Option.some.inj (hm.symm.trans hn)
  exact (Port.mk.inj (Option.some.inj (hs.symm.trans ht))).2

theorem takes_unique {r : PortRef} {s t : PortType} (hs : d.Takes r s) (ht : d.Takes r t) :
    s = t := by
  obtain ⟨m, hm, hs⟩ := h.takes_iff.mp hs
  obtain ⟨n, hn, ht⟩ := h.takes_iff.mp ht
  obtain rfl := Option.some.inj (hm.symm.trans hn)
  exact (Port.mk.inj (Option.some.inj (hs.symm.trans ht))).2

theorem returns_iff {r : PortRef} {n : Node} (hn : g.node? r.node = some n) :
    d.Returns r ↔ returnsToLoop n r.port = true := by
  unfold Definition.Returns returnsToLoop
  simp only [Bool.and_eq_true, beq_iff_eq]
  rw [and_comm]
  obtain ⟨hdeclared, hid⟩ := h.node?_iff.mp hn
  refine and_congr_left fun _ => ⟨?_, fun hkind => ⟨n, hdeclared, hid, hkind⟩⟩
  rintro ⟨m, hm, hid, hkind⟩
  have hsame : g.node? r.node = some m := h.node?_iff.mpr ⟨hm, hid⟩
  obtain rfl := Option.some.inj (hn.symm.trans hsame)
  exact hkind

theorem forward_iff {a b : NodeId} : d.Forward a b ↔ Order.Leads g.forward a b := by
  unfold Order.Leads
  rw [mem_forward]
  constructor
  · rintro ⟨l, hl, rfl, rfl, hback⟩
    obtain ⟨e, he, source, target, output, input, -, htarget, -, -, -, rfl⟩ :=
      exists_of_mem_left h.edges hl
    exact ⟨_, he, by simpa using fun hr => hback ((h.returns_iff htarget).mpr hr)⟩
  · rintro ⟨label, he, hback⟩
    obtain ⟨l, hl, source, target, output, input, -, htarget, -, -, -, heq⟩ :=
      exists_of_mem_right h.edges he
    obtain ⟨rfl, rfl, rfl⟩ := Edge.mk.inj heq
    exact ⟨l, hl, rfl, rfl, fun hr => by simp [(h.returns_iff htarget).mp hr] at hback⟩

theorem acyclic_iff : (∀ n, ¬ TransGen d.Forward n n) ↔ Order.Acyclic g.forward := by
  have heq : d.Forward = Order.Leads g.forward := by
    funext a b
    exact propext h.forward_iff
  rw [heq]
  rfl

theorem free_iff {r : PortRef} :
    g.inbound? r.node r.port = none ↔ ∀ l ∈ d.links, l.target ≠ r := by
  rw [inbound?_eq_none_iff]
  have htargets : g.edges.map Edge.targetRef = d.links.map Link.target := by
    rw [← map_link_of_joins h.edges, List.map_map]
    rfl
  rw [htargets]
  simp

theorem defaulted_iff : g.Defaulted ↔ ∀ n ∈ d.nodes, ∀ port t v, d.Takes ⟨n.id, port⟩ t →
    (∀ l ∈ d.links, l.target ≠ ⟨n.id, port⟩) → n.properties.find? port = some v →
    ∃ w, Conversion.convert v t = .ok w := by
  constructor
  · rintro hg nd hnd port t v htakes hfree hv
    obtain ⟨n, hn, hdesc⟩ := exists_of_mem_left h.nodes hnd
    obtain ⟨m, hm, hinput⟩ := h.takes_iff.mp htakes
    have hself := node?_of_mem h.ids_nodup hn
    rw [hdesc.id] at hself
    obtain rfl := Option.some.inj (hself.symm.trans hm)
    refine hg n hn ⟨port, t⟩ (hdesc.input?_eq_some.mp hinput).1 v (hdesc.properties ▸ hv) ?_
    rw [hdesc.id]
    exact h.free_iff.mpr hfree
  · rintro hd n hn port hport v hv hfree
    obtain ⟨nd, hnd, hdesc⟩ := exists_of_mem_right h.nodes hn
    rw [hdesc.id] at hfree
    rw [hdesc.properties] at hv
    exact hd nd hnd port.name port.type v ⟨n, ⟨nd, hnd, hdesc⟩, hdesc.id, hport⟩
      (h.free_iff (r := ⟨nd.id, port.name⟩).mp hfree) hv

/-- A link makes an edge when its ends exist and their types are compatible. -/
theorem joins_of_fits {l : Link} (hends : (∃ t, d.Gives l.source t) ∧ ∃ t, d.Takes l.target t)
    (htypes : ∀ s t, d.Gives l.source s → d.Takes l.target t → s.compatible t = true) :
    ∃ e, g.Joins l e := by
  obtain ⟨⟨s, hs⟩, t, ht⟩ := hends
  obtain ⟨source, hsource, houtput⟩ := h.gives_iff.mp hs
  obtain ⟨target, htarget, hinput⟩ := h.takes_iff.mp ht
  exact ⟨_, source, target, _, _, hsource, htarget, houtput, hinput, htypes s t hs ht, rfl⟩

end Realizes

end Graph

namespace Definition

variable {d : Definition}

theorem WellFormed.describes (hd : d.WellFormed) :
    ∃ ns, List.Forall₂ NodeDefinition.Describes d.nodes ns := by
  apply exists_forall₂
  intro n hn
  obtain ⟨kind, hkind⟩ := hd.tags n hn
  obtain ⟨s, hs⟩ := hd.properties n hn kind hkind
  have hbuild : Node.build n.id kind n.properties = .ok _ := congrArg (Except.map _) hs
  exact ⟨_, NodeDefinition.describes_iff.mpr ⟨kind, hkind, hbuild⟩⟩

theorem WellFormed.ofDefinition (hd : d.WellFormed) : ∃ g, Graph.ofDefinition d = .ok g := by
  obtain ⟨ns, hns⟩ := hd.describes
  -- the nodes alone already say which edges the links make
  have hbare : Graph.Realizes ⟨ns, [], []⟩ { d with links := [] } := ⟨hns, hd.ids, .nil⟩
  have hjoins : ∀ l ∈ d.links, ∃ e, Graph.Joins ⟨ns, [], []⟩ l e :=
    fun l hl => hbare.joins_of_fits (hd.ends l hl) (hd.types l hl)
  obtain ⟨es, hes⟩ := exists_forall₂ hjoins
  have hg : Graph.Realizes ⟨ns, es, []⟩ d := ⟨hns, hd.ids, hes⟩
  have hnext : ∀ n ∈ Graph.ids ⟨ns, es, []⟩, ∀ m ∈ Graph.forward ⟨ns, es, []⟩ n,
      m ∈ Graph.ids ⟨ns, es, []⟩ := fun _ _ _ hm => Graph.mem_ids_of_forward hg.edges hm
  have hrespects := Order.respects_reverseFinishing (hg.acyclic_iff.mp hd.acyclic) hnext
  exact ⟨_, Graph.ofDefinition_eq_ok.mpr ⟨ns, es, hns, hd.ids, hes, hd.single,
    hg.defaulted_iff.mpr hd.defaults, if_pos hrespects⟩⟩

end Definition

namespace Graph

variable {d : Definition} {g : Graph}

theorem realizes_of_definition (h : ofDefinition d = .ok g) : g.Realizes d := by
  obtain ⟨ns, es, hns, hids, hes, -, -, harrange⟩ := ofDefinition_eq_ok.mp h
  unfold arrange at harrange
  simp only at harrange
  split_ifs at harrange
  obtain rfl := Except.ok.inj harrange
  exact ⟨hns, hids, hes⟩

theorem acyclic_of_definition (h : ofDefinition d = .ok g) : ∀ n, ¬ TransGen d.Forward n n := by
  have hg := wellFormed_of_definition h
  have hlater : ∀ {a b : NodeId}, TransGen (Order.Leads g.forward) a b →
      g.place a < g.place b := by
    intro a b hab
    induction hab with
    | single hb => exact hg.place_lt hb
    | tail _ hb ih => exact Nat.lt_trans ih (hg.place_lt hb)
  exact (realizes_of_definition h).acyclic_iff.mpr fun n hn => Nat.lt_irrefl _ (hlater hn)

theorem definition_wellFormed (h : ofDefinition d = .ok g) : d.WellFormed := by
  have hg := realizes_of_definition h
  obtain ⟨-, -, -, hids, -, hsingle, -, -⟩ := ofDefinition_eq_ok.mp h
  have hend : ∀ l ∈ d.links, ∃ s t, d.Gives l.source s ∧ d.Takes l.target t ∧
      s.compatible t = true := by
    intro l hl
    obtain ⟨e, -, source, target, output, input, hsource, htarget, houtput, hinput, htypes, -⟩ :=
      exists_of_mem_left hg.edges hl
    have hout : output.name = l.source.port := by simpa using List.find?_some houtput
    have hin : input.name = l.target.port := by simpa using List.find?_some hinput
    exact ⟨output.type, input.type, hg.gives_iff.mpr ⟨source, hsource, hout ▸ houtput⟩,
      hg.takes_iff.mpr ⟨target, htarget, hin ▸ hinput⟩, htypes⟩
  refine ⟨?_, ?_, hids, ?_, hsingle, ?_, ?_, acyclic_of_definition h⟩
  · intro nd hnd
    obtain ⟨n, -, hn⟩ := exists_of_mem_left hg.nodes hnd
    exact ⟨n.kind, hn.kind⟩
  · intro nd hnd kind hkind
    obtain ⟨n, -, hn⟩ := exists_of_mem_left hg.nodes hnd
    obtain rfl := Option.some.inj (hn.kind.symm.trans hkind)
    exact ⟨n.settings, hn.settings⟩
  · intro l hl
    obtain ⟨s, t, hs, ht, -⟩ := hend l hl
    exact ⟨⟨s, hs⟩, t, ht⟩
  · intro l hl s t hs ht
    obtain ⟨s', t', hs', ht', htypes⟩ := hend l hl
    rwa [hg.gives_unique hs hs', hg.takes_unique ht ht']
  · exact hg.defaulted_iff.mp (wellFormed_of_definition h).defaults

theorem represents_of_definition (h : ofDefinition d = .ok g) : g.Represents d := by
  have hg := realizes_of_definition h
  have hw := wellFormed_of_definition h
  refine ⟨hg.nodes, map_link_of_joins hg.edges, ?_, ⟨?_, hw.order_nodup⟩, ?_⟩
  · intro e he
    obtain ⟨n, hn, -, hback⟩ := hw.target e he
    rw [hback]
    simp [returnsToLoop, kind?, hn, and_comm]
  · rw [← map_id_of_describes hg.nodes]
    exact hw.order_perm
  · intro e he hback
    exact hw.place_lt (mem_forward.mpr ⟨e.label, he, hback⟩)

/-- Building succeeds for the well-formed definitions and for no others, and what it builds holds
what the definition says. -/
theorem buildsWellFormed (d : Definition) :
    ((∃ g, ofDefinition d = .ok g) ↔ d.WellFormed) ∧
      ∀ g, ofDefinition d = .ok g → g.Represents d :=
  ⟨⟨fun ⟨_, h⟩ => definition_wellFormed h, fun hd => hd.ofDefinition⟩,
    fun _ h => represents_of_definition h⟩

/-- A loop whose body returns a value: its only cycle is through the result. -/
def returningLoop : Definition :=
  ⟨[⟨"in", "data-input", []⟩, ⟨"rows", "logic-loop", []⟩, ⟨"row", "data-transform", []⟩],
   [⟨⟨"in", "value"⟩, ⟨"rows", "collection"⟩⟩, ⟨⟨"rows", "item"⟩, ⟨"row", "input"⟩⟩,
    ⟨⟨"row", "output"⟩, ⟨"rows", "result"⟩⟩]⟩

theorem returningLoop_buildsWellFormed : ∃ g, ofDefinition returningLoop = .ok g ∧
    g.edges.map (fun e => e.label.loopBack) = [false, false, true] ∧
    g.order = ["in", "rows", "row"] ∧ returningLoop.WellFormed ∧ g.Represents returningLoop := by
  obtain ⟨g, hg, hback, horder⟩ := exists_ok_of_check (x := ofDefinition returningLoop)
    (P := fun g => g.edges.map (fun e => e.label.loopBack) = [false, false, true] ∧
      g.order = ["in", "rows", "row"]) (by decide +kernel)
  obtain ⟨hiff, hrepresents⟩ := buildsWellFormed returningLoop
  exact ⟨g, hg, hback, horder, hiff.mp ⟨g, hg⟩, hrepresents g hg⟩

end Graph

end PortGraph
