import PortGraph.Proofs.Plan.Connections

/-!
Where the values of a scope come from. Every input that a member waits for, and every capture of a
member loop, is fed by a member or from outside the scope, and a value for it has a way to go.
-/

namespace PortGraph.Plan

open Nesting

/-- A node sends one of its values to an input. -/
def Feeds (p : Plan) (m : NodeId) (t : PortRef) : Prop := ∃ c ∈ p.forwardOut m, inputOf c = t

/-- An input is fed by a member of the scope or from outside. -/
def Fed (p : Plan) (owner : ScopeId) (t : PortRef) : Prop :=
  (∃ m ∈ p.membersIn owner, p.Feeds m t) ∨ p.External owner t

theorem feeds_iff {p : Plan} {m : NodeId} {t : PortRef} :
    p.Feeds m t ↔ ∃ e ∈ p.graph.edges, e.source = m ∧ e.targetRef = t ∧
      ¬ p.graph.StartsIteration e := by
  constructor
  · rintro ⟨c, hc, rfl⟩
    obtain ⟨he, hstarts⟩ := Graph.mem_carried.mp hc
    exact ⟨_, he, rfl, rfl, hstarts⟩
  · rintro ⟨e, he, rfl, rfl, hstarts⟩
    exact ⟨⟨e.target, e.label⟩, Graph.mem_carried.mpr ⟨he, hstarts⟩, rfl⟩

namespace Sound

variable {p : Plan} (hp : p.Sound)
include hp

theorem feeds_unique {m m' : NodeId} {t : PortRef} (h : p.Feeds m t) (h' : p.Feeds m' t) :
    m = m' := by
  obtain ⟨c, hc, ht⟩ := h
  obtain ⟨c', hc', ht'⟩ := h'
  exact (hp.forwardOut_unique hc hc' (ht.trans ht'.symm)).1

theorem not_external_of_feeds {owner : ScopeId} {m : NodeId} {t : PortRef}
    (hm : m ∈ p.membersIn owner) (h : p.Feeds m t) : ¬ p.External owner t := by
  obtain ⟨c, hc, ht⟩ := h
  exact fun hext => hp.external_not_member hext hc ht hm

theorem fed_of_edge {owner : ScopeId} {e : Edge} (he : e ∈ p.graph.edges)
    (h : (p.scopeOf e.source = owner ∧ ¬ p.graph.StartsIteration e) ∨
      (owner = some e.source ∧ p.graph.StartsIteration e) ∨
      ∃ l, owner = some l ∧ e.link ∈ captures p.graph l (bodyOf p.graph l)) :
    p.Fed owner e.targetRef := by
  rcases h with ⟨hs, hstarts⟩ | ⟨hs, hstarts⟩ | ⟨l, hs, hcapture⟩
  · exact Or.inl ⟨e.source, hp.mem_membersIn.mpr ⟨hp.graph.source_mem he, hs⟩,
      feeds_iff.mpr ⟨e, he, rfl, rfl, hstarts⟩⟩
  · exact Or.inr ⟨e.source, hs, e, he, rfl, Or.inl ⟨rfl, hstarts⟩⟩
  · exact Or.inr ⟨l, hs, e, he, rfl, Or.inr hcapture⟩

/-- A node waits for its connected inputs, a loop not for its own result. -/
theorem mem_connectedInputs_iff {n : NodeId} {node : Node} (hnode : p.node? n = some node)
    {q : String} : q ∈ p.connectedInputs node ↔
      p.graph.inbound? n q ≠ none ∧ Graph.returnsToLoop node q = false := by
  unfold connectedInputs
  rw [(Graph.node?_eq_some hnode).2]
  simp only [List.mem_map, List.mem_filter, Bool.not_eq_true', Option.isSome_iff_ne_none]
  constructor
  · rintro ⟨port, ⟨⟨-, hback⟩, hconnected⟩, rfl⟩
    exact ⟨hconnected, hback⟩
  · rintro ⟨hconnected, hback⟩
    obtain ⟨src, hsrc⟩ := Option.ne_none_iff_exists'.mp hconnected
    obtain ⟨label, he, rfl, -⟩ := hp.graph.inbound?_eq_some.mp hsrc
    obtain ⟨target, htarget, hport, -⟩ := hp.graph.target _ he
    obtain rfl : node = target := Option.some.inj (hnode.symm.trans htarget)
    obtain ⟨port, hfind⟩ := Option.isSome_iff_exists.mp hport
    have hname : port.name = label.targetPort := by simpa using List.find?_some hfind
    exact ⟨port, ⟨⟨List.mem_of_find?_eq_some hfind, by rwa [hname]⟩, by rwa [hname]⟩, hname⟩

/-- A condition waits for its condition if that is connected. -/
theorem condition_waits {n : NodeId} {node : Node} (hnode : p.node? n = some node)
    (hkind : p.kind? n = some .condition) (h : p.graph.inbound? n PortName.condition ≠ none) :
    PortName.condition ∈ p.connectedInputs node := by
  obtain ⟨node', hnode', hcond⟩ := Graph.kind?_eq_some hkind
  obtain rfl : node = node' := Option.some.inj (hnode.symm.trans hnode')
  refine (hp.mem_connectedInputs_iff hnode).mpr ⟨h, ?_⟩
  simp [Graph.returnsToLoop, hcond]

variable (hu : p.Untangled)
include hu

/-- An edge between two members of a scope carries what the source sends. -/
theorem feeds_of_inbound? {n : NodeId} {q : String} {source : PortRef}
    (hin : p.graph.inbound? n q = some source) (hscope : p.scopeOf source.node = p.scopeOf n) :
    p.Feeds source.node ⟨n, q⟩ := by
  obtain ⟨label, he, rfl, -⟩ := hp.graph.inbound?_eq_some.mp hin
  refine feeds_iff.mpr ⟨_, he, rfl, rfl, fun hstarts => ?_⟩
  exact hp.scopeOf_ne_of_encloses hu (hp.edge_seed hu he hstarts) hscope

/-- What returns a result to a loop is in the body of it. -/
theorem encloses_of_returns {n : NodeId} {node : Node} {q : String} {source : PortRef}
    (hnode : p.node? n = some node) (hin : p.graph.inbound? n q = some source)
    (hback : Graph.returnsToLoop node q = true) : p.Encloses n source.node := by
  obtain ⟨hkind, rfl⟩ : node.kind = .loop ∧ q = PortName.result := by
    simpa [Graph.returnsToLoop] using hback
  have hloop : p.graph.kind? n = some .loop := by
    unfold Graph.kind?
    rw [show p.graph.node? n = some node from hnode, Option.map_some, hkind]
  exact (hp.encloses_iff hu).mpr ⟨hloop, (hp.nesting.closed n hloop).result _ hin⟩

/-- A member waits for each input that another member feeds. -/
theorem connected_of_feeds {owner : ScopeId} {m n : NodeId} {node : Node} {q : String}
    (hm : m ∈ p.membersIn owner) (hn : n ∈ p.membersIn owner) (hnode : p.node? n = some node)
    (h : p.Feeds m ⟨n, q⟩) : q ∈ p.connectedInputs node := by
  obtain ⟨c, hc, ht⟩ := h
  have hin := hp.inbound?_of_forwardOut hc
  rw [ht] at hin
  refine (hp.mem_connectedInputs_iff hnode).mpr ⟨by simp [hin], ?_⟩
  by_contra hback
  exact hp.scopeOf_ne_of_encloses hu (hp.encloses_of_returns hu hnode hin (by simpa using hback))
    ((hp.mem_membersIn.mp hn).2.trans (hp.mem_membersIn.mp hm).2.symm)

/-- A member waits for each of its inputs that is fed. -/
theorem connected_of_fed {owner : ScopeId} {n : NodeId} {node : Node} {q : String}
    (hn : n ∈ p.membersIn owner) (hnode : p.node? n = some node) (h : p.Fed owner ⟨n, q⟩) :
    q ∈ p.connectedInputs node := by
  rcases h with ⟨m, hm, hfeeds⟩ | ⟨l, rfl, e, he, ht, hsource⟩
  · exact hp.connected_of_feeds hu hm hn hnode hfeeds
  have hinner : p.Encloses l n := .single (hp.mem_membersIn.mp hn).2
  have hin : p.graph.inbound? n q = some e.sourceRef :=
    hp.graph.inbound?_eq_some.mpr
      ⟨e.label, by rwa [← show e.target = n from congrArg PortRef.node ht],
        congrArg PortRef.port ht, rfl⟩
  refine (hp.mem_connectedInputs_iff hnode).mpr ⟨by simp [hin], ?_⟩
  by_contra hback
  have hsourceIn : p.Encloses n e.source :=
    hp.encloses_of_returns hu hnode hin (by simpa using hback)
  rcases hsource with ⟨heq, -⟩ | hcapture
  · -- a loop is not in the body of a member of its own body
    rw [heq] at hsourceIn
    exact lt_asymm (hp.place_lt_of_encloses hu hinner) (hp.place_lt_of_encloses hu hsourceIn)
  · obtain ⟨e', he', hlink, -, -, hout⟩ := Graph.mem_captures.mp hcapture
    obtain rfl := hp.graph.edge_of_target he' he (congrArg Link.target hlink)
    exact hout ((hp.encloses_iff hu).mp (hinner.trans hsourceIn)).2

/-- Each input that a member waits for is fed. -/
theorem fed_of_waits {owner : ScopeId} {n : NodeId} {node : Node} {q : String}
    (hn : n ∈ p.membersIn owner) (hnode : p.node? n = some node)
    (hq : q ∈ p.connectedInputs node) : p.Fed owner ⟨n, q⟩ := by
  obtain ⟨hconnected, hback⟩ := (hp.mem_connectedInputs_iff hnode).mp hq
  obtain ⟨src, hsrc⟩ := Option.ne_none_iff_exists'.mp hconnected
  obtain ⟨label, he, hlabel, -⟩ := hp.graph.inbound?_eq_some.mp hsrc
  have hforward : label.loopBack = false := by
    obtain ⟨target, htarget, -, hloop⟩ := hp.graph.target _ he
    obtain rfl : node = target := Option.some.inj (hnode.symm.trans htarget)
    rw [hloop, hlabel, hback]
  have hinto := hp.edge_into_member hu he hforward
  rw [(hp.mem_membersIn.mp hn).2] at hinto
  rw [← hlabel]
  exact hp.fed_of_edge he hinto

/-- Each capture of a member loop is fed, and a value for it goes to the loop. -/
theorem fed_of_capture {owner : ScopeId} {l : NodeId} {lp : LoopPlan} {t : PortRef}
    (hl : l ∈ p.membersIn owner) (hlp : p.loop? l = some lp)
    (ht : t ∈ lp.captures.map Link.target) :
    p.Fed owner t ∧ p.route owner t = some (.nested l) := by
  have hkind := hp.kind?_of_loop? hlp
  have hscope := (hp.mem_membersIn.mp hl).2
  obtain ⟨link, hlink, rfl⟩ := List.mem_map.mp ht
  rw [(hp.loop?_eq_some hlp).2.1] at hlink
  obtain ⟨e, he, rfl, hmem, hne, hout⟩ := Graph.mem_captures.mp hlink
  refine ⟨hp.fed_of_edge he ?_, ?_⟩
  · have hsource := hp.edge_of_capture hu he hkind hmem hne hout
    rwa [hscope] at hsource
  · exact (hp.route_eq_nested_iff hu).mpr ⟨hscope, (hp.encloses_iff hu).mpr ⟨hkind, hmem⟩⟩

/-- What goes to a loop is a capture of it. -/
theorem capture_of_nested {owner : ScopeId} {l : NodeId} {t : PortRef} (h : p.Fed owner t)
    (hroute : p.route owner t = some (.nested l)) :
    ∃ lp, p.loop? l = some lp ∧ t ∈ lp.captures.map Link.target := by
  obtain ⟨hscope, hle⟩ := (hp.route_eq_nested_iff hu).mp hroute
  have hholds := (hp.encloses_iff hu).mp hle
  obtain ⟨lp, hlp⟩ := Option.isSome_iff_exists.mp (hp.isSome_loop?_iff.mpr hholds.1)
  refine ⟨lp, hlp, ?_⟩
  rw [(hp.loop?_eq_some hlp).2.1]
  obtain ⟨e, he, rfl, hne, hout⟩ : ∃ e ∈ p.graph.edges, e.targetRef = t ∧ e.source ≠ l ∧
      e.source ∉ bodyOf p.graph l := by
    rcases h with ⟨m, hm, hfeeds⟩ | ⟨k, rfl, e, he, rfl, hsource⟩
    · obtain ⟨e, he, rfl, rfl, hstarts⟩ := feeds_iff.mp hfeeds
      refine ⟨e, he, rfl, ?_, ?_⟩
      · rintro rfl
        rcases hp.graph.loop_output he hholds.1 with hport | hport
        · exact hstarts ⟨hholds.1, hport⟩
        · exact (hp.nesting.closed _ hholds.1).results ⟨e.target, e.label⟩
            (Graph.mem_successors.mpr he) hport hholds.2
      · intro hmem
        exact hp.scopeOf_ne_of_encloses hu ((hp.encloses_iff hu).mpr ⟨hholds.1, hmem⟩)
          (hscope.trans (hp.mem_membersIn.mp hm).2.symm)
    · have hkl : p.Encloses k l := Relation.TransGen.single hscope
      have hkholds := (hp.encloses_iff hu).mp hkl
      have hplace := hp.place_lt_of_encloses hu hkl
      refine ⟨e, he, rfl, ?_, ?_⟩
      · rintro rfl
        rcases hsource with ⟨hk, -⟩ | hcapture
        · rw [hk] at hplace
          exact lt_irrefl _ hplace
        · obtain ⟨e', -, hlink, -, -, hout⟩ := Graph.mem_captures.mp hcapture
          have hsame : e'.source = e.source := congrArg (fun x => x.source.node) hlink
          rw [hsame] at hout
          exact hout hkholds.2
      · intro hmem
        have hlsource : p.Encloses l e.source := (hp.encloses_iff hu).mpr ⟨hholds.1, hmem⟩
        rcases hsource with ⟨hk, -⟩ | hcapture
        · have hback := hp.place_lt_of_encloses hu hlsource
          rw [hk] at hback
          exact lt_asymm hplace hback
        · obtain ⟨e', -, hlink, -, -, hout⟩ := Graph.mem_captures.mp hcapture
          have hsame : e'.source = e.source := congrArg (fun x => x.source.node) hlink
          rw [hsame] at hout
          exact hout ((hp.encloses_iff hu).mp (hkl.trans hlsource)).2
  exact List.mem_map.mpr ⟨e.link, Graph.mem_captures.mpr ⟨e, he, rfl, hholds.2, hne, hout⟩, rfl⟩

/-- A value for an input that is fed in the scope has a way to go. -/
theorem route_of_fed {owner : ScopeId} {t : PortRef}
    (howner : ∀ l, owner = some l → p.graph.kind? l = some .loop) (h : p.Fed owner t) :
    ∃ route, p.route owner t = some route := by
  have hmember : ∀ {e : Edge}, e ∈ p.graph.edges → p.scopeOf e.target = owner →
      ∃ route, p.route owner e.targetRef = some route := fun he hs =>
    ⟨_, hp.route_member (hp.graph.target_mem he) hs _⟩
  have hnested : ∀ {e : Edge} {l : NodeId}, p.scopeOf l = owner → p.Encloses l e.target →
      ∃ route, p.route owner e.targetRef = some route := fun hs hl =>
    ⟨_, hp.route_nested hu hl hs _⟩
  have hinside : ∀ {e : Edge}, e ∈ p.graph.edges → p.Inside owner e.target →
      ∃ route, p.route owner e.targetRef = some route := by
    intro e he hin
    rcases hp.member_or_nested hu hin with hs | ⟨l, hs, hl⟩
    · exact hmember he hs
    · exact hnested hs hl
  rcases h with ⟨m, hm, hfeeds⟩ | ⟨k, rfl, e, he, rfl, hsource⟩
  · obtain ⟨e, he, rfl, rfl, -⟩ := feeds_iff.mp hfeeds
    obtain ⟨-, hscope⟩ := hp.mem_membersIn.mp hm
    rcases hp.edge_out hu he with hs | ⟨l, hs, hl⟩ | ⟨hs, hport⟩
    · exact hmember he (hs.trans hscope)
    · exact hnested (hs.trans hscope) hl
    · rw [hscope] at hs
      subst hs
      refine ⟨.resultSlot, ?_⟩
      have hholds := hp.holds_of_scopeOf hscope
      have hroute := hp.route_result hu hholds.1
      rwa [← hport] at hroute
  · refine hinside he ?_
    intro l hl
    obtain rfl := Option.some.inj hl
    rcases hsource with ⟨rfl, hstarts⟩ | hcapture
    · exact hp.edge_seed hu he hstarts
    · obtain ⟨e', he', hlink, hmem, -, -⟩ := Graph.mem_captures.mp hcapture
      have hsame : e'.target = e.target := congrArg (fun x => x.target.node) hlink
      rw [hsame] at hmem
      exact (hp.encloses_iff hu).mpr ⟨howner _ rfl, hmem⟩

/-- No node behind a branch feeds the body of a loop. -/
theorem not_exclusive_of_nested {owner : ScopeId} {m l : NodeId} {t : PortRef} {gate : Gate}
    (hfeeds : p.Feeds m t) (hm : m ∈ p.membersIn owner)
    (hroute : p.route owner t = some (.nested l)) :
    m ∉ p.exclusive gate := by
  intro hin
  obtain ⟨hscope, hle⟩ := (hp.route_eq_nested_iff hu).mp hroute
  have hcond : p.scopeOf gate.condition = owner :=
    (hp.exclusive_scope hu hin).symm.trans (hp.mem_membersIn.mp hm).2
  obtain ⟨c, hc, rfl⟩ := hfeeds
  have htarget : p.scopeOf c.node = owner := by
    rcases hp.exclusive_feeds hu hin hc with ⟨hnode, -⟩ | hin'
    · rw [hnode, hcond]
    · exact (hp.exclusive_scope hu hin').trans hcond
  exact hp.scopeOf_ne_of_encloses hu hle (hscope.trans htarget.symm)

end Sound

end PortGraph.Plan
