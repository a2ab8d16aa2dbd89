import PortGraph.Proofs.Plan.Members

/-!
Where edges lead as seen from a scope. An edge out of a member reaches a member, a body below the
scope or the result of the loop around it. An edge into the scope comes from a member, from an
iteration of the loop around the scope, or is a capture of that loop.
-/

namespace PortGraph

open Plan Nesting Relation

namespace Graph

/-- The edge carries the item or the index of an iteration. -/
def StartsIteration (g : Graph) (e : Edge) : Prop :=
  g.kind? e.source = some .loop ∧ isIterationPort e.label.sourcePort = true

theorem mem_carried {g : Graph} {id : NodeId} {c : Connection} :
    c ∈ carried g id ↔
      ⟨id, c.node, c.label⟩ ∈ g.edges ∧ ¬ g.StartsIteration ⟨id, c.node, c.label⟩ := by
  unfold carried StartsIteration
  rw [List.mem_filter, mem_successors]
  simp [imp_iff_not_or]

theorem mem_seeds {g : Graph} {l : NodeId} {c : Connection} :
    c ∈ Nesting.seeds g l ↔
      ⟨l, c.node, c.label⟩ ∈ g.edges ∧ isIterationPort c.label.sourcePort = true := by
  unfold Nesting.seeds
  rw [List.mem_filter, mem_successors]

theorem mem_captures {g : Graph} {l : NodeId} {body : List NodeId} {link : Link} :
    link ∈ captures g l body ↔
      ∃ e ∈ g.edges, e.link = link ∧ e.target ∈ body ∧ e.source ≠ l ∧ e.source ∉ body := by
  unfold captures
  simp only [List.mem_flatMap, List.mem_map, List.mem_filter, mem_predecessors]
  constructor
  · rintro ⟨n, hn, c, ⟨he, hout⟩, rfl⟩
    refine ⟨⟨c.node, n, c.label⟩, he, rfl, hn, ?_⟩
    simpa using hout
  · rintro ⟨e, he, rfl, htarget, hne, hout⟩
    exact ⟨e.target, htarget, ⟨e.source, e.label⟩, ⟨he, by simpa using ⟨hne, hout⟩⟩, rfl⟩

theorem kind?_of_settings {g : Graph} {id : NodeId} {n : Node} {settings : NodeSettings}
    (hn : g.node? id = some n) (h : n.settings = settings) : g.kind? id = some settings.kind :=
  Option.map_eq_some_iff.mpr ⟨n, hn, congrArg NodeSettings.kind h⟩

theorem kind?_eq_some {g : Graph} {id : NodeId} {kind : NodeKind} (h : g.kind? id = some kind) :
    ∃ n, g.node? id = some n ∧ n.kind = kind := Option.map_eq_some_iff.mp h

theorem loop_of_kind? {g : Graph} {id : NodeId} (h : g.kind? id = some .loop) :
    ∃ n settings, g.node? id = some n ∧ n.settings = .loop settings := by
  obtain ⟨n, hn, hkind⟩ := kind?_eq_some h
  unfold Node.kind at hkind
  cases hsettings : n.settings <;> rw [hsettings] at hkind <;> cases hkind
  exact ⟨n, _, hn, hsettings⟩

/-- The outputs of a loop. -/
theorem WellFormed.loop_output {g : Graph} (hg : g.WellFormed) {e : Edge} (he : e ∈ g.edges)
    (hkind : g.kind? e.source = some .loop) :
    isIterationPort e.label.sourcePort = true ∨ e.label.sourcePort = PortName.results := by
  obtain ⟨node, hnode, hout⟩ := hg.source e he
  obtain ⟨node', hnode', hloop⟩ := kind?_eq_some hkind
  obtain rfl : node = node' := Option.some.inj (hnode.symm.trans hnode')
  have hports := (hg.ports node (node?_eq_some hnode).1).2
  cases hset : node.settings with
  | loop s =>
    have hlist : node.outputs = [⟨PortName.item, .any⟩, ⟨PortName.index, .number⟩,
        ⟨PortName.results, .array⟩] := by
      rw [hports, hset]
      rfl
    unfold Node.output? at hout
    rw [hlist] at hout
    obtain ⟨port, hport, hname⟩ := List.find?_isSome.mp hout
    rw [← beq_iff_eq.mp hname]
    simp only [List.mem_cons, List.not_mem_nil, or_false] at hport
    rcases hport with rfl | rfl | rfl <;> simp [isIterationPort]
  | _ =>
    unfold Node.kind at hloop
    rw [hset] at hloop
    simp [NodeSettings.kind] at hloop

end Graph

namespace Plan.Sound

variable {p : Plan} (hp : p.Sound) (hu : p.Untangled)
include hp hu

/-! ### Routes -/

omit hu in
theorem lookup_scopes (n : NodeId) :
    p.nesting.scopes.lookup n = if n ∈ p.graph.ids then some (p.scopeOf n) else none := by
  rw [hp.scopeOf_eq, hp.nesting.scopes_eq, lookup_map_key]
  by_cases h : n ∈ p.graph.ids <;> simp [h]

omit hu in
theorem ids_of_encloses {l n : NodeId} (h : p.Encloses l n) : n ∈ p.graph.ids := by
  have hlast : ∀ {s}, p.scopeOf n = some s → n ∈ p.graph.ids := fun hs =>
    body_mem_ids hp.graph (hp.holds_of_scopeOf hs).2
  cases h with
  | single hs => exact hlast hs
  | tail _ hs => exact hlast hs

omit hu in
theorem route_member {n : NodeId} {s : ScopeId} (hn : n ∈ p.graph.ids) (hs : p.scopeOf n = s)
    (port : String) : p.route s ⟨n, port⟩ = some (.member n) := by
  unfold route
  simp [hp.lookup_scopes, hn, hs]

theorem loopToward_of_encloses {l n : NodeId} {s : ScopeId} (h : p.Encloses l n)
    (hs : p.scopeOf l = s) :
    p.loopToward s p.nesting.loops.length (p.scopeOf n) = some l := by
  have hwalk : p.Walk s (p.scopeOf n) (some l) := by
    induction h with
    | single hn =>
      rw [hn]
      exact Walk.found hs
    | tail hinit hn ih =>
      rw [hn]
      refine Walk.up ?_ ih
      intro hscope
      exact hp.scopeOf_ne_of_encloses hu hinit (hs.trans hscope.symm)
  exact ((hp.forest hu).walk s ⟨n, ""⟩).unique hwalk

theorem route_nested {l n : NodeId} {s : ScopeId} (h : p.Encloses l n) (hs : p.scopeOf l = s)
    (port : String) : p.route s ⟨n, port⟩ = some (.nested l) := by
  have hn := hp.ids_of_encloses h
  have hmember : p.scopeOf n ≠ s := fun hns =>
    hp.scopeOf_ne_of_encloses hu h (hs.trans hns.symm)
  have hresult : s ≠ some n := by
    rintro rfl
    have hlt := hp.place_lt_of_encloses hu h
    have hlt' := hp.place_scopeOf_lt hu hs
    omega
  unfold route
  simp [hp.lookup_scopes, hn, hmember, hresult, hp.loopToward_of_encloses hu h hs]

theorem route_result {l : NodeId} (hl : p.graph.kind? l = some .loop) :
    p.route (some l) ⟨l, PortName.result⟩ = some .resultSlot := by
  have hids : l ∈ p.graph.ids := by
    obtain ⟨n, hn, -⟩ := Graph.kind?_eq_some hl
    exact (Graph.isSome_node?_iff l).mp (by simp [hn])
  have hscope : p.scopeOf l ≠ some l := fun h => lt_irrefl _ (hp.place_scopeOf_lt hu h)
  unfold route
  simp [hp.lookup_scopes, hids, hscope]

theorem route_cases {s : ScopeId} {t : PortRef} {r : Route} (h : p.route s t = some r) :
    (r = .member t.node ∧ t.node ∈ p.membersIn s) ∨
    (∃ l, r = .nested l ∧ p.scopeOf l = s ∧ p.Encloses l t.node) ∨
    (r = .resultSlot ∧ s = some t.node ∧ t.port = PortName.result) := by
  unfold route at h
  rw [hp.lookup_scopes] at h
  by_cases hids : t.node ∈ p.graph.ids
  swap
  · simp [hids] at h
  simp only [hids, if_true] at h
  split_ifs at h with hmember hresult
  · exact Or.inl ⟨(Option.some.inj h).symm, hp.mem_membersIn.mpr ⟨hids, hmember⟩⟩
  · exact Or.inr (Or.inr ⟨(Option.some.inj h).symm, hresult⟩)
  · obtain ⟨l, hl, rfl⟩ := Option.map_eq_some_iff.mp h
    have hwalk := (hp.forest hu).walk s t
    rw [hl] at hwalk
    obtain ⟨hs, henclosed⟩ := hwalk.spec rfl
    exact Or.inr (Or.inl ⟨l, rfl, hs, henclosed t.node rfl⟩)

theorem route_eq_member_iff {s : ScopeId} {t : PortRef} {n : NodeId} :
    p.route s t = some (.member n) ↔ n = t.node ∧ t.node ∈ p.membersIn s := by
  constructor
  · intro h
    rcases hp.route_cases hu h with ⟨heq, hmem⟩ | ⟨l, heq, -⟩ | ⟨heq, -⟩
    · exact ⟨by injection heq, hmem⟩
    · simp at heq
    · simp at heq
  · rintro ⟨rfl, hmem⟩
    obtain ⟨hids, hs⟩ := hp.mem_membersIn.mp hmem
    exact hp.route_member hids hs t.port

theorem route_eq_nested_iff {s : ScopeId} {t : PortRef} {l : NodeId} :
    p.route s t = some (.nested l) ↔ p.scopeOf l = s ∧ p.Encloses l t.node := by
  constructor
  · intro h
    rcases hp.route_cases hu h with ⟨heq, -⟩ | ⟨l', heq, hl'⟩ | ⟨heq, -⟩
    · simp at heq
    · obtain rfl : l = l' := by injection heq
      exact hl'
    · simp at heq
  · rintro ⟨hs, henclosed⟩
    exact hp.route_nested hu henclosed hs t.port

/-! ### Edges -/

/-- What is inside a scope is a member of it or in the body of a member. -/
theorem member_or_nested {s : ScopeId} {n : NodeId} (h : p.Inside s n) :
    p.scopeOf n = s ∨ ∃ l, p.scopeOf l = s ∧ p.Encloses l n := by
  induction hplace : p.graph.place n using Nat.strong_induction_on generalizing n with
  | h place ih =>
    subst hplace
    by_cases hs : p.scopeOf n = s
    · exact Or.inl hs
    · cases hk : p.scopeOf n with
      | none =>
        cases s with
        | none => exact absurd hk hs
        | some l =>
          cases h l rfl with
          | single hn => simp [hk] at hn
          | tail _ hn => simp [hk] at hn
      | some k =>
        have hinside : p.Inside s k := by
          intro l hl
          cases h l hl with
          | single hn =>
            rw [hl] at hs
            exact absurd hn hs
          | tail hinit hn =>
            obtain rfl := Option.some.inj (hk.symm.trans hn)
            exact hinit
        rcases ih _ (hp.place_scopeOf_lt hu hk) hinside rfl with hks | ⟨l, hl, hlk⟩
        · exact Or.inr ⟨k, hks, TransGen.single hk⟩
        · exact Or.inr ⟨l, hl, hlk.tail hk⟩

theorem edge_from_body {l : NodeId} {e : Edge} (he : e ∈ p.graph.edges)
    (h : p.Encloses l e.source) :
    p.Encloses l e.target ∨ e.target = l ∧ e.label.targetPort = PortName.result := by
  have hholds := (hp.encloses_iff hu).mp h
  rcases (hp.nesting.closed l hholds.1).inward e.source hholds.2 ⟨e.target, e.label⟩
    (Graph.mem_successors.mpr he) with hback | hin
  · exact Or.inr hback
  · exact Or.inl ((hp.encloses_iff hu).mpr ⟨hholds.1, hin⟩)

theorem edge_out {e : Edge} (he : e ∈ p.graph.edges) :
    p.scopeOf e.target = p.scopeOf e.source ∨
    (∃ l, p.scopeOf l = p.scopeOf e.source ∧ p.Encloses l e.target) ∨
    (p.scopeOf e.source = some e.target ∧ e.label.targetPort = PortName.result) := by
  have hcases : p.Inside (p.scopeOf e.source) e.target ∨
      (p.scopeOf e.source = some e.target ∧ e.label.targetPort = PortName.result) := by
    cases hs : p.scopeOf e.source with
    | none => exact Or.inl fun l hl => by simp at hl
    | some s =>
      rcases hp.edge_from_body hu he (TransGen.single hs) with hin | ⟨rfl, hport⟩
      · refine Or.inl ?_
        intro l hl
        obtain rfl := Option.some.inj hl
        exact hin
      · exact Or.inr ⟨rfl, hport⟩
  rcases hcases with hin | hback
  · rcases hp.member_or_nested hu hin with hs | hl
    · exact Or.inl hs
    · exact Or.inr (Or.inl hl)
  · exact Or.inr (Or.inr hback)

theorem edge_seed {e : Edge} (he : e ∈ p.graph.edges) (hs : p.graph.StartsIteration e) :
    p.Encloses e.source e.target := by
  have hc : (⟨e.target, e.label⟩ : Connection) ∈ Nesting.seeds p.graph e.source :=
    Graph.mem_seeds.mpr ⟨he, hs.2⟩
  have hback := seed_forward hp.graph hp.nesting.closed (hp.untangled_graph hu) hs.1 hc
  have hlt := hp.graph.place_lt (Graph.mem_forward.mpr ⟨e.label, he, hback⟩)
  have hne : e.target ≠ e.source := fun heq => by
    rw [heq] at hlt
    omega
  exact (hp.encloses_iff hu).mpr ⟨hs.1, seed_mem_body hp.graph hc hne⟩

omit hu in
/-- An edge into a body comes from the body, is one of an iteration, or is a capture. -/
theorem edge_into_body {l : NodeId} {e : Edge} (he : e ∈ p.graph.edges)
    (h : Holds p.graph l e.target) : e.source ∈ bodyOf p.graph l ∨
      (e.source = l ∧ isIterationPort e.label.sourcePort = true) ∨
      e.link ∈ captures p.graph l (bodyOf p.graph l) := by
  by_cases hin : e.source ∈ bodyOf p.graph l
  · exact Or.inl hin
  by_cases hsource : e.source = l
  · subst hsource
    rcases hp.graph.loop_output he h.1 with hport | hport
    · exact Or.inr (Or.inl ⟨rfl, hport⟩)
    · exact absurd h.2 ((hp.nesting.closed _ h.1).results ⟨e.target, e.label⟩
        (Graph.mem_successors.mpr he) hport)
  · exact Or.inr (Or.inr (Graph.mem_captures.mpr ⟨e, he, rfl, h.2, hsource, hin⟩))

/-- Where an edge into a scope comes from. -/
theorem edge_in {s : ScopeId} {e : Edge} (he : e ∈ p.graph.edges) (h : p.Inside s e.target) :
    p.Inside s e.source ∨ (s = some e.source ∧ p.graph.StartsIteration e) ∨
    ∃ l, s = some l ∧ e.link ∈ captures p.graph l (bodyOf p.graph l) := by
  cases s with
  | none => exact Or.inl fun l hl => by simp at hl
  | some l =>
    have hholds := (hp.encloses_iff hu).mp (h l rfl)
    rcases hp.edge_into_body he hholds with hin | ⟨rfl, hport⟩ | hcapture
    · refine Or.inl ?_
      rintro k ⟨⟩
      exact (hp.encloses_iff hu).mpr ⟨hholds.1, hin⟩
    · exact Or.inr (Or.inl ⟨rfl, hholds.1, hport⟩)
    · exact Or.inr (Or.inr ⟨l, rfl, hcapture⟩)

/-- The edge is not one of an iteration if its ends are in the same scope or it is a capture. -/
private theorem carried_of_source {s : ScopeId} {e : Edge} (he : e ∈ p.graph.edges)
    (hs : p.scopeOf e.source = s)
    (h : p.scopeOf e.target = s ∨ ∃ l, p.scopeOf l = s ∧ p.Encloses l e.target ∧ e.source ≠ l) :
    ¬ p.graph.StartsIteration e := by
  intro hstarts
  have henclosed := hp.edge_seed hu he hstarts
  rcases h with h | ⟨l, hl, hlt, hne⟩
  · exact hp.scopeOf_ne_of_encloses hu henclosed (hs.trans h.symm)
  · exact hne (hp.encloses_unique hu henclosed hlt (hs.trans hl.symm))

/-- The source of an edge into a member that does not return a result. -/
theorem edge_into_member {e : Edge} (he : e ∈ p.graph.edges) (hback : e.label.loopBack = false) :
    (p.scopeOf e.source = p.scopeOf e.target ∧ ¬ p.graph.StartsIteration e) ∨
    (p.scopeOf e.target = some e.source ∧ p.graph.StartsIteration e) ∨
    ∃ l, p.scopeOf e.target = some l ∧ e.link ∈ captures p.graph l (bodyOf p.graph l) := by
  have hinside : p.Inside (p.scopeOf e.target) e.target := fun l hl => TransGen.single hl
  rcases hp.edge_in hu he hinside with hin | hseed | hcapture
  · rcases hp.member_or_nested hu hin with hs | ⟨l, hl, hle⟩
    · exact Or.inl ⟨hs, hp.carried_of_source hu he hs (Or.inl rfl)⟩
    · -- from below only a result comes out
      rcases hp.edge_from_body hu he hle with hdeep | ⟨heq, hport⟩
      · exact absurd hl (hp.scopeOf_ne_of_encloses hu hdeep)
      · have hkind := ((hp.encloses_iff hu).mp hle).1
        rw [← heq] at hkind
        rw [(hp.graph.loopBack_iff he).mpr ⟨hkind, hport⟩] at hback
        simp at hback
  · exact Or.inr (Or.inl hseed)
  · exact Or.inr (Or.inr hcapture)

/-- The source of a capture, as seen from the scope of its loop. -/
theorem edge_of_capture {l : NodeId} {e : Edge} (he : e ∈ p.graph.edges)
    (hkind : p.graph.kind? l = some .loop) (hmem : e.target ∈ bodyOf p.graph l)
    (hne : e.source ≠ l) (hout : e.source ∉ bodyOf p.graph l) :
    (p.scopeOf e.source = p.scopeOf l ∧ ¬ p.graph.StartsIteration e) ∨
    (p.scopeOf l = some e.source ∧ p.graph.StartsIteration e) ∨
    ∃ k, p.scopeOf l = some k ∧ e.link ∈ captures p.graph k (bodyOf p.graph k) := by
  have hle : p.Encloses l e.target := (hp.encloses_iff hu).mpr ⟨hkind, hmem⟩
  have hinside : p.Inside (p.scopeOf l) e.target := fun k hk => TransGen.head hk hle
  rcases hp.edge_in hu he hinside with hin | hseed | hcapture
  · rcases hp.member_or_nested hu hin with hs | ⟨k, hk, hke⟩
    · exact Or.inl ⟨hs, hp.carried_of_source hu he hs (Or.inr ⟨l, rfl, hle, hne⟩)⟩
    · rcases hp.edge_from_body hu he hke with hdeep | ⟨heq, -⟩
      · obtain rfl := hp.encloses_unique hu hdeep hle hk
        exact absurd ((hp.encloses_iff hu).mp hke).2 hout
      · rw [heq] at hle
        exact absurd hk.symm (hp.scopeOf_ne_of_encloses hu hle)
  · exact Or.inr (Or.inl hseed)
  · exact Or.inr (Or.inr hcapture)

end Plan.Sound

end PortGraph
