import PortGraph.Proofs.Plan.Feeds

/-!
The values that are delivered in a scope: what its members send out and, in the body of a loop, what
begins an iteration and what the body takes from outside. Each lands at a member, in the body of one
member, or in the result of the loop around the scope; those that land in the body of a member are its
captures.
-/

namespace PortGraph.Plan

open Nesting

/-- The links along which a node sends what it gives. -/
def outward (p : Plan) (m : NodeId) : List Link :=
  (p.forwardOut m).map fun c => Edge.link ⟨m, c.node, c.label⟩

/-- The links along which values come into a scope from outside. -/
def inward (p : Plan) : ScopeId → List Link
  | none => []
  | some l =>
      (p.seeds l).map (fun c => Edge.link ⟨l, c.node, c.label⟩) ++
        ((p.loop? l).map LoopPlan.captures).getD []

/-- The links along which values are delivered in a scope. -/
def delivered (p : Plan) (s : ScopeId) : List Link :=
  (p.membersIn s).flatMap p.outward ++ p.inward s

variable {p : Plan} {s : ScopeId} {k : Link} {l m : NodeId} {lp : LoopPlan}

theorem mem_outward : k ∈ p.outward m ↔
    ∃ e ∈ p.graph.edges, e.link = k ∧ e.source = m ∧ ¬ p.graph.StartsIteration e := by
  unfold outward
  rw [List.mem_map]
  constructor
  · rintro ⟨c, hc, rfl⟩
    obtain ⟨he, hstarts⟩ := Graph.mem_carried.mp hc
    exact ⟨_, he, rfl, rfl, hstarts⟩
  · rintro ⟨e, he, rfl, rfl, hstarts⟩
    exact ⟨⟨e.target, e.label⟩, Graph.mem_carried.mpr ⟨he, hstarts⟩, rfl⟩

theorem targets_outward (p : Plan) (m : NodeId) :
    (p.outward m).map Link.target = (p.forwardOut m).map inputOf := by
  unfold outward
  rw [List.map_map]
  rfl

theorem inward_loop (hlp : p.loop? l = some lp) : p.inward (some l) =
    (p.seeds l).map (fun c => Edge.link ⟨l, c.node, c.label⟩) ++ lp.captures := by
  change _ ++ ((p.loop? l).map LoopPlan.captures).getD [] = _
  rw [hlp]
  rfl

namespace Sound

variable (hp : p.Sound)
include hp

theorem mem_inward (hl : p.graph.kind? l = some .loop) : k ∈ p.inward (some l) ↔
    ∃ e ∈ p.graph.edges, e.link = k ∧ (e.source = l ∧ p.graph.StartsIteration e ∨
      e.link ∈ captures p.graph l (bodyOf p.graph l)) := by
  obtain ⟨lp, hlp⟩ := Option.isSome_iff_exists.mp (hp.isSome_loop?_iff.mpr hl)
  rw [inward_loop hlp, (hp.loop?_eq_some hlp).2.1, List.mem_append, List.mem_map]
  constructor
  · rintro (⟨c, hc, rfl⟩ | hk)
    · obtain ⟨he, hport⟩ := Graph.mem_seeds.mp hc
      exact ⟨_, he, rfl, Or.inl ⟨rfl, hl, hport⟩⟩
    · obtain ⟨e, he, rfl, -⟩ := Graph.mem_captures.mp hk
      exact ⟨e, he, rfl, Or.inr hk⟩
  · rintro ⟨e, he, rfl, ⟨rfl, -, hport⟩ | hk⟩
    · exact Or.inl ⟨⟨e.target, e.label⟩, Graph.mem_seeds.mpr ⟨he, hport⟩, rfl⟩
    · exact Or.inr hk

theorem kind?_of_mem_scopeIds (hs : s ∈ p.scopeIds) :
    ∀ l, s = some l → p.graph.kind? l = some .loop := by
  rintro l rfl
  unfold scopeIds at hs
  obtain ⟨x, hx, heq⟩ := List.mem_map.mp ((List.mem_cons.mp hs).resolve_left (by simp))
  rw [← mem_loopIds hp.graph, ← hp.nesting.keys, ← Option.some.inj heq]
  exact List.mem_map.mpr ⟨x, hx, rfl⟩

/-- A value is delivered along an edge, from a member or from outside. -/
theorem mem_delivered (hs : s ∈ p.scopeIds) : k ∈ p.delivered s ↔
    ∃ e ∈ p.graph.edges, e.link = k ∧
      (e.source ∈ p.membersIn s ∧ ¬ p.graph.StartsIteration e ∨
        ∃ l, s = some l ∧ (e.source = l ∧ p.graph.StartsIteration e ∨
          e.link ∈ captures p.graph l (bodyOf p.graph l))) := by
  unfold delivered
  rw [List.mem_append, List.mem_flatMap]
  constructor
  · rintro (⟨m, hm, hk⟩ | hk)
    · obtain ⟨e, he, rfl, rfl, hstarts⟩ := mem_outward.mp hk
      exact ⟨e, he, rfl, Or.inl ⟨hm, hstarts⟩⟩
    · cases s with
      | none => simp [inward] at hk
      | some l =>
        obtain ⟨e, he, rfl, hsource⟩ :=
          (hp.mem_inward (hp.kind?_of_mem_scopeIds hs l rfl)).mp hk
        exact ⟨e, he, rfl, Or.inr ⟨l, rfl, hsource⟩⟩
  · rintro ⟨e, he, rfl, ⟨hm, hstarts⟩ | ⟨l, rfl, hsource⟩⟩
    · exact Or.inl ⟨e.source, hm, mem_outward.mpr ⟨e, he, rfl, rfl, hstarts⟩⟩
    · exact Or.inr ((hp.mem_inward (hp.kind?_of_mem_scopeIds hs l rfl)).mpr
        ⟨e, he, rfl, hsource⟩)

/-- The inputs that are fed in a scope are those that values are delivered to. -/
theorem fed_iff (hs : s ∈ p.scopeIds) {t : PortRef} :
    p.Fed s t ↔ ∃ k ∈ p.delivered s, k.target = t := by
  constructor
  · rintro (⟨m, hm, hfeeds⟩ | ⟨l, rfl, e, he, rfl, hsource⟩)
    · obtain ⟨e, he, rfl, rfl, hstarts⟩ := feeds_iff.mp hfeeds
      exact ⟨e.link, (hp.mem_delivered hs).mpr ⟨e, he, rfl, Or.inl ⟨hm, hstarts⟩⟩, rfl⟩
    · exact ⟨e.link, (hp.mem_delivered hs).mpr ⟨e, he, rfl, Or.inr ⟨l, rfl, hsource⟩⟩, rfl⟩
  · rintro ⟨k, hk, rfl⟩
    obtain ⟨e, he, rfl, ⟨hm, hstarts⟩ | ⟨l, rfl, hsource⟩⟩ := (hp.mem_delivered hs).mp hk
    · exact Or.inl ⟨e.source, hm, feeds_iff.mpr ⟨e, he, rfl, rfl, hstarts⟩⟩
    · exact Or.inr ⟨l, rfl, e, he, rfl, hsource⟩

/-- No two links that deliver values lead to one input. -/
theorem nodup_delivered (hs : s ∈ p.scopeIds) : ((p.delivered s).map Link.target).Nodup := by
  have hinward : ((p.inward s).map Link.target).Nodup := by
    cases s with
    | none => exact List.nodup_nil
    | some l =>
      obtain ⟨lp, hlp⟩ := Option.isSome_iff_exists.mp
        (hp.isSome_loop?_iff.mpr (hp.kind?_of_mem_scopeIds hs l rfl))
      rw [inward_loop hlp, (hp.loop?_eq_some hlp).2.1, List.map_append, List.map_map]
      refine List.nodup_append.mpr ⟨hp.nodup_seeds l,
        hp.graph.nodup_captures (nodup_bodyOf p.graph l) l, ?_⟩
      rintro t ht t' ht' rfl
      obtain ⟨c, hc, rfl⟩ := List.mem_map.mp ht
      obtain ⟨k, hk, htarget⟩ := List.mem_map.mp ht'
      -- a capture does not come from the loop itself
      obtain ⟨e, he, rfl, -, hne, -⟩ := Graph.mem_captures.mp hk
      have hsame := hp.graph.edge_of_target he (Graph.mem_seeds.mp hc).1 htarget
      exact hne (congrArg Edge.source hsame)
  unfold delivered
  rw [List.map_append, List.map_flatMap]
  refine List.nodup_append.mpr ⟨List.nodup_flatMap.mpr ⟨?_, ?_⟩, hinward, ?_⟩
  · intro m _
    rw [targets_outward]
    exact hp.nodup_forwardOut m
  · refine (hp.nodup_membersIn s).imp ?_
    intro m m' hne
    change List.Disjoint ((p.outward m).map Link.target) ((p.outward m').map Link.target)
    rw [targets_outward, targets_outward, List.disjoint_left]
    intro t ht ht'
    obtain ⟨c, hc, rfl⟩ := List.mem_map.mp ht
    obtain ⟨c', hc', heq⟩ := List.mem_map.mp ht'
    exact hne (hp.forwardOut_unique hc hc' heq.symm).1
  · rintro t ht t' ht' rfl
    obtain ⟨m, hm, ht⟩ := List.mem_flatMap.mp ht
    rw [targets_outward] at ht
    obtain ⟨c, hc, rfl⟩ := List.mem_map.mp ht
    obtain ⟨k, hk, htarget⟩ := List.mem_map.mp ht'
    cases s with
    | none => simp [inward] at hk
    | some l =>
      obtain ⟨e, he, rfl, hsource⟩ :=
        (hp.mem_inward (hp.kind?_of_mem_scopeIds hs l rfl)).mp hk
      exact hp.external_not_member ⟨l, rfl, e, he, rfl, hsource⟩ hc htarget.symm hm

end Sound

/-- A loop of a scope with the node in its body. -/
def IsAround (p : Plan) (s : ScopeId) (n l : NodeId) : Prop :=
  l ∈ p.membersIn s ∧ ∃ lp, p.loop? l = some lp ∧ n ∈ lp.body

/-- Where a value for an input goes in a scope. -/
structure Lands (p : Plan) (s : ScopeId) (t : PortRef) : Prop where
  somewhere : p.route s t ≠ none
  result : p.route s t = some .resultSlot ↔ s = some t.node ∧ t.port = PortName.result
  member : p.scopeOf t.node = s → p.route s t = some (.member t.node)
  nested : p.scopeOf t.node ≠ s → ¬ (s = some t.node ∧ t.port = PortName.result) →
    ∃ l, p.route s t = some (.nested l) ∧ p.IsAround s t.node l ∧
      ∀ l', p.IsAround s t.node l' → l' = l

namespace Sound

variable (hp : p.Sound) (hu : p.Untangled)
include hp hu

theorem isAround_iff {n : NodeId} : p.IsAround s n l ↔ p.scopeOf l = s ∧ p.Encloses l n := by
  rw [hp.encloses_iff hu]
  constructor
  · rintro ⟨hl, lp, hlp, hn⟩
    rw [(hp.loop?_eq_some hlp).1] at hn
    exact ⟨(hp.mem_membersIn.mp hl).2, hp.kind?_of_loop? hlp, hn⟩
  · rintro ⟨hs, hkind, hn⟩
    obtain ⟨lp, hlp⟩ := Option.isSome_iff_exists.mp (hp.isSome_loop?_iff.mpr hkind)
    have hids : l ∈ p.graph.ids := by
      obtain ⟨node, hnode, -⟩ := Graph.kind?_eq_some hkind
      exact (Graph.isSome_node?_iff l).mp (by simp [hnode])
    exact ⟨hp.mem_membersIn.mpr ⟨hids, hs⟩, lp, hlp, (hp.loop?_eq_some hlp).1 ▸ hn⟩

/-- No two loops of a scope are around the same node. -/
theorem isAround_unique {n l' : NodeId} (h : p.IsAround s n l) (h' : p.IsAround s n l') :
    l = l' := by
  obtain ⟨hs, hl⟩ := (hp.isAround_iff hu).mp h
  obtain ⟨hs', hl'⟩ := (hp.isAround_iff hu).mp h'
  exact hp.encloses_unique hu hl hl' (hs.trans hs'.symm)

/-- The body that a link leads into is that of a loop which captures it. -/
theorem capture_iff (hs : s ∈ p.scopeIds) (hl : p.scopeOf l = s)
    (hlp : p.loop? l = some lp) :
    k ∈ lp.captures ↔ k ∈ p.delivered s ∧ p.route s k.target = some (.nested l) := by
  have hcaptures := (hp.loop?_eq_some hlp).2.1
  have hmem : l ∈ p.membersIn s := by
    obtain ⟨node, hnode, -⟩ := Graph.kind?_eq_some (hp.kind?_of_loop? hlp)
    exact hp.mem_membersIn.mpr ⟨(Graph.isSome_node?_iff l).mp (by simp [hnode]), hl⟩
  -- an input has one edge into it, so links with one target are the same
  constructor
  · intro hk
    obtain ⟨hfed, hroute⟩ := hp.fed_of_capture hu hmem hlp (List.mem_map.mpr ⟨k, hk, rfl⟩)
    obtain ⟨k', hk', htarget⟩ := (hp.fed_iff hs).mp hfed
    rw [hcaptures] at hk
    obtain ⟨e, he, rfl, -⟩ := Graph.mem_captures.mp hk
    obtain ⟨e', he', rfl, -⟩ := (hp.mem_delivered hs).mp hk'
    obtain rfl := hp.graph.edge_of_target he' he htarget
    exact ⟨hk', hroute⟩
  · rintro ⟨hk, hroute⟩
    obtain ⟨lp', hlp', ht⟩ := hp.capture_of_nested hu ((hp.fed_iff hs).mpr ⟨k, hk, rfl⟩) hroute
    obtain rfl := Option.some.inj (hlp.symm.trans hlp')
    obtain ⟨k', hk', htarget⟩ := List.mem_map.mp ht
    have hlink := hk'
    rw [hcaptures] at hlink
    obtain ⟨e, he, rfl, -⟩ := Graph.mem_captures.mp hlink
    obtain ⟨e', he', rfl, -⟩ := (hp.mem_delivered hs).mp hk
    obtain rfl := hp.graph.edge_of_target he he' htarget
    exact hk'

/-- The captures of a loop are what is delivered around it and leads into its body. -/
theorem perm_captures (hs : s ∈ p.scopeIds) (hl : p.scopeOf l = s)
    (hlp : p.loop? l = some lp) :
    ((p.delivered s).filter fun k => p.route s k.target = some (.nested l)).Perm lp.captures := by
  have hcaptures : (lp.captures.map Link.target).Nodup := by
    rw [(hp.loop?_eq_some hlp).2.1]
    exact hp.graph.nodup_captures (nodup_bodyOf p.graph l) l
  refine (List.perm_ext_iff_of_nodup ((List.Nodup.of_map _ (hp.nodup_delivered hs)).filter _)
    (List.Nodup.of_map _ hcaptures)).mpr ?_
  intro k
  rw [List.mem_filter, hp.capture_iff hu hs hl hlp, decide_eq_true_iff]

end Sound

/-- Every value has a place to go. What is delivered in a scope lands in the result of the loop around
it if it is for the result of that loop, at a member if it is for a member, and otherwise in the body
of the one loop of the scope that is around its node. -/
theorem deliveredLands {p : Plan} (h : p.Accepted) (hu : p.Untangled) {s : ScopeId}
    (hs : s ∈ p.scopeIds) {k : Link} (hk : k ∈ p.delivered s) : p.Lands s k.target := by
  have hp := sound_of_accepted h
  obtain ⟨r, hr⟩ := hp.route_of_fed hu (hp.kind?_of_mem_scopeIds hs)
    ((hp.fed_iff hs).mpr ⟨k, hk, rfl⟩)
  have hids : k.target.node ∈ p.graph.ids := by
    obtain ⟨e, he, rfl, -⟩ := (hp.mem_delivered hs).mp hk
    exact hp.graph.target_mem he
  refine ⟨by simp [hr], ⟨?_, ?_⟩, fun hscope => hp.route_member hids hscope _, ?_⟩
  · intro hresult
    rcases hp.route_cases hu hresult with ⟨heq, -⟩ | ⟨l, heq, -⟩ | ⟨-, howner, hport⟩
    · simp at heq
    · simp at heq
    · exact ⟨howner, hport⟩
  · rintro ⟨rfl, hport⟩
    have hroute := hp.route_result hu (hp.kind?_of_mem_scopeIds hs _ rfl)
    rwa [← hport] at hroute
  · intro hscope hresult
    rcases hp.route_cases hu hr with ⟨-, hmem⟩ | ⟨l, rfl, hl⟩ | ⟨-, howner, hport⟩
    · exact absurd (hp.mem_membersIn.mp hmem).2 hscope
    · have haround := (hp.isAround_iff hu).mpr hl
      exact ⟨l, hr, haround, fun l' hl' => hp.isAround_unique hu hl' haround⟩
    · exact absurd ⟨howner, hport⟩ hresult

/-- Cells in rows, where each cell is paired with a value from outside both loops. -/
def pairedCells : Definition :=
  ⟨[⟨"in", "data-input", []⟩, ⟨"aside", "data-input", []⟩, ⟨"rows", "logic-loop", []⟩,
    ⟨"cells", "logic-loop", []⟩, ⟨"pair", "logic-merge", []⟩],
   [⟨⟨"in", "value"⟩, ⟨"rows", "collection"⟩⟩, ⟨⟨"rows", "item"⟩, ⟨"cells", "collection"⟩⟩,
    ⟨⟨"cells", "item"⟩, ⟨"pair", "input1"⟩⟩, ⟨⟨"aside", "value"⟩, ⟨"pair", "input2"⟩⟩,
    ⟨⟨"pair", "merged"⟩, ⟨"cells", "result"⟩⟩, ⟨⟨"cells", "results"⟩, ⟨"rows", "result"⟩⟩]⟩

/-- The value from outside is delivered on each level, the results of the cells in a row. -/
theorem pairedCells_deliveredLands : ∃ p, ofDefinition pairedCells = .ok p ∧
    p.route none ⟨"pair", "input2"⟩ = some (.nested "rows") ∧
    p.Lands none ⟨"pair", "input2"⟩ ∧ p.Lands (some "rows") ⟨"pair", "input2"⟩ ∧
    p.Lands (some "cells") ⟨"pair", "input2"⟩ ∧ p.Lands (some "rows") ⟨"rows", "result"⟩ := by
  obtain ⟨p, hp, hloops, hroute, hscopes, htop, hrows, hcells, hresult⟩ :=
    exists_of_check (d := pairedCells)
    (P := fun p =>
      (∀ a ∈ p.nesting.loops, ∀ b ∈ p.nesting.loops, ¬ (a.1 ∈ b.2.body ∧ b.1 ∈ a.2.body)) ∧
      p.route none ⟨"pair", "input2"⟩ = some (.nested "rows") ∧
      (∀ s ∈ [none, some "rows", some "cells"], s ∈ p.scopeIds) ∧
      ⟨⟨"aside", "value"⟩, ⟨"pair", "input2"⟩⟩ ∈ p.delivered none ∧
      ⟨⟨"aside", "value"⟩, ⟨"pair", "input2"⟩⟩ ∈ p.delivered (some "rows") ∧
      ⟨⟨"aside", "value"⟩, ⟨"pair", "input2"⟩⟩ ∈ p.delivered (some "cells") ∧
      ⟨⟨"cells", "results"⟩, ⟨"rows", "result"⟩⟩ ∈ p.delivered (some "rows"))
    (by decide +kernel)
  have hu := untangled_of_loops hloops
  have haccepted : p.Accepted := ⟨pairedCells, hp⟩
  exact ⟨p, hp, hroute, deliveredLands haccepted hu (hscopes _ (by simp)) htop,
    deliveredLands haccepted hu (hscopes _ (by simp)) hrows,
    deliveredLands haccepted hu (hscopes _ (by simp)) hcells,
    deliveredLands haccepted hu (hscopes _ (by simp)) hresult⟩

end PortGraph.Plan
