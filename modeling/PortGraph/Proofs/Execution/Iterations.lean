import PortGraph.Proofs.Execution.Rooted

/-!
Iterations of a loop under way. Each is given a value for every input that its body takes from
outside, and these are the values that the feeders have sent.
-/

namespace PortGraph.Execution

open Nesting Plan

variable {p : Plan} {verbose : Bool} {now : Timestamp} {e e' : Execution} {a : Address}
variable {t t' : Site} {given : List (PortRef × Json)} {event : Event} {n : NodeId} {l : Looping}

theorem Stems.kind {s : Scope} (h : Stems p e a s n l) : p.graph.kind? n = some .loop := by
  obtain ⟨node, hnode, hsettings⟩ := h.settings
  exact Graph.kind?_of_settings hnode hsettings

theorem Stems.mem_handed (hp : p.Sound) {s : Scope} (h : Stems p e a s n l) (x : PortRef) :
    x ∈ l.handed.map (·.1) ↔ ∃ edge ∈ p.graph.edges, edge.targetRef = x ∧
      edge.link ∈ Nesting.captures p.graph n (bodyOf p.graph n) := by
  rw [h.captures]
  constructor
  · rintro ⟨lp, hlp, hx⟩
    obtain ⟨link, hlink, rfl⟩ := List.mem_map.mp hx
    rw [(hp.loop?_eq_some hlp).2.1] at hlink
    obtain ⟨edge, hedge, rfl, -⟩ := Graph.mem_captures.mp hlink
    exact ⟨edge, hedge, rfl, hlink⟩
  · rintro ⟨edge, hedge, rfl, hlink⟩
    obtain ⟨lp, hlp⟩ := Option.isSome_iff_exists.mp (hp.isSome_loop?_iff.mpr h.kind)
    refine ⟨lp, hlp, List.mem_map.mpr ⟨edge.link, ?_, rfl⟩⟩
    rw [(hp.loop?_eq_some hlp).2.1]
    exact hlink

/-- The edges from a loop into its body are no captures. -/
theorem seed_not_captured (hp : p.Sound) {c : Connection} (hc : c ∈ p.seeds n) {edge : Edge}
    (hedge : edge ∈ p.graph.edges) (htarget : edge.targetRef = inputOf c) :
    edge.link ∉ Nesting.captures p.graph n (bodyOf p.graph n) := by
  obtain ⟨hseed, -⟩ := Graph.mem_seeds.mp hc
  obtain rfl := hp.graph.edge_of_target hedge hseed htarget
  intro hlink
  obtain ⟨edge', hedge', hsame, -, hne, -⟩ := Graph.mem_captures.mp hlink
  have hsource : edge'.sourceRef = Edge.sourceRef ⟨n, c.node, c.label⟩ := congrArg Link.source hsame
  exact hne (congrArg PortRef.node hsource)

/-- An iteration is given a value for each input of its body that is fed from outside. -/
theorem Stems.proper (hp : p.Sound) {s : Scope} (h : Stems p e a s n l) (i : ℕ) :
    p.Proper (some n) (l.deliveries p i) := by
  have hkeys : (l.deliveries p i).map (·.1) =
      (p.seeds n).map inputOf ++ l.handed.map (·.1) := by
    unfold Looping.deliveries
    rw [List.map_append, keys_iterationValues, h.node]
  refine ⟨?_, ?_⟩
  · rw [hkeys]
    refine List.nodup_append.mpr ⟨hp.nodup_seeds n, h.keys, ?_⟩
    rintro x hx y hy rfl
    obtain ⟨c, hc, rfl⟩ := List.mem_map.mp hx
    obtain ⟨edge, hedge, htarget, hlink⟩ := (h.mem_handed hp _).mp hy
    exact seed_not_captured hp hc hedge htarget hlink
  · intro x
    rw [hkeys, List.mem_append]
    constructor
    · rintro (hx | hx)
      · obtain ⟨c, hc, rfl⟩ := List.mem_map.mp hx
        obtain ⟨hseed, hport⟩ := Graph.mem_seeds.mp hc
        exact ⟨n, rfl, _, hseed, rfl, Or.inl ⟨rfl, h.kind, hport⟩⟩
      · obtain ⟨edge, hedge, htarget, hlink⟩ := (h.mem_handed hp x).mp hx
        exact ⟨n, rfl, edge, hedge, htarget, Or.inr hlink⟩
    · rintro ⟨l', hl', edge, hedge, htarget, hor⟩
      obtain rfl := Option.some.inj hl'
      rcases hor with ⟨rfl, -, hport⟩ | hlink
      · refine Or.inl (List.mem_map.mpr ⟨⟨edge.target, edge.label⟩, ?_, htarget⟩)
        exact Graph.mem_seeds.mpr ⟨hedge, hport⟩
      · exact Or.inr ((h.mem_handed hp x).mpr ⟨edge, hedge, htarget, hlink⟩)

theorem valueAt?_outer {source : PortRef} {loop : NodeId} {i : ℕ}
    (hscope : p.scopeOf source.node ≠ some loop) (hne : source.node ≠ loop) :
    e.valueAt? p ((loop, i) :: a) source = e.valueAt? p a source := by
  conv_lhs => unfold valueAt?
  rw [if_neg hscope, if_neg fun h => hne h.1]

/-- What an iteration is given is what the feeders have sent. -/
theorem Stems.bears_deliveries (hp : p.Sound) (hu : p.Untangled) (ht : e.site? a = some t)
    (h : Stems p e a t.scope n l) {i : ℕ} (hi : i < l.count) :
    ∀ x ∈ l.deliveries p i, e.Bears p ((n, i) :: a) x := by
  intro x hx
  unfold Looping.deliveries at hx
  rw [h.node] at hx
  rcases List.mem_append.mp hx with hx | hx
  · obtain ⟨c, hc, hinput, hv⟩ := mem_iterationValues.mp hx
    obtain ⟨hseed, hport⟩ := Graph.mem_seeds.mp hc
    refine ⟨⟨n, c.label.sourcePort⟩, ?_, ?_⟩
    · rw [← hinput]
      exact hp.graph.inbound?_eq_some.mpr ⟨c.label, hseed, rfl, rfl⟩
    · have hscope : p.scopeOf n ≠ some n := fun hself =>
        hp.scopeOf_ne_of_encloses hu (.single hself) rfl
      obtain ⟨r, hr, hstart, hitems⟩ := h.run
      unfold valueAt?
      rw [if_neg hscope, if_pos ⟨rfl, hport⟩]
      simp only [elementAt?, Option.bind_eq_bind, Option.bind_eq_some_iff]
      refine ⟨t, ht, r, hr, ?_⟩
      rw [if_pos hstart, ← hitems]
      by_cases hindex : c.label.sourcePort = PortName.index
      · rw [if_pos hindex] at hv ⊢
        rw [hv]
      · rw [if_neg hindex] at hv ⊢
        have hlength : i < l.itemList.length := lt_of_lt_of_le hi (min_le_left _ _)
        unfold Looping.itemList at hlength hv
        cases hsome : l.items with
        | error err => simp [hsome] at hlength
        | ok items =>
          rw [hsome] at hlength hv
          dsimp only at hlength hv ⊢
          rw [List.getElem?_eq_getElem hlength] at hv ⊢
          exact congrArg some hv
  · obtain ⟨source, hin, hv⟩ := h.bears x hx
    obtain ⟨edge, hedge, htarget, hlink⟩ :=
      (h.mem_handed hp x.1).mp (List.mem_map.mpr ⟨x, hx, rfl⟩)
    have hsource : source = edge.sourceRef := by
      have hin' : p.graph.inbound? x.1.node x.1.port = some edge.sourceRef := by
        rw [← htarget]
        exact hp.graph.inbound?_eq_some.mpr ⟨edge.label, hedge, rfl, rfl⟩
      exact Option.some.inj (hin.symm.trans hin')
    obtain ⟨edge', hedge', hsame, -, hne, hout⟩ := Graph.mem_captures.mp hlink
    have hnode : edge'.source = source.node := by
      rw [hsource]
      exact congrArg PortRef.node (congrArg Link.source hsame)
    refine ⟨source, hin, ?_⟩
    rw [valueAt?_outer, hv]
    · intro hscope
      exact hout (hnode ▸ (hp.holds_of_scopeOf hscope).2)
    · exact hnode ▸ hne

/-- An iteration that begins is rooted in the scope of its loop. -/
theorem Stems.rooted_iteration (hp : p.Sound) (hu : p.Untangled) (ht : e.site? a = some t)
    (h : Stems p e a t.scope n l) {i : ℕ} (hi : i < l.count) :
    Rooted p e ((n, i) :: a)
      ⟨Scope.seed p now (some n) (l.deliveries p i), .running, [], [], []⟩ (l.deliveries p i) := by
  have hproper := h.proper hp i
  have hloop : ∀ k, some n = some k → p.graph.kind? k = some .loop := by
    intro k hk
    rw [← Option.some.inj hk]
    exact h.kind
  obtain ⟨hcoherent, -, howner⟩ := Scope.coherent_seed now (some n) hp hproper hu hloop
  refine ⟨h.bears_deliveries hp hu ht hi, ?_, ?_, by simp⟩
  · intro k j outer hcons
    obtain ⟨hhead, rfl⟩ := List.cons.inj hcons
    obtain ⟨rfl, rfl⟩ := Prod.mk.inj hhead
    obtain ⟨r, hr, hstart, -⟩ := h.run
    exact ⟨t, r, ht, hr, hstart⟩
  · exact ⟨_, hcoherent, howner,
      fun _ => Scope.chosen_of_reached hp hu now hproper hloop rfl, Or.inl ⟨by simp, rfl⟩⟩

end PortGraph.Execution
