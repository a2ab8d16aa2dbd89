import PortGraph.Proofs.Plan.Exclusives

/-!
Gates: which nodes wait for a branch. A node behind a branch is in the scope of the condition, feeds
only the branch and nodes behind it, and is behind every branch that the condition is behind.
-/

namespace PortGraph

namespace Branch

theorem port_ne_condition (branch : Branch) : branch.port ≠ PortName.condition := by
  cases branch <;> decide

theorem port_injective {a b : Branch} (h : a.port = b.port) : a = b := by
  revert h
  cases a <;> cases b <;> decide

end Branch

namespace Plan

open Nesting

theorem exclusivesOf_eq (g : Graph) (members : List NodeId) (gate : Gate) :
    exclusivesOf g members gate = members.reverse.foldl (visit g gate) [] := rfl

namespace Sound

variable {p : Plan} (hp : p.Sound)
include hp

/-! ### The table of the plan -/

theorem mem_members {m : ScopeId × List NodeId} :
    m ∈ p.members ↔ m.1 ∈ p.scopeIds ∧ m.2 = p.membersIn m.1 := by
  rw [hp.members_eq, List.mem_map]
  constructor
  · rintro ⟨s, hs, rfl⟩
    exact ⟨hs, by rw [hp.membersIn_eq, if_pos hs]⟩
  · rintro ⟨hs, hm⟩
    refine ⟨m.1, hs, ?_⟩
    rw [hp.membersIn_eq, if_pos hs] at hm
    rw [← hm]

omit hp in
theorem ids_of_kind? {id : NodeId} {kind : NodeKind} (h : p.graph.kind? id = some kind) :
    id ∈ p.graph.ids := by
  obtain ⟨n, hn, -⟩ := Graph.kind?_eq_some h
  exact (Graph.isSome_node?_iff id).mp (by simp [hn])

theorem mem_exclusives {e : Gate × List NodeId} :
    e ∈ p.exclusives ↔ p.graph.kind? e.1.condition = some .condition ∧
      e.2 = exclusivesOf p.graph (p.membersIn (p.scopeOf e.1.condition)) e.1 ∧ e.2 ≠ [] := by
  rw [hp.exclusives_eq, List.mem_flatMap]
  unfold gatesOf
  constructor
  · rintro ⟨m, hm, he⟩
    obtain ⟨hgate, hne⟩ := List.mem_filter.mp he
    obtain ⟨gate, hin, rfl⟩ := List.mem_map.mp hgate
    obtain ⟨c, hc, hbranch⟩ := List.mem_flatMap.mp hin
    obtain ⟨hmem, hkind⟩ := List.mem_filter.mp hc
    have hcond : gate.condition = c := by
      simp only [List.mem_cons, List.not_mem_nil, or_false] at hbranch
      rcases hbranch with rfl | rfl <;> rfl
    have hm2 := (hp.mem_members.mp hm).2
    have hscope : p.scopeOf c = m.1 := (hp.mem_membersIn.mp (hm2 ▸ hmem)).2
    refine ⟨by rw [hcond]; simpa using hkind, ?_, by simpa using hne⟩
    rw [hcond, hscope, ← hm2]
  · rintro ⟨hkind, hlist, hne⟩
    have hmem : e.1.condition ∈ p.membersIn (p.scopeOf e.1.condition) :=
      hp.mem_membersIn.mpr ⟨ids_of_kind? hkind, rfl⟩
    refine ⟨(p.scopeOf e.1.condition, p.membersIn (p.scopeOf e.1.condition)),
      hp.mem_members.mpr ⟨hp.scopeOf_mem_scopeIds _, rfl⟩, List.mem_filter.mpr ⟨?_, ?_⟩⟩
    · refine List.mem_map.mpr ⟨e.1, List.mem_flatMap.mpr ⟨e.1.condition, ?_, ?_⟩, ?_⟩
      · exact List.mem_filter.mpr ⟨hmem, by simpa using hkind⟩
      · obtain ⟨⟨c, b⟩, xs⟩ := e
        cases b <;> simp
      · rw [← hlist]
    · simpa using hne

theorem nodup_gate_keys : (p.exclusives.map (·.1)).Nodup := by
  have hkeys : ∀ members : List NodeId, members.Nodup →
      ((gatesOf p.graph members).map (·.1)).Nodup := by
    intro members hnd
    have hsub : ((gatesOf p.graph members).map (·.1)).Sublist
        ((members.filter fun id => p.graph.kind? id == some .condition).flatMap fun c =>
          [(⟨c, .whenTrue⟩ : Gate), ⟨c, .whenFalse⟩]) := by
      unfold gatesOf
      refine (List.filter_sublist.map _).trans ?_
      rw [List.map_map]
      simp [Function.comp_def]
    refine List.Nodup.sublist hsub (List.nodup_flatMap.mpr ⟨by simp, ?_⟩)
    refine (hnd.filter _).imp ?_
    intro a b hab
    change List.Disjoint _ _
    simp [List.disjoint_left, hab]
  rw [hp.exclusives_eq, List.map_flatMap]
  refine List.nodup_flatMap.mpr ⟨?_, ?_⟩
  · intro m hm
    rw [(hp.mem_members.mp hm).2]
    exact hkeys _ (hp.nodup_membersIn m.1)
  · rw [hp.members_eq, List.pairwise_map]
    refine hp.nodup_scopeIds.imp_of_mem ?_
    intro s s' hs hs' hne
    change List.Disjoint _ _
    rw [List.disjoint_left]
    -- a gate belongs to the scope of its condition
    have hscope : ∀ t gate, t ∈ p.scopeIds →
        gate ∈ (gatesOf p.graph (membersOf p.graph p.nesting p.ranks t)).map (·.1) →
          p.scopeOf gate.condition = t := by
      intro t gate ht hgate
      obtain ⟨e, he, rfl⟩ := List.mem_map.mp hgate
      obtain ⟨gate, hin, rfl⟩ := List.mem_map.mp (List.mem_filter.mp he).1
      obtain ⟨c, hc, hbranch⟩ := List.mem_flatMap.mp hin
      have hcond : gate.condition = c := by
        simp only [List.mem_cons, List.not_mem_nil, or_false] at hbranch
        rcases hbranch with rfl | rfl <;> rfl
      have hc' : c ∈ p.membersIn t := by
        rw [hp.membersIn_eq, if_pos ht]
        exact (List.mem_filter.mp hc).1
      rw [hcond]
      exact (hp.mem_membersIn.mp hc').2
    intro gate hgate hgate'
    exact hne ((hscope s gate hs hgate).symm.trans (hscope s' gate hs' hgate'))

theorem exclusive_eq (gate : Gate) :
    p.exclusive gate = if p.graph.kind? gate.condition = some .condition then
      exclusivesOf p.graph (p.membersIn (p.scopeOf gate.condition)) gate else [] := by
  unfold exclusive
  cases hlookup : p.exclusives.lookup gate with
  | some xs =>
    obtain ⟨pre, post, heq, -⟩ := List.lookup_eq_some_iff.mp hlookup
    have hmem : (gate, xs) ∈ p.exclusives := by
      rw [heq]
      simp
    obtain ⟨hkind, hlist, -⟩ := hp.mem_exclusives.mp hmem
    rw [if_pos hkind]
    exact hlist
  | none =>
    split_ifs with hkind
    · by_contra hne
      have hmem : (gate, exclusivesOf p.graph (p.membersIn (p.scopeOf gate.condition)) gate) ∈
          p.exclusives := hp.mem_exclusives.mpr ⟨hkind, rfl, fun h => hne h.symm⟩
      have hnone := List.lookup_eq_none_iff.mp hlookup _ hmem
      simp at hnone
    · rfl

theorem kind?_of_mem_exclusive {gate : Gate} {n : NodeId} (h : n ∈ p.exclusive gate) :
    p.graph.kind? gate.condition = some .condition := by
  by_contra hkind
  rw [hp.exclusive_eq, if_neg hkind] at h
  simp at h

theorem nodup_exclusive (gate : Gate) : (p.exclusive gate).Nodup := by
  rw [hp.exclusive_eq]
  split_ifs
  · rw [exclusivesOf_eq]
    exact (nodup_foldl_visit p.graph gate _ List.Pairwise.nil).imp fun h => ne_of_lt h
  · exact List.nodup_nil

theorem mem_gates_iff {n : NodeId} {gate : Gate} : gate ∈ p.gates n ↔ n ∈ p.exclusive gate := by
  unfold gates
  rw [List.mem_map]
  constructor
  · rintro ⟨e, he, rfl⟩
    obtain ⟨hmem, hn⟩ := List.mem_filter.mp he
    obtain ⟨hkind, hlist, -⟩ := hp.mem_exclusives.mp hmem
    rw [hp.exclusive_eq, if_pos hkind, ← hlist]
    exact List.contains_iff_mem.mp hn
  · intro hn
    have hkind := hp.kind?_of_mem_exclusive hn
    refine ⟨(gate, p.exclusive gate), List.mem_filter.mpr ⟨?_, List.contains_iff_mem.mpr hn⟩, rfl⟩
    refine hp.mem_exclusives.mpr ⟨hkind, by rw [hp.exclusive_eq, if_pos hkind], ?_⟩
    exact List.ne_nil_of_mem hn

theorem nodup_gates (n : NodeId) : (p.gates n).Nodup :=
  hp.nodup_gate_keys.sublist (List.filter_sublist.map _)

/-! ### What a gate says of a node -/

variable (hu : p.Untangled)
include hu

/-- The nodes behind a branch are just those of the scope that feed only the branch and one
another. -/
theorem mem_exclusive_iff {gate : Gate} {n : NodeId} :
    n ∈ p.exclusive gate ↔ p.graph.kind? gate.condition = some .condition ∧
      n ∈ p.membersIn (p.scopeOf gate.condition) ∧ n ≠ gate.condition ∧
        FeedsOnly p.graph gate (p.exclusive gate) n := by
  rw [hp.exclusive_eq]
  by_cases hkind : p.graph.kind? gate.condition = some .condition
  swap
  · simp [hkind]
  rw [if_pos hkind, exclusivesOf_eq]
  constructor
  · intro hn
    rcases foldl_visit_sound _ _ _ _ n hn with hnil | ⟨hmem, hne, hfeeds⟩
    · simp at hnil
    · exact ⟨hkind, List.mem_reverse.mp hmem, hne, hfeeds⟩
  · rintro ⟨-, hmem, hne, hfeeds⟩
    have hlt : ∀ a ∈ p.membersIn (p.scopeOf gate.condition),
        ∀ b ∈ p.membersIn (p.scopeOf gate.condition), ∀ c ∈ carried p.graph a, c.node = b →
          p.rank a < p.rank b := by
      intro a ha b hb c hc hcb
      have hlt := hp.rank_lt_of_carried hc (hp.mem_membersIn.mp ha).2
        (hcb ▸ (hp.mem_membersIn.mp hb).2)
      rwa [hcb] at hlt
    refine foldl_visit_complete _ _ _ _ (List.nodup_reverse.mpr (hp.nodup_membersIn _)) ?_ ?_ n
      (List.mem_reverse.mpr hmem) hne hfeeds
    · rw [List.pairwise_reverse]
      refine (hp.pairwise_membersIn _).imp_of_mem ?_
      intro a b ha hb hrank c hc hcb
      have hbad := hlt b hb a ha c hc hcb
      omega
    · intro a ha c hc hca
      rw [List.mem_reverse] at ha
      exact lt_irrefl _ (hlt a ha a ha c hc hca)

theorem exclusive_scope {gate : Gate} {n : NodeId} (h : n ∈ p.exclusive gate) :
    p.scopeOf n = p.scopeOf gate.condition :=
  (hp.mem_membersIn.mp ((hp.mem_exclusive_iff hu).mp h).2.1).2

theorem exclusive_feeds {gate : Gate} {n : NodeId} (h : n ∈ p.exclusive gate) {c : Connection}
    (hc : c ∈ p.forwardOut n) : Into gate (p.exclusive gate) c :=
  ((hp.mem_exclusive_iff hu).mp h).2.2.2.2 c hc

theorem length_exclusive_le (gate : Gate) :
    (p.exclusive gate).length ≤ p.graph.nodes.length := by
  have hsub : p.exclusive gate ⊆ p.membersIn (p.scopeOf gate.condition) :=
    fun n hn => ((hp.mem_exclusive_iff hu).mp hn).2.1
  exact (((hp.nodup_exclusive gate).subperm hsub).length_le).trans (hp.length_membersIn_le _)

theorem place_lt_of_carried {a : NodeId} {c : Connection} (hc : c ∈ p.forwardOut a)
    (hsame : p.scopeOf c.node = p.scopeOf a) : p.graph.place a < p.graph.place c.node := by
  obtain ⟨he, -⟩ := Graph.mem_carried.mp hc
  exact hp.graph.place_lt (Graph.mem_forward.mpr
    ⟨c.label, he, hp.forward_of_members he rfl hsame⟩)

/-- Within a scope nodes can be taken from the last of the order to the first, so that a node comes
after all that it feeds. -/
theorem carried_induction {motive : NodeId → Prop}
    (step : ∀ n, (∀ c ∈ p.forwardOut n, p.scopeOf c.node = p.scopeOf n → motive c.node) → motive n)
    (n : NodeId) : motive n := by
  induction hk : p.graph.order.length - p.graph.place n using Nat.strong_induction_on
    generalizing n with
  | h k ih =>
    subst hk
    refine step n fun c hc hsame => ih _ ?_ c.node rfl
    have hlt := hp.place_lt_of_carried hu hc hsame
    have hn : p.graph.place n < p.graph.order.length := List.idxOf_lt_length_of_mem
      ((hp.graph.mem_order_iff n).mpr (hp.graph.source_mem (Graph.mem_carried.mp hc).1))
    change p.graph.order.length - p.graph.place c.node < _
    omega

/-- The same for the nodes behind one branch. -/
theorem exclusive_induction {gate : Gate} {motive : ∀ n, n ∈ p.exclusive gate → Prop}
    (step : ∀ n (h : n ∈ p.exclusive gate),
      (∀ c ∈ p.forwardOut n, ∀ hc : c.node ∈ p.exclusive gate, motive c.node hc) → motive n h)
    {n : NodeId} (h : n ∈ p.exclusive gate) : motive n h := by
  induction n using hp.carried_induction hu with
  | step n ih =>
    exact step n h fun c hc hin => ih c hc
      ((hp.exclusive_scope hu hin).trans (hp.exclusive_scope hu h).symm) hin

theorem exclusive_place_lt {gate : Gate} {n : NodeId} (h : n ∈ p.exclusive gate) :
    p.graph.place n < p.graph.place gate.condition := by
  induction h using hp.exclusive_induction hu with
  | step n h ih =>
    obtain ⟨-, -, -, hne, hfeeds⟩ := (hp.mem_exclusive_iff hu).mp h
    obtain ⟨c, hc⟩ := List.exists_mem_of_ne_nil _ hne
    have hscope := hp.exclusive_scope hu h
    have hlt := hp.place_lt_of_carried hu hc
    rcases hfeeds c hc with ⟨hcond, -⟩ | hin
    · rw [hcond] at hlt
      exact hlt hscope.symm
    · exact (hlt ((hp.exclusive_scope hu hin).trans hscope.symm)).trans (ih c hc hin)

/-- A node behind a branch of a condition is behind every branch that the condition is behind. -/
theorem exclusive_trans {gate gate' : Gate} {n : NodeId} (h : n ∈ p.exclusive gate)
    (h' : gate.condition ∈ p.exclusive gate') : n ∈ p.exclusive gate' := by
  obtain ⟨hkind', -⟩ := (hp.mem_exclusive_iff hu).mp h'
  have hscope := hp.exclusive_scope hu h'
  have hcond := hp.exclusive_place_lt hu h'
  induction h using hp.exclusive_induction hu with
  | step n h ih =>
    have hplace := hp.exclusive_place_lt hu h
    obtain ⟨-, hmem, -, hne, hfeeds⟩ := (hp.mem_exclusive_iff hu).mp h
    refine (hp.mem_exclusive_iff hu).mpr ⟨hkind', hscope ▸ hmem, ?_, hne, ?_⟩
    · rintro rfl
      omega
    · intro c hc
      refine Or.inr ?_
      rcases hfeeds c hc with ⟨hcnode, -⟩ | hin
      · rw [hcnode]
        exact h'
      · exact ih c hc hin

end Sound

end Plan

end PortGraph
