import PortGraph.Proofs.Plan.Forest

/-!
The members of scopes, and where an edge leads as seen from the scope of its source: to a member,
into the body of a member loop, or to the result of the loop around the scope. Backwards, the value
for a member comes from a member, from the loop around the scope, or from outside that loop.
-/

namespace PortGraph.Plan

open Nesting Relation

/-- One loop is around a node, over any number of levels. -/
def Encloses (p : Plan) : NodeId → NodeId → Prop :=
  TransGen fun outer inner => p.scopeOf inner = some outer

/-- A node is somewhere inside a scope. -/
def Inside (p : Plan) (scope : ScopeId) (n : NodeId) : Prop :=
  ∀ l, scope = some l → p.Encloses l n

theorem Walk.unique {p : Plan} {scope inner : ScopeId} {r r' : Option NodeId}
    (h : p.Walk scope inner r) (h' : p.Walk scope inner r') : r = r' := by
  induction h with
  | top =>
    cases h'
    rfl
  | found hscope =>
    cases h' with
    | found => rfl
    | up hne => exact absurd hscope hne
  | up hne _ ih =>
    cases h' with
    | found hscope => exact absurd hscope hne
    | up _ hrest => exact ih hrest

theorem Walk.spec {p : Plan} {scope inner : ScopeId} {r : Option NodeId}
    (h : p.Walk scope inner r) {l : NodeId} (hr : r = some l) :
    p.scopeOf l = scope ∧ ∀ n, p.scopeOf n = inner → p.Encloses l n := by
  induction h with
  | top => simp at hr
  | found hscope =>
    obtain rfl := Option.some.inj hr
    exact ⟨hscope, fun n hn => TransGen.single hn⟩
  | up _ _ ih =>
    obtain ⟨hscope, hall⟩ := ih hr
    exact ⟨hscope, fun n hn => (hall _ rfl).tail hn⟩

namespace Sound

variable {p : Plan} (hp : p.Sound)
include hp

/-! ### Members -/

theorem scopeIds_eq : p.scopeIds = none :: (loopIds p.graph).map some := by
  rw [← hp.nesting.keys, List.map_map]
  rfl

theorem scopeOf_mem_scopeIds (n : NodeId) : p.scopeOf n ∈ p.scopeIds := by
  rw [hp.scopeIds_eq]
  cases h : p.scopeOf n with
  | none => simp
  | some s =>
    have hs := (mem_loopIds hp.graph).mpr (hp.holds_of_scopeOf h).1
    exact List.mem_cons_of_mem _ (List.mem_map.mpr ⟨s, hs, rfl⟩)

theorem nodup_scopeIds : p.scopeIds.Nodup := by
  rw [hp.scopeIds_eq]
  refine List.nodup_cons.mpr ⟨by simp, ?_⟩
  exact (hp.graph.order_nodup.filter _).map fun _ _ h => Option.some.inj h

theorem membersIn_eq (s : ScopeId) :
    p.membersIn s = if s ∈ p.scopeIds then membersOf p.graph p.nesting p.ranks s else [] := by
  unfold membersIn
  rw [hp.members_eq, lookup_map_key]
  by_cases h : s ∈ p.scopeIds <;> simp [h]

theorem mem_membersIn {s : ScopeId} {n : NodeId} :
    n ∈ p.membersIn s ↔ n ∈ p.graph.ids ∧ p.scopeOf n = s := by
  rw [hp.membersIn_eq]
  by_cases hs : s ∈ p.scopeIds
  · rw [if_pos hs]
    unfold membersOf
    rw [mem_sortBy, List.mem_filter, hp.graph.mem_order_iff, beq_iff_eq]
    rfl
  · rw [if_neg hs]
    constructor
    · intro h
      simp at h
    · rintro ⟨-, rfl⟩
      exact absurd (hp.scopeOf_mem_scopeIds n) hs

theorem nodup_membersIn (s : ScopeId) : (p.membersIn s).Nodup := by
  rw [hp.membersIn_eq]
  split_ifs
  · exact (sortBy_perm _ _).nodup_iff.mpr (hp.graph.order_nodup.filter _)
  · exact List.nodup_nil

theorem length_membersIn_le (s : ScopeId) : (p.membersIn s).length ≤ p.graph.nodes.length := by
  have hsub : p.membersIn s ⊆ p.graph.ids := fun n hn => (hp.mem_membersIn.mp hn).1
  have hle := ((hp.nodup_membersIn s).subperm hsub).length_le
  unfold Graph.ids at hle
  rwa [List.length_map] at hle

theorem node?_of_mem_membersIn {s : ScopeId} {n : NodeId} (h : n ∈ p.membersIn s) :
    ∃ node, p.node? n = some node ∧ node.id = n ∧ node ∈ p.graph.nodes := by
  have hids := (Graph.isSome_node?_iff n).mpr (hp.mem_membersIn.mp h).1
  obtain ⟨node, hnode⟩ := Option.isSome_iff_exists.mp hids
  exact ⟨node, hnode, (Graph.node?_eq_some hnode).2, (Graph.node?_eq_some hnode).1⟩

/-! ### Loops around nodes -/

variable (hu : p.Untangled)
include hu

theorem place_lt_of_encloses {l n : NodeId} (h : p.Encloses l n) :
    p.graph.place l < p.graph.place n := by
  induction h with
  | single hs => exact hp.place_scopeOf_lt hu hs
  | tail _ hs ih => exact ih.trans (hp.place_scopeOf_lt hu hs)

/-- On an untangled plan bodies nest. -/
theorem holds_trans {l s n : NodeId} (hls : Holds p.graph l s) (hsn : Holds p.graph s n) :
    Holds p.graph l n :=
  Nesting.holds_trans hp.graph hp.nesting.closed (hp.untangled_graph hu) hls hsn

theorem holds_of_chain {l n : NodeId} (h : TransGen (Holds p.graph) l n) : Holds p.graph l n := by
  induction h with
  | single h => exact h
  | tail _ hstep ih => exact hp.holds_trans hu ih hstep

/-- A loop is around what its body holds. -/
theorem encloses_iff {l n : NodeId} : p.Encloses l n ↔ Holds p.graph l n := by
  constructor
  · intro h
    induction h with
    | single hs => exact hp.holds_of_scopeOf hs
    | tail _ hs ih => exact hp.holds_trans hu ih (hp.holds_of_scopeOf hs)
  · intro h
    induction hplace : p.graph.place n using Nat.strong_induction_on generalizing n with
    | h place ih =>
      subst hplace
      have hsome : p.scopeOf n ≠ none := fun hnone => hp.scopeOf_eq_none_iff.mp hnone l h
      obtain ⟨s, hs⟩ := Option.ne_none_iff_exists'.mp hsome
      rcases hp.scopeOf_chain hs h with rfl | hchain
      · exact TransGen.single hs
      · exact (ih _ (hp.place_scopeOf_lt hu hs) (hp.holds_of_chain hu hchain) rfl).tail hs

theorem scopeOf_ne_of_encloses {l n : NodeId} (h : p.Encloses l n) :
    p.scopeOf l ≠ p.scopeOf n := by
  intro hscope
  cases h with
  | single hn =>
    have hlt := hp.place_scopeOf_lt hu (hscope.trans hn)
    omega
  | tail hinit hn =>
    have hlt := hp.place_lt_of_encloses hu hinit
    have hlt' := hp.place_scopeOf_lt hu (hscope.trans hn)
    omega

/-- Two loops at the same level around one node are the same. -/
theorem encloses_unique {l l' n : NodeId} (h : p.Encloses l n) (h' : p.Encloses l' n)
    (hs : p.scopeOf l = p.scopeOf l') : l = l' := by
  -- of two loops on the chain above a node one is around the other
  have hcompare : ∀ {a b m : NodeId}, p.Encloses a m → p.Encloses b m →
      a = b ∨ p.Encloses a b ∨ p.Encloses b a := by
    intro a b m ha
    induction ha with
    | single ha =>
      intro hb
      cases hb with
      | single hb => exact Or.inl (Option.some.inj (ha.symm.trans hb))
      | tail hinit hb =>
        obtain rfl := Option.some.inj (ha.symm.trans hb)
        exact Or.inr (Or.inr hinit)
    | tail hinit ha ih =>
      intro hb
      cases hb with
      | single hb =>
        obtain rfl := Option.some.inj (ha.symm.trans hb)
        exact Or.inr (Or.inl hinit)
      | tail hinit' hb =>
        obtain rfl := Option.some.inj (ha.symm.trans hb)
        exact ih hinit'
  rcases hcompare h h' with heq | hab | hba
  · exact heq
  · exact absurd hs (hp.scopeOf_ne_of_encloses hu hab)
  · exact absurd hs.symm (hp.scopeOf_ne_of_encloses hu hba)

end Sound

end PortGraph.Plan
