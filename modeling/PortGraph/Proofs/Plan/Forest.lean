import PortGraph.Proofs.Plan.Accepted

/-!
Whether loops nest as a forest. The checks of a plan leave two loops that lie in each other's body;
above such a loop there is always another one, so no number of steps leads out. Every other plan is
a forest: a body lies behind its loop in the order, and the steps upward end at the top level.
-/

namespace PortGraph.Plan

open PortGraph.Order Nesting Relation

/-- Where some steps from a scope to the scope around it lead. -/
def climb (p : Plan) : ℕ → ScopeId → ScopeId
  | 0, s => s
  | k + 1, s => climb p k (s.bind p.scopeOf)

/-- The walk from a scope upward in search of a loop that runs in a given scope, without a bound on
its steps, and what it finds. -/
inductive Walk (p : Plan) (scope : ScopeId) : ScopeId → Option NodeId → Prop
  | top : Walk p scope none none
  | found {loop : NodeId} : p.scopeOf loop = scope → Walk p scope (some loop) (some loop)
  | up {loop : NodeId} {r : Option NodeId} : p.scopeOf loop ≠ scope →
      Walk p scope (p.scopeOf loop) r → Walk p scope (some loop) r

/-- Two loops lie in each other's body. -/
def Entangled (p : Plan) (a b : NodeId) : Prop :=
  ∃ la lb, p.loop? a = some la ∧ p.loop? b = some lb ∧ a ∈ lb.body ∧ b ∈ la.body

def Untangled (p : Plan) : Prop := ∀ a b, ¬ p.Entangled a b

structure Forest (p : Plan) : Prop where
  /-- The depth of a loop counts the steps from it to the top level. -/
  depth : ∀ l lp, p.loop? l = some lp →
    p.climb lp.depth (some l) = none ∧ (∀ k < lp.depth, p.climb k (some l) ≠ none) ∧
      lp.depth ≤ maxDepth
  /-- The walk to any input from any scope ends, with what the bounded search finds. -/
  walk : ∀ scope (target : PortRef),
    p.Walk scope (p.scopeOf target.node)
      (p.loopToward scope p.nesting.loops.length (p.scopeOf target.node))

namespace Sound

variable {p : Plan} (hp : p.Sound)
include hp

theorem entangled_iff {a b : NodeId} :
    p.Entangled a b ↔ Holds p.graph b a ∧ Holds p.graph a b := by
  constructor
  · rintro ⟨la, lb, ha, hb, hab, hba⟩
    rw [(hp.loop?_eq_some hb).1] at hab
    rw [(hp.loop?_eq_some ha).1] at hba
    exact ⟨⟨hp.kind?_of_loop? hb, hab⟩, hp.kind?_of_loop? ha, hba⟩
  · rintro ⟨⟨hb, hab⟩, ha, hba⟩
    obtain ⟨la, hla⟩ := Option.isSome_iff_exists.mp (hp.isSome_loop?_iff.mpr ha)
    obtain ⟨lb, hlb⟩ := Option.isSome_iff_exists.mp (hp.isSome_loop?_iff.mpr hb)
    refine ⟨la, lb, hla, hlb, ?_, ?_⟩
    · rw [(hp.loop?_eq_some hlb).1]
      exact hab
    · rw [(hp.loop?_eq_some hla).1]
      exact hba

/-! ### Plans with entangled loops -/

/-- The scope of an entangled loop is entangled too. -/
theorem entangled_scopeOf {x y : NodeId} (h : p.Entangled x y) :
    ∃ s t, p.scopeOf x = some s ∧ p.Entangled s t := by
  obtain ⟨hyx, hxy⟩ := hp.entangled_iff.mp h
  have hsome : p.scopeOf x ≠ none := fun hnone => hp.scopeOf_eq_none_iff.mp hnone y hyx
  obtain ⟨s, hs⟩ := Option.ne_none_iff_exists'.mp hsome
  obtain ⟨hkind, hmem⟩ := hp.holds_of_scopeOf hs
  have hclosed := hp.nesting.closed s hkind
  by_cases hsx : s ∈ bodyOf p.graph x
  · exact ⟨s, x, hs, hp.entangled_iff.mpr ⟨⟨hxy.1, hsx⟩, hkind, hmem⟩⟩
  · -- The body of `x` lies in that of `s`, so `y` does; the body of `y` is no smaller than that
    -- of `s` and thus holds `s`.
    have hys : y ∈ bodyOf p.graph s := body_subset hp.graph hclosed hmem hsx y hxy.2
    have hsmall := hp.scopeOf_smallest hs hyx
    have hsy : s ∈ bodyOf p.graph y := by
      by_contra hnot
      have hlt := length_body_lt hp.graph hclosed hys hnot
      omega
    exact ⟨s, y, hs, hp.entangled_iff.mpr ⟨⟨hyx.1, hsy⟩, hkind, hys⟩⟩

theorem climb_entangled (k : ℕ) {x y : NodeId} (h : p.Entangled x y) :
    p.climb k (some x) ≠ none := by
  induction k generalizing x y with
  | zero => simp [climb]
  | succ k ih =>
    obtain ⟨s, t, hs, hst⟩ := hp.entangled_scopeOf h
    change p.climb k (p.scopeOf x) ≠ none
    rw [hs]
    exact ih hst

/-- The walk from an entangled loop to the top level does not end. -/
theorem walk_entangled {inner : ScopeId} {r : Option NodeId} (h : p.Walk none inner r)
    {x y : NodeId} (hinner : inner = some x) (hxy : p.Entangled x y) : False := by
  induction h generalizing x y with
  | top => simp at hinner
  | found htop =>
    obtain rfl := Option.some.inj hinner
    obtain ⟨s, -, hs, -⟩ := hp.entangled_scopeOf hxy
    rw [hs] at htop
    simp at htop
  | up _ _ ih =>
    obtain rfl := Option.some.inj hinner
    obtain ⟨s, t, hs, hst⟩ := hp.entangled_scopeOf hxy
    exact ih hs hst

/-! ### Plans without -/

theorem loop?_of_scopeOf {n s : NodeId} (h : p.scopeOf n = some s) :
    ∃ lp, p.loop? s = some lp :=
  Option.isSome_iff_exists.mp (hp.isSome_loop?_iff.mpr (hp.holds_of_scopeOf h).1)

variable (hu : p.Untangled)
include hu

theorem not_holds_back {a b : NodeId} (hab : Holds p.graph a b) : ¬ Holds p.graph b a :=
  fun hba => hu a b (hp.entangled_iff.mpr ⟨hba, hab⟩)

theorem untangled_graph : Nesting.Untangled p.graph :=
  fun _ _ h => hp.not_holds_back hu h.1 h.2

/-- A body lies behind its loop. -/
theorem place_lt_of_holds {l n : NodeId} (h : Holds p.graph l n) :
    p.graph.place l < p.graph.place n :=
  Nesting.place_lt_of_holds hp.graph hp.nesting.closed (hp.untangled_graph hu) h

theorem place_scopeOf_lt {n s : NodeId} (h : p.scopeOf n = some s) :
    p.graph.place s < p.graph.place n :=
  hp.place_lt_of_holds hu (hp.holds_of_scopeOf h)

/-- A loop is one level below its parent. -/
theorem depth_below {l s : NodeId} {lp sp : LoopPlan} (hl : p.loop? l = some lp)
    (hs : p.loop? s = some sp) (h : p.scopeOf l = some s) : lp.depth = sp.depth + 1 :=
  hp.nesting.below l lp s sp hl h hs (hp.place_scopeOf_lt hu h)

theorem climb_depth {l : NodeId} {lp : LoopPlan} (hl : p.loop? l = some lp) :
    p.climb lp.depth (some l) = none ∧ ∀ k < lp.depth, p.climb k (some l) ≠ none := by
  induction hplace : p.graph.place l using Nat.strong_induction_on generalizing l lp with
  | h place ih =>
    subst hplace
    cases hs : p.scopeOf l with
    | none =>
      rw [hp.nesting.top l lp hl hs]
      refine ⟨hs, ?_⟩
      intro k hk
      obtain rfl : k = 0 := by omega
      simp [climb]
    | some s =>
      obtain ⟨sp, hsp⟩ := hp.loop?_of_scopeOf hs
      obtain ⟨hnone, hsome⟩ := ih _ (hp.place_scopeOf_lt hu hs) hsp rfl
      rw [hp.depth_below hu hl hsp hs]
      have hstep : ∀ k, p.climb (k + 1) (some l) = p.climb k (some s) := by
        intro k
        change p.climb k (p.scopeOf l) = _
        rw [hs]
      refine ⟨by rw [hstep, hnone], ?_⟩
      intro k hk
      cases k with
      | zero => simp [climb]
      | succ k =>
        rw [hstep]
        exact hsome k (by omega)

theorem depth_le_length {l : NodeId} {lp : LoopPlan} (hl : p.loop? l = some lp) :
    lp.depth ≤ (loopIds p.graph).idxOf l + 1 := by
  induction hplace : p.graph.place l using Nat.strong_induction_on generalizing l lp with
  | h place ih =>
    subst hplace
    cases hs : p.scopeOf l with
    | none => simp [hp.nesting.top l lp hl hs]
    | some s =>
      obtain ⟨sp, hsp⟩ := hp.loop?_of_scopeOf hs
      have hlt := hp.place_scopeOf_lt hu hs
      have hle := ih _ hlt hsp rfl
      -- the loops stand in the order of their places
      have hidx : (loopIds p.graph).idxOf s < (loopIds p.graph).idxOf l := by
        have hl' : l ∈ loopIds p.graph := (mem_loopIds hp.graph).mpr (hp.kind?_of_loop? hl)
        have hs' : s ∈ loopIds p.graph := (mem_loopIds hp.graph).mpr (hp.kind?_of_loop? hsp)
        by_contra hnot
        have hsorted := List.pairwise_iff_getElem.mp (pairwise_place hp.graph)
        rcases Nat.lt_or_eq_of_le (Nat.not_lt.mp hnot) with hgt | heq
        · have hbad := hsorted _ _ (List.idxOf_lt_length_of_mem hl')
            (List.idxOf_lt_length_of_mem hs') hgt
          rw [List.getElem_idxOf, List.getElem_idxOf] at hbad
          omega
        · have hsame : l = s := (List.idxOf_inj hl').mp heq
          rw [hsame] at hlt
          omega
      rw [hp.depth_below hu hl hsp hs]
      omega

theorem walk_loopToward (scope : ScopeId) (fuel : ℕ) {l : NodeId} {lp : LoopPlan}
    (hl : p.loop? l = some lp) (hfuel : lp.depth ≤ fuel) :
    p.Walk scope (some l) (p.loopToward scope fuel (some l)) := by
  induction hplace : p.graph.place l using Nat.strong_induction_on generalizing l lp fuel with
  | h place ih =>
    subst hplace
    have hpos : 0 < lp.depth := by
      rcases Nat.eq_zero_or_pos lp.depth with hzero | hpos
      · have hnone := (hp.climb_depth hu hl).1
        simp [hzero, climb] at hnone
      · exact hpos
    obtain ⟨fuel, rfl⟩ : ∃ k, fuel = k + 1 := ⟨fuel - 1, by omega⟩
    unfold loopToward
    by_cases hscope : p.scopeOf l = scope
    · simp only [hscope, if_true]
      exact Walk.found hscope
    · simp only [hscope, if_false]
      refine Walk.up hscope ?_
      cases hs : p.scopeOf l with
      | none =>
        cases fuel <;> exact Walk.top
      | some s =>
        obtain ⟨sp, hsp⟩ := hp.loop?_of_scopeOf hs
        have hdepth := hp.depth_below hu hl hsp hs
        exact ih _ (hp.place_scopeOf_lt hu hs) fuel hsp (by omega) rfl

theorem forest : p.Forest := by
  refine ⟨?_, ?_⟩
  · intro l lp hl
    obtain ⟨hnone, hsome⟩ := hp.climb_depth hu hl
    exact ⟨hnone, hsome, (hp.loop?_eq_some hl).2.2.2⟩
  · intro scope target
    cases hs : p.scopeOf target.node with
    | none =>
      cases p.nesting.loops.length <;> exact Walk.top
    | some s =>
      obtain ⟨sp, hsp⟩ := hp.loop?_of_scopeOf hs
      have hle := hp.depth_le_length hu hsp
      have hlt : (loopIds p.graph).idxOf s < (loopIds p.graph).length :=
        List.idxOf_lt_length_of_mem ((mem_loopIds hp.graph).mpr (hp.kind?_of_loop? hsp))
      have hlen : p.nesting.loops.length = (loopIds p.graph).length := by
        rw [← hp.nesting.keys, List.length_map]
      exact hp.walk_loopToward hu scope _ hsp (by omega)

end Sound

/-- The loops of an accepted plan nest as a forest if and only if no two of them lie in each other's
body. -/
theorem forest_iff_untangled {p : Plan} (h : p.Accepted) : p.Forest ↔ p.Untangled := by
  have hp := sound_of_accepted h
  constructor
  · intro hforest a b hab
    obtain ⟨la, -, hla, -⟩ := id hab
    exact hp.climb_entangled la.depth hab (hforest.depth a la hla).1
  · exact hp.forest

theorem untangled_of_loops {p : Plan}
    (h : ∀ a ∈ p.nesting.loops, ∀ b ∈ p.nesting.loops, ¬ (a.1 ∈ b.2.body ∧ b.1 ∈ a.2.body)) :
    p.Untangled := by
  have hmem : ∀ l lp, p.loop? l = some lp → (l, lp) ∈ p.nesting.loops := by
    intro l lp hl
    obtain ⟨pre, post, heq, -⟩ := List.lookup_eq_some_iff.mp hl
    rw [heq]
    simp
  rintro a b ⟨la, lb, ha, hb, hab, hba⟩
  exact h (a, la) (hmem a la ha) (b, lb) (hmem b lb hb) ⟨hab, hba⟩

/-- A loop in the body of another one. -/
def loopInLoop : Definition :=
  ⟨[⟨"in", "data-input", []⟩, ⟨"rows", "logic-loop", []⟩, ⟨"cells", "logic-loop", []⟩,
    ⟨"cell", "data-transform", []⟩],
   [⟨⟨"in", "value"⟩, ⟨"rows", "collection"⟩⟩, ⟨⟨"rows", "item"⟩, ⟨"cells", "collection"⟩⟩,
    ⟨⟨"cells", "item"⟩, ⟨"cell", "input"⟩⟩, ⟨⟨"cell", "output"⟩, ⟨"cells", "result"⟩⟩,
    ⟨⟨"cells", "results"⟩, ⟨"rows", "result"⟩⟩]⟩

theorem loopInLoop_forest : ∃ p, ofDefinition loopInLoop = .ok p ∧
    (p.loop? "cells").map LoopPlan.depth = some 2 ∧ p.Forest := by
  obtain ⟨p, hp, hdepth, hloops⟩ := exists_of_check (d := loopInLoop)
    (P := fun p => (p.loop? "cells").map LoopPlan.depth = some 2 ∧
      ∀ a ∈ p.nesting.loops, ∀ b ∈ p.nesting.loops, ¬ (a.1 ∈ b.2.body ∧ b.1 ∈ a.2.body))
    (by decide +kernel)
  exact ⟨p, hp, hdepth, (forest_iff_untangled ⟨loopInLoop, hp⟩).mpr (untangled_of_loops hloops)⟩

/-- Two loops that pass their items to each other as results. -/
def crossedLoops : Definition :=
  ⟨[⟨"in", "data-input", []⟩, ⟨"a", "logic-loop", []⟩, ⟨"b", "logic-loop", []⟩],
   [⟨⟨"in", "value"⟩, ⟨"a", "collection"⟩⟩, ⟨⟨"a", "item"⟩, ⟨"b", "result"⟩⟩,
    ⟨⟨"b", "item"⟩, ⟨"a", "result"⟩⟩]⟩

/-- Their plan is accepted, yet one step up from a loop of depth one leads to the other loop. -/
theorem crossedLoops_not_forest : ∃ p, ofDefinition crossedLoops = .ok p ∧ ¬ p.Forest := by
  obtain ⟨p, hp, hdepth, hclimb⟩ := exists_of_check (d := crossedLoops)
    (P := fun p => (p.loop? "b").map LoopPlan.depth = some 1 ∧
      p.climb 1 (some "b") = some "a") (by decide +kernel)
  refine ⟨p, hp, ?_⟩
  intro hforest
  obtain ⟨lp, hlp, hone⟩ := Option.map_eq_some_iff.mp hdepth
  have hnone := (hforest.depth "b" lp hlp).1
  rw [hone, hclimb] at hnone
  simp at hnone

end PortGraph.Plan
