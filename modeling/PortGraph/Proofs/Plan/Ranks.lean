import Mathlib.Order.Bounds.Basic
import PortGraph.Proofs.Plan.Routes

/-!
Ranks: how many edges the longest path to a node has, with the edges that return results set aside.
They grow along every other edge, and no edge between members of one scope returns a result; so the
members stand in an order that their connections follow.
-/

namespace PortGraph

/-- A path along edges that return no result, by its edges. -/
inductive Graph.ForwardPath (g : Graph) (m : NodeId) : List Edge → NodeId → Prop
  | nil : ForwardPath g m [] m
  | concat {es : List Edge} {e : Edge} : ForwardPath g m es e.source → e ∈ g.edges →
      e.label.loopBack = false → ForwardPath g m (es ++ [e]) e.target

namespace Plan

open Nesting

/-! ### The ranks of the predecessors -/

/-- The rank of a node when its predecessors have theirs: the longest path along forward edges has
one more edge than the longest one to some predecessor. -/
def rankAfter (g : Graph) (ranks : List (NodeId × ℕ)) (id : NodeId) : ℕ :=
  (((g.predecessors id).filter fun c => !c.label.loopBack).filterMap fun c =>
    (ranks.lookup c.node).map (· + 1)).foldl max 0

/-- A rank is told by the ranks of the predecessors, in whatever order these are listed. -/
theorem rankAfter_congr {g g' : Graph} {ranks ranks' : List (NodeId × ℕ)} {id : NodeId}
    (hperm : (g.predecessors id).Perm (g'.predecessors id))
    (hsame : ∀ c ∈ g.predecessors id, c.label.loopBack = false →
      ranks.lookup c.node = ranks'.lookup c.node) :
    rankAfter g ranks id = rankAfter g' ranks' id := by
  have hknown : (((g.predecessors id).filter fun c => !c.label.loopBack).filterMap fun c =>
        (ranks.lookup c.node).map (· + 1)) =
      ((g.predecessors id).filter fun c => !c.label.loopBack).filterMap fun c =>
        (ranks'.lookup c.node).map (· + 1) := by
    refine List.filterMap_congr fun c hc => ?_
    obtain ⟨hmem, hforward⟩ := List.mem_filter.mp hc
    rw [hsame c hmem (by simpa using hforward)]
  unfold rankAfter
  rw [hknown]
  exact ((hperm.filter _).filterMap _).foldl_eq 0

private theorem isGreatest_foldl_max (l : List ℕ) (a : ℕ) :
    IsGreatest {k | k = a ∨ k ∈ l} (l.foldl max a) := by
  induction l generalizing a with
  | nil => simp
  | cons b rest ih =>
    obtain ⟨hmem, hle⟩ := ih (max a b)
    refine ⟨?_, ?_⟩
    · rcases hmem with heq | hrest
      · rcases max_choice a b with hmax | hmax
        · exact Or.inl (heq.trans hmax)
        · exact Or.inr (List.mem_cons.mpr (Or.inl (heq.trans hmax)))
      · exact Or.inr (List.mem_cons_of_mem _ hrest)
    · rintro k (rfl | hk)
      · exact (le_max_left k b).trans (hle (Or.inl rfl))
      · rcases List.mem_cons.mp hk with rfl | hk
        · exact (le_max_right a k).trans (hle (Or.inl rfl))
        · exact hle (Or.inr hk)

theorem lt_rankAfter {g : Graph} {ranks : List (NodeId × ℕ)} {e : Edge} (he : e ∈ g.edges)
    (hforward : e.label.loopBack = false) {k : ℕ} (hk : ranks.lookup e.source = some k) :
    k < rankAfter g ranks e.target := by
  have hknown : k + 1 ∈ ((g.predecessors e.target).filter fun c => !c.label.loopBack).filterMap
      fun c => (ranks.lookup c.node).map (· + 1) := by
    refine List.mem_filterMap.mpr ⟨⟨e.source, e.label⟩, List.mem_filter.mpr ⟨?_, ?_⟩, ?_⟩
    · exact Graph.mem_predecessors.mpr he
    · simpa using hforward
    · simp [hk]
  exact (isGreatest_foldl_max _ 0).2 (Or.inr hknown)

/-- Some predecessor accounts for a rank that is not zero. -/
theorem exists_of_rankAfter {g : Graph} {ranks : List (NodeId × ℕ)} {id : NodeId} :
    rankAfter g ranks id = 0 ∨ ∃ e ∈ g.edges, e.target = id ∧ e.label.loopBack = false ∧
      ∃ k, ranks.lookup e.source = some k ∧ rankAfter g ranks id = k + 1 := by
  refine (isGreatest_foldl_max _ 0).1.imp_right fun hmem => ?_
  obtain ⟨c, hc, hrank⟩ := List.mem_filterMap.mp hmem
  obtain ⟨hpred, hforward⟩ := List.mem_filter.mp hc
  obtain ⟨k, hk, heq⟩ := Option.map_eq_some_iff.mp hrank
  exact ⟨⟨c.node, id, c.label⟩, Graph.mem_predecessors.mp hpred, rfl, by simpa using hforward, k, hk,
    heq.symm⟩

/-- What holds of the ranks while the nodes are taken in order. -/
structure Ranked (g : Graph) (done : List NodeId) (ranks : List (NodeId × ℕ)) : Prop where
  keys : ranks.map (·.1) = done
  rank : ∀ id ∈ done, ranks.lookup id = some (rankAfter g ranks id)

theorem Ranked.lookup_eq_none {g : Graph} {done : List NodeId} {ranks : List (NodeId × ℕ)}
    (h : Ranked g done ranks) {id : NodeId} (hid : id ∉ done) : ranks.lookup id = none := by
  rw [List.lookup_eq_none_iff]
  intro e he
  rw [bne_iff_ne]
  rintro rfl
  exact hid (h.keys ▸ List.mem_map.mpr ⟨e, he, rfl⟩)

private theorem mem_done_of_forward {g : Graph} (hg : g.WellFormed) {done rest : List NodeId}
    {a b id : NodeId} (horder : g.order = done ++ id :: rest) (hb : b ∈ done ++ [id])
    (h : b ∈ g.forward a) : a ∈ done := by
  have hplace : g.place b ≤ done.length := by
    have hlt := List.idxOf_lt_length_of_mem hb
    rw [List.length_append, List.length_singleton] at hlt
    unfold Graph.place
    rw [horder, List.append_cons, List.idxOf_append_of_mem hb]
    omega
  have hlt := hg.place_lt h
  by_contra hnot
  have hle : done.length ≤ g.place a := by
    unfold Graph.place
    rw [horder, List.idxOf_append_of_notMem hnot]
    omega
  omega

private theorem ranked_step {g : Graph} (hg : g.WellFormed) {done rest : List NodeId} {id : NodeId}
    {ranks : List (NodeId × ℕ)} (h : Ranked g done ranks) (horder : g.order = done ++ id :: rest) :
    Ranked g (done ++ [id]) (ranks ++ [(id, rankAfter g ranks id)]) := by
  have hnd : (done ++ id :: rest).Nodup := horder ▸ hg.order_nodup
  have hid : id ∉ done := fun hmem => (List.nodup_append.mp hnd).2.2 id hmem id (by simp) rfl
  have hlookup := fun k =>
    lookup_append_singleton ranks k id (rankAfter g ranks id) (h.lookup_eq_none hid)
  -- the predecessors of a node stand before it, so a new entry at the end leaves its rank
  have hkept : ∀ n ∈ done ++ [id],
      rankAfter g (ranks ++ [(id, rankAfter g ranks id)]) n = rankAfter g ranks n := by
    intro n hn
    refine rankAfter_congr (List.Perm.refl _) fun c hc hforward => ?_
    have hbefore : c.node ∈ done := mem_done_of_forward hg horder hn
      (Graph.mem_forward.mpr ⟨c.label, Graph.mem_predecessors.mp hc, hforward⟩)
    have hne : c.node ≠ id := fun heq => hid (heq ▸ hbefore)
    rw [hlookup, if_neg hne]
  refine ⟨by simp [h.keys], ?_⟩
  intro n hn
  rw [hlookup, hkept n hn]
  split_ifs with heq
  · rw [heq]
  · have hdone : n ∈ done := (List.mem_append.mp hn).resolve_right (by simpa using heq)
    exact h.rank n hdone

private theorem ranked_foldl {g : Graph} (hg : g.WellFormed) (rest : List NodeId)
    {done : List NodeId} {ranks : List (NodeId × ℕ)} (h : Ranked g done ranks)
    (horder : g.order = done ++ rest) :
    Ranked g g.order
      (rest.foldl (fun ranks id => ranks ++ [(id, rankAfter g ranks id)]) ranks) := by
  induction rest generalizing done ranks with
  | nil =>
    rw [List.append_nil] at horder
    rw [horder]
    exact h
  | cons id rest ih => exact ih (ranked_step hg h horder) (by simp [horder])

theorem ranked_ranksOf {g : Graph} (hg : g.WellFormed) : Ranked g g.order (ranksOf g) :=
  ranked_foldl hg g.order ⟨rfl, by simp⟩ rfl

namespace Sound

variable {p : Plan} (hp : p.Sound)
include hp

theorem ranked : Ranked p.graph p.graph.order p.ranks := by
  rw [hp.ranks_eq]
  exact ranked_ranksOf hp.graph

/-- Ranks grow along forward edges. -/
theorem rank_lt {e : Edge} (he : e ∈ p.graph.edges) (hforward : e.label.loopBack = false) :
    p.rank e.source < p.rank e.target := by
  have hsource := hp.ranked.rank _ ((hp.graph.mem_order_iff _).mpr (hp.graph.source_mem he))
  have htarget := hp.ranked.rank _ ((hp.graph.mem_order_iff _).mpr (hp.graph.target_mem he))
  have hlt := lt_rankAfter he hforward hsource
  unfold rank
  rwa [hsource, htarget]

/-- A rank that is not zero is one more than that of some node with an edge to it. -/
theorem exists_rank_succ (n : NodeId) :
    p.rank n = 0 ∨ ∃ e ∈ p.graph.edges, e.target = n ∧ e.label.loopBack = false ∧
      p.rank n = p.rank e.source + 1 := by
  by_cases hn : n ∈ p.graph.order
  · have hrank : p.rank n = rankAfter p.graph p.ranks n := by
      rw [rank, hp.ranked.rank n hn, Option.getD_some]
    rw [hrank]
    refine exists_of_rankAfter.imp_right ?_
    rintro ⟨e, he, htarget, hforward, k, hk, heq⟩
    exact ⟨e, he, htarget, hforward, by rw [heq, rank, hk, Option.getD_some]⟩
  · rw [rank, hp.ranked.lookup_eq_none hn]
    exact Or.inl rfl

/-! ### Longest paths -/

theorem length_le_rank {m n : NodeId} {es : List Edge} (h : p.graph.ForwardPath m es n) :
    es.length ≤ p.rank n := by
  induction h with
  | nil => exact Nat.zero_le _
  | concat _ he hforward ih =>
    rw [List.length_append, List.length_singleton]
    exact ih.trans_lt (hp.rank_lt he hforward)

theorem exists_path_of_rank (n : NodeId) :
    ∃ m es, p.graph.ForwardPath m es n ∧ es.length = p.rank n := by
  induction hrank : p.rank n using Nat.strong_induction_on generalizing n with
  | h k ih =>
    subst hrank
    rcases hp.exists_rank_succ n with hzero | ⟨e, he, rfl, hforward, hsucc⟩
    · exact ⟨n, [], .nil, hzero.symm⟩
    · obtain ⟨m, es, hpath, hlength⟩ := ih _ (hsucc ▸ Nat.lt_succ_self _) e.source rfl
      exact ⟨m, es ++ [e], hpath.concat he hforward, by simp [hlength, hsucc]⟩

/-! ### Members by rank and id -/

omit hp in
theorem precedes_iff {a b : NodeId} :
    precedes p.ranks a b = true ↔ p.rank a < p.rank b ∨ p.rank a = p.rank b ∧ a ≤ b := by
  unfold precedes rank
  simp

omit hp in
theorem precedes_total (a b : NodeId) :
    precedes p.ranks a b = true ∨ precedes p.ranks b a = true := by
  rw [precedes_iff, precedes_iff]
  rcases lt_trichotomy (p.rank a) (p.rank b) with h | h | h
  · exact Or.inl (Or.inl h)
  · rcases le_total a b with hab | hba
    · exact Or.inl (Or.inr ⟨h, hab⟩)
    · exact Or.inr (Or.inr ⟨h.symm, hba⟩)
  · exact Or.inr (Or.inl h)

omit hp in
theorem precedes_trans (a b c : NodeId) :
    precedes p.ranks a b = true → precedes p.ranks b c = true → precedes p.ranks a c = true := by
  rw [precedes_iff, precedes_iff, precedes_iff]
  rintro (hab | ⟨hab, hab'⟩) (hbc | ⟨hbc, hbc'⟩)
  · exact Or.inl (hab.trans hbc)
  · exact Or.inl (hbc ▸ hab)
  · exact Or.inl (hab ▸ hbc)
  · exact Or.inr ⟨hab.trans hbc, hab'.trans hbc'⟩

omit hp in
theorem precedes_antisymm {a b : NodeId} (h : precedes p.ranks a b = true)
    (h' : precedes p.ranks b a = true) : a = b := by
  rcases precedes_iff.mp h with hlt | ⟨heq, hle⟩ <;>
    rcases precedes_iff.mp h' with hlt' | ⟨heq', hle'⟩
  · omega
  · omega
  · omega
  · exact le_antisymm hle hle'

theorem pairwise_precedes (s : ScopeId) :
    (p.membersIn s).Pairwise fun a b => precedes p.ranks a b = true := by
  rw [hp.membersIn_eq]
  split_ifs
  · exact pairwise_sortBy _ precedes_total precedes_trans _
  · exact List.Pairwise.nil

/-- The members of a scope stand by rank. -/
theorem pairwise_membersIn (s : ScopeId) :
    (p.membersIn s).Pairwise fun a b => p.rank a ≤ p.rank b := by
  refine (hp.pairwise_precedes s).imp fun hab => ?_
  rcases precedes_iff.mp hab with h | ⟨h, -⟩
  · exact h.le
  · exact h.le

/-- Of two members with one rank, the one with the smaller id stands first. -/
theorem pairwise_rank_id (s : ScopeId) :
    (p.membersIn s).Pairwise fun a b => p.rank a < p.rank b ∨ p.rank a = p.rank b ∧ a < b := by
  refine (hp.pairwise_precedes s).imp₂ (fun _ _ hab hne => ?_) (hp.nodup_membersIn s)
  exact (precedes_iff.mp hab).imp_right fun ⟨hrank, hle⟩ => ⟨hrank, lt_of_le_of_ne hle hne⟩

theorem idxOf_lt_of_rank_lt {s : ScopeId} {a b : NodeId} (ha : a ∈ p.membersIn s)
    (hb : b ∈ p.membersIn s) (h : p.rank a < p.rank b) :
    (p.membersIn s).idxOf a < (p.membersIn s).idxOf b := by
  by_contra hnot
  refine h.not_ge ?_
  rcases (not_lt.mp hnot).lt_or_eq with hlt | heq
  · have hrank := List.pairwise_iff_getElem.mp (hp.pairwise_membersIn s) _ _
      (List.idxOf_lt_length_of_mem hb) (List.idxOf_lt_length_of_mem ha) hlt
    rwa [List.getElem_idxOf, List.getElem_idxOf] at hrank
  · exact ((List.idxOf_inj hb).mp heq ▸ le_rfl)

/-- Between nodes of one scope no edge returns a result, also if loops hold each other. -/
theorem forward_of_members {s : ScopeId} {e : Edge} (he : e ∈ p.graph.edges)
    (hsource : p.scopeOf e.source = s) (htarget : p.scopeOf e.target = s) :
    e.label.loopBack = false := by
  by_contra hback
  obtain ⟨hkind, hport⟩ := (hp.graph.loopBack_iff he).mp (by simpa using hback)
  have hin : p.graph.inbound? e.target PortName.result = some ⟨e.source, e.label.sourcePort⟩ :=
    hp.graph.inbound?_eq_some.mpr ⟨e.label, he, hport, rfl⟩
  have hbody : Holds p.graph e.target e.source :=
    ⟨hkind, (hp.nesting.closed e.target hkind).result _ hin⟩
  cases s with
  | none => exact hp.scopeOf_eq_none_iff.mp hsource _ hbody
  | some l =>
    have hholds := hp.holds_of_scopeOf htarget
    -- the scope of the source is no larger than the body that returns the value
    have hmutual : Holds p.graph e.target l := by
      refine ⟨hkind, ?_⟩
      by_contra hnot
      have hlt := length_body_lt hp.graph (hp.nesting.closed l hholds.1) hholds.2 hnot
      have hle := hp.scopeOf_smallest hsource hbody
      omega
    obtain ⟨c, hc, hnode, hresult⟩ :=
      seed_of_holds_back hp.graph hp.nesting.closed hmutual hholds
    have hseed := (Graph.mem_seeds.mp hc).1
    have hedge := hp.graph.edge_unique hseed he hnode (hresult.trans hport.symm)
    have hsame : l = e.source := congrArg Edge.source hedge
    have hself := (hp.holds_of_scopeOf hsource).2
    rw [← hsame] at hself
    exact loop_notMem_body hp.graph l hself

theorem rank_lt_of_carried {s : ScopeId} {a : NodeId} {c : Connection}
    (hc : c ∈ p.forwardOut a) (ha : p.scopeOf a = s) (htarget : p.scopeOf c.node = s) :
    p.rank a < p.rank c.node := by
  obtain ⟨he, -⟩ := Graph.mem_carried.mp hc
  exact hp.rank_lt he (hp.forward_of_members he ha htarget)

end Sound

/-- Ranks are the lengths of longest paths, and the members of a scope stand in an order of rank and
id that all connections between them follow. -/
theorem ranksOrder {p : Plan} (h : p.Accepted) :
    (∀ n, IsGreatest {k | ∃ m es, p.graph.ForwardPath m es n ∧ es.length = k} (p.rank n)) ∧
      (∀ e ∈ p.graph.edges, e.label.loopBack = false → p.rank e.source < p.rank e.target) ∧
      ∀ s, (p.membersIn s).Pairwise
          (fun a b => p.rank a < p.rank b ∨ p.rank a = p.rank b ∧ a < b) ∧
        ∀ a ∈ p.membersIn s, ∀ c ∈ p.forwardOut a, c.node ∈ p.membersIn s →
          (p.membersIn s).idxOf a < (p.membersIn s).idxOf c.node := by
  have hp := sound_of_accepted h
  refine ⟨fun n => ⟨hp.exists_path_of_rank n, ?_⟩, fun e he hforward => hp.rank_lt he hforward,
    fun s => ⟨hp.pairwise_rank_id s, fun a ha c hc hnode => ?_⟩⟩
  · rintro k ⟨m, es, hpath, rfl⟩
    exact hp.length_le_rank hpath
  · exact hp.idxOf_lt_of_rank_lt ha hnode (hp.rank_lt_of_carried hc (hp.mem_membersIn.mp ha).2
      (hp.mem_membersIn.mp hnode).2)

/-- A value that goes to a node both directly and through a loop, and loops that pass their items to
each other as results. -/
def shortAndLong : Definition :=
  ⟨[⟨"in", "data-input", []⟩, ⟨"rows", "logic-loop", []⟩, ⟨"row", "data-transform", []⟩,
    ⟨"pair", "logic-merge", []⟩, ⟨"a", "logic-loop", []⟩, ⟨"b", "logic-loop", []⟩],
   [⟨⟨"in", "value"⟩, ⟨"pair", "input1"⟩⟩, ⟨⟨"in", "value"⟩, ⟨"rows", "collection"⟩⟩,
    ⟨⟨"rows", "item"⟩, ⟨"row", "input"⟩⟩, ⟨⟨"row", "output"⟩, ⟨"rows", "result"⟩⟩,
    ⟨⟨"rows", "results"⟩, ⟨"pair", "input2"⟩⟩, ⟨⟨"a", "item"⟩, ⟨"b", "result"⟩⟩,
    ⟨⟨"b", "item"⟩, ⟨"a", "result"⟩⟩]⟩

theorem shortAndLong_ranksOrder : ∃ p, ofDefinition shortAndLong = .ok p ∧ ¬ p.Untangled ∧
    p.membersIn none = ["in", "rows", "pair"] ∧
    IsGreatest {k | ∃ m es, p.graph.ForwardPath m es "pair" ∧ es.length = k} 2 ∧
    (p.membersIn none).idxOf "rows" < (p.membersIn none).idxOf "pair" := by
  obtain ⟨p, hp, hrank, hmembers, ha, hb, c, hc, hnode⟩ := exists_of_check (d := shortAndLong)
    (P := fun p => p.rank "pair" = 2 ∧ p.membersIn none = ["in", "rows", "pair"] ∧
      (p.loop? "a").map LoopPlan.body = some ["b"] ∧ (p.loop? "b").map LoopPlan.body = some ["a"] ∧
      ∃ c ∈ p.forwardOut "rows", c.node = "pair") (by decide +kernel)
  obtain ⟨hgreatest, -, hscopes⟩ := ranksOrder ⟨shortAndLong, hp⟩
  refine ⟨p, hp, ?_, hmembers, hrank ▸ hgreatest "pair", ?_⟩
  · obtain ⟨la, hla, hbodya⟩ := Option.map_eq_some_iff.mp ha
    obtain ⟨lb, hlb, hbodyb⟩ := Option.map_eq_some_iff.mp hb
    exact fun hu => hu "a" "b" ⟨la, lb, hla, hlb, by simp [hbodyb], by simp [hbodya]⟩
  · have hlater := (hscopes none).2 "rows" (by simp [hmembers]) c hc (by simp [hnode, hmembers])
    rwa [hnode] at hlater

end Plan

end PortGraph
