import PortGraph.Proofs.Graph.Reordered
import PortGraph.Proofs.Plan.Laminar
import PortGraph.Proofs.Plan.Reached

/-!
The plan of a definition does not depend on the order in which its nodes and links are listed. Each
part is told by the edges at a node, by the bodies or by the scopes, and these are the same; where
loops do not nest the order of equally large bodies would matter, so the plans are untangled ones.
-/

namespace PortGraph

open PortGraph.Order Relation

namespace Graph.Reorders

open Nesting Plan

variable {g g' : Graph} (h : g.Reorders g')
include h

theorem seeds (l : NodeId) : (Nesting.seeds g l).Perm (Nesting.seeds g' l) :=
  (h.successors l).filter _

theorem nextOf (n : NodeId) : (Plan.nextOf g n).Perm (Plan.nextOf g' n) := (h.successors n).map _

variable (hg : g.WellFormed) (hg' : g'.WellFormed)
include hg

theorem carried (n : NodeId) : (Plan.carried g n).Perm (Plan.carried g' n) := by
  unfold Plan.carried
  rw [h.kind?_eq hg]
  exact (h.successors n).filter _

include hg'

theorem bodyOf_eq (l : NodeId) : bodyOf g' l = bodyOf g l := by
  have hleads : Leads (around g' l) = Leads (around g l) := by
    funext a b
    simp only [leads_around, h.mem_forward_iff]
  refine (pairwise_ascending _).eq_of_mem_iff (pairwise_ascending _) fun m => ?_
  change m ∈ bodyOf g' l ↔ m ∈ bodyOf g l
  rw [mem_bodyOf hg, mem_bodyOf hg', hleads]
  simp only [(h.seeds l).mem_iff]

theorem holds_iff {l n : NodeId} : Holds g' l n ↔ Holds g l n := by
  unfold Holds
  rw [h.kind?_eq hg, h.bodyOf_eq hg hg']

theorem captures (l : NodeId) : (Nesting.captures g l (bodyOf g l)).Perm
    (Nesting.captures g' l (bodyOf g' l)) := by
  rw [h.bodyOf_eq hg hg']
  exact List.Perm.flatMap_left _ fun n _ => ((h.predecessors n).filter _).map _

theorem closed {l : NodeId} (hclosed : Closed g l) : Closed g' l where
  inward m hm c hc := by
    rw [h.bodyOf_eq hg hg'] at hm ⊢
    exact hclosed.inward m hm c ((h.successors m).mem_iff.mpr hc)
  results c hc := by
    rw [h.bodyOf_eq hg hg']
    exact hclosed.results c ((h.successors l).mem_iff.mpr hc)
  result r hr := by
    rw [h.inbound?_eq hg hg'] at hr
    rw [h.bodyOf_eq hg hg']
    exact hclosed.result r hr

theorem loopIds : (Nesting.loopIds g).Perm (Nesting.loopIds g') := by
  unfold Nesting.loopIds
  simp only [h.kind?_eq hg]
  exact (h.order hg hg').filter _

theorem body_eq (l : NodeId) : body (bodies g') l = body (bodies g) l := by
  unfold body bodies
  simp only [lookup_map_key, (h.loopIds hg hg').mem_iff, h.bodyOf_eq hg hg']

theorem unreachable_eq : unreachableOf g' = unreachableOf g := by
  have hleads : Leads (Plan.nextOf g') = Leads (Plan.nextOf g) := by
    funext a b
    exact propext (h.nextOf a).symm.mem_iff
  refine (pairwise_ascending _).eq_of_mem_iff (pairwise_ascending _) fun n => ?_
  change n ∈ unreachableOf g' ↔ n ∈ unreachableOf g
  rw [mem_unreachableOf hg, mem_unreachableOf hg', hleads]
  simp only [h.ids.mem_iff, (h.entries.map Node.id).mem_iff]

theorem ranks_eq (n : NodeId) : (ranksOf g).lookup n = (ranksOf g').lookup n := by
  by_cases hn : n ∈ g.order
  swap
  · rw [(ranked_ranksOf hg).lookup_eq_none hn, (ranked_ranksOf hg').lookup_eq_none
      fun hn' => hn ((h.order hg hg').mem_iff.mpr hn')]
  induction hplace : g.place n using Nat.strong_induction_on generalizing n with
  | h place ih =>
    subst hplace
    rw [(ranked_ranksOf hg).rank n hn,
      (ranked_ranksOf hg').rank n ((h.order hg hg').mem_iff.mp hn)]
    refine congrArg some (rankAfter_congr (h.predecessors n) fun c hc hforward => ?_)
    have he := mem_predecessors.mp hc
    exact ih _ (hg.place_lt (mem_forward.mpr ⟨c.label, he, hforward⟩)) c.node
      ((hg.mem_order_iff _).mpr (hg.source_mem he)) rfl

end Graph.Reorders

/-! ### Levels of loops -/

namespace Nesting

/-- Levels for the loops that are still to be planned: a loop is one level below its parent, which
is planned before it. -/
structure Levels (g : Graph) (level : NodeId → ℕ) (n : Nesting) (loops : List NodeId) : Prop where
  planned : ∀ l lp, n.loops.lookup l = some lp → lp.depth = level l
  bound : ∀ l ∈ loops, level l ≤ maxDepth
  top : ∀ l ∈ loops, n.scope l = none → level l = 1
  below : ∀ l ∈ loops, ∀ s, n.scope l = some s → level l = level s + 1 ∧
    ((n.loops.lookup s).isSome ∨ s ∈ loops ∧ g.place s < g.place l)

variable {g : Graph} {level : NodeId → ℕ} {bodies : List (NodeId × List NodeId)}

theorem Levels.addLoop {n : Nesting} {loop : NodeId} {rest : List NodeId}
    (h : Levels g level n (loop :: rest))
    (hsorted : (loop :: rest).Pairwise fun a b => g.place a < g.place b) :
    ∃ n', Nesting.addLoop g bodies n loop = .ok n' ∧ Levels g level n' rest := by
  have hlater := (List.pairwise_cons.mp hsorted).1
  unfold Nesting.addLoop
  extract_lets depth bod plan
  have hdepth : depth = level loop := by
    simp only [depth]
    cases hs : n.scope loop with
    | none => exact (h.top loop (by simp) hs).symm
    | some s =>
      obtain ⟨hlevel, hplanned | ⟨hmem, hlt⟩⟩ := h.below loop (by simp) s hs
      · obtain ⟨lp, hlp⟩ := Option.isSome_iff_exists.mp hplanned
        simp [hlp, h.planned s lp hlp, hlevel]
      · rcases List.mem_cons.mp hmem with rfl | hmem
        · omega
        · have hgt := hlater s hmem
          omega
  have hdeep : ¬ maxDepth < depth := Nat.not_lt.mpr (hdepth ▸ h.bound loop (by simp))
  rw [if_neg hdeep]
  refine ⟨_, rfl, ?_, fun l hl => h.bound l (by simp [hl]), fun l hl => h.top l (by simp [hl]), ?_⟩
  · intro l lp hl
    rw [List.lookup_append, Option.or_eq_some_iff] at hl
    rcases hl with hl | ⟨-, hl⟩
    · exact h.planned l lp hl
    · have hlast := (lookup_eq_some_iff_mem (by simp)).mp hl
      obtain ⟨rfl, rfl⟩ := Prod.mk.inj (List.mem_singleton.mp hlast)
      exact hdepth
  · intro l hl s hs
    obtain ⟨hlevel, hparent⟩ := h.below l (by simp [hl]) s hs
    refine ⟨hlevel, ?_⟩
    rw [List.lookup_append, Option.isSome_or, Bool.or_eq_true]
    rcases hparent with hplanned | ⟨hmem, hlt⟩
    · exact Or.inl (Or.inl hplanned)
    · rcases List.mem_cons.mp hmem with rfl | hmem
      · exact Or.inl (Or.inr (by simp))
      · exact Or.inr ⟨hmem, hlt⟩

theorem Levels.foldlM (loops : List NodeId)
    (hsorted : loops.Pairwise fun a b => g.place a < g.place b) {n : Nesting}
    (h : Levels g level n loops) : ∃ n', loops.foldlM (Nesting.addLoop g bodies) n = .ok n' := by
  induction loops generalizing n with
  | nil => exact ⟨n, rfl⟩
  | cons loop rest ih =>
    obtain ⟨m, hm, hrest⟩ : ∃ m, Nesting.addLoop g bodies n loop = .ok m ∧ Levels g level m rest :=
      h.addLoop hsorted
    obtain ⟨n', hn'⟩ := ih (List.pairwise_cons.mp hsorted).2 hrest
    exact ⟨n', bind_eq_ok.mpr ⟨m, hm, hn'⟩⟩

end Nesting

/-! ### Plans of reordered graphs -/

namespace Plan

open Nesting

namespace Sound

variable {p : Plan} (hp : p.Sound) (hu : p.Untangled)
include hp hu

/-- Bodies around one node are of different sizes. -/
theorem eq_of_length_body {a b n : NodeId} (ha : Holds p.graph a n) (hb : Holds p.graph b n)
    (hlen : (bodyOf p.graph a).length = (bodyOf p.graph b).length) : a = b := by
  have hlt : ∀ {m l : NodeId}, m ∈ bodyOf p.graph l → Holds p.graph l n → Holds p.graph m n →
      (bodyOf p.graph m).length < (bodyOf p.graph l).length := fun hml hl hm =>
    length_body_lt hp.graph (hp.nesting.closed _ hl.1) hml
      fun hback => hp.not_holds_back hu ⟨hl.1, hml⟩ ⟨hm.1, hback⟩
  by_contra hne
  rcases hp.holds_or_holds hu ha hb hne with hab | hba
  · have hbad := hlt hab.2 ha hb
    omega
  · have hbad := hlt hba.2 hb ha
    omega

variable {g' : Graph} (h : p.graph.Reorders g') (hg' : g'.WellFormed)
include h hg'

theorem containing_eq (n : NodeId) :
    containing (bodies g') n = containing (bodies p.graph) n := by
  have hbodies : (bodies p.graph).Perm (bodies g') := by
    unfold bodies
    simp only [h.bodyOf_eq hp.graph hg']
    exact (h.loopIds hp.graph hg').map _
  have hperm := (hbodies.filter fun b => b.2.contains n).map (·.1)
  have hholds : ∀ a ∈ ((bodies p.graph).filter fun b => b.2.contains n).map (·.1),
      Holds p.graph a n := fun a ha => (mem_containing hp.graph).mp ((mem_sortBy _ _ a).mpr ha)
  unfold containing bySize
  simp only [h.body_eq hp.graph hg']
  refine (sortBy_eq_of_perm _ ?_ ?_ hperm ?_).symm
  · intro a b
    simp only [decide_eq_true_eq]
    omega
  · intro a b c
    simp only [decide_eq_true_eq]
    omega
  · intro a ha b hb hab hba
    have ha := hholds a ha
    have hb := hholds b hb
    rw [decide_eq_true_eq, body_bodies hp.graph ha.1, body_bodies hp.graph hb.1] at hab hba
    exact hp.eq_of_length_body hu ha hb (Nat.le_antisymm hba hab)

theorem scope_eq {n : Nesting}
    (hn : n.scopes = g'.ids.map fun id => (id, (containing (bodies g') id).getLast?))
    (id : NodeId) : n.scope id = p.scopeOf id := by
  unfold Nesting.scope
  rw [hn, lookup_map_key, hp.scopeOf_eq, hp.containing_eq hu h hg']
  simp only [h.ids.mem_iff]
  by_cases hid : id ∈ g'.ids <;> simp [hid]

theorem levels : Levels g' (fun l => ((p.loop? l).map LoopPlan.depth).getD 0)
    ⟨g'.ids.map fun id => (id, (containing (bodies g') id).getLast?), []⟩ (loopIds g') := by
  have hloop : ∀ l ∈ loopIds g', ∃ lp, p.loop? l = some lp := by
    intro l hl
    rw [mem_loopIds hg', h.kind?_eq hp.graph] at hl
    exact Option.isSome_iff_exists.mp (hp.isSome_loop?_iff.mpr hl)
  refine ⟨by simp, ?_, ?_, ?_⟩
  · intro l hl
    obtain ⟨lp, hlp⟩ := hloop l hl
    simpa [hlp] using (hp.loop?_eq_some hlp).2.2.2
  · intro l hl hs
    rw [hp.scope_eq hu h hg' rfl] at hs
    obtain ⟨lp, hlp⟩ := hloop l hl
    simpa [hlp] using hp.nesting.top l lp hlp hs
  · intro l hl s hs
    rw [hp.scope_eq hu h hg' rfl] at hs
    obtain ⟨lp, hlp⟩ := hloop l hl
    obtain ⟨sp, hsp⟩ := hp.loop?_of_scopeOf hs
    have hholds := hp.holds_of_scopeOf hs
    refine ⟨by simpa [hlp, hsp] using hp.depth_below hu hlp hsp hs, Or.inr ⟨?_, ?_⟩⟩
    · rw [mem_loopIds hg', h.kind?_eq hp.graph]
      exact hholds.1
    · have hclosed : ∀ k, g'.kind? k = some .loop → Closed g' k := fun k hk =>
        h.closed hp.graph hg' (hp.nesting.closed k (h.kind?_eq hp.graph k ▸ hk))
      have hu' : Nesting.Untangled g' := by
        intro a b hab
        rw [h.holds_iff hp.graph hg', h.holds_iff hp.graph hg'] at hab
        exact hp.untangled_graph hu a b hab
      exact Nesting.place_lt_of_holds hg' hclosed hu' ((h.holds_iff hp.graph hg').mpr hholds)

theorem exists_nesting : ∃ n, Nesting.ofGraph g' = .ok n := by
  obtain ⟨n, hn⟩ := (hp.levels hu h hg').foldlM (loopIds g') (pairwise_place hg')
  refine ⟨n, (Nesting.ofGraph_eq_ok_iff hg').mpr ⟨?_, ?_, hn⟩⟩
  · intro l hl
    rw [h.kind?_eq hp.graph] at hl
    exact h.closed hp.graph hg' (hp.nesting.closed l hl)
  · intro id hid
    rw [hp.containing_eq hu h hg']
    refine (hp.nesting.chain id (h.ids.mem_iff.mpr hid)).imp fun _ _ => ?_
    exact (h.holds_iff hp.graph hg').mpr

end Sound

theorem outputIds_perm {g g' : Graph} (h : g.Reorders g') : (outputIds g).Perm (outputIds g') :=
  (h.nodes.filter _).map _

/-- A definition whose plan is untangled is planned in any order. -/
theorem exists_plan {d d' : Definition} (h : d.Reorders d') {p : Plan}
    (hd : ofDefinition d = .ok p) (hu : p.Untangled) :
    ∃ p', ofDefinition d' = .ok p' ∧ p.graph.Reorders p'.graph := by
  have hp := sound_of_accepted ⟨d, hd⟩
  obtain ⟨g', hd', hg⟩ := Graph.reorders_ofDefinition h (graph_of_definition hd)
  have hg' := Graph.wellFormed_of_definition hd'
  obtain ⟨n, hn⟩ := hp.exists_nesting hu hg hg'
  have hids := outputIds_perm hg
  refine ⟨assemble g' n, ofDefinition_eq_ok_iff.mpr ⟨g', hd', ofGraph_eq_ok_iff.mpr ⟨n, hn, ?_, ?_,
    rfl⟩⟩, hg⟩
  · rw [← hids.length_eq]
    exact hp.outputs_length
  · intro id hid
    rw [hp.scope_eq hu hg hg' (accepted_of_graph hg' hn).scopes_eq]
    exact hp.outputs_top id (hids.mem_iff.mpr hid)

/-- The plans of one loop agree, the captures in some order. -/
structure SameLoop (lp lp' : LoopPlan) : Prop where
  body : lp.body = lp'.body
  depth : lp.depth = lp'.depth
  hasResult : lp.hasResult = lp'.hasResult
  captures : lp.captures.Perm lp'.captures

/-- Two plans agree, the captures of each loop and the gates of each node in some order. -/
structure Agrees (p p' : Plan) : Prop where
  ranks : ∀ n, p.ranks.lookup n = p'.ranks.lookup n
  scopes : ∀ n, p.nesting.scopes.lookup n = p'.nesting.scopes.lookup n
  members : ∀ s, p.membersIn s = p'.membersIn s
  loops : ∀ l, Option.Rel SameLoop (p.loop? l) (p'.loop? l)
  gates : ∀ n, (p.gates n).Perm (p'.gates n)
  exclusives : ∀ gate, p.exclusives.lookup gate = p'.exclusives.lookup gate
  unreachable : p.unreachable = p'.unreachable
  output : p.output = p'.output

theorem visit_eq_of_reorders {g g' : Graph} (h : g.Reorders g') (hg : g.WellFormed) (gate : Gate) :
    visit g' gate = visit g gate := by
  funext found id
  have hperm := h.carried hg id
  unfold visit
  simp only [hperm.isEmpty_eq, hperm.all_eq]

namespace Sound

variable {p p' : Plan} (hp : p.Sound) (hu : p.Untangled) (hp' : p'.Sound)
  (h : p.graph.Reorders p'.graph)
include hp hp' h

theorem untangled_of_reorders (hu : p.Untangled) : p'.Untangled := by
  intro a b hab
  rw [hp'.entangled_iff, h.holds_iff hp.graph hp'.graph, h.holds_iff hp.graph hp'.graph] at hab
  exact hu a b (hp.entangled_iff.mpr hab)

theorem ranks_eq_of_reorders (n : NodeId) : p.ranks.lookup n = p'.ranks.lookup n := by
  rw [hp.ranks_eq, hp'.ranks_eq]
  exact h.ranks_eq hp.graph hp'.graph n

theorem unreachable_eq_of_reorders : p.unreachable = p'.unreachable := by
  rw [hp.unreachable_eq, hp'.unreachable_eq]
  exact (h.unreachable_eq hp.graph hp'.graph).symm

theorem loop?_isSome_iff (l : NodeId) : (p'.loop? l).isSome ↔ (p.loop? l).isSome := by
  rw [hp.isSome_loop?_iff, hp'.isSome_loop?_iff]
  unfold Plan.kind?
  rw [h.kind?_eq hp.graph]

include hu

theorem scopeOf_eq_of_reorders (n : NodeId) : p'.scopeOf n = p.scopeOf n :=
  hp.scope_eq hu h hp'.graph hp'.nesting.scopes_eq n

theorem climb_eq (k : ℕ) (s : ScopeId) : p'.climb k s = p.climb k s := by
  induction k generalizing s with
  | zero => rfl
  | succ k ih =>
    cases s with
    | none => exact ih none
    | some l =>
      change p'.climb k (p'.scopeOf l) = p.climb k (p.scopeOf l)
      rw [hp.scopeOf_eq_of_reorders hu hp' h, ih]

theorem sameLoop {l : NodeId} {lp lp' : LoopPlan} (hl : p.loop? l = some lp)
    (hl' : p'.loop? l = some lp') : SameLoop lp lp' := by
  obtain ⟨hbody, hcaptures, hresult, -⟩ := hp.loop?_eq_some hl
  obtain ⟨hbody', hcaptures', hresult', -⟩ := hp'.loop?_eq_some hl'
  refine ⟨?_, ?_, ?_, ?_⟩
  · rw [hbody, hbody', h.bodyOf_eq hp.graph hp'.graph]
  · -- both count the same steps to the top level
    have hu' := hp.untangled_of_reorders hp' h hu
    obtain ⟨htop, hbelow⟩ := hp.climb_depth hu hl
    obtain ⟨htop', hbelow'⟩ := hp'.climb_depth hu' hl'
    rw [hp.climb_eq hu hp' h] at htop'
    rcases Nat.lt_trichotomy lp.depth lp'.depth with hlt | heq | hgt
    · exact absurd ((hp.climb_eq hu hp' h _ _).trans htop) (hbelow' _ hlt)
    · exact heq
    · exact absurd htop' (hbelow _ hgt)
  · rw [hresult, hresult', h.inbound?_eq hp.graph hp'.graph]
  · rw [hcaptures, hcaptures']
    exact h.captures hp.graph hp'.graph l

theorem loops_eq (l : NodeId) : Option.Rel SameLoop (p.loop? l) (p'.loop? l) := by
  have hiff := hp.loop?_isSome_iff hp' h l
  cases hl : p.loop? l with
  | none =>
    cases hl' : p'.loop? l with
    | none => exact .none
    | some lp' => simp [hl, hl'] at hiff
  | some lp =>
    cases hl' : p'.loop? l with
    | none => simp [hl, hl'] at hiff
    | some lp' => exact .some (hp.sameLoop hu hp' h hl hl')

theorem membersIn_eq_of_reorders (s : ScopeId) : p.membersIn s = p'.membersIn s := by
  have hscopes : s ∈ p'.scopeIds ↔ s ∈ p.scopeIds := by
    rw [hp.scopeIds_eq, hp'.scopeIds_eq, List.mem_cons, List.mem_cons]
    exact or_congr_right ((h.loopIds hp.graph hp'.graph).map some).mem_iff.symm
  have hprecedes : precedes p'.ranks = precedes p.ranks := by
    funext a b
    unfold precedes
    simp only [hp.ranks_eq_of_reorders hp' h]
  have hperm : (p.graph.order.filter fun n => p.nesting.scope n == s).Perm
      (p'.graph.order.filter fun n => p'.nesting.scope n == s) := by
    have hscope : p'.nesting.scope = p.nesting.scope :=
      funext (hp.scopeOf_eq_of_reorders hu hp' h)
    rw [hscope]
    exact (h.order hp.graph hp'.graph).filter _
  rw [hp.membersIn_eq, hp'.membersIn_eq]
  simp only [hscopes]
  unfold membersOf
  rw [hprecedes, sortBy_eq_of_perm _ precedes_total precedes_trans hperm
    fun _ _ _ _ => precedes_antisymm]

theorem exclusives_iff {e : Gate × List NodeId} : e ∈ p'.exclusives ↔ e ∈ p.exclusives := by
  rw [hp.mem_exclusives, hp'.mem_exclusives, h.kind?_eq hp.graph,
    hp.scopeOf_eq_of_reorders hu hp' h, ← hp.membersIn_eq_of_reorders hu hp' h]
  simp only [exclusivesOf_eq, visit_eq_of_reorders h hp.graph]

theorem exclusives_eq_of_reorders (gate : Gate) :
    p.exclusives.lookup gate = p'.exclusives.lookup gate := by
  ext xs
  rw [lookup_eq_some_iff_mem hp.nodup_gate_keys, lookup_eq_some_iff_mem hp'.nodup_gate_keys,
    hp.exclusives_iff hu hp' h]

theorem gates_perm (n : NodeId) : (p.gates n).Perm (p'.gates n) := by
  refine (List.perm_ext_iff_of_nodup (hp.nodup_gates n) (hp'.nodup_gates n)).mpr fun gate => ?_
  rw [hp.mem_gates_iff, hp'.mem_gates_iff]
  unfold exclusive
  rw [hp.exclusives_eq_of_reorders hu hp' h]

theorem output_eq_of_reorders : p.output = p'.output := by
  have hids : outputIds p.graph = outputIds p'.graph := by
    have hperm := outputIds_perm h
    have hlength := hp.outputs_length
    generalize outputIds p.graph = ids at hperm hlength
    match ids, hlength with
    | [], _ => exact hperm.nil_eq
    | [id], _ => exact (List.singleton_perm.mp hperm)
  have hsinks : sinksOf p'.graph p.unreachable (p.membersIn none) =
      sinksOf p.graph p.unreachable (p.membersIn none) := by
    unfold sinksOf
    simp only [(h.carried hp.graph _).isEmpty_eq]
  rw [hp.output_eq, hp'.output_eq, ← hp.unreachable_eq_of_reorders hp' h,
    ← hp.membersIn_eq_of_reorders hu hp' h, hsinks]
  unfold outputOf
  rw [hids]

theorem agrees : p.Agrees p' where
  ranks := hp.ranks_eq_of_reorders hp' h
  scopes n := by
    rw [hp.lookup_scopes, hp'.lookup_scopes, hp.scopeOf_eq_of_reorders hu hp' h]
    simp only [h.ids.mem_iff]
  members := hp.membersIn_eq_of_reorders hu hp' h
  loops := hp.loops_eq hu hp' h
  gates := hp.gates_perm hu hp' h
  exclusives := hp.exclusives_eq_of_reorders hu hp' h
  unreachable := hp.unreachable_eq_of_reorders hp' h
  output := hp.output_eq_of_reorders hu hp' h

end Sound

/-- An untangled plan is the same however the nodes and the links of its definition are listed. -/
theorem listingIrrelevant {d d' : Definition} {p : Plan} (hnodes : d.nodes.Perm d'.nodes)
    (hlinks : d.links.Perm d'.links) (hd : ofDefinition d = .ok p) (hu : p.Untangled) :
    ∃ p', ofDefinition d' = .ok p' ∧ p.Agrees p' := by
  obtain ⟨p', hd', h⟩ := exists_plan ⟨hnodes, hlinks⟩ hd hu
  exact ⟨p', hd', (sound_of_accepted ⟨d, hd⟩).agrees hu (sound_of_accepted ⟨d', hd'⟩) h⟩

/-- A loop with a choice between two values from outside. -/
def chosenRows : Definition :=
  ⟨[⟨"in", "data-input", []⟩, ⟨"left", "data-input", []⟩, ⟨"right", "data-input", []⟩,
    ⟨"rows", "logic-loop", []⟩, ⟨"choice", "logic-condition", []⟩],
   [⟨⟨"in", "value"⟩, ⟨"rows", "collection"⟩⟩, ⟨⟨"rows", "item"⟩, ⟨"choice", "condition"⟩⟩,
    ⟨⟨"left", "value"⟩, ⟨"choice", "trueValue"⟩⟩, ⟨⟨"right", "value"⟩, ⟨"choice", "falseValue"⟩⟩,
    ⟨⟨"choice", "result"⟩, ⟨"rows", "result"⟩⟩]⟩

/-- Read backwards it has another order, and its captures the other way round. -/
theorem chosenRows_listingIrrelevant : ∃ p p', ofDefinition chosenRows = .ok p ∧
    ofDefinition ⟨chosenRows.nodes.reverse, chosenRows.links.reverse⟩ = .ok p' ∧
    p.graph.order = ["right", "left", "in", "rows", "choice"] ∧
    p'.graph.order = ["in", "left", "right", "rows", "choice"] ∧
    (p.loop? "rows").map LoopPlan.captures ≠ (p'.loop? "rows").map LoopPlan.captures ∧
    p.Agrees p' := by
  obtain ⟨p, hp, horder, hcaptures, hloops⟩ := exists_of_check (d := chosenRows)
    (P := fun p => p.graph.order = ["right", "left", "in", "rows", "choice"] ∧
      (p.loop? "rows").map LoopPlan.captures =
        some [⟨⟨"left", "value"⟩, ⟨"choice", "trueValue"⟩⟩,
          ⟨⟨"right", "value"⟩, ⟨"choice", "falseValue"⟩⟩] ∧
      ∀ a ∈ p.nesting.loops, ∀ b ∈ p.nesting.loops, ¬ (a.1 ∈ b.2.body ∧ b.1 ∈ a.2.body))
    (by decide +kernel)
  obtain ⟨q, hq, hqorder, hqcaptures⟩ := exists_of_check
    (d := ⟨chosenRows.nodes.reverse, chosenRows.links.reverse⟩)
    (P := fun p => p.graph.order = ["in", "left", "right", "rows", "choice"] ∧
      (p.loop? "rows").map LoopPlan.captures =
        some [⟨⟨"right", "value"⟩, ⟨"choice", "falseValue"⟩⟩,
          ⟨⟨"left", "value"⟩, ⟨"choice", "trueValue"⟩⟩]) (by decide +kernel)
  obtain ⟨p', hp', hagrees⟩ : ∃ p', ofDefinition ⟨chosenRows.nodes.reverse,
      chosenRows.links.reverse⟩ = .ok p' ∧ p.Agrees p' := listingIrrelevant
    (List.reverse_perm _).symm (List.reverse_perm _).symm hp (untangled_of_loops hloops)
  obtain rfl := Except.ok.inj (hq.symm.trans hp')
  refine ⟨p, q, hp, hq, horder, hqorder, ?_, hagrees⟩
  rw [hcaptures, hqcaptures]
  decide

end Plan

end PortGraph
