import Mathlib.Data.List.Chain
import PortGraph.Proofs.Plan.Bodies

/-!
What planning the nesting of a graph yields: the scope of a node is the smallest body that holds it,
the bodies that hold it lead to its scope one through the other, and a loop is one level deeper
than its parent if the parent was planned before it.
-/

namespace PortGraph.Nesting

open Relation

variable {g : Graph}

/-- A loop with a node in its body. -/
def Holds (g : Graph) (loop node : NodeId) : Prop :=
  g.kind? loop = some .loop ∧ node ∈ bodyOf g loop

theorem mem_loopIds (hg : g.WellFormed) {l : NodeId} :
    l ∈ loopIds g ↔ g.kind? l = some .loop := by
  unfold loopIds
  rw [List.mem_filter, hg.mem_order_iff]
  simp only [beq_iff_eq, and_iff_right_iff_imp]
  intro h
  rw [← Graph.isSome_node?_iff]
  unfold Graph.kind? at h
  cases hn : g.node? l with
  | none => simp [hn] at h
  | some n => rfl

/-- The bodies as they are planned. -/
def bodies (g : Graph) : List (NodeId × List NodeId) := (loopIds g).map fun l => (l, bodyOf g l)

theorem body_bodies (hg : g.WellFormed) {l : NodeId} (hl : g.kind? l = some .loop) :
    body (bodies g) l = bodyOf g l := by
  unfold body bodies
  rw [lookup_map_key, if_pos ((mem_loopIds hg).mpr hl)]
  rfl

theorem mem_containing (hg : g.WellFormed) {n l : NodeId} :
    l ∈ containing (bodies g) n ↔ Holds g l n := by
  unfold containing bySize bodies
  rw [mem_sortBy]
  constructor
  · intro h
    obtain ⟨⟨l', b⟩, hb, rfl⟩ := List.mem_map.mp h
    obtain ⟨hmem, hn⟩ := List.mem_filter.mp hb
    obtain ⟨a, ha, heq⟩ := List.mem_map.mp hmem
    obtain ⟨rfl, rfl⟩ := Prod.mk.inj heq
    exact ⟨(mem_loopIds hg).mp ha, List.contains_iff_mem.mp hn⟩
  · rintro ⟨hl, hn⟩
    refine List.mem_map.mpr ⟨(l, bodyOf g l), List.mem_filter.mpr ⟨?_, ?_⟩, rfl⟩
    · exact List.mem_map.mpr ⟨l, (mem_loopIds hg).mpr hl, rfl⟩
    · exact List.contains_iff_mem.mpr hn

/-- No body that holds a node is smaller than the last one in the list. -/
theorem length_last_le (hg : g.WellFormed) {n s l : NodeId}
    (hs : (containing (bodies g) n).getLast? = some s) (hl : l ∈ containing (bodies g) n) :
    (bodyOf g s).length ≤ (bodyOf g l).length := by
  have hsorted : (containing (bodies g) n).Pairwise fun a b =>
      decide ((body (bodies g) b).length ≤ (body (bodies g) a).length) = true := by
    apply pairwise_sortBy
    · intro a b
      simp only [decide_eq_true_eq]
      omega
    · intro a b c
      simp only [decide_eq_true_eq]
      omega
  obtain ⟨pre, hpre⟩ := List.getLast?_eq_some_iff.mp hs
  have hloop : ∀ x ∈ containing (bodies g) n, body (bodies g) x = bodyOf g x :=
    fun x hx => body_bodies hg ((mem_containing hg).mp hx).1
  rw [← hloop l hl, ← hloop s (by rw [hpre]; simp)]
  rw [hpre] at hsorted hl
  rcases List.mem_append.mp hl with hl | hl
  · simpa using (List.pairwise_append.mp hsorted).2.2 l hl s (by simp)
  · rw [List.mem_singleton.mp hl]

theorem unnested?_eq_none_iff (hg : g.WellFormed) {n : NodeId} {ls : List NodeId}
    (hls : ∀ l ∈ ls, g.kind? l = some .loop) :
    unnested? (bodies g) n ls = none ↔ ls.IsChain (Holds g) := by
  induction ls with
  | nil => simp [unnested?]
  | cons outer rest ih =>
    cases rest with
    | nil => simp [unnested?]
    | cons inner rest =>
      have houter := hls outer (by simp)
      have hrest := ih fun l hl => hls l (List.mem_cons_of_mem _ hl)
      have hin : (body (bodies g) outer).contains inner = true ↔ Holds g outer inner := by
        rw [body_bodies hg houter, List.contains_iff_mem]
        exact ⟨fun h => ⟨houter, h⟩, And.right⟩
      rw [List.isChain_cons_cons, ← hrest, ← hin, unnested?]
      split_ifs with h
      · exact (and_iff_right h).symm
      · exact iff_of_false (by simp) fun hboth => h hboth.1

/-- Each element of a chain leads to the last. -/
theorem leads_to_last {α : Type} {r : α → α → Prop} {pre : List α} {s a : α}
    (h : (pre ++ [s]).IsChain r) (ha : a ∈ pre) : TransGen r a s := by
  have htrans : (pre ++ [s]).Pairwise (TransGen r) :=
    List.isChain_iff_pairwise.mp (h.imp fun _ _ => TransGen.single)
  exact (List.pairwise_append.mp htrans).2.2 a ha s (by simp)

/-! ### Loops in order -/

/-- What holds of a nesting while its loops are added. -/
structure Planned (g : Graph) (n : Nesting) : Prop where
  plan : ∀ l lp, n.loops.lookup l = some lp →
    lp.body = body (bodies g) l ∧ lp.captures = captures g l (body (bodies g) l) ∧
      lp.hasResult = (g.inbound? l PortName.result).isSome ∧ lp.depth ≤ maxDepth
  top : ∀ l lp, n.loops.lookup l = some lp → n.scope l = none → lp.depth = 1
  below : ∀ l lp parent plan, n.loops.lookup l = some lp → n.scope l = some parent →
    n.loops.lookup parent = some plan → g.place parent < g.place l → lp.depth = plan.depth + 1

theorem planned_addLoop {n n' : Nesting} {loop : NodeId} (h : Planned g n)
    (hfresh : n.loops.lookup loop = none)
    (hlater : ∀ l lp, n.loops.lookup l = some lp → g.place l < g.place loop)
    (hadd : addLoop g (bodies g) n loop = .ok n') :
    Planned g n' ∧ n'.scopes = n.scopes ∧
      ∃ plan, n'.loops = n.loops ++ [(loop, plan)] := by
  unfold addLoop at hadd
  extract_lets depth bod plan at hadd
  split_ifs at hadd with hdeep
  obtain rfl : { n with loops := n.loops ++ [(loop, plan)] } = n' := by simpa using hadd
  refine ⟨?_, rfl, plan, rfl⟩
  have hlookup : ∀ k, (n.loops ++ [(loop, plan)]).lookup k =
      if k = loop then some plan else n.loops.lookup k :=
    fun k => lookup_append_singleton n.loops k loop plan hfresh
  refine ⟨?_, ?_, ?_⟩
  · intro l lp hl
    rw [hlookup] at hl
    by_cases heq : l = loop
    · obtain rfl : plan = lp := by simpa [heq] using hl
      subst heq
      exact ⟨rfl, rfl, rfl, Nat.not_lt.mp hdeep⟩
    · rw [if_neg heq] at hl
      exact h.plan l lp hl
  · intro l lp hl htop
    change n.scope l = none at htop
    rw [hlookup] at hl
    by_cases heq : l = loop
    · obtain rfl : plan = lp := by simpa [heq] using hl
      subst heq
      change depth = 1
      simp only [depth, htop]
    · rw [if_neg heq] at hl
      exact h.top l lp hl htop
  · intro l lp parent pplan hl hscope hparent hplace
    change n.scope l = some parent at hscope
    rw [hlookup] at hl hparent
    by_cases hp : parent = loop
    · -- the loop that was added last is the parent of none that was there before
      subst hp
      by_cases heq : l = parent
      · rw [heq] at hplace
        omega
      · rw [if_neg heq] at hl
        have hlt := hlater l lp hl
        omega
    · rw [if_neg hp] at hparent
      by_cases heq : l = loop
      · obtain rfl : plan = lp := by simpa [heq] using hl
        subst heq
        change depth = pplan.depth + 1
        simp only [depth, hscope, hparent, Option.map_some, Option.getD_some]
      · rw [if_neg heq] at hl
        exact h.below l lp parent pplan hl hscope hparent hplace

theorem planned_foldlM (loops : List NodeId)
    (hsorted : loops.Pairwise fun a b => g.place a < g.place b) {n n' : Nesting}
    (h : Planned g n) (hlater : ∀ l lp, n.loops.lookup l = some lp → ∀ k ∈ loops,
      g.place l < g.place k) (hfold : loops.foldlM (addLoop g (bodies g)) n = .ok n') :
    Planned g n' ∧ n'.scopes = n.scopes ∧ n'.loops.map (·.1) = n.loops.map (·.1) ++ loops := by
  induction loops generalizing n with
  | nil =>
    obtain rfl : n = n' := by simpa [pure, Except.pure] using hfold
    exact ⟨h, rfl, by simp⟩
  | cons loop rest ih =>
    rw [List.foldlM_cons] at hfold
    obtain ⟨m, hm, hrest⟩ := ok_of_bind hfold
    obtain ⟨hhead, htail⟩ := List.pairwise_cons.mp hsorted
    have hfresh : n.loops.lookup loop = none := by
      by_contra hne
      obtain ⟨lp, hlp⟩ := Option.ne_none_iff_exists'.mp hne
      exact absurd (hlater loop lp hlp loop (by simp)) (lt_irrefl _)
    obtain ⟨hplanned, hscopes, plan, hloops⟩ := planned_addLoop h hfresh
      (fun l lp hl => hlater l lp hl loop (by simp)) hm
    have hlater' : ∀ l lp, m.loops.lookup l = some lp → ∀ k ∈ rest, g.place l < g.place k := by
      intro l lp hl k hk
      rw [hloops, lookup_append_singleton n.loops l loop plan hfresh] at hl
      by_cases heq : l = loop
      · exact heq ▸ hhead k hk
      · rw [if_neg heq] at hl
        exact hlater l lp hl k (List.mem_cons_of_mem _ hk)
    obtain ⟨hp, hs, hk⟩ := ih htail hplanned hlater' hrest
    refine ⟨hp, hs.trans hscopes, ?_⟩
    rw [hk, hloops]
    simp

theorem Planned.none (scopes : List (NodeId × ScopeId)) : Planned g ⟨scopes, []⟩ :=
  ⟨by simp, by simp, by simp⟩

theorem pairwise_place (hg : g.WellFormed) :
    (loopIds g).Pairwise fun a b => g.place a < g.place b := by
  apply List.Pairwise.sublist List.filter_sublist
  rw [List.pairwise_iff_getElem]
  intro i j hi hj hij
  unfold Graph.place
  rw [hg.order_nodup.idxOf_getElem i hi, hg.order_nodup.idxOf_getElem j hj]
  exact hij

/-- The nesting of a graph that was accepted. -/
structure Accepted (g : Graph) (n : Nesting) : Prop extends Planned g n where
  keys : n.loops.map (·.1) = loopIds g
  scopes_eq : n.scopes = g.ids.map fun id => (id, (containing (bodies g) id).getLast?)
  closed : ∀ l, g.kind? l = some .loop → Closed g l
  chain : ∀ id ∈ g.ids, (containing (bodies g) id).IsChain (Holds g)

/-- When the loops of a graph are planned, and what is left is to find their depths. -/
theorem ofGraph_eq_ok_iff (hg : g.WellFormed) {n : Nesting} :
    ofGraph g = .ok n ↔ (∀ l, g.kind? l = some .loop → Closed g l) ∧
      (∀ id ∈ g.ids, (containing (bodies g) id).IsChain (Holds g)) ∧
      (loopIds g).foldlM (addLoop g (bodies g))
        ⟨g.ids.map fun id => (id, (containing (bodies g) id).getLast?), []⟩ = .ok n := by
  have hclosed : ((bodies g).findSome? fun body =>
        (bodyFault? g body.1 body.2).map (GraphError.invalidBody body.1)) = none ↔
      ∀ l, g.kind? l = some .loop → Closed g l := by
    unfold bodies
    rw [List.findSome?_eq_none_iff, List.forall_mem_map]
    simp only [Option.map_eq_none_iff, bodyFault?_eq_none_iff hg, mem_loopIds hg]
  have hchain : (g.ids.findSome? fun id => unnested? (bodies g) id (containing (bodies g) id)) =
        none ↔ ∀ id ∈ g.ids, (containing (bodies g) id).IsChain (Holds g) := by
    rw [List.findSome?_eq_none_iff]
    refine forall₂_congr fun id _ => ?_
    exact unnested?_eq_none_iff hg fun l hl => ((mem_containing hg).mp hl).1
  rw [← hclosed, ← hchain]
  unfold ofGraph
  extract_lets loops bods scopes
  split
  · rename_i hfault
    exact iff_of_false (by simp) fun h => absurd (hfault.symm.trans h.1) (by simp)
  · rename_i hfault
    split
    · rename_i hnested
      exact iff_of_false (by simp) fun h => absurd (hnested.symm.trans h.2.1) (by simp)
    · rename_i hnested
      exact ⟨fun h => ⟨hfault, hnested, h⟩, fun h => h.2.2⟩

theorem accepted_of_graph (hg : g.WellFormed) {n : Nesting} (h : ofGraph g = .ok n) :
    Accepted g n := by
  obtain ⟨hclosed, hchain, hfold⟩ := (ofGraph_eq_ok_iff hg).mp h
  obtain ⟨hplanned, hscopes, hkeys⟩ := planned_foldlM (loopIds g) (pairwise_place hg)
    (Planned.none _) (by simp) hfold
  exact ⟨hplanned, by simpa using hkeys, hscopes, hclosed, hchain⟩

/-! ### Bodies that pass the check -/

/-- No two loops of the graph hold each other. -/
def Untangled (g : Graph) : Prop := ∀ a b, ¬ (Holds g a b ∧ Holds g b a)

/-- A loop that lies in the body of a loop in its own body passes that loop its item or its index as
the result: nothing else leads from one body into the loop around it. -/
theorem seed_of_holds_back (hg : g.WellFormed) (hclosed : ∀ l, g.kind? l = some .loop → Closed g l)
    {a b : NodeId} (hab : Holds g a b) (hba : Holds g b a) :
    ∃ c ∈ seeds g b, c.node = a ∧ c.label.targetPort = PortName.result := by
  by_contra hnone
  have hinward := (hclosed a hab.1).inward
  obtain ⟨-, c, hc, hpath⟩ := (mem_bodyOf hg).mp hba.2
  -- without such a seed no path from `b` leaves the body of `a`
  have hinside : ∀ m, ReflTransGen (Order.Leads (around g b)) c.node m → m ∈ bodyOf g a := by
    intro m hm
    induction hm with
    | refl =>
      refine (hinward b hab.2 c (List.mem_filter.mp hc).1).resolve_left fun hresult => ?_
      exact hnone ⟨c, hc, hresult⟩
    | @tail m n _ hstep ih =>
      obtain ⟨label, he, hforward⟩ := Graph.mem_forward.mp (leads_around.mp hstep).2
      refine (hinward m ih ⟨n, label⟩ (Graph.mem_successors.mpr he)).resolve_left ?_
      rintro ⟨rfl, hport⟩
      exact Bool.false_ne_true (hforward.symm.trans ((hg.loopBack_iff he).mpr ⟨hab.1, hport⟩))
  exact loop_notMem_body hg a (hinside a hpath)

section Nested

variable (hg : g.WellFormed) (hclosed : ∀ l, g.kind? l = some .loop → Closed g l)
  (hu : Untangled g)
include hg hclosed hu

/-- Such bodies nest if their loops do. -/
theorem holds_trans {l s n : NodeId} (hls : Holds g l s) (hsn : Holds g s n) : Holds g l n := by
  have hnot : l ∉ bodyOf g s := fun h => hu l s ⟨hls, hsn.1, h⟩
  exact ⟨hls.1, body_subset hg (hclosed l hls.1) hls.2 hnot n hsn.2⟩

/-- A seed edge does not return a result: its loop and the loop it led to would be entangled. -/
theorem seed_forward {l : NodeId} (hl : g.kind? l = some .loop) {c : Connection}
    (hc : c ∈ seeds g l) : c.label.loopBack = false := by
  by_contra hback
  have he := Graph.mem_successors.mp (List.mem_filter.mp hc).1
  obtain ⟨hkind, hport⟩ := (hg.loopBack_iff he).mp (by simpa using hback)
  have hin : g.inbound? c.node PortName.result = some ⟨l, c.label.sourcePort⟩ :=
    hg.inbound?_eq_some.mpr ⟨c.label, he, hport, rfl⟩
  have hholds : Holds g c.node l := ⟨hkind, (hclosed c.node hkind).result _ hin⟩
  by_cases hself : c.node = l
  · rw [hself] at hholds
    exact loop_notMem_body hg l hholds.2
  · exact hu c.node l ⟨hholds, hl, seed_mem_body hg hc hself⟩

/-- A body lies behind its loop. -/
theorem place_lt_of_holds {l n : NodeId} (h : Holds g l n) : g.place l < g.place n := by
  obtain ⟨hl, hn⟩ := h
  obtain ⟨-, c, hc, hpath⟩ := (mem_bodyOf hg).mp hn
  induction hpath with
  | refl =>
    have he := Graph.mem_successors.mp (List.mem_filter.mp hc).1
    have hforward := seed_forward hg hclosed hu hl hc
    exact hg.place_lt (Graph.mem_forward.mpr ⟨c.label, he, hforward⟩)
  | tail hinit hstep ih =>
    obtain ⟨hne, hforward⟩ := leads_around.mp hstep
    have hlt := ih ((mem_bodyOf hg).mpr ⟨hne, c, hc, hinit⟩)
    exact hlt.trans (hg.place_lt hforward)

end Nested

end PortGraph.Nesting
