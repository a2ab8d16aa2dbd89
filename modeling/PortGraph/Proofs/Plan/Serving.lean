import PortGraph.Proofs.Plan.Feeds

/-!
Nodes that serve one branch only. If all that a node leads to ends up in one value of a condition,
the node should wait for that branch. It does just if no value on the way is taken into the body of
a loop: what a body captures is not followed.
-/

namespace PortGraph.Plan

open Nesting Relation

/-- A connection leads from one node to the other. -/
def Flows (p : Plan) (a b : NodeId) : Prop := ∃ e ∈ p.graph.edges, e.source = a ∧ e.target = b

/-- Connections lead from the node to the other one, and not through the given one. -/
def Downstream (p : Plan) (c n m : NodeId) : Prop :=
  ReflTransGen (fun a b => p.Flows a b ∧ b ≠ c) n m

/-- Everything downstream of the node ends up in the value of the branch. -/
structure ServesOnly (p : Plan) (gate : Gate) (n : NodeId) : Prop where
  condition : p.kind? gate.condition = some .condition
  member : n ∈ p.membersIn (p.scopeOf gate.condition)
  other : n ≠ gate.condition
  leads : ∀ m, p.Downstream gate.condition n m → ReflTransGen p.Flows m gate.condition
  port : ∀ e ∈ p.graph.edges, p.Downstream gate.condition n e.source →
    e.target = gate.condition → e.label.targetPort = gate.branch.port
  stays : ∀ e ∈ p.graph.edges, p.Downstream gate.condition n e.source →
    p.scopeOf gate.condition ≠ some e.target

/-- No value of a node downstream is taken into the body of a loop. -/
def Uncaptured (p : Plan) (gate : Gate) (n : NodeId) : Prop :=
  ∀ m, p.Downstream gate.condition n m → p.scopeOf m = p.scopeOf gate.condition →
    ∀ c ∈ p.forwardOut m, p.scopeOf c.node = p.scopeOf gate.condition

variable {p : Plan} {gate : Gate} {n m : NodeId}

theorem Downstream.ne (h : p.Downstream gate.condition n m) (hn : n ≠ gate.condition) :
    m ≠ gate.condition := by
  rcases ReflTransGen.cases_tail h with rfl | ⟨k, -, -, hm⟩
  · exact hn
  · exact hm

theorem Downstream.step (h : p.Downstream gate.condition n m) {e : Edge} (he : e ∈ p.graph.edges)
    (hsource : e.source = m) (htarget : e.target ≠ gate.condition) :
    p.Downstream gate.condition n e.target :=
  ReflTransGen.tail h ⟨⟨e, he, hsource, rfl⟩, htarget⟩

namespace Sound

variable (hp : p.Sound) (hu : p.Untangled)
include hp

theorem ids_of_downstream (h : p.Downstream gate.condition n m) (hn : n ∈ p.graph.ids) :
    m ∈ p.graph.ids := by
  rcases ReflTransGen.cases_tail h with rfl | ⟨k, -, ⟨e, he, -, rfl⟩, -⟩
  · exact hn
  · exact hp.graph.target_mem he

include hu

/-- What a loop keeps to itself leads nowhere else. -/
theorem not_leads_of_closed {c : NodeId} (hcarried : p.forwardOut m = []) (hne : c ≠ m)
    (hscope : p.scopeOf c = p.scopeOf m) : ¬ ReflTransGen p.Flows m c := by
  intro hleads
  have hinside : ∀ k, ReflTransGen p.Flows m k → k = m ∨ p.Encloses m k := by
    intro k hk
    induction hk with
    | refl => exact Or.inl rfl
    | tail _ hstep ih =>
      obtain ⟨e, he, rfl, rfl⟩ := hstep
      rcases ih with hsource | hsource
      · by_cases hstarts : p.graph.StartsIteration e
        · exact Or.inr (hsource ▸ hp.edge_seed hu he hstarts)
        · have hmem : (⟨e.target, e.label⟩ : Connection) ∈ p.forwardOut m := by
            rw [← hsource]
            exact Graph.mem_carried.mpr ⟨he, hstarts⟩
          rw [hcarried] at hmem
          simp at hmem
      · rcases hp.edge_from_body hu he hsource with hin | ⟨hback, -⟩
        · exact Or.inr hin
        · exact Or.inl hback
  rcases hinside c hleads with heq | hin
  · exact hne heq
  · exact hp.scopeOf_ne_of_encloses hu hin hscope.symm

/-- Where nothing is captured, all nodes downstream are behind the branch. -/
theorem exclusive_of_uncaptured (h : p.ServesOnly gate n) (huncaptured : p.Uncaptured gate n)
    (hm : p.Downstream gate.condition n m) (hscope : p.scopeOf m = p.scopeOf gate.condition) :
    m ∈ p.exclusive gate := by
  induction m using hp.carried_induction hu with
  | step m ih =>
    have hids := hp.ids_of_downstream hm (hp.mem_membersIn.mp h.member).1
    have hne := hm.ne h.other
    refine (hp.mem_exclusive_iff hu).mpr
      ⟨h.condition, hp.mem_membersIn.mpr ⟨hids, hscope⟩, hne, ?_, ?_⟩
    · intro hnil
      exact hp.not_leads_of_closed hu hnil hne.symm hscope.symm (h.leads m hm)
    · intro c hc
      obtain ⟨he, -⟩ := Graph.mem_carried.mp hc
      have htarget := huncaptured m hm hscope c hc
      by_cases hcond : c.node = gate.condition
      · exact Or.inl ⟨hcond, h.port _ he hm hcond⟩
      · exact Or.inr (ih c hc (htarget.trans hscope.symm) (hm.step he rfl hcond) htarget)

/-- All that is downstream of a node behind a branch is behind it as well, or in the body of a loop
that is. -/
theorem exclusive_downstream (h : n ∈ p.exclusive gate) (hm : p.Downstream gate.condition n m) :
    m ∈ p.exclusive gate ∨ ∃ l ∈ p.exclusive gate, p.Encloses l m := by
  induction hm with
  | refl => exact Or.inl h
  | tail _ hstep ih =>
    obtain ⟨⟨e, he, rfl, rfl⟩, hne⟩ := hstep
    rcases ih with hin | ⟨l, hl, hinside⟩
    · by_cases hstarts : p.graph.StartsIteration e
      · exact Or.inr ⟨e.source, hin, hp.edge_seed hu he hstarts⟩
      · have hc : (⟨e.target, e.label⟩ : Connection) ∈ p.forwardOut e.source :=
          Graph.mem_carried.mpr ⟨he, hstarts⟩
        rcases hp.exclusive_feeds hu hin hc with ⟨hcond, -⟩ | hin'
        · exact absurd hcond hne
        · exact Or.inl hin'
    · rcases hp.edge_from_body hu he hinside with hinside' | ⟨hback, -⟩
      · exact Or.inr ⟨l, hl, hinside'⟩
      · exact Or.inl (hback ▸ hl)

/-- A node that serves one branch only waits for it just if nothing on the way there is captured. -/
theorem mem_exclusive_iff_uncaptured (h : p.ServesOnly gate n) :
    n ∈ p.exclusive gate ↔ p.Uncaptured gate n := by
  constructor
  · intro hn m hm hscope c hc
    rcases hp.exclusive_downstream hu hn hm with hin | ⟨l, hl, hinside⟩
    · rcases hp.exclusive_feeds hu hin hc with ⟨hcond, -⟩ | hin'
      · rw [hcond]
      · exact hp.exclusive_scope hu hin'
    · exact absurd ((hp.exclusive_scope hu hl).trans hscope.symm)
        (hp.scopeOf_ne_of_encloses hu hinside)
  · intro huncaptured
    exact hp.exclusive_of_uncaptured hu h huncaptured .refl (hp.mem_membersIn.mp h.member).2

end Sound

end PortGraph.Plan
