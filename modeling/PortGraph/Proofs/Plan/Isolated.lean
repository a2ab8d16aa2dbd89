import PortGraph.Proofs.Plan.Delivered

/-!
Loop bodies apart from the rest of the graph. A body holds what the items of its loop lead to
without passing through the loop. All that leaves it goes to the result of the loop, and all that
enters it is an item, a position or a capture. None of this needs the loops to be untangled.
-/

namespace PortGraph.Plan

open PortGraph.Order Nesting Relation

/-- An edge between two nodes other than the loop that returns no result. -/
def Advances (p : Plan) (l a b : NodeId) : Prop :=
  a ≠ l ∧ b ≠ l ∧ ∃ e ∈ p.graph.edges, e.source = a ∧ e.target = b ∧ e.label.loopBack = false

/-- The items or the positions of the loop lead to the node, and not through the loop. -/
def Iterates (p : Plan) (l n : NodeId) : Prop :=
  n ≠ l ∧ ∃ e ∈ p.graph.edges, e.source = l ∧ isIterationPort e.label.sourcePort = true ∧
    ReflTransGen (p.Advances l) e.target n

/-- The edges that cross the border of a body, and where they do. -/
structure Isolated (p : Plan) (l : NodeId) (lp : LoopPlan) : Prop where
  body : ∀ n, n ∈ lp.body ↔ p.Iterates l n
  leaving : ∀ e ∈ p.graph.edges, e.source ∈ lp.body →
    e.target ∈ lp.body ∨ e.targetRef = ⟨l, PortName.result⟩
  entering : ∀ e ∈ p.graph.edges, e.target ∈ lp.body → e.source ∈ lp.body ∨
    (e.source = l ∧ isIterationPort e.label.sourcePort = true) ∨ e.link ∈ lp.captures
  captures : ∀ k, k ∈ lp.captures ↔
    ∃ e ∈ p.graph.edges, e.link = k ∧ e.target ∈ lp.body ∧ e.source ≠ l ∧ e.source ∉ lp.body
  result : ∀ e ∈ p.graph.edges, e.targetRef = ⟨l, PortName.result⟩ → e.source ∈ lp.body
  hasResult : lp.hasResult = true ↔ ∃ e ∈ p.graph.edges, e.targetRef = ⟨l, PortName.result⟩
  results : ∀ e ∈ p.graph.edges, e.sourceRef = ⟨l, PortName.results⟩ → e.target ∉ lp.body

/-- A path that ends elsewhere has not come through the loop, since it could not leave it. -/
theorem advances_of_leads {p : Plan} {l a n : NodeId}
    (h : ReflTransGen (Leads (around p.graph l)) a n) (hn : n ≠ l) :
    ReflTransGen (p.Advances l) a n := by
  induction h with
  | refl => exact .refl
  | tail _ hstep ih =>
    obtain ⟨hne, hforward⟩ := leads_around.mp hstep
    obtain ⟨label, he, hback⟩ := Graph.mem_forward.mp hforward
    exact (ih hne).tail ⟨hne, hn, _, he, rfl, rfl, hback⟩

theorem leads_of_advances {p : Plan} {l a n : NodeId} (h : ReflTransGen (p.Advances l) a n) :
    ReflTransGen (Leads (around p.graph l)) a n := by
  induction h with
  | refl => exact .refl
  | tail _ hstep ih =>
    obtain ⟨hne, -, e, he, rfl, rfl, hback⟩ := hstep
    exact ih.tail (leads_around.mpr ⟨hne, Graph.mem_forward.mpr ⟨e.label, he, hback⟩⟩)

namespace Sound

variable {p : Plan} (hp : p.Sound) {l : NodeId}
include hp

theorem mem_bodyOf_iff_iterates {n : NodeId} : n ∈ bodyOf p.graph l ↔ p.Iterates l n := by
  rw [mem_bodyOf hp.graph]
  refine and_congr_right fun hn => ?_
  constructor
  · rintro ⟨c, hc, hpath⟩
    obtain ⟨he, hport⟩ := Graph.mem_seeds.mp hc
    exact ⟨_, he, rfl, hport, advances_of_leads hpath hn⟩
  · rintro ⟨e, he, rfl, hport, hpath⟩
    exact ⟨⟨e.target, e.label⟩, Graph.mem_seeds.mpr ⟨he, hport⟩, leads_of_advances hpath⟩

end Sound

/-- The body of a loop is cut off from the graph, but for its items, its captures and its result. -/
theorem bodiesIsolated {p : Plan} (h : p.Accepted) {l : NodeId} {lp : LoopPlan}
    (hl : p.loop? l = some lp) : p.Isolated l lp := by
  have hp := sound_of_accepted h
  obtain ⟨hbody, hcaptures, hresult, -⟩ := hp.loop?_eq_some hl
  have hkind := hp.kind?_of_loop? hl
  have hclosed := hp.nesting.closed l hkind
  constructor
  case body =>
    intro n
    rw [hbody]
    exact hp.mem_bodyOf_iff_iterates
  case leaving =>
    intro e he hsource
    rw [hbody] at hsource ⊢
    rcases hclosed.inward _ hsource ⟨e.target, e.label⟩ (Graph.mem_successors.mpr he) with
      ⟨hnode, hport⟩ | hin
    · exact Or.inr (congrArg₂ PortRef.mk hnode hport)
    · exact Or.inl hin
  case entering =>
    intro e he htarget
    rw [hbody] at htarget ⊢
    rw [hcaptures]
    exact hp.edge_into_body he ⟨hkind, htarget⟩
  case captures =>
    intro k
    rw [hcaptures, hbody]
    exact Graph.mem_captures
  case result =>
    intro e he htarget
    rw [hbody]
    refine hclosed.result e.sourceRef (hp.graph.inbound?_eq_some.mpr ⟨e.label, ?_, ?_, rfl⟩)
    · rwa [← show e.target = l from congrArg PortRef.node htarget]
    · exact congrArg PortRef.port htarget
  case hasResult =>
    rw [hresult]
    exact Graph.isSome_inbound?_iff (r := ⟨l, PortName.result⟩)
  case results =>
    intro e he hsource
    rw [hbody]
    obtain rfl : e.source = l := congrArg PortRef.node hsource
    exact hclosed.results ⟨e.target, e.label⟩ (Graph.mem_successors.mpr he)
      (congrArg PortRef.port hsource)

/-- The body of the cells: one node, with one capture from outside both loops. -/
theorem pairedCells_bodiesIsolated : ∃ p lp, ofDefinition pairedCells = .ok p ∧
    p.loop? "cells" = some lp ∧ lp.body = ["pair"] ∧
    lp.captures = [⟨⟨"aside", "value"⟩, ⟨"pair", "input2"⟩⟩] ∧ lp.hasResult = true ∧
    p.Isolated "cells" lp := by
  obtain ⟨p, hp, hloop⟩ := exists_of_check (d := pairedCells)
    (P := fun p => ((p.loop? "cells").map fun lp => (lp.body, lp.captures, lp.hasResult)) =
      some (["pair"], [⟨⟨"aside", "value"⟩, ⟨"pair", "input2"⟩⟩], true)) (by decide +kernel)
  obtain ⟨lp, hlp, hparts⟩ := Option.map_eq_some_iff.mp hloop
  obtain ⟨hbody, hcaptures, hresult⟩ := by simpa only [Prod.mk.injEq] using hparts
  exact ⟨p, lp, hp, hlp, hbody, hcaptures, hresult, bodiesIsolated ⟨pairedCells, hp⟩ hlp⟩

end PortGraph.Plan
