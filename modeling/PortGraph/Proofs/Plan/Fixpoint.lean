import PortGraph.Proofs.Plan.Gates

/-!
The nodes behind a branch as the fixpoint of what is asked of them. There is one fixpoint only,
since a node comes before all that it feeds. Hence no node is behind both branches of a condition,
what is behind a branch feeds nothing else, and two conditions with a node behind both are one
behind the other.
-/

namespace PortGraph.Plan

open Nesting Relation

/-- A node of the scope of a condition that feeds something, and nothing but the branch and the
given nodes. -/
def Behind (p : Plan) (gate : Gate) (found : List NodeId) (n : NodeId) : Prop :=
  n ∈ p.membersIn (p.scopeOf gate.condition) ∧ n ≠ gate.condition ∧ p.forwardOut n ≠ [] ∧
    ∀ c ∈ p.forwardOut n,
      (c.node = gate.condition ∧ c.label.targetPort = gate.branch.port) ∨ c.node ∈ found

/-- A value from a node behind a branch that does not get past the branch. -/
structure StaysBehind (p : Plan) (gate : Gate) (n : NodeId) (c : Connection) : Prop where
  port : c.node = gate.condition →
    c.label.targetPort = gate.branch.port ∧ c.label.targetPort ≠ PortName.condition
  behind : c.node ≠ gate.condition → c.node ∈ p.exclusive gate
  /-- It enters no body that the node is not in itself. -/
  body : ∀ l lp, p.loop? l = some lp → c.node ∈ lp.body → n ∈ lp.body
  /-- It goes to no loop around the node. -/
  result : ∀ l lp, p.loop? l = some lp → n ∈ lp.body → c.node ≠ l

/-- What the nodes behind the branches of a plan are. -/
structure BranchSets (p : Plan) : Prop where
  fixpoint : ∀ gate, p.kind? gate.condition = some .condition →
    ∀ n, n ∈ p.exclusive gate ↔ p.Behind gate (p.exclusive gate) n
  only : ∀ gate, p.kind? gate.condition = some .condition → ∀ found : List NodeId,
    (∀ n, n ∈ found ↔ p.Behind gate found n) → ∀ n, n ∈ found ↔ n ∈ p.exclusive gate
  disjoint : ∀ c, (p.exclusive ⟨c, .whenTrue⟩).Disjoint (p.exclusive ⟨c, .whenFalse⟩)
  stays : ∀ gate, ∀ n ∈ p.exclusive gate, ∀ c ∈ p.forwardOut n, p.StaysBehind gate n c
  /-- The other edges of a loop behind a branch lead into its own body. -/
  inner : ∀ gate, ∀ e ∈ p.graph.edges, e.source ∈ p.exclusive gate →
    ⟨e.target, e.label⟩ ∉ p.forwardOut e.source →
    ∃ lp, p.loop? e.source = some lp ∧ e.target ∈ lp.body
  nested : ∀ gate gate' n, n ∈ p.exclusive gate → n ∈ p.exclusive gate' →
    gate.condition ≠ gate'.condition →
    gate.condition ∈ p.exclusive gate' ∨ gate'.condition ∈ p.exclusive gate

namespace Sound

variable {p : Plan} (hp : p.Sound) (hu : p.Untangled)
include hp hu

omit hp hu in
/-- Loops are around a node just as they are around another one of its scope. -/
theorem encloses_congr {l a b : NodeId} (h : p.scopeOf a = p.scopeOf b) :
    p.Encloses l a ↔ p.Encloses l b := by
  unfold Encloses
  rw [TransGen.tail'_iff, TransGen.tail'_iff, h]

theorem behind_iff {gate : Gate} (hkind : p.kind? gate.condition = some .condition) {n : NodeId} :
    n ∈ p.exclusive gate ↔ p.Behind gate (p.exclusive gate) n := by
  rw [hp.mem_exclusive_iff hu]
  exact and_iff_right hkind

/-- Two lists that satisfy the same condition agree on a node if they agree on what it feeds. -/
theorem mem_iff_of_fixpoint {gate : Gate} (hkind : p.kind? gate.condition = some .condition)
    {found : List NodeId} (hfound : ∀ n, n ∈ found ↔ p.Behind gate found n) (n : NodeId) :
    n ∈ found ↔ n ∈ p.exclusive gate := by
  induction n using hp.carried_induction hu with
  | step n ih =>
    rw [hfound, hp.behind_iff hu hkind]
    unfold Behind
    refine and_congr_right fun hn => and_congr_right fun _ => and_congr_right fun _ =>
      forall₂_congr fun c hc => or_congr_right ?_
    have hscope := (hp.mem_membersIn.mp hn).2
    constructor
    · intro hin
      have hmem := ((hfound c.node).mp hin).1
      exact (ih c hc ((hp.mem_membersIn.mp hmem).2.trans hscope.symm)).mp hin
    · intro hin
      exact (ih c hc ((hp.exclusive_scope hu hin).trans hscope.symm)).mpr hin

theorem disjoint_exclusive (c : NodeId) :
    (p.exclusive ⟨c, .whenTrue⟩).Disjoint (p.exclusive ⟨c, .whenFalse⟩) := by
  intro n htrue hfalse
  induction htrue using hp.exclusive_induction hu with
  | step n htrue ih =>
    have hself : ∀ {b : Branch}, c ∉ p.exclusive ⟨c, b⟩ := fun h =>
      ((hp.mem_exclusive_iff hu).mp h).2.2.1 rfl
    obtain ⟨d, hd⟩ := List.exists_mem_of_ne_nil _ ((hp.mem_exclusive_iff hu).mp htrue).2.2.2.1
    rcases hp.exclusive_feeds hu htrue hd with ⟨hnode, hport⟩ | hin
    · rcases hp.exclusive_feeds hu hfalse hd with ⟨-, hport'⟩ | hin'
      · exact absurd (Branch.port_injective (hport.symm.trans hport')) (by simp)
      · exact hself (hnode ▸ hin')
    · rcases hp.exclusive_feeds hu hfalse hd with ⟨hnode', -⟩ | hin'
      · exact hself (hnode' ▸ hin)
      · exact ih d hd hin hin'

theorem staysBehind {gate : Gate} {n : NodeId} (hn : n ∈ p.exclusive gate) {c : Connection}
    (hc : c ∈ p.forwardOut n) : p.StaysBehind gate n c := by
  have hfeeds := hp.exclusive_feeds hu hn hc
  have hscope : p.scopeOf c.node = p.scopeOf n := by
    rw [hp.exclusive_scope hu hn]
    rcases hfeeds with ⟨hnode, -⟩ | hin
    · rw [hnode]
    · exact hp.exclusive_scope hu hin
  have hencloses : ∀ {l lp m}, p.loop? l = some lp → (m ∈ lp.body ↔ p.Encloses l m) := by
    intro l lp m hl
    rw [hp.encloses_iff hu, (hp.loop?_eq_some hl).1]
    exact (and_iff_right (hp.kind?_of_loop? hl)).symm
  refine ⟨?_, fun hne => hfeeds.resolve_left fun h => hne h.1, ?_, ?_⟩
  · intro hnode
    rcases hfeeds with ⟨-, hport⟩ | hin
    · exact ⟨hport, hport ▸ gate.branch.port_ne_condition⟩
    · exact absurd hnode ((hp.mem_exclusive_iff hu).mp hin).2.2.1
  · intro l lp hl hbody
    exact (hencloses hl).mpr ((encloses_congr hscope).mp ((hencloses hl).mp hbody))
  · rintro l lp hl hbody rfl
    exact hp.scopeOf_ne_of_encloses hu ((hencloses hl).mp hbody) hscope

/-- What a node does not send into its scope it keeps for its own iterations. -/
theorem own_body_of_not_carried {e : Edge} (he : e ∈ p.graph.edges)
    (hcarried : ⟨e.target, e.label⟩ ∉ p.forwardOut e.source) :
    ∃ lp, p.loop? e.source = some lp ∧ e.target ∈ lp.body := by
  have hstarts : p.graph.StartsIteration e := by
    by_contra hnot
    exact hcarried (Graph.mem_carried.mpr ⟨he, hnot⟩)
  obtain ⟨lp, hlp⟩ := Option.isSome_iff_exists.mp (hp.isSome_loop?_iff.mpr hstarts.1)
  refine ⟨lp, hlp, ?_⟩
  rw [(hp.loop?_eq_some hlp).1]
  exact ((hp.encloses_iff hu).mp (hp.edge_seed hu he hstarts)).2

/-- On the way from a node to the nearer of two conditions that it is behind, all is behind both. -/
theorem exclusive_nested {gate gate' : Gate} {n : NodeId} (hn : n ∈ p.exclusive gate)
    (hn' : n ∈ p.exclusive gate') (hne : gate.condition ≠ gate'.condition) :
    gate.condition ∈ p.exclusive gate' ∨ gate'.condition ∈ p.exclusive gate := by
  induction hn using hp.exclusive_induction hu with
  | step n hn ih =>
    obtain ⟨c, hc⟩ := List.exists_mem_of_ne_nil _ ((hp.mem_exclusive_iff hu).mp hn).2.2.2.1
    rcases hp.exclusive_feeds hu hn hc with ⟨hnode, -⟩ | hin
    · rcases hp.exclusive_feeds hu hn' hc with ⟨hnode', -⟩ | hin'
      · exact absurd (hnode.symm.trans hnode') hne
      · exact Or.inl (hnode ▸ hin')
    · rcases hp.exclusive_feeds hu hn' hc with ⟨hnode', -⟩ | hin'
      · exact Or.inr (hnode' ▸ hin)
      · exact ih c hc hin hin'

end Sound

/-- The nodes behind each branch are the only fixpoint of what is asked of them, and they feed
nothing past the branch. -/
theorem branchSetsExact {p : Plan} (h : p.Accepted) (hu : p.Untangled) : p.BranchSets := by
  have hp := sound_of_accepted h
  exact {
    fixpoint := fun _ hkind _ => hp.behind_iff hu hkind
    only := fun _ hkind _ hfound n => hp.mem_iff_of_fixpoint hu hkind hfound n
    disjoint := hp.disjoint_exclusive hu
    stays := fun _ _ hn _ hc => hp.staysBehind hu hn hc
    inner := fun _ _ he _ hcarried => hp.own_body_of_not_carried hu he hcarried
    nested := fun _ _ _ hn hn' hne => hp.exclusive_nested hu hn hn' hne }

/-- A condition behind a branch of another one, and a loop behind a branch of the first. -/
def choiceInChoice : Definition :=
  ⟨[⟨"in", "data-input", []⟩, ⟨"rows", "logic-loop", []⟩, ⟨"row", "data-transform", []⟩,
    ⟨"inner", "logic-condition", [("condition", .bool true)]⟩,
    ⟨"outer", "logic-condition", [("condition", .bool false)]⟩, ⟨"out", "data-output", []⟩],
   [⟨⟨"in", "value"⟩, ⟨"rows", "collection"⟩⟩, ⟨⟨"rows", "item"⟩, ⟨"row", "input"⟩⟩,
    ⟨⟨"row", "output"⟩, ⟨"rows", "result"⟩⟩, ⟨⟨"rows", "results"⟩, ⟨"inner", "trueValue"⟩⟩,
    ⟨⟨"inner", "result"⟩, ⟨"outer", "falseValue"⟩⟩, ⟨⟨"outer", "result"⟩, ⟨"out", "data"⟩⟩]⟩

theorem choiceInChoice_branchSetsExact : ∃ p, ofDefinition choiceInChoice = .ok p ∧
    p.exclusive ⟨"inner", .whenTrue⟩ = ["in", "rows"] ∧
    p.exclusive ⟨"outer", .whenFalse⟩ = ["in", "inner", "rows"] ∧ p.BranchSets := by
  obtain ⟨p, hp, hinner, houter, hloops⟩ := exists_of_check (d := choiceInChoice)
    (P := fun p => p.exclusive ⟨"inner", .whenTrue⟩ = ["in", "rows"] ∧
      p.exclusive ⟨"outer", .whenFalse⟩ = ["in", "inner", "rows"] ∧
      ∀ a ∈ p.nesting.loops, ∀ b ∈ p.nesting.loops, ¬ (a.1 ∈ b.2.body ∧ b.1 ∈ a.2.body))
    (by decide +kernel)
  exact ⟨p, hp, hinner, houter, branchSetsExact ⟨choiceInChoice, hp⟩ (untangled_of_loops hloops)⟩

end PortGraph.Plan
