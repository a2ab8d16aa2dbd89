import PortGraph.Execution.Engine
import PortGraph.Plan.Basic
import PortGraph.Proofs.Plan.Scopes

/-!
Plans of accepted graphs. `Sound` says of each part of a plan how it was computed; what the parts
mean is in the modules that follow.
-/

namespace PortGraph.Plan

open Nesting Relation

/-- The plan of a stored graph, if the graph is accepted. -/
def ofDefinition (d : Definition) : Except GraphError Plan := do
  Plan.ofGraph (← Graph.ofDefinition d)

/-- A plan of some stored graph. -/
def Accepted (p : Plan) : Prop := ∃ d, ofDefinition d = .ok p

theorem accepted_of_prepare {registry : Registry} {text : String} {p : Plan}
    (h : Engine.prepare registry text = .ok p) : p.Accepted := by
  unfold Engine.prepare at h
  obtain ⟨d, -, h⟩ := ok_of_bind h
  obtain ⟨g, hg, h⟩ := ok_of_bind h
  obtain ⟨-, -, h⟩ := ok_of_bind h
  refine ⟨d, ?_⟩
  unfold ofDefinition
  rw [hg]
  exact h

/-- What can be checked of a plan holds of an accepted one. -/
theorem exists_of_check {d : Definition} {P : Plan → Prop} [DecidablePred P]
    (h : ((ofDefinition d).toOption.any fun p => decide (P p)) = true) :
    ∃ p, ofDefinition d = .ok p ∧ P p :=
  exists_ok_of_check h

/-- The nodes whose input is the output of an execution. -/
def outputIds (g : Graph) : List NodeId := (g.nodes.filter fun n => n.kind == .output).map Node.id

/-- What the output of an execution is read from, given the sinks of the top level. -/
def outputOf (g : Graph) (sinks : List NodeId) : OutputTarget :=
  match (outputIds g).head? with
  | none => .sinks sinks
  | some id => .node id

/-- The plan of a graph once its loops are planned. -/
def assemble (g : Graph) (n : Nesting) : Plan :=
  let members := (none :: n.loops.map fun l => some l.1).map fun s =>
    (s, membersOf g n (ranksOf g) s)
  { graph := g
    nesting := n
    ranks := ranksOf g
    members
    exclusives := members.flatMap fun m => gatesOf g m.2
    unreachable := unreachableOf g
    output := outputOf g (sinksOf g (unreachableOf g) ((members.lookup none).getD [])) }

/-- A graph is planned if its loops are, and its only output, if there is one, is at the top
level. -/
theorem ofGraph_eq_ok_iff {g : Graph} {p : Plan} :
    Plan.ofGraph g = .ok p ↔ ∃ n, Nesting.ofGraph g = .ok n ∧ (outputIds g).length ≤ 1 ∧
      (∀ id ∈ outputIds g, n.scope id = none) ∧ p = assemble g n := by
  unfold Plan.ofGraph
  extract_lets outputs ranks unreachable rest
  have houtputs : outputs = outputIds g := rfl
  split_ifs with hmany
  · refine iff_of_false (by simp [bind, Except.bind]) ?_
    rintro ⟨-, -, hone, -⟩
    rw [← houtputs] at hone
    omega
  have hone : (outputIds g).length ≤ 1 := Nat.not_lt.mp hmany
  simp only [rest, bind_eq_ok, assemble, outputOf, houtputs]
  refine exists_congr fun n => and_congr_right fun _ => ?_
  rw [and_iff_right hone]
  generalize outputIds g = ids at hone
  cases ids with
  | nil => exact ⟨fun h => ⟨by simp, (Except.ok.inj h).symm⟩, fun h => congrArg Except.ok h.2.symm⟩
  | cons id tail =>
    obtain rfl : tail = [] := List.eq_nil_of_length_eq_zero (by simpa using hone)
    rw [List.forall_mem_singleton]
    dsimp only
    generalize n.scope id = scope
    cases scope with
    | some loop => exact iff_of_false (by simp) (by simp)
    | none => exact ⟨fun h => ⟨rfl, (Except.ok.inj h).symm⟩, fun h => congrArg Except.ok h.2.symm⟩

/-- The scopes of a plan: the top level and the bodies of the loops. -/
def scopeIds (p : Plan) : List ScopeId := none :: p.nesting.loops.map fun l => some l.1

structure Sound (p : Plan) : Prop where
  graph : p.graph.WellFormed
  nesting : Nesting.Accepted p.graph p.nesting
  ranks_eq : p.ranks = ranksOf p.graph
  members_eq : p.members =
    p.scopeIds.map fun s => (s, membersOf p.graph p.nesting p.ranks s)
  exclusives_eq : p.exclusives = p.members.flatMap fun m => gatesOf p.graph m.2
  unreachable_eq : p.unreachable = unreachableOf p.graph
  output_eq : p.output = outputOf p.graph (sinksOf p.graph p.unreachable (p.membersIn none))
  outputs_length : (outputIds p.graph).length ≤ 1
  outputs_top : ∀ id ∈ outputIds p.graph, p.scopeOf id = none

theorem ofDefinition_eq_ok_iff {d : Definition} {p : Plan} :
    ofDefinition d = .ok p ↔ ∃ g, Graph.ofDefinition d = .ok g ∧ Plan.ofGraph g = .ok p :=
  bind_eq_ok

/-- A plan is of the graph that the definition stands for. -/
theorem graph_of_definition {d : Definition} {p : Plan} (h : ofDefinition d = .ok p) :
    Graph.ofDefinition d = .ok p.graph := by
  obtain ⟨g, hg, hp⟩ := ofDefinition_eq_ok_iff.mp h
  obtain ⟨n, -, -, -, rfl⟩ := ofGraph_eq_ok_iff.mp hp
  exact hg

theorem kind?_of_mem_outputIds {g : Graph} (hg : g.WellFormed) {id : NodeId}
    (h : id ∈ outputIds g) : g.kind? id = some .output := by
  obtain ⟨n, hmem, rfl⟩ := List.mem_map.mp h
  obtain ⟨hnode, hkind⟩ := List.mem_filter.mp hmem
  unfold Graph.kind?
  rw [Graph.node?_of_mem hg.ids_nodup hnode, Option.map_some, beq_iff_eq.mp hkind]

theorem sound_of_accepted {p : Plan} (h : p.Accepted) : p.Sound := by
  obtain ⟨d, h⟩ := h
  obtain ⟨g, hd, hp⟩ := ofDefinition_eq_ok_iff.mp h
  obtain ⟨n, hn, hlength, htop, rfl⟩ := ofGraph_eq_ok_iff.mp hp
  have hg := Graph.wellFormed_of_definition hd
  exact ⟨hg, accepted_of_graph hg hn, rfl, rfl, rfl, rfl, rfl, hlength, htop⟩

namespace Sound

variable {p : Plan} (hp : p.Sound)
include hp

theorem output : (∃ id, p.output = .node id ∧ p.kind? id = some .output ∧ p.scopeOf id = none) ∨
    p.output = .sinks (sinksOf p.graph p.unreachable (p.membersIn none)) := by
  rw [hp.output_eq]
  unfold outputOf
  cases hids : (outputIds p.graph).head? with
  | none => exact Or.inr rfl
  | some id =>
    have hid := List.mem_of_mem_head? hids
    exact Or.inl ⟨id, rfl, kind?_of_mem_outputIds hp.graph hid, hp.outputs_top id hid⟩

theorem isSome_loop?_iff {l : NodeId} : (p.loop? l).isSome ↔ p.kind? l = some .loop := by
  unfold loop?
  rw [List.lookup_isSome_iff]
  have hkeys : l ∈ p.nesting.loops.map (·.1) ↔ l ∈ loopIds p.graph := by
    rw [hp.nesting.keys]
  rw [mem_loopIds hp.graph] at hkeys
  refine Iff.trans ?_ hkeys
  rw [List.mem_map]
  constructor
  · rintro ⟨e, he, heq⟩
    exact ⟨e, he, (beq_iff_eq.mp heq).symm⟩
  · rintro ⟨e, he, rfl⟩
    exact ⟨e, he, beq_self_eq_true _⟩

theorem kind?_of_loop? {l : NodeId} {lp : LoopPlan} (h : p.loop? l = some lp) :
    p.graph.kind? l = some .loop :=
  hp.isSome_loop?_iff.mp (by simp [h])

theorem loop?_eq_some {l : NodeId} {lp : LoopPlan} (h : p.loop? l = some lp) :
    lp.body = bodyOf p.graph l ∧ lp.captures = captures p.graph l (bodyOf p.graph l) ∧
      lp.hasResult = (p.graph.inbound? l PortName.result).isSome ∧ lp.depth ≤ maxDepth := by
  have hplan := hp.nesting.plan l lp h
  rw [body_bodies hp.graph (hp.kind?_of_loop? h)] at hplan
  exact hplan

theorem scopeOf_eq {n : NodeId} :
    p.scopeOf n = if n ∈ p.graph.ids then (containing (bodies p.graph) n).getLast? else none := by
  unfold scopeOf Nesting.scope
  rw [hp.nesting.scopes_eq, lookup_map_key]
  by_cases h : n ∈ p.graph.ids <;> simp [h]

theorem scopeOf_eq_none_iff {n : NodeId} :
    p.scopeOf n = none ↔ ∀ l, ¬ Holds p.graph l n := by
  rw [hp.scopeOf_eq]
  by_cases hn : n ∈ p.graph.ids
  · rw [if_pos hn, List.getLast?_eq_none_iff, List.eq_nil_iff_forall_not_mem]
    exact forall_congr' fun l => not_congr (mem_containing hp.graph)
  · rw [if_neg hn]
    exact ⟨fun _ l h => hn (body_mem_ids hp.graph h.2), fun _ => rfl⟩

private theorem getLast?_of_scopeOf {n s : NodeId} (h : p.scopeOf n = some s) :
    n ∈ p.graph.ids ∧ (containing (bodies p.graph) n).getLast? = some s := by
  rw [hp.scopeOf_eq] at h
  split_ifs at h with hn
  exact ⟨hn, h⟩

theorem holds_of_scopeOf {n s : NodeId} (h : p.scopeOf n = some s) : Holds p.graph s n := by
  obtain ⟨-, hlast⟩ := getLast?_of_scopeOf hp h
  exact (mem_containing hp.graph).mp (List.mem_of_getLast? hlast)

theorem scopeOf_smallest {n s l : NodeId} (h : p.scopeOf n = some s) (hl : Holds p.graph l n) :
    (bodyOf p.graph s).length ≤ (bodyOf p.graph l).length := by
  obtain ⟨-, hlast⟩ := getLast?_of_scopeOf hp h
  exact length_last_le hp.graph hlast ((mem_containing hp.graph).mpr hl)

/-- A body around a node leads to the scope of the node. -/
theorem scopeOf_chain {n s l : NodeId} (h : p.scopeOf n = some s) (hl : Holds p.graph l n) :
    l = s ∨ TransGen (Holds p.graph) l s := by
  obtain ⟨hn, hlast⟩ := getLast?_of_scopeOf hp h
  have hchain := hp.nesting.chain n hn
  have hcontains := (mem_containing hp.graph).mpr hl
  obtain ⟨pre, hpre⟩ := List.getLast?_eq_some_iff.mp hlast
  rw [hpre] at hchain hcontains
  rcases List.mem_append.mp hcontains with hin | hin
  · exact Or.inr (leads_to_last hchain hin)
  · exact Or.inl (List.mem_singleton.mp hin)

end Sound

end PortGraph.Plan
