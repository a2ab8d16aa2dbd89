import PortGraph.Proofs.Plan.Reached
import PortGraph.Proofs.Scope.Stages

/-!
Scopes as they begin. The runs are fresh, the members that no source reaches have ended, and the
first signals settle what is known from the start.
-/

namespace PortGraph.Scope

open Plan

/-! ### Fresh runs -/

section Fresh

variable {p : Plan} {node : Node}

/-- What a run holds once the given properties have been put into its inputs. -/
structure Provided (node : Node) (fs : List (String × Json)) (r r' : NodeRun) : Prop where
  rest : r'.node = r.node ∧ r'.state = r.state ∧ r'.startedAt = r.startedAt ∧
    r'.failedPorts = r.failedPorts ∧ r'.promotions = r.promotions ∧
      r'.pendingCaptures = r.pendingCaptures ∧ r'.pendingGates = r.pendingGates
  outputs : r'.outputs = r.outputs
  waits : ∀ q, q ∈ r'.pendingInputs ↔ q ∈ r.pendingInputs ∧ q ∉ fs.map (·.1)
  values : ∀ q w, r'.inputs.find? q = some w → r.inputs.find? q = some w ∨
    ∃ v, (q, v) ∈ fs ∧ NodeRun.Converts node q v w
  filled : ∀ q, (r.inputs.find? q).isSome = true ∨ q ∈ fs.map (·.1) →
    (r'.inputs.find? q).isSome = true

/-- Puts the value of a property into an input and keeps the error, if there is one. -/
def provide (node : Node) (acc : NodeRun × List NodeError) (f : String × Json) :
    NodeRun × List NodeError :=
  match NodeRun.deliver node acc.1 f.1 f.2 with
  | (r, .ok ()) => (r, acc.2)
  | (r, .error e) => (r, acc.2 ++ [e])

theorem provided_foldl {fs : List (String × Json)}
    (hconverts : ∀ f ∈ fs, ∃ w, NodeRun.Converts node f.1 f.2 w) (r : NodeRun)
    (errors : List NodeError) :
    (fs.foldl (provide node) (r, errors)).2 = errors ∧
      Provided node fs r (fs.foldl (provide node) (r, errors)).1 := by
  induction fs generalizing r with
  | nil =>
    exact ⟨rfl, ⟨rfl, rfl, rfl, rfl, rfl, rfl, rfl⟩, rfl, by simp, fun q w hw => Or.inl hw, by simp⟩
  | cons f rest ih =>
    obtain ⟨w₀, happlied, hw₀⟩ := hconverts f (by simp)
    obtain ⟨r₁, hd⟩ : ∃ r₁, NodeRun.deliver node r f.1 f.2 = (r₁, .ok ()) := by
      unfold NodeRun.deliver
      simp only [hw₀]
      exact ⟨_, rfl⟩
    have hstep : provide node (r, errors) f = (r₁, errors) := by
      unfold provide
      rw [hd]
    obtain ⟨herrors, h⟩ := ih (fun g hg => hconverts g (List.mem_cons_of_mem _ hg)) r₁
    rw [List.foldl_cons, hstep]
    obtain ⟨hnode, hstate, houtputs, hstart, -, hinputs, hcaptures, hgates, hports, hpromotions⟩ :=
      NodeRun.deliver_kept hd
    obtain ⟨w₁, hconverts₁, hinsert⟩ := NodeRun.deliver_ok hd
    obtain ⟨h₁, h₂, h₃, h₄, h₅, h₆, h₇⟩ := h.rest
    refine ⟨herrors, ⟨h₁.trans hnode, h₂.trans hstate, h₃.trans hstart, h₄.trans hports,
      h₅.trans hpromotions, h₆.trans hcaptures, h₇.trans hgates⟩, h.outputs.trans houtputs,
      ?_, ?_, ?_⟩
    · intro q
      rw [h.waits q, hinputs, mem_dropInput, List.map_cons, List.mem_cons, not_or]
      exact and_assoc
    · intro q w hw
      rcases h.values q w hw with hold | ⟨v, hv, hconv⟩
      · rw [hinsert, Table.find?_insert] at hold
        split_ifs at hold with hq
        · obtain rfl := Option.some.inj hold
          subst hq
          exact Or.inr ⟨f.2, by simp, hconverts₁⟩
        · exact Or.inl hold
      · exact Or.inr ⟨v, List.mem_cons_of_mem _ hv, hconv⟩
    · intro q hq
      refine h.filled q ?_
      rw [hinsert, Table.find?_insert]
      by_cases heq : f.1 = q
      · exact Or.inl (by simp [heq])
      · rcases hq with hq | hq
        · exact Or.inl (by simpa [heq] using hq)
        · rw [List.map_cons, List.mem_cons] at hq
          exact Or.inr (hq.resolve_left fun h => heq h.symm)

/-- A property stands in for an input of the node. -/
theorem input?_of_fallback {f : String × Json} (hf : f ∈ p.fallbacks node) :
    ∃ port, node.input? f.1 = some port := by
  unfold fallbacks at hf
  obtain ⟨port, hport, hv⟩ := List.mem_filterMap.mp hf
  obtain ⟨v, -, rfl⟩ := Option.map_eq_some_iff.mp hv
  refine Option.isSome_iff_exists.mp ?_
  unfold Node.input?
  rw [List.find?_isSome]
  exact ⟨port, (List.mem_filter.mp (List.mem_filter.mp hport).1).1, beq_self_eq_true port.name⟩

/-- A property that stands in for an input fits the port. -/
theorem converts_of_fallback (hp : p.Sound) (hnode : node ∈ p.graph.nodes) {f : String × Json}
    (hf : f ∈ p.fallbacks node) : ∃ w, NodeRun.Converts node f.1 f.2 w := by
  obtain ⟨port, hport⟩ := input?_of_fallback hf
  have hname : port.name = f.1 := by simpa using List.find?_some hport
  have hfree := inbound?_of_fallback hf
  unfold fallbacks at hf
  obtain ⟨port', -, hv⟩ := List.mem_filterMap.mp hf
  obtain ⟨v, hprop, rfl⟩ := Option.map_eq_some_iff.mp hv
  obtain ⟨⟨w, applied⟩, hw⟩ := hp.graph.defaults node hnode port (List.mem_of_find?_eq_some hport) v
    (by rw [hname]; exact hprop) (by rw [hname]; exact hfree)
  refine ⟨w, applied, ?_⟩
  change Conversion.convert v (((node.input? port'.name).map Port.type).getD .any) = _
  rw [hport]
  exact hw

theorem foldl_awaitInput (qs : List String) (r : NodeRun) :
    (qs.foldl NodeRun.awaitInput r).node = r.node ∧
    (qs.foldl NodeRun.awaitInput r).state = r.state ∧
    (qs.foldl NodeRun.awaitInput r).startedAt = r.startedAt ∧
    (qs.foldl NodeRun.awaitInput r).failedPorts = r.failedPorts ∧
    (qs.foldl NodeRun.awaitInput r).promotions = r.promotions ∧
    (qs.foldl NodeRun.awaitInput r).inputs = r.inputs ∧
    (qs.foldl NodeRun.awaitInput r).outputs = r.outputs ∧
    ∀ q, q ∈ (qs.foldl NodeRun.awaitInput r).pendingInputs ↔ q ∈ qs ∨ q ∈ r.pendingInputs := by
  induction qs generalizing r with
  | nil => exact ⟨rfl, rfl, rfl, rfl, rfl, rfl, rfl, by simp⟩
  | cons a rest ih =>
    obtain ⟨h₁, h₂, h₃, h₄, h₅, h₆, h₇, h₈⟩ := ih (r.awaitInput a)
    refine ⟨h₁, h₂, h₃, h₄, h₅, h₆, h₇, ?_⟩
    intro q
    rw [List.foldl_cons, h₈ q]
    unfold NodeRun.awaitInput
    rw [mem_insertSorted, List.mem_cons]
    tauto

/-- A run at the start of its scope. -/
structure IsFresh (p : Plan) (node : Node) (r : NodeRun) : Prop where
  id : r.node = node.id
  state : r.state = .pending
  outputs : r.outputs = none
  startedAt : r.startedAt = none
  failedPorts : r.failedPorts = []
  promotions : r.promotions = 0
  gates : r.pendingGates = (p.gates node.id).length
  captures : r.pendingCaptures = ((p.loop? node.id).map fun l => l.captures.length).getD 0
  waits : ∀ q, q ∈ r.pendingInputs ↔ q ∈ p.connectedInputs node
  values : ∀ q w, r.inputs.find? q = some w →
    ∃ v, (q, v) ∈ p.fallbacks node ∧ NodeRun.Converts node q v w
  filled : ∀ q v, (q, v) ∈ p.fallbacks node → (r.inputs.find? q).isSome = true

theorem freshRun_spec (hp : p.Sound) (hnode : node ∈ p.graph.nodes) :
    (freshRun p node).2 = [] ∧ IsFresh p node (freshRun p node).1 := by
  obtain ⟨h₁, h₂, h₃, h₄, h₅, h₆, h₇, h₈⟩ :=
    foldl_awaitInput (p.connectedInputs node) (NodeRun.new node.id)
  obtain ⟨herrors, h⟩ := provided_foldl (fun f hf => converts_of_fallback hp hnode hf)
    { (p.connectedInputs node).foldl NodeRun.awaitInput (.new node.id) with
      pendingGates := (p.gates node.id).length
      pendingCaptures := ((p.loop? node.id).map fun l => l.captures.length).getD 0 } []
  obtain ⟨k₁, k₂, k₃, k₄, k₅, k₆, k₇⟩ := h.rest
  refine ⟨herrors, k₁.trans h₁, k₂.trans h₂, h.outputs.trans h₇, k₃.trans h₃, k₄.trans h₄,
    k₅.trans h₅, k₇, k₆, ?_, ?_, ?_⟩
  · intro q
    refine (h.waits q).trans ?_
    have hq : q ∈ ((p.connectedInputs node).foldl NodeRun.awaitInput (.new node.id)).pendingInputs ↔
        q ∈ p.connectedInputs node := by
      rw [h₈ q]
      simp [NodeRun.new]
    refine (and_congr_left' hq).trans (and_iff_left_of_imp ?_)
    intro hconnected hfallback
    obtain ⟨⟨_, v⟩, hf, rfl⟩ := List.mem_map.mp hfallback
    obtain ⟨port, hport, rfl⟩ := List.mem_map.mp hconnected
    have hsome := (List.mem_filter.mp hport).2
    rw [inbound?_of_fallback hf] at hsome
    simp at hsome
  · intro q w hw
    rcases h.values q w hw with hold | hnew
    · have hempty : ((p.connectedInputs node).foldl NodeRun.awaitInput
          (.new node.id)).inputs.find? q = some w := hold
      rw [h₆] at hempty
      simp [NodeRun.new] at hempty
    · exact hnew
  · intro q v hf
    exact h.filled q (Or.inr (List.mem_map.mpr ⟨(q, v), hf, rfl⟩))

end Fresh

/-! ### The scope before its first signals -/

section Opening

variable (p : Plan) (now : Timestamp) (owner : ScopeId)

/-- The runs of a scope as it begins. -/
def freshRuns : Table NodeRun :=
  Table.ofEntries (((p.membersIn owner).filterMap p.node?).map fun node =>
    ((freshRun p node).1.node, (freshRun p node).1))

/-- A scope before its first signals. -/
def opening : Scope :=
  passOver now .unreachable { new owner with runs := freshRuns p owner } (unreached p owner)

/-- The signals that a scope begins with. -/
def openingSignals (deliveries : List (PortRef × Json)) : List Signal :=
  (unreached p owner).map (fun id => Signal.cascade id id) ++
    ((p.membersIn owner).filter (isSelfDecided p)).map Signal.resolve ++
      deliveries.map (fun d => Signal.route d.1 d.2) ++ (p.membersIn owner).map Signal.promote

variable {p}

/-- What arrives at first are the values that were given. -/
theorem arrivals_openingSignals (deliveries : List (PortRef × Json)) :
    arrivals (openingSignals p owner deliveries) = deliveries.map (·.1) := by
  unfold arrivals openingSignals
  simp only [List.filterMap_append, List.filterMap_map, Function.comp_def]
  change List.filterMap (fun _ => none) _ ++ List.filterMap (fun _ => none) _ ++
    List.filterMap (fun d : PortRef × Json => some d.1) _ ++
      List.filterMap (fun _ => none) _ = _
  rw [List.filterMap_eq_map']
  simp

theorem seed_eq (hp : p.Sound) (deliveries : List (PortRef × Json)) :
    seed p now owner deliveries =
      (opening p now owner).handle p now (openingSignals p owner deliveries) := by
  have hrejected : ((((p.membersIn owner).filterMap p.node?).map (freshRun p)).flatMap fun f =>
      f.2.map fun e => Signal.fail f.1.node e) = [] := by
    rw [List.flatMap_eq_nil_iff]
    intro f hf
    obtain ⟨node, hnode, rfl⟩ := List.mem_map.mp hf
    obtain ⟨n, -, hn⟩ := List.mem_filterMap.mp hnode
    rw [(freshRun_spec hp (Graph.node?_eq_some hn).1).1]
    rfl
  unfold seed
  simp only [hrejected, List.append_nil, List.map_map]
  rfl

theorem find?_freshRuns (hp : p.Sound) {n : NodeId} {r : NodeRun} :
    (freshRuns p owner).find? n = some r ↔ n ∈ p.membersIn owner ∧
      ∃ node, p.node? n = some node ∧ r = (freshRun p node).1 := by
  have hid : ∀ {m : NodeId} {node : Node}, p.node? m = some node → (freshRun p node).1.node = m := by
    intro m node hnode
    obtain ⟨hmem, hid⟩ := Graph.node?_eq_some hnode
    rw [(freshRun_spec hp hmem).2.id, hid]
  have hkeys : ((((p.membersIn owner).filterMap p.node?).map fun node =>
      ((freshRun p node).1.node, (freshRun p node).1)).map (·.1)) = p.membersIn owner := by
    rw [List.map_map]
    have hall : ∀ ids : List NodeId, (∀ m ∈ ids, ∃ node, p.node? m = some node) →
        (ids.filterMap p.node?).map ((·.1) ∘ fun node =>
          ((freshRun p node).1.node, (freshRun p node).1)) = ids := by
      intro ids hids
      induction ids with
      | nil => rfl
      | cons a rest ih =>
        obtain ⟨node, hnode⟩ := hids a (by simp)
        rw [List.filterMap_cons_some hnode, List.map_cons,
          ih fun m hm => hids m (List.mem_cons_of_mem _ hm)]
        exact congrArg (· :: rest) (hid hnode)
    refine hall _ ?_
    intro m hm
    obtain ⟨node, hnode, -⟩ := hp.node?_of_mem_membersIn hm
    exact ⟨node, hnode⟩
  have hnodup := hp.nodup_membersIn owner
  rw [← hkeys] at hnodup
  unfold freshRuns
  rw [Table.find?_ofEntries _ hnodup]
  constructor
  · intro hfind
    obtain ⟨node, hnode, heq⟩ := List.mem_map.mp (Table.mem_of_find? hfind)
    obtain ⟨m, hm, hnode⟩ := List.mem_filterMap.mp hnode
    obtain ⟨rfl, rfl⟩ := Prod.mk.inj heq
    rw [hid hnode]
    exact ⟨hm, node, hnode, rfl⟩
  · rintro ⟨hn, node, hnode, rfl⟩
    refine Table.find?_of_mem hnodup (List.mem_map.mpr ⟨node, ?_, ?_⟩)
    · exact List.mem_filterMap.mpr ⟨n, hn, hnode⟩
    · rw [hid hnode]

/-! ### Members that no source reaches -/

theorem mem_unreached {n : NodeId} :
    n ∈ unreached p owner ↔ owner = none ∧ n ∈ p.membersIn owner ∧ n ∈ p.unreachable := by
  unfold unreached
  cases owner with
  | none => simp
  | some l => simp

/-- What `passOver` does to a scope whose queue is empty. -/
theorem passOver_spec {reason : SkipReason} {ids : List NodeId} (hids : ids.Nodup) {s : Scope}
    (hrun : ∀ n r, s.run? n = some r → r.node = n)
    (hpending : ∀ n ∈ ids, ∃ r, s.run? n = some r ∧ r.state = .pending)
    (hlisted : Listed p s) (hready : s.ready = []) (hordered : s.runs.Ordered) :
    (∀ n, (passOver now reason s ids).run? n =
      if n ∈ ids then (s.run? n).map fun r => r.skip now reason else s.run? n) ∧
    Listed p (passOver now reason s ids) ∧ (passOver now reason s ids).runs.Ordered ∧
    (passOver now reason s ids).owner = s.owner ∧ (passOver now reason s ids).handed = s.handed ∧
    (passOver now reason s ids).resolved = s.resolved ∧
    (passOver now reason s ids).ready = [] ∧ (passOver now reason s ids).result = s.result ∧
    (passOver now reason s ids).fault = s.fault := by
  induction ids generalizing s with
  | nil => exact ⟨by simp [passOver], hlisted, hordered, rfl, rfl, rfl, hready, rfl, rfl⟩
  | cons a rest ih =>
    obtain ⟨ha, hrest⟩ := List.nodup_cons.mp hids
    obtain ⟨r, hr, hstate⟩ := hpending a (by simp)
    have hnode : (r.skip now reason).node = a := hrun a r hr
    have hstep : passOver now reason s (a :: rest) =
        passOver now reason (s.putEnded (r.skip now reason)) rest := by
      unfold passOver
      rw [List.foldl_cons, hr]
    have hview : ∀ n, (s.putEnded (r.skip now reason)).run? n =
        if a = n then some (r.skip now reason) else s.run? n := by
      intro n
      rw [run?_putEnded, hnode]
    have hqueue : s.dequeue a = s := by
      unfold dequeue
      rw [hready]
      cases s
      simp_all
    have hlisted' : Listed p (s.putEnded (r.skip now reason)) := by
      have hput := hlisted.putEnded hr (by rw [hstate]; rfl) hnode rfl
      rwa [hqueue] at hput
    obtain ⟨h₁, h₂, h₃, h₄, h₅, h₆, h₇, h₈, h₉⟩ := ih hrest (s := s.putEnded (r.skip now reason))
      (by
        intro n r₁ hr₁
        rw [hview] at hr₁
        split_ifs at hr₁ with heq
        · rw [← Option.some.inj hr₁, hnode, heq]
        · exact hrun n r₁ hr₁)
      (by
        intro n hn
        obtain ⟨r₁, hr₁, hstate₁⟩ := hpending n (List.mem_cons_of_mem _ hn)
        refine ⟨r₁, ?_, hstate₁⟩
        rw [hview, if_neg, hr₁]
        rintro rfl
        exact ha hn)
      hlisted' hready (Table.ordered_insert hordered _ _)
    rw [hstep]
    refine ⟨?_, h₂, h₃, h₄, h₅, h₆, h₇, h₈, h₉⟩
    intro n
    rw [h₁ n, hview]
    by_cases heq : a = n
    · subst heq
      simp [ha, hr]
    · have heq' : n ≠ a := fun h => heq h.symm
      simp [heq, heq']

variable (hp : p.Sound)
include hp

theorem opening_spec :
    (∀ n, (opening p now owner).run? n = if n ∈ unreached p owner then
      ((freshRuns p owner).find? n).map fun r => r.skip now .unreachable
        else (freshRuns p owner).find? n) ∧
    Listed p (opening p now owner) ∧ (opening p now owner).runs.Ordered ∧
    (opening p now owner).owner = owner ∧ (opening p now owner).handed = [] ∧
    (opening p now owner).resolved = [] ∧ (opening p now owner).ready = [] ∧
    (opening p now owner).result = none ∧ (opening p now owner).fault = none := by
  have hfresh : ∀ {n r}, (freshRuns p owner).find? n = some r →
      ∃ node, p.node? n = some node ∧ IsFresh p node r ∧ node.id = n := by
    intro n r hr
    obtain ⟨-, node, hnode, rfl⟩ := (find?_freshRuns owner hp).mp hr
    obtain ⟨hmem, hid⟩ := Graph.node?_eq_some hnode
    exact ⟨node, hnode, (freshRun_spec hp hmem).2, hid⟩
  refine passOver_spec now ?_ ?_ ?_ ?_ rfl ?_
  · unfold unreached
    split_ifs
    · exact (hp.nodup_membersIn owner).filter _
    · exact List.nodup_nil
  · intro n r hr
    obtain ⟨node, -, hfresh, hid⟩ := hfresh hr
    rw [hfresh.id, hid]
  · intro n hn
    obtain ⟨-, hmem, -⟩ := (mem_unreached owner).mp hn
    obtain ⟨node, hnode, -⟩ := hp.node?_of_mem_membersIn hmem
    exact ⟨_, (find?_freshRuns owner hp).mpr ⟨hmem, node, hnode, rfl⟩,
      (freshRun_spec hp (Graph.node?_eq_some hnode).1).2.state⟩
  · have hpending : ∀ {n r}, (freshRuns p owner).find? n = some r → r.state = .pending := by
      intro n r hr
      obtain ⟨node, -, hfresh, -⟩ := hfresh hr
      exact hfresh.state
    refine ⟨?_, List.nodup_nil, by simp [new], ?_⟩
    · intro e
      simp only [new, List.not_mem_nil, false_iff, not_and, not_exists]
      intro _ r hr hready
      rw [hpending hr] at hready
      simp at hready
    · intro n r hr hterm
      rw [hpending hr] at hterm
      simp [RunState.isTerminal] at hterm
  · exact Table.ordered_ofEntries _

/-- The run of a member as its scope begins. -/
theorem opening_run {n : NodeId} {r : NodeRun} (hr : (opening p now owner).run? n = some r) :
    n ∈ p.membersIn owner ∧ ∃ node r₀, p.node? n = some node ∧ node.id = n ∧ IsFresh p node r₀ ∧
      ((n ∉ unreached p owner ∧ r = r₀) ∨
        (n ∈ unreached p owner ∧ r = r₀.skip now .unreachable)) := by
  rw [(opening_spec now owner hp).1 n] at hr
  have hcase : ∃ r₀, (freshRuns p owner).find? n = some r₀ ∧
      ((n ∉ unreached p owner ∧ r = r₀) ∨
        (n ∈ unreached p owner ∧ r = r₀.skip now .unreachable)) := by
    split_ifs at hr with hn
    · obtain ⟨r₀, hr₀, rfl⟩ := Option.map_eq_some_iff.mp hr
      exact ⟨r₀, hr₀, Or.inr ⟨hn, rfl⟩⟩
    · exact ⟨r, hr, Or.inl ⟨hn, rfl⟩⟩
  obtain ⟨r₀, hr₀, hcase⟩ := hcase
  obtain ⟨hmem, node, hnode, rfl⟩ := (find?_freshRuns owner hp).mp hr₀
  obtain ⟨hin, hid⟩ := Graph.node?_eq_some hnode
  exact ⟨hmem, node, _, hnode, hid, (freshRun_spec hp hin).2, hcase⟩

/-- A scope begins with nobody started. -/
theorem idle_opening {n : NodeId} {r : NodeRun} (hr : (opening p now owner).run? n = some r) :
    r.startedAt = none := by
  obtain ⟨-, node, r₀, -, -, hfresh, ⟨-, rfl⟩ | ⟨-, rfl⟩⟩ := opening_run now owner hp hr
  · exact hfresh.startedAt
  · exact hfresh.startedAt

variable {deliveries : List (PortRef × Json)} (hproper : p.Proper owner deliveries)

theorem shape_opening : Shape p (opening p now owner) := by
  obtain ⟨hrun, -, hordered, howner, -⟩ := opening_spec now owner hp
  refine ⟨?_, ?_, ?_, hordered⟩
  · intro n
    rw [howner, hrun]
    constructor
    · intro hsome
      obtain ⟨r, hr⟩ := Option.isSome_iff_exists.mp hsome
      rw [← hrun] at hr
      exact (opening_run now owner hp hr).1
    · intro hmem
      obtain ⟨node, hnode, -⟩ := hp.node?_of_mem_membersIn hmem
      rw [(find?_freshRuns owner hp).mpr ⟨hmem, node, hnode, rfl⟩]
      split_ifs <;> rfl
  · intro n r hr
    obtain ⟨-, node, r₀, -, hid, hfresh, ⟨-, rfl⟩ | ⟨-, rfl⟩⟩ := opening_run now owner hp hr
    · rw [hfresh.id, hid]
    · rw [node_skip, hfresh.id, hid]
  · intro n r hr
    obtain ⟨-, node, r₀, -, -, hfresh, ⟨-, rfl⟩ | ⟨-, rfl⟩⟩ := opening_run now owner hp hr
    · have hstate := hfresh.state
      have hstart := hfresh.startedAt
      exact ⟨fun _ => hfresh.promotions, fun _ => hstart,
        by simp [hstate, hstart, hfresh.promotions], by simp [hstate], by simp [hstate]⟩
    · have hstart : (r₀.skip now .unreachable).startedAt = none := hfresh.startedAt
      have hpromotions : (r₀.skip now .unreachable).promotions = 0 := hfresh.promotions
      exact ⟨by simp, fun _ => hstart, by simp [hstart, hpromotions], by simp, fun _ => hstart⟩

theorem sourced_opening :
    Sourced p deliveries (opening p now owner) (openingSignals p owner deliveries) := by
  obtain ⟨-, -, -, howner, hhanded, hresolved, -, hresult, -⟩ := opening_spec now owner hp
  refine ⟨?_, ?_, ?_, ?_, ?_, ?_, ?_⟩
  · intro sig hsig
    unfold openingSignals at hsig
    simp only [List.mem_append, List.mem_map] at hsig
    rcases hsig with ((⟨n, hn, rfl⟩ | ⟨n, hn, rfl⟩) | ⟨d, hd, rfl⟩) | ⟨n, hn, rfl⟩
    · obtain ⟨-, hmem, -⟩ := (mem_unreached owner).mp hn
      obtain ⟨r, hr⟩ := Option.isSome_iff_exists.mp
        (((shape_opening now owner hp).member n).mpr (by rw [howner]; exact hmem))
      obtain ⟨-, node, r₀, -, -, -, ⟨hnot, -⟩ | ⟨-, rfl⟩⟩ := opening_run now owner hp hr
      · exact absurd hn hnot
      · exact ⟨_, hr, Or.inr rfl⟩
    · have hself := (List.mem_filter.mp hn).2
      unfold isSelfDecided at hself
      simp only [Bool.and_eq_true, beq_iff_eq, Option.isNone_iff_eq_none] at hself
      exact ⟨hself.1, Or.inl hself.2⟩
    · exact Or.inr hd
    · trivial
  · intro n r q w hr hw
    obtain ⟨-, node, r₀, hnode, -, hfresh, hcase⟩ := opening_run now owner hp hr
    have hw₀ : r₀.inputs.find? q = some w := by
      rcases hcase with ⟨-, rfl⟩ | ⟨-, rfl⟩ <;> exact hw
    obtain ⟨v, hv, hconverts⟩ := hfresh.values q w hw₀
    exact ⟨node, v, hnode, hconverts, Or.inr hv⟩
  · intro n r q o hr ho
    obtain ⟨-, node, r₀, -, -, hfresh, hcase⟩ := opening_run now owner hp hr
    have hnil : r.failedPorts = [] := by
      rcases hcase with ⟨-, rfl⟩ | ⟨-, rfl⟩ <;> exact hfresh.failedPorts
    rw [hnil] at ho
    simp at ho
  · intro l t v hmem
    simp [handedTo, hhanded] at hmem
  · intro v hv
    rw [hresult] at hv
    simp at hv
  · intro c b hb
    rw [hresolved] at hb
    simp at hb
  · intro n r hr hterm _
    obtain ⟨-, node, r₀, -, -, hfresh, ⟨-, rfl⟩ | ⟨hn, rfl⟩⟩ := opening_run now owner hp hr
    · rw [hfresh.state] at hterm
      simp [RunState.isTerminal] at hterm
    · obtain ⟨hnone, -, hunreachable⟩ := (mem_unreached owner).mp hn
      exact Or.inl ⟨rfl, .unreachable, rfl, by rw [howner]; exact hnone, hunreachable⟩

include hproper in
theorem counted_opening :
    Counted p (opening p now owner) (openingSignals p owner deliveries) := by
  obtain ⟨-, -, -, -, hhanded, hresolved, -, -, -⟩ := opening_spec now owner hp
  have hkeys : ∀ l, (opening p now owner).handedKeys l = [] := by
    intro l
    simp [handedKeys, handedTo, hhanded]
  have hsame : ∀ {n r}, (opening p now owner).run? n = some r → r.pendingGates = (p.gates n).length ∧
      r.pendingCaptures = ((p.loop? n).map fun l => l.captures.length).getD 0 := by
    intro n r hr
    obtain ⟨-, node, r₀, -, hid, hfresh, hcase⟩ := opening_run now owner hp hr
    have hgates := hfresh.gates
    have hcaptures := hfresh.captures
    rw [hid] at hgates hcaptures
    rcases hcase with ⟨-, rfl⟩ | ⟨-, rfl⟩ <;> exact ⟨hgates, hcaptures⟩
  refine ⟨?_, ?_, ?_, ?_⟩
  · intro n r hr
    have hall : (p.gates n).filter (fun gate => !(opening p now owner).isOpen gate) = p.gates n := by
      refine List.filter_eq_self.mpr ?_
      intro gate _
      simp [isOpen, hresolved]
    rw [hall]
    exact (hsame hr).1
  · intro l r lp hr hlp
    rw [(hsame hr).2, hlp, hkeys]
    rfl
  · intro n r hr hnone
    rw [(hsame hr).2, hnone]
    rfl
  · intro l
    rw [hkeys, arrivals_openingSignals, List.nil_append]
    exact hproper.nodup

/-- What has ended before the first signal was out of reach. -/
theorem unreached_of_opening {n : NodeId} {r : NodeRun}
    (hr : (opening p now owner).run? n = some r) (hterm : r.state.isTerminal = true) :
    n ∈ unreached p owner := by
  obtain ⟨-, node, r₀, -, -, hfresh, ⟨-, rfl⟩ | ⟨hn, -⟩⟩ := opening_run now owner hp hr
  · rw [hfresh.state] at hterm
    simp [RunState.isTerminal] at hterm
  · exact hn

/-- What is settled of an input before the first signal, a signal says. -/
theorem opening_tells {t : PortRef} (hsettled : Settled p deliveries (opening p now owner) t) :
    (∃ v, Signal.route t v ∈ openingSignals p owner deliveries) ∨
      ∃ m, p.Feeds m t ∧ Signal.cascade m m ∈ openingSignals p owner deliveries := by
  rcases hsettled with hgiven | ⟨m, hfeeds, rm, hrm, hterm, -⟩
  · obtain ⟨d, hd, rfl⟩ := List.mem_map.mp hgiven
    refine Or.inl ⟨d.2, List.mem_append_left _ (List.mem_append_right _ ?_)⟩
    exact List.mem_map.mpr ⟨d, hd, rfl⟩
  · refine Or.inr ⟨m, hfeeds, ?_⟩
    refine List.mem_append_left _ (List.mem_append_left _ (List.mem_append_left _ ?_))
    exact List.mem_map.mpr ⟨m, unreached_of_opening now owner hp hrm hterm, rfl⟩

variable (hu : p.Untangled)
include hu

theorem owed_opening :
    Owed p deliveries (opening p now owner) (openingSignals p owner deliveries) := by
  obtain ⟨-, -, -, -, -, hresolved, -, -, -⟩ := opening_spec now owner hp
  refine ⟨?_, ?_, ?_, ?_, ?_, ?_, ?_⟩
  · intro n r q _ _ _ hsettled
    rcases opening_tells now owner hp hsettled with ⟨v, hv⟩ | ⟨m, hfeeds, hm⟩
    · exact ⟨_, hv, .route⟩
    · exact ⟨_, hm, .cascade hfeeds⟩
  · intro l r t _ _ _ _ hsettled
    rcases opening_tells now owner hp hsettled with ⟨v, hv⟩ | ⟨m, hfeeds, hm⟩
    · exact ⟨_, hv, .route⟩
    · exact ⟨_, hm, .cascade hfeeds⟩
  · intro n r gate hr hunstarted hgate hclosed
    rcases hclosed with ⟨b, hb, -⟩ | ⟨⟨rc, hrc, hterm⟩, -⟩
    · rw [hresolved] at hb
      simp at hb
    · -- with the condition the node itself is out of reach, and has ended
      obtain ⟨hnone, -, hunreachable⟩ := (mem_unreached owner).mp
        (unreached_of_opening now owner hp hrc hterm)
      obtain ⟨hmem, node, r₀, -, -, -, hcase⟩ := opening_run now owner hp hr
      have hn : n ∈ unreached p owner := (mem_unreached owner).mpr ⟨hnone, hmem,
        hp.unreachable_of_exclusive hu (hp.mem_gates_iff.mp hgate) hunreachable⟩
      rcases hcase with ⟨hnot, -⟩ | ⟨-, rfl⟩
      · exact absurd hn hnot
      · simp [isUnstarted, RunState.isTerminal] at hunstarted
  · rintro n r branch - - ⟨b, hb, -⟩
    rw [hresolved] at hb
    simp at hb
  · intro c r hr hkind hunstarted hfree _
    obtain ⟨hmem, node, r₀, hnode, hid, hfresh, hcase⟩ := opening_run now owner hp hr
    have hfree₀ : PortName.condition ∉ r₀.pendingInputs := by
      rcases hcase with ⟨-, rfl⟩ | ⟨-, rfl⟩ <;> exact hfree
    have hself : isSelfDecided p c = true := by
      unfold isSelfDecided
      simp only [hkind, beq_self_eq_true, Bool.true_and, Option.isNone_iff_eq_none]
      by_contra hne
      refine hfree₀ ((hfresh.waits _).mpr ?_)
      exact hp.condition_waits hnode hkind hne
    refine ⟨.resolve c, ?_, Or.inr rfl⟩
    refine List.mem_append_left _ (List.mem_append_left _ (List.mem_append_right _ ?_))
    exact List.mem_map.mpr ⟨c, List.mem_filter.mpr ⟨hmem, hself⟩, rfl⟩
  · intro c r hr _ hrunning
    obtain ⟨-, node, r₀, -, -, hfresh, ⟨-, rfl⟩ | ⟨-, rfl⟩⟩ := opening_run now owner hp hr
    · rw [hfresh.state] at hrunning
      simp at hrunning
    · simp at hrunning
  · intro n r hr _
    refine ⟨.promote n, List.mem_append_right _ (List.mem_map.mpr ⟨n, ?_, rfl⟩), Or.inr rfl⟩
    exact (opening_run now owner hp hr).1

omit hu in
theorem accounted_opening (sigs : List Signal) : Accounted p (opening p now owner) sigs := by
  refine ⟨?_, ?_, ?_⟩
  · intro n r node q hr hnode hq
    obtain ⟨-, node', r₀, hnode', -, hfresh, hcase⟩ := opening_run now owner hp hr
    obtain rfl := Option.some.inj (hnode.symm.trans hnode')
    refine (hfresh.waits q).mp ?_
    rcases hcase with ⟨-, rfl⟩ | ⟨-, rfl⟩ <;> exact hq
  · intro n r node q hr hnode hq halive
    obtain ⟨-, node', r₀, hnode', -, hfresh, ⟨-, rfl⟩ | ⟨-, rfl⟩⟩ := opening_run now owner hp hr
    · obtain rfl := Option.some.inj (hnode.symm.trans hnode')
      exact Or.inl ((hfresh.waits q).mpr hq)
    · have hstart : (r₀.skip now .unreachable).startedAt = none := hfresh.startedAt
      rw [hstart] at halive
      simp [isUnstarted, RunState.isTerminal] at halive
  · intro n r node q v hr hnode hfallback
    obtain ⟨-, node', r₀, hnode', -, hfresh, hcase⟩ := opening_run now owner hp hr
    obtain rfl := Option.some.inj (hnode.symm.trans hnode')
    have hfilled := hfresh.filled q v hfallback
    rcases hcase with ⟨-, rfl⟩ | ⟨-, rfl⟩ <;> exact hfilled

include hproper

theorem coherent_opening (hloop : ∀ l, owner = some l → p.graph.kind? l = some .loop) :
    Coherent p deliveries (opening p now owner) (openingSignals p owner deliveries) := by
  obtain ⟨-, hlisted, -, howner, -⟩ := opening_spec now owner hp
  exact ⟨shape_opening now owner hp, by rwa [howner], by rwa [howner],
    sourced_opening now owner hp, counted_opening now owner hp hproper,
    owed_opening now owner hp hu, accounted_opening now owner hp _, hlisted⟩

/-- A scope begins coherent, and without a fault. -/
theorem coherent_seed (hloop : ∀ l, owner = some l → p.graph.kind? l = some .loop) :
    Coherent p deliveries (seed p now owner deliveries) [] ∧
      (seed p now owner deliveries).fault = none ∧ (seed p now owner deliveries).owner = owner := by
  obtain ⟨-, -, -, howner, -, -, -, -, hfault⟩ := opening_spec now owner hp
  rw [seed_eq now owner hp]
  obtain ⟨hcoherent, hsame, hlater⟩ :=
    (coherent_opening now owner hp hproper hu hloop).handle hp hu now
  exact ⟨hcoherent, hsame.trans hfault, hlater.owner.trans howner⟩

end Opening

end PortGraph.Scope
