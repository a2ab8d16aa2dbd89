import PortGraph.Proofs.Plan.Gates
import PortGraph.Proofs.Scope.Course
import PortGraph.Proofs.Scope.States

/-!
The result slot of an iteration. Just one member sends to it, no branch of a condition holds that member
back, and along the course of the scope the slot is written as often as the member has sent.
-/

namespace PortGraph

open Plan

/-! ### What returns a result -/

namespace Plan.Sound

variable {p : Plan} (hp : p.Sound) (hu : p.Untangled)
include hp hu

variable {n : NodeId} (hkind : p.graph.kind? n = some .loop) {source : PortRef}
  (hin : p.graph.inbound? n PortName.result = some source)
include hkind hin

/-- What returns the result of a loop is a member of its iterations. -/
theorem scopeOf_of_returns : p.scopeOf source.node = some n := by
  have hbody : p.Encloses n source.node :=
    (hp.encloses_iff hu).mpr ⟨hkind, (hp.nesting.closed n hkind).result _ hin⟩
  obtain ⟨label, he, -, -⟩ := hp.graph.inbound?_eq_some.mp hin
  rcases hp.edge_out hu he with hsame | ⟨l, hsame, hinner⟩ | ⟨hscope, -⟩
  · exact absurd hsame (hp.scopeOf_ne_of_encloses hu hbody)
  · exact absurd hsame (hp.scopeOf_ne_of_encloses hu (hinner.trans hbody))
  · exact hscope

theorem mem_of_returns : source.node ∈ p.membersIn (some n) := by
  obtain ⟨label, he, -⟩ := hp.graph.inbound?_eq_some.mp hin
  exact hp.mem_membersIn.mpr ⟨hp.graph.source_mem he, hp.scopeOf_of_returns hu hkind hin⟩

theorem feeds_of_returns : p.Feeds source.node ⟨n, PortName.result⟩ := by
  obtain ⟨label, he, hport, -⟩ := hp.graph.inbound?_eq_some.mp hin
  refine feeds_iff.mpr ⟨_, he, rfl, by rw [← hport]; rfl, fun hstarts => ?_⟩
  have hself : p.Encloses n n :=
    .head (hp.scopeOf_of_returns hu hkind hin) (hp.edge_seed hu he hstarts)
  exact hp.scopeOf_ne_of_encloses hu hself rfl

/-- No branch of a condition holds it back. -/
theorem not_exclusive_of_returns (gate : Gate) : source.node ∉ p.exclusive gate := by
  intro hmem
  obtain ⟨c, hc, htarget⟩ := hp.feeds_of_returns hu hkind hin
  have hnode : c.node = n := congrArg PortRef.node htarget
  rcases hp.exclusive_feeds hu hmem hc with ⟨hcond, -⟩ | hexclusive
  · have hcondition := hp.kind?_of_mem_exclusive hmem
    rw [← hcond, hnode, hkind] at hcondition
    simp at hcondition
  · -- a loop is no member of its own iterations
    rw [hnode] at hexclusive
    exact hp.scopeOf_ne_of_encloses hu (.single (hp.scopeOf_of_returns hu hkind hin))
      ((hp.exclusive_scope hu hexclusive).trans (hp.exclusive_scope hu hmem).symm)

end Plan.Sound

/-- What an outcome sends from an output. -/
def Outcome.sent? (o : Outcome) (port : String) : Option Json :=
  match o with
  | .succeeded outputs => some ((outputs.find? port).getD .null)
  | _ => none

namespace Scope

variable {p : Plan} {now : Timestamp} {given : List (PortRef × Json)} {s s' : Scope}
variable {sig : Signal} {sigs done more : List Signal} {l : NodeId} {source x : PortRef} {v : Json}

/-! ### What is sent and what is written -/

/-- What a member has sent from an output: null where it set none. -/
def sent? (s : Scope) (source : PortRef) : Option Json := do
  let r ← s.run? source.node
  if r.state = .succeeded then r.outputs.map fun o => (o.find? source.port).getD .null else none

/-- The value that a signal writes to the result slot. -/
def writtenBy? (p : Plan) (owner : ScopeId) : Signal → Option Json
  | .route t v => if p.route owner t = some .resultSlot then some v else none
  | _ => none

/-- The values that signals write to the result slot, in order. -/
def written (p : Plan) (owner : ScopeId) (sigs : List Signal) : List Json :=
  sigs.filterMap (writtenBy? p owner)

theorem written_append (p : Plan) (owner : ScopeId) (sigs sigs' : List Signal) :
    written p owner (sigs ++ sigs') = written p owner sigs ++ written p owner sigs' :=
  List.filterMap_append ..

theorem writtenBy?_eq_some {owner : ScopeId} :
    writtenBy? p owner sig = some v ↔
      ∃ t, sig = .route t v ∧ p.route owner t = some .resultSlot := by
  cases sig <;> simp [writtenBy?, and_comm, eq_comm]

/-- Only a value for the result of the loop is written. -/
theorem target_of_written (hp : p.Sound) (hu : p.Untangled)
    (h : p.route (some l) x = some .resultSlot) : x = ⟨l, PortName.result⟩ := by
  rcases hp.route_cases hu h with ⟨heq, -⟩ | ⟨k, heq, -⟩ | ⟨-, howner, hport⟩
  · cases heq
  · cases heq
  · rw [Option.some.inj howner, ← hport]

theorem written_eq_nil (hp : p.Sound) (hu : p.Untangled)
    (h : ⟨l, PortName.result⟩ ∉ arrivals sigs) : written p (some l) sigs = [] := by
  refine List.filterMap_eq_nil_iff.mpr fun sig hsig => ?_
  rw [← Option.not_isSome_iff_eq_none, Option.isSome_iff_exists]
  rintro ⟨v, hv⟩
  obtain ⟨t, rfl, hroute⟩ := writtenBy?_eq_some.mp hv
  obtain rfl := target_of_written hp hu hroute
  exact h (List.mem_filterMap.mpr ⟨_, hsig, rfl⟩)

/-- As values arrive at most once, one that is under way to the slot is the only one. -/
theorem written_eq_singleton (hp : p.Sound) (hu : p.Untangled)
    (hkind : p.graph.kind? l = some .loop) (hnodup : (arrivals sigs).Nodup)
    (hmem : .route ⟨l, PortName.result⟩ v ∈ sigs) : written p (some l) sigs = [v] := by
  obtain ⟨before, after, rfl⟩ := List.append_of_mem hmem
  have harrivals : arrivals (before ++ .route ⟨l, PortName.result⟩ v :: after) =
      arrivals before ++ ⟨l, PortName.result⟩ :: arrivals after := by
    simp [arrivals]
  rw [harrivals] at hnodup
  obtain ⟨hbefore, hafter⟩ : ⟨l, PortName.result⟩ ∉ arrivals before ∧
      ⟨l, PortName.result⟩ ∉ arrivals after := by
    have hmiddle := List.nodup_middle.mp hnodup
    have hout := (List.nodup_cons.mp hmiddle).1
    rwa [List.mem_append, not_or] at hout
  have hhere : writtenBy? p (some l) (.route ⟨l, PortName.result⟩ v) = some v :=
    writtenBy?_eq_some.mpr ⟨_, rfl, hp.route_result hu hkind⟩
  rw [written_append, written_eq_nil hp hu hbefore, List.nil_append]
  change List.filterMap _ _ = _
  rw [List.filterMap_cons_some hhere]
  exact congrArg _ (written_eq_nil hp hu hafter)

theorem sent?_eq {r : NodeRun} (hr : s.run? source.node = some r) :
    s.sent? source =
      if r.state = .succeeded then r.outputs.map fun o => (o.find? source.port).getD .null
      else none := by
  simp [sent?, hr]

theorem sent?_eq_none (h : ∀ r, s.run? source.node = some r → r.state ≠ .succeeded) :
    s.sent? source = none := by
  cases hr : s.run? source.node with
  | none => simp [sent?, hr]
  | some r => rw [sent?_eq hr, if_neg (h r hr)]

theorem sent?_eq_some : s.sent? source = some v ↔ ∃ r o, s.run? source.node = some r ∧
    r.state = .succeeded ∧ r.outputs = some o ∧ (o.find? source.port).getD .null = v := by
  cases hr : s.run? source.node with
  | none => simp [sent?, hr]
  | some r =>
    rw [sent?_eq hr]
    split_ifs with hstate <;> simp [hstate]

theorem sent?_congr (h : s'.run? source.node = s.run? source.node) :
    s'.sent? source = s.sent? source := by
  simp only [sent?, h]

/-- A signal sends nothing, and takes nothing back. -/
theorem Reacts.sent? (hp : p.Sound) (hs : Shape p s) (h : Reacts p now s sig s' more)
    (source : PortRef) : s'.sent? source = s.sent? source := by
  cases hr : s.run? source.node with
  | none => exact sent?_congr ((h.run?_none hp hs hr).trans hr.symm)
  | some r =>
    obtain ⟨r', hr', hevolves⟩ := h.evolves hp hs hr
    have hfirm : r'.state = .succeeded ↔ r.state = .succeeded := Evolves.firm hevolves rfl
    rw [sent?_eq hr, sent?_eq hr', hevolves.outputs]
    simp only [hfirm]

/-- A member that starts has sent nothing yet. -/
theorem Coherent.sent?_startNext (hs : Coherent p given s []) {r' : NodeRun}
    (hstart : s.startNext? now = some (s', r')) : s'.sent? source = s.sent? source := by
  obtain ⟨n, k, r, rest, -, hr, hready, rfl, rfl⟩ := startNext?_eq_some hs hstart
  have hrun : (started now s r rest).run? source.node = _ := run?_started hs hr source.node
  split_ifs at hrun with hn
  · rw [sent?_eq_none, sent?_eq_none]
    · intro r₀ hr₀
      rw [← hn, hr] at hr₀
      rw [← Option.some.inj hr₀, hready]
      simp
    · intro r₀ hr₀
      rw [hrun] at hr₀
      rw [← Option.some.inj hr₀]
      simp [NodeRun.start]
  · exact sent?_congr hrun

/-! ### The course of the slot -/

/-- The slot has been written as often as the member that feeds it has sent, and holds what was written
last. -/
structure Writes (p : Plan) (l : NodeId) (source : PortRef) (s : Scope) (sigs done : List Signal) :
    Prop where
  sent : written p (some l) done ++ written p (some l) sigs = (s.sent? source).toList
  last : s.result = (written p (some l) done).getLast?

theorem Writes.react (hp : p.Sound) (hu : p.Untangled) (hs : Shape p s) (howner : s.owner = some l)
    {rest : List Signal} (h : Writes p l source s (sig :: rest) done)
    (hreact : Reacts p now s sig s' more) : Writes p l source s' (more ++ rest) (done ++ [sig]) := by
  have hmore : written p (some l) more = [] :=
    written_eq_nil hp hu (by rw [hreact.arrivals_more]; exact List.not_mem_nil)
  have hcons : written p (some l) (sig :: rest) = written p (some l) [sig] ++ written p (some l) rest :=
    written_append p (some l) [sig] rest
  refine ⟨?_, ?_⟩
  · rw [hreact.sent? hp hs, ← h.sent, hcons, written_append, written_append, hmore]
    simp
  · rw [written_append, List.getLast?_append, ← h.last]
    cases hreact with
    | routeResult hroute =>
      rw [howner] at hroute
      simp [written, writtenBy?, hroute]
    | routeMember hroute | routeNested hroute | routeNowhere hroute =>
      rw [howner] at hroute
      simp [written, writtenBy?, hroute]
    | _ => simp [written, writtenBy?, queue]

section Run

variable (hp : p.Sound) (hu : p.Untangled) (hproper : p.Proper (some l) given)
  (hkind : p.graph.kind? l = some .loop)
  (hin : p.graph.inbound? l PortName.result = some source)
include hp hu hproper hkind hin

/-- Nothing is sent to the slot from outside. -/
theorem writes_opening (now : Timestamp) :
    Writes p l source (opening p now (some l)) (openingSignals p (some l) given) [] := by
  obtain ⟨-, -, -, -, -, -, -, hresult, -⟩ := opening_spec now (some l) hp
  have hnone : (opening p now (some l)).sent? source = none := by
    refine sent?_eq_none fun r hr => ?_
    obtain ⟨-, node, r₀, -, -, hfresh, ⟨-, rfl⟩ | ⟨-, rfl⟩⟩ := opening_run now (some l) hp hr
    · rw [hfresh.state]
      simp
    · simp
  have hnothing : written p (some l) (openingSignals p (some l) given) = [] := by
    refine written_eq_nil hp hu fun harrives => ?_
    have hgiven : ⟨l, PortName.result⟩ ∈ given.map (·.1) := by
      rwa [arrivals_openingSignals] at harrives
    exact hp.not_external_of_feeds (hp.mem_of_returns hu hkind hin)
      (hp.feeds_of_returns hu hkind hin) ((hproper.complete _).mp hgiven)
  refine ⟨?_, hresult⟩
  rw [hnone, hnothing]
  rfl

omit hproper in
/-- The member that feeds the slot announces one value for it, and nobody else announces any. -/
theorem written_announced {n : NodeId} {o : Outcome} (hnodup : (arrivals (announced p n o)).Nodup) :
    written p (some l) (announced p n o) =
      if n = source.node then (o.sent? source.port).toList else [] := by
  obtain ⟨c, hc, htarget⟩ := hp.feeds_of_returns hu hkind hin
  cases o with
  | succeeded outputs =>
    split_ifs with hn
    · have hport : source.port = c.label.sourcePort := by
        have hsource := hp.inbound?_of_forwardOut hc
        rw [htarget, hin] at hsource
        exact congrArg PortRef.port (Option.some.inj hsource)
      have hsent : (⟨l, PortName.result⟩, (outputs.find? source.port).getD .null) ∈
          p.outboundValues n outputs :=
        mem_outboundValues.mpr ⟨c, hn ▸ hc, htarget, by rw [hport]⟩
      exact written_eq_singleton hp hu hkind hnodup (List.mem_map.mpr ⟨_, hsent, rfl⟩)
    · refine written_eq_nil hp hu fun harrives => hn ?_
      obtain ⟨sig, hsig, heq⟩ := List.mem_filterMap.mp harrives
      obtain ⟨⟨t, v⟩, hsent, rfl⟩ := List.mem_map.mp hsig
      obtain ⟨c', hc', htarget', -⟩ := mem_outboundValues.mp hsent
      obtain rfl : t = ⟨l, PortName.result⟩ := Option.some.inj heq
      exact hp.feeds_unique ⟨c', hc', htarget'⟩ ⟨c, hc, htarget⟩
  | failed e => split_ifs <;> rfl
  | cancelled => split_ifs <;> rfl
  | fatal f => split_ifs <;> rfl

omit hproper in
theorem Writes.conclude (hs : Coherent p given s []) (h : Writes p l source s [] done)
    {r : NodeRun} (c : Completion) (hr : s.run? c.node = some r) (hrunning : r.state = .running) :
    Writes p l source (s.putEnded (concluded now { r with attempts := c.attempts } c.outcome))
      (announced p c.node c.outcome) done := by
  have hends := concludes_concluded now r c.attempts c.outcome
  have hcoherent := hs.conclude hp hr hrunning hends
    (announces_announced (p := p) (hs.shape.node _ r hr) c.attempts c.outcome)
  have hnodup := (List.nodup_append.mp (hcoherent.counted.fresh l)).2.1
  have hrun := run?_conclude hs hr hends source.node
  refine ⟨?_, h.last⟩
  rw [written_announced hp hu hkind hin hnodup]
  have hsent : written p (some l) done = (s.sent? source).toList := by
    simpa [written] using h.sent
  split_ifs at hrun ⊢ with hn
  · -- it has sent nothing before
    have hbefore : s.sent? source = none := by
      refine sent?_eq_none fun r₀ hr₀ => ?_
      rw [← hn, hr] at hr₀
      rw [← Option.some.inj hr₀, hrunning]
      simp
    rw [hsent, hbefore, sent?_eq hrun]
    cases c.outcome <;> rfl
  · rw [hsent, sent?_congr hrun, List.append_nil]

/-- Along its course an iteration writes to its slot just what is sent there. -/
theorem Course.writes (h : Course p (some l) given s sigs done) : Writes p l source s sigs done := by
  have hloop : ∀ k, some l = some k → p.graph.kind? k = some .loop := by
    rintro k ⟨⟩
    exact hkind
  induction h with
  | opens now => exact writes_opening hp hu hproper hkind hin now
  | reacts hcourse hreact ih =>
    obtain ⟨hcoherent, howner, -⟩ := hcourse.coherent hp hu hproper hloop
    exact ih.react hp hu hcoherent.shape howner hreact
  | @starts now s s' r done hcourse hstart ih =>
    obtain ⟨hcoherent, -, -⟩ := hcourse.coherent hp hu hproper hloop
    refine ⟨?_, ?_⟩
    · rw [ih.sent, hcoherent.sent?_startNext hstart]
    · obtain ⟨n, k, r, rest, -, -, -, -, rfl⟩ := startNext?_eq_some hcoherent hstart
      exact ih.last
  | concludes now c hcourse hr hrunning ih =>
    obtain ⟨hcoherent, -, -⟩ := hcourse.coherent hp hu hproper hloop
    exact ih.conclude hp hu hkind hin hcoherent c hr hrunning
  | violates f _ ih => exact ⟨ih.sent, ih.last⟩

end Run

end Scope

end PortGraph
