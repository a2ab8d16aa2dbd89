import PortGraph.Proofs.Port.Conversion
import PortGraph.Proofs.Scope.Causes

/-!
Everything in a scope has a source: each signal its cause, each value in an input the value that was
supplied for it, each value kept for the body of a loop an offer, each end a reason. One signal keeps
this, so a scope that works off its signals does.
-/

namespace PortGraph.Scope

open Plan

section Values

variable (p : Plan) (given : List (PortRef × Json)) (s : Scope)

/-- A value in an input of a member: one that was supplied, or the property of that name. -/
def Filled (n : NodeId) (port : String) (w : Json) : Prop :=
  ∃ node v, p.node? n = some node ∧ NodeRun.Converts node port v w ∧
    (Supplied p given s n port v ∨ (port, v) ∈ p.fallbacks node)

/-- Why a member ended without having run. -/
def EndCause (n : NodeId) (r : NodeRun) : Prop :=
  (r.state = .skipped ∧ ∃ reason, r.skipReason = some reason ∧ SkipCause p s n reason) ∨
    (r.state = .failed ∧ FailCause p given s n)

structure Sourced (sigs : List Signal) : Prop where
  causes : ∀ sig ∈ sigs, Cause p given s sig
  inputs : ∀ n r q w, s.run? n = some r → r.inputs.find? q = some w → Filled p given s n q w
  failedPorts : ∀ n r q o, s.run? n = some r → r.failedPorts.find? q = some o →
    Tolerant p n ∧ q ≠ PortName.condition ∧ FeederLost p s ⟨n, q⟩
  handed : ∀ l t v, (t, v) ∈ s.handedTo l →
    Offered p given s t v ∧ p.route s.owner t = some (.nested l)
  result : ∀ v, s.result = some v → ∃ l, s.owner = some l ∧
    Offered p given s ⟨l, PortName.result⟩ v
  decided : ∀ c h, s.resolved.find? c = some h → p.kind? c = some .condition ∧
    ∃ r, s.run? c = some r ∧ r.inputs.truth PortName.condition = .ok h ∧
      (p.graph.inbound? c PortName.condition = none ∨
        (r.inputs.find? PortName.condition).isSome = true)
  ended : ∀ n r, s.run? n = some r → r.state.isTerminal = true → r.startedAt = none →
    EndCause p given s n r

end Values

variable {p : Plan} {given : List (PortRef × Json)} {s s' : Scope}

theorem Later.filled (h : Later s s') {n : NodeId} {port : String} {w : Json}
    (hw : Filled p given s n port w) : Filled p given s' n port w := by
  obtain ⟨node, v, hnode, hconverts, hv⟩ := hw
  exact ⟨node, v, hnode, hconverts, hv.imp_left h.supplied⟩

theorem Later.endCause (h : Later s s') {n : NodeId} {r r' : NodeRun}
    (hstate : r'.state = r.state) (hreason : r'.skipReason = r.skipReason)
    (hr : EndCause p given s n r) : EndCause p given s' n r' := by
  rcases hr with ⟨hskipped, reason, hskip, hcause⟩ | ⟨hfailed, hcause⟩
  · exact Or.inl ⟨hstate.trans hskipped, reason, hreason.trans hskip, h.skipCause hcause⟩
  · exact Or.inr ⟨hstate.trans hfailed, h.failCause hcause⟩

theorem converts_unique {node : Node} {port : String} {v w w' : Json}
    (h : NodeRun.Converts node port v w) (h' : NodeRun.Converts node port v w') : w = w' := by
  obtain ⟨a, ha⟩ := h
  obtain ⟨a', ha'⟩ := h'
  rw [ha] at ha'
  exact (Prod.mk.inj (Except.ok.inj ha')).1

/-! ### One value for an input -/

section Unique

variable (hp : p.Sound) (hs : Shape p s) (hgiven : p.Proper s.owner given)
include hp hs hgiven

omit hp hgiven in
theorem mem_of_lost {m : NodeId} (h : s.Lost m) : m ∈ p.membersIn s.owner := by
  obtain ⟨r, hr, -⟩ := h
  exact (hs.member m).mp (by simp [hr])

theorem offered_unique {t : PortRef} {v v' : Json} (h : Offered p given s t v)
    (h' : Offered p given s t v') : v = v' := by
  have hmember : ∀ {m r o v}, s.run? m = some r → (t, v) ∈ p.outboundValues m o →
      t ∉ given.map (·.1) := by
    intro m r o v hr hmem hin
    obtain ⟨c, hc, ht, -⟩ := mem_outboundValues.mp hmem
    exact hp.external_not_member ((hgiven.complete t).mp hin) hc ht
      ((hs.member m).mp (by simp [hr]))
  rcases h with ⟨m, r, o, hr, -, ho, hmem⟩ | hgiv
  · rcases h' with ⟨m', r', o', hr', -, ho', hmem'⟩ | hgiv'
    · obtain ⟨c, hc, ht, hv⟩ := mem_outboundValues.mp hmem
      obtain ⟨c', hc', ht', hv'⟩ := mem_outboundValues.mp hmem'
      obtain ⟨rfl, rfl⟩ := hp.forwardOut_unique hc hc' (ht.trans ht'.symm)
      obtain rfl : r = r' := Option.some.inj (hr.symm.trans hr')
      obtain rfl : o = o' := Option.some.inj (ho.symm.trans ho')
      exact hv.symm.trans hv'
    · exact absurd (List.mem_map.mpr ⟨_, hgiv', rfl⟩) (hmember hr hmem)
  · rcases h' with ⟨m', r', o', hr', -, -, hmem'⟩ | hgiv'
    · exact absurd (List.mem_map.mpr ⟨_, hgiv, rfl⟩) (hmember hr' hmem')
    · have hpair := List.inj_on_of_nodup_map hgiven.nodup hgiv hgiv' rfl
      exact (Prod.mk.inj hpair).2

/-- Where a value is on offer, the feeder has not failed. -/
theorem not_feederLost_of_offered {t : PortRef} {v : Json} (h : Offered p given s t v) :
    ¬ FeederLost p s t := by
  rintro ⟨m, hm, c, hc, ht⟩
  rcases h with ⟨m', r', o', hr', hstate', -, hmem'⟩ | hgiv
  · obtain ⟨c', hc', ht', -⟩ := mem_outboundValues.mp hmem'
    obtain ⟨rfl, -⟩ := hp.forwardOut_unique hc hc' (ht.trans ht'.symm)
    obtain ⟨r, hr, hstate⟩ := hm
    obtain rfl : r = r' := Option.some.inj (hr.symm.trans hr')
    rcases hstate with hstate | hstate <;> rw [hstate'] at hstate <;> simp at hstate
  · exact hp.external_not_member ((hgiven.complete t).mp (List.mem_map.mpr ⟨_, hgiv, rfl⟩)) hc ht
      (mem_of_lost hs hm)

theorem supplied_unique {n : NodeId} {port : String} {v v' : Json}
    (h : Supplied p given s n port v) (h' : Supplied p given s n port v') : v = v' := by
  rcases h with h | ⟨-, -, hfalse, hlost⟩
  · rcases h' with h' | ⟨-, -, -, hlost'⟩
    · exact offered_unique hp hs hgiven h h'
    · exact absurd hlost' (not_feederLost_of_offered hp hs hgiven h)
  · rcases h' with h' | ⟨-, -, hfalse', -⟩
    · exact absurd hlost (not_feederLost_of_offered hp hs hgiven h')
    · exact hfalse.trans hfalse'.symm

omit hs in
theorem inbound?_of_supplied {n : NodeId} {port : String} {v : Json}
    (h : Supplied p given s n port v) : p.graph.inbound? n port ≠ none := by
  have hsent : ∀ {m c}, c ∈ p.forwardOut m → inputOf c = ⟨n, port⟩ →
      p.graph.inbound? n port ≠ none := by
    intro m c hc ht
    have hin := hp.inbound?_of_forwardOut hc
    rw [ht] at hin
    simp [hin]
  rcases h with (⟨m, r, o, -, -, -, hmem⟩ | hgiv) | ⟨-, -, -, m, -, c, hc, ht⟩
  · obtain ⟨c, hc, ht, -⟩ := mem_outboundValues.mp hmem
    exact hsent hc ht
  · exact hp.external_inbound? ((hgiven.complete _).mp (List.mem_map.mpr ⟨_, hgiv, rfl⟩))
  · exact hsent hc ht

end Unique

theorem inbound?_of_fallback {node : Node} {port : String} {v : Json}
    (h : (port, v) ∈ p.fallbacks node) : p.graph.inbound? node.id port = none := by
  unfold fallbacks at h
  obtain ⟨q, hq, hv⟩ := List.mem_filterMap.mp h
  obtain ⟨v', -, heq⟩ := Option.map_eq_some_iff.mp hv
  obtain ⟨rfl, -⟩ := Prod.mk.inj heq
  simpa using (List.mem_filter.mp hq).2

/-! ### Conditions -/

/-- The condition of a condition is a truth value. -/
theorem condition_port (hp : p.Sound) {n : NodeId} {node : Node} (hnode : p.node? n = some node)
    (hkind : p.kind? n = some .condition) :
    ((node.input? PortName.condition).map Port.type).getD .any = .boolean := by
  obtain ⟨node', hnode', hcond⟩ := Graph.kind?_eq_some hkind
  obtain rfl : node = node' := Option.some.inj (hnode.symm.trans hnode')
  have hports := (hp.graph.ports node (Graph.node?_eq_some hnode).1).1
  cases hset : node.settings with
  | condition settings =>
    unfold Node.input?
    rw [hports, hset]
    rfl
  | _ =>
    unfold Node.kind at hcond
    rw [hset] at hcond
    simp [NodeSettings.kind] at hcond

theorem truth_of_filled (hp : p.Sound) {c : NodeId} {inputs : PortValues}
    (hkind : p.kind? c = some .condition)
    (hin : ∀ w, inputs.find? PortName.condition = some w →
      Filled p given s c PortName.condition w) :
    ∃ h, inputs.truth PortName.condition = .ok h := by
  unfold PortValues.truth PortValues.value
  cases hfind : inputs.find? PortName.condition with
  | none => exact ⟨false, rfl⟩
  | some w =>
    obtain ⟨node, v, hnode, ⟨applied, hconvert⟩, -⟩ := hin w hfind
    rw [condition_port hp hnode hkind] at hconvert
    rcases (Conversion.conforms_of_convert hconvert).boolean with rfl | ⟨b, rfl⟩
    · exact ⟨false, rfl⟩
    · exact ⟨b, rfl⟩

/-! ### One signal -/

section Step

variable {now : Timestamp} {sig : Signal} {rest more : List Signal}
variable (hp : p.Sound) (hu : p.Untangled) (hs : Shape p s) (hgiven : p.Proper s.owner given)
  (h : Sourced p given s (sig :: rest)) (hreact : Reacts p now s sig s' more)
include hp hu hs h hreact

omit hp hu hs h hreact in
theorem Lost.ended {m : NodeId} (hm : s.Lost m) : s.Ended m := by
  obtain ⟨r, hr, hstate⟩ := hm
  refine ⟨r, hr, ?_⟩
  rcases hstate with hstate | hstate <;> rw [hstate] <;> rfl

omit hp hu hs h hreact in
theorem lost_putEnded {s : Scope} {m : NodeId} {r : NodeRun} (hnode : r.node = m)
    (hstate : r.state = .failed ∨ r.state = .skipped) : (s.putEnded r).Lost m :=
  ⟨r, by rw [run?_putEnded, if_pos hnode], hstate⟩

/-- What follows from a signal has its cause. -/
theorem causes_more : ∀ next ∈ more, Cause p given s' next := by
  have hlater := hreact.later hp hs
  have hcause : Cause p given s sig := h.causes sig (by simp)
  cases hreact with
  | routeMember hroute =>
    obtain ⟨hid, -⟩ := (hp.route_eq_member_iff hu).mp hroute
    intro next hnext
    rw [List.mem_singleton.mp hnext, hid]
    exact Or.inl hcause
  | routeNested | forgoDrops | forgoKeeps | feederDrops =>
    intro next hnext
    rw [List.mem_singleton.mp hnext]
    trivial
  | @writeTaken id port v node r r' hnode hr hpending hd =>
    have hr' : (s.put r').run? id = some r' := by
      rw [run?_put, (NodeRun.deliver_kept hd).1, hs.node id r hr, if_pos rfl]
    intro next hnext
    split_ifs at hnext with hdecides
    · simp only [Bool.and_eq_true, beq_iff_eq] at hdecides
      simp only [List.mem_cons, List.not_mem_nil, or_false] at hnext
      rcases hnext with rfl | rfl
      · obtain ⟨w, -, hinputs⟩ := NodeRun.deliver_ok hd
        refine ⟨?_, Or.inr ⟨r', hr', ?_⟩⟩
        · unfold kind? Graph.kind?
          rw [show p.graph.node? id = some node from hnode, Option.map_some, hdecides.1]
        · rw [hinputs, Table.find?_insert, if_pos hdecides.2]
          rfl
      · trivial
    · rw [List.mem_singleton.mp hnext]
      trivial
  | @writeRejected id port v node r r' e hnode hr hpending hd =>
    intro next hnext
    rw [List.mem_singleton.mp hnext]
    exact hlater.failCause (Or.inr ⟨node, port, v, hnode, hcause, (NodeRun.deliver_error hd).1⟩)
  | @resolveFails id r e hnone hr hlive htruth =>
    obtain ⟨t, ht⟩ := truth_of_filled hp hcause.1 fun w => h.inputs id r _ w hr
    rw [htruth] at ht
    simp at ht
  | @resolveDecides id r holds hnone hr hlive htruth =>
    have htaken : NotTaken (s.decide p id holds) id (Branch.taken holds).other :=
      ⟨holds, by rw [resolved_decide, if_pos rfl], rfl⟩
    intro next hnext
    rcases mem_decided.mp hnext with ⟨n, hn, rfl⟩ | ⟨n, hn, rfl⟩ | rfl
    · trivial
    · exact ⟨by simp, _, htaken, hn⟩
    · exact htaken
  | promoteSkips hr hsat hchoice =>
    rename_i id origin r
    intro next hnext
    rw [List.mem_singleton.mp hnext]
    unfold failedChoice? at hchoice
    rw [hs.node id r hr] at hchoice
    obtain ⟨b, hb, hport⟩ := Option.bind_eq_some_iff.mp hchoice
    obtain ⟨htolerant, -, hlost⟩ := h.failedPorts id r _ _ hr hport
    exact ⟨by simp, Or.inr (Or.inr ⟨htolerant, b, hb, hlost⟩)⟩
  | @cascade source origin =>
    intro next hnext
    obtain ⟨c, hc, hnext⟩ := mem_reactCascade.mp hnext
    have hlost : FeederLost p s (inputOf c) := ⟨source, hcause, c, hc, rfl⟩
    rcases hnext with ⟨id, hroute, rfl⟩ | ⟨l, hroute, rfl⟩
    · obtain ⟨rfl, -⟩ := (hp.route_eq_member_iff hu).mp hroute
      exact hlost
    · exact ⟨by simp, Or.inr (Or.inl ⟨inputOf c, hlost, hroute⟩)⟩
  | @feederSkips id origin port hkind =>
    intro next hnext
    rw [List.mem_singleton.mp hnext]
    exact ⟨by simp, Or.inl ⟨hkind, port, hcause⟩⟩
  | @feederFails id origin port e hstrict =>
    intro next hnext
    rw [List.mem_singleton.mp hnext]
    exact Or.inl ⟨hstrict, port, hcause⟩
  | feederCounts htolerant =>
    intro next hnext
    rw [List.mem_singleton.mp hnext]
    exact Or.inr ⟨htolerant, rfl, rfl, hcause⟩
  | @skips id reason r hr hunstarted =>
    have hlost : ((s.dequeue id).putEnded (r.skip now reason)).Lost id :=
      lost_putEnded (hs.node id r hr) (Or.inr rfl)
    intro next hnext
    rcases mem_skipped.mp hnext with ⟨origin, -, rfl⟩ | rfl
    · exact hlost
    · exact hlost.ended
  | @fails id e r hr hunstarted =>
    have hlost : ((s.dequeue id).putEnded (r.fail now e)).Lost id :=
      lost_putEnded (hs.node id r hr) (Or.inl rfl)
    intro next hnext
    simp only [List.mem_cons, List.not_mem_nil, or_false] at hnext
    rcases hnext with rfl | rfl
    · exact hlost
    · exact hlost.ended
  | @settles id hnone hkind =>
    intro next hnext
    obtain ⟨n, hn, rfl⟩ := List.mem_map.mp hnext
    rcases List.mem_append.mp hn with hn | hn
    · exact ⟨by simp, hcause, hnone, _, hn⟩
    · exact ⟨by simp, hcause, hnone, _, hn⟩
  | _ => simp

omit hu in
theorem inputs_react (n : NodeId) (r' : NodeRun) (q : String) (w : Json)
    (hr' : s'.run? n = some r') (hw : r'.inputs.find? q = some w) : Filled p given s' n q w := by
  have hlater := hreact.later hp hs
  obtain ⟨r, hr, hevolves⟩ := hreact.evolved hp hs hr'
  have hold : r.inputs.find? q = some w → Filled p given s' n q w :=
    fun hq => hlater.filled (h.inputs n r q w hr hq)
  cases hevolves with
  | @deliver node port v r' result hsig hnode hpending hd =>
    cases result with
    | error e =>
      rw [(NodeRun.deliver_error hd).2] at hw
      exact hold hw
    | ok u =>
      obtain ⟨w', hconverts, hinputs⟩ := NodeRun.deliver_ok hd
      rw [hinputs, Table.find?_insert] at hw
      split_ifs at hw with hport
      · obtain rfl := Option.some.inj hw
        subst hport
        have hcause : Cause p given s sig := h.causes sig (by simp)
        rw [hsig, hs.node n r hr] at hcause
        rw [hs.node n r hr] at hnode
        exact ⟨node, v, hnode, hconverts, Or.inl (hlater.supplied hcause)⟩
      · exact hold hw
  | _ => exact hold hw

omit hu in
theorem failedPorts_react (n : NodeId) (r' : NodeRun) (q : String) (o : NodeId)
    (hr' : s'.run? n = some r') (ho : r'.failedPorts.find? q = some o) :
    Tolerant p n ∧ q ≠ PortName.condition ∧ FeederLost p s' ⟨n, q⟩ := by
  have hlater := hreact.later hp hs
  obtain ⟨r, hr, hevolves⟩ := hreact.evolved hp hs hr'
  have hold : r.failedPorts.find? q = some o →
      Tolerant p n ∧ q ≠ PortName.condition ∧ FeederLost p s' ⟨n, q⟩ := by
    intro hq
    obtain ⟨htolerant, hport, hlost⟩ := h.failedPorts n r q o hr hq
    exact ⟨htolerant, hport, hlater.feederLost hlost⟩
  cases hevolves with
  | @deliver node port v r' result hsig hnode hpending hd =>
    rw [(NodeRun.deliver_kept hd).2.2.2.2.2.2.2.2.1] at ho
    exact hold ho
  | @lose port origin hsig htolerant hport hpending =>
    change (r.failedPorts.insert port origin).find? q = some o at ho
    rw [Table.find?_insert] at ho
    split_ifs at ho with heq
    · subst heq
      have hcause : Cause p given s sig := h.causes sig (by simp)
      rw [hsig, hs.node n r hr] at hcause
      rw [hs.node n r hr] at htolerant
      exact ⟨htolerant, hport, hlater.feederLost hcause⟩
    · exact hold ho
  | _ => exact hold ho

omit hu in
theorem handed_react (l : NodeId) (t : PortRef) (v : Json) (hv : (t, v) ∈ s'.handedTo l) :
    Offered p given s' t v ∧ p.route s'.owner t = some (.nested l) := by
  have hlater := hreact.later hp hs
  have hcause : Cause p given s sig := h.causes sig (by simp)
  have hold : (t, v) ∈ s.handedTo l →
      Offered p given s' t v ∧ p.route s'.owner t = some (.nested l) := by
    intro hin
    obtain ⟨hoffered, hroute⟩ := h.handed l t v hin
    exact ⟨hlater.offered hoffered, by rwa [hlater.owner]⟩
  cases hreact with
  | @routeNested t' v' l' hroute =>
    rw [handedTo_hand] at hv
    split_ifs at hv with hl
    · rcases List.mem_append.mp hv with hv | hv
      · exact hold hv
      · obtain ⟨rfl, rfl⟩ := Prod.mk.inj (List.mem_singleton.mp hv)
        exact ⟨hlater.offered hcause, by rw [owner_hand, ← hl]; exact hroute⟩
    · exact hold hv
  | _ => exact hold (by simpa [handedTo, queue] using hv)

theorem result_react (v : Json) (hv : s'.result = some v) :
    ∃ l, s'.owner = some l ∧ Offered p given s' ⟨l, PortName.result⟩ v := by
  have hlater := hreact.later hp hs
  have hcause : Cause p given s sig := h.causes sig (by simp)
  have hold : s.result = some v →
      ∃ l, s'.owner = some l ∧ Offered p given s' ⟨l, PortName.result⟩ v := by
    intro hres
    obtain ⟨l, hl, hoffered⟩ := h.result v hres
    exact ⟨l, hlater.owner.trans hl, hlater.offered hoffered⟩
  cases hreact with
  | @routeResult t v' hroute =>
    obtain rfl : v' = v := Option.some.inj hv
    rcases hp.route_cases hu hroute with ⟨heq, -⟩ | ⟨l, heq, -⟩ | ⟨-, howner, hport⟩
    · simp at heq
    · simp at heq
    · refine ⟨t.node, howner, hlater.offered ?_⟩
      rw [← hport]
      exact hcause
  | _ => exact hold (by simpa [queue] using hv)

include hgiven in
omit hu hreact in
/-- Where an input holds a value, the value that is supplied for it comes to the same. -/
theorem find?_of_supplied {n : NodeId} {r : NodeRun} {node : Node} {port : String} {v w : Json}
    (hr : s.run? n = some r) (hnode : p.node? n = some node)
    (hsupplied : Supplied p given s n port v) (hconverts : NodeRun.Converts node port v w)
    (hfilled : (r.inputs.find? port).isSome = true) : r.inputs.find? port = some w := by
  obtain ⟨w', hw'⟩ := Option.isSome_iff_exists.mp hfilled
  obtain ⟨node', v', hnode', hconverts', hv'⟩ := h.inputs n r port w' hr hw'
  obtain rfl : node = node' := Option.some.inj (hnode.symm.trans hnode')
  rcases hv' with hv' | hfallback
  · obtain rfl := supplied_unique hp hs hgiven hsupplied hv'
    rw [hw', converts_unique hconverts hconverts']
  · have hfree := inbound?_of_fallback hfallback
    rw [(Graph.node?_eq_some hnode).2] at hfree
    exact absurd hfree (inbound?_of_supplied hp hgiven hsupplied)

include hgiven in
omit hu in
theorem decided_react (c : NodeId) (b : Bool) (hb : s'.resolved.find? c = some b) :
    p.kind? c = some .condition ∧ ∃ r, s'.run? c = some r ∧
      r.inputs.truth PortName.condition = .ok b ∧
        (p.graph.inbound? c PortName.condition = none ∨
          (r.inputs.find? PortName.condition).isSome = true) := by
  have hcause : Cause p given s sig := h.causes sig (by simp)
  -- The value of a condition does not change any more: a second one would be the same.
  have hold : s.resolved.find? c = some b → p.kind? c = some .condition ∧
      ∃ r, s'.run? c = some r ∧ r.inputs.truth PortName.condition = .ok b ∧
        (p.graph.inbound? c PortName.condition = none ∨
          (r.inputs.find? PortName.condition).isSome = true) := by
    intro hres
    obtain ⟨hkind, r, hr, htruth, hin⟩ := h.decided c b hres
    obtain ⟨r', hr', hevolves⟩ := hreact.evolves hp hs hr
    refine ⟨hkind, r', hr', ?_⟩
    cases hevolves with
    | @deliver node port v r' result hsig hnode hpending hd =>
      cases result with
      | error e =>
        rw [(NodeRun.deliver_error hd).2]
        exact ⟨htruth, hin⟩
      | ok u =>
        obtain ⟨w, hconverts, hinputs⟩ := NodeRun.deliver_ok hd
        rw [hsig, hs.node c r hr] at hcause
        rw [hs.node c r hr] at hnode
        have hsupplied : Supplied p given s c port v := hcause
        have hfind : r'.inputs.find? PortName.condition = r.inputs.find? PortName.condition := by
          rw [hinputs, Table.find?_insert]
          split_ifs with hport
          · rw [← hport] at hin ⊢
            have hfilled := hin.resolve_left (inbound?_of_supplied hp hgiven hsupplied)
            exact (find?_of_supplied hp hs hgiven h hr hnode hsupplied hconverts hfilled).symm
          · rfl
        unfold PortValues.truth PortValues.value at htruth ⊢
        rw [hfind]
        exact ⟨htruth, hin⟩
    | _ => exact ⟨htruth, hin⟩
  cases hreact with
  | @resolveDecides id r holds hnone hr hlive htruth =>
    rw [resolved_decide] at hb
    split_ifs at hb with hid
    · obtain rfl := Option.some.inj hb
      subst hid
      obtain ⟨hkind, hin⟩ := hcause
      have hr' : (s.decide p id holds).run? id = some r ∨
          (s.decide p id holds).run? id = some r.openGate := by
        rw [run?_decide s _ _ p _ (hp.nodup_exclusive _), hr]
        split_ifs
        · exact Or.inr rfl
        · exact Or.inl rfl
      have hin' : p.graph.inbound? id PortName.condition = none ∨
          (r.inputs.find? PortName.condition).isSome = true := by
        rcases hin with hfree | ⟨r₁, hr₁, hfilled⟩
        · exact Or.inl hfree
        · obtain rfl : r = r₁ := Option.some.inj (hr.symm.trans hr₁)
          exact Or.inr hfilled
      rcases hr' with hr' | hr'
      · exact ⟨hkind, r, hr', htruth, hin'⟩
      · exact ⟨hkind, r.openGate, hr', htruth, hin'⟩
    · exact hold hb
  | _ => exact hold (by simpa [queue] using hb)

omit hu in
theorem ended_react (n : NodeId) (r' : NodeRun) (hr' : s'.run? n = some r')
    (hterm : r'.state.isTerminal = true) (hstart : r'.startedAt = none) :
    EndCause p given s' n r' := by
  have hlater := hreact.later hp hs
  have hcause : Cause p given s sig := h.causes sig (by simp)
  obtain ⟨r, hr, hevolves⟩ := hreact.evolved hp hs hr'
  rw [hevolves.startedAt] at hstart
  cases hended : r.state.isTerminal with
  | true =>
    obtain ⟨hstate, -, -, -, hreason, -⟩ := hevolves.settled (isUnstarted_of_isTerminal hended)
    exact hlater.endCause hstate hreason (h.ended n r hr hended hstart)
  | false =>
    rcases hevolves.ended hended hterm with ⟨reason, hsig, -, rfl⟩ | ⟨e, hsig, -, rfl⟩
    · rw [hsig, hs.node n r hr] at hcause
      exact Or.inl ⟨rfl, reason, rfl, hlater.skipCause hcause.2⟩
    · rw [hsig, hs.node n r hr] at hcause
      exact Or.inr ⟨rfl, hlater.failCause hcause⟩

end Step

/-- Each signal keeps the sources. -/
theorem Sourced.react {now : Timestamp} {sig : Signal} {rest more : List Signal} (hp : p.Sound)
    (hu : p.Untangled) (hs : Shape p s) (hgiven : p.Proper s.owner given)
    (h : Sourced p given s (sig :: rest)) (hreact : Reacts p now s sig s' more) :
    Sourced p given s' (more ++ rest) where
  causes := by
    intro next hnext
    rcases List.mem_append.mp hnext with hnext | hnext
    · exact causes_more hp hu hs h hreact next hnext
    · exact (hreact.later hp hs).cause (h.causes next (List.mem_cons_of_mem _ hnext))
  inputs := inputs_react hp hs h hreact
  failedPorts := failedPorts_react hp hs h hreact
  handed := handed_react hp hs h hreact
  result := result_react hp hu hs h hreact
  decided := decided_react hp hs hgiven h hreact
  ended := ended_react hp hs h hreact

end PortGraph.Scope
