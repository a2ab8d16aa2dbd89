import PortGraph.Proofs.Scope.Coherent

/-!
A coherent scope at rest stays coherent when it starts a node and when it hears how one ended.
-/

namespace PortGraph.Scope

open Plan

/-- A run that has ended, apart from what it ended with. -/
structure Concludes (r r' : NodeRun) : Prop where
  node : r'.node = r.node
  terminal : r'.state.isTerminal = true
  notSkipped : r'.state ≠ .skipped
  inputs : r'.inputs = r.inputs
  startedAt : r'.startedAt = r.startedAt
  failedPorts : r'.failedPorts = r.failedPorts
  pendingInputs : r'.pendingInputs = r.pendingInputs
  pendingCaptures : r'.pendingCaptures = r.pendingCaptures
  pendingGates : r'.pendingGates = r.pendingGates

/-- The signals tell all that a node that has ended means for others. -/
structure Announces (p : Plan) (s : Scope) (n : NodeId) (r' : NodeRun) (sigs : List Signal) :
    Prop where
  causes : ∀ given, ∀ sig ∈ sigs, Cause p given (s.putEnded r') sig
  arrivals : arrivals sigs = [] ∨ arrivals sigs = (p.forwardOut n).map inputOf
  complete : r'.state ≠ .cancelled → ∀ t, p.Feeds n t →
    (∃ v, .route t v ∈ sigs) ∨ ∃ origin, .cascade n origin ∈ sigs

/-- A run that had not ended ends, and keeps what it started with. -/
theorem later_putEnded {s : Scope} {n : NodeId} {r r' : NodeRun} (hr : s.run? n = some r)
    (hlive : r.state.isTerminal = false) (hnode : r'.node = n) (hinputs : r'.inputs = r.inputs)
    (hstart : r'.startedAt = r.startedAt) (hports : r'.failedPorts = r.failedPorts) :
    Later s (s.putEnded r') := by
  have hrun : ∀ k, (s.putEnded r').run? k = if n = k then some r' else s.run? k := by
    intro k
    rw [run?_putEnded, hnode]
  refine ⟨rfl, ?_, ?_, ?_, fun _ _ hb => hb, fun _ _ _ _ hnone => hnone⟩
  · intro k r₁ hr₁ hterm
    refine ⟨r₁, ?_, rfl, rfl, rfl, rfl⟩
    rw [hrun, if_neg (ne_of_ended hr hlive hr₁ hterm), hr₁]
  · intro k r₁ hr₁ hsome
    rw [hrun]
    split_ifs with heq
    · subst heq
      obtain rfl := Option.some.inj (hr.symm.trans hr₁)
      exact ⟨r', rfl, hstart, hinputs, hports⟩
    · exact ⟨r₁, hr₁, rfl, rfl, rfl⟩
  · intro k r₁ q hr₁ hq
    rw [hrun]
    split_ifs with heq
    · subst heq
      obtain rfl := Option.some.inj (hr.symm.trans hr₁)
      exact ⟨r', rfl, by rw [hinputs]; exact hq⟩
    · exact ⟨r₁, hr₁, hq⟩

section Conclude

variable {p : Plan} {given : List (PortRef × Json)} {s : Scope} {n : NodeId} {r r' : NodeRun}
variable {sigs : List Signal}
variable (hp : p.Sound) (h : Coherent p given s []) (hr : s.run? n = some r)
  (hrunning : r.state = .running) (hends : Concludes r r')
include hp h hr hrunning hends

omit hp hrunning in
theorem run?_conclude (k : NodeId) :
    (s.putEnded r').run? k = if n = k then some r' else s.run? k := by
  rw [run?_putEnded, hends.node, h.shape.node n r hr]

omit hp hrunning in
/-- Any other run is as it was. -/
theorem run?_conclude_cases {k : NodeId} {r₁ : NodeRun} (hr₁ : (s.putEnded r').run? k = some r₁) :
    (k = n ∧ r₁ = r') ∨ (k ≠ n ∧ s.run? k = some r₁) := by
  rw [run?_conclude h hr hends] at hr₁
  split_ifs at hr₁ with heq
  · exact Or.inl ⟨heq.symm, (Option.some.inj hr₁).symm⟩
  · exact Or.inr ⟨fun heq' => heq heq'.symm, hr₁⟩

omit hp in
theorem later_conclude : Later s (s.putEnded r') :=
  later_putEnded hr (by rw [hrunning]; rfl) (hends.node.trans (h.shape.node n r hr)) hends.inputs
    hends.startedAt hends.failedPorts

omit hp in
theorem shape_conclude : Shape p (s.putEnded r') := by
  have hclear := h.shape.clear n r hr
  refine ⟨?_, ?_, ?_, Table.ordered_insert h.shape.ordered _ _⟩
  · intro k
    rw [run?_conclude h hr hends, owner_putEnded, ← h.shape.member k]
    split_ifs with heq
    · subst heq
      simp [hr]
    · rfl
  · intro k r₁ hr₁
    rcases run?_conclude_cases h hr hends hr₁ with ⟨rfl, rfl⟩ | ⟨-, hr₁⟩
    · rw [hends.node, h.shape.node _ r hr]
    · exact h.shape.node k r₁ hr₁
  · intro k r₁ hr₁
    rcases run?_conclude_cases h hr hends hr₁ with ⟨rfl, rfl⟩ | ⟨-, hr₁⟩
    · have hterm := hends.terminal
      refine ⟨?_, ?_, ?_, ?_, ?_⟩
      · intro hstate
        simp [hstate, RunState.isTerminal] at hterm
      · intro hunstarted
        rw [isUnstarted_of_isTerminal hterm] at hunstarted
        simp at hunstarted
      · intro _
        rw [hends.pendingInputs, hends.pendingCaptures, hends.pendingGates]
        exact hclear.free (Or.inr (Or.inl hrunning))
      · intro hstate
        simp [hstate, RunState.isTerminal] at hterm
      · exact fun hstate => absurd hstate hends.notSkipped
    · exact h.shape.clear k r₁ hr₁

variable (hsigs : Announces p s n r' sigs)
include hsigs

omit hp in
theorem sourced_conclude : Sourced p given (s.putEnded r') sigs := by
  have hlater := later_conclude h hr hrunning hends
  have hsourced := h.sourced
  refine ⟨hsigs.causes given, ?_, ?_, ?_, ?_, ?_, ?_⟩
  · intro k r₁ q w hr₁ hw
    rcases run?_conclude_cases h hr hends hr₁ with ⟨rfl, rfl⟩ | ⟨-, hr₁⟩
    · rw [hends.inputs] at hw
      exact hlater.filled (hsourced.inputs k r q w hr hw)
    · exact hlater.filled (hsourced.inputs k r₁ q w hr₁ hw)
  · intro k r₁ q o hr₁ ho
    have hold : ∃ r₀, s.run? k = some r₀ ∧ r₀.failedPorts.find? q = some o := by
      rcases run?_conclude_cases h hr hends hr₁ with ⟨rfl, rfl⟩ | ⟨-, hr₁⟩
      · exact ⟨r, hr, by rw [← hends.failedPorts]; exact ho⟩
      · exact ⟨r₁, hr₁, ho⟩
    obtain ⟨r₀, hr₀, ho₀⟩ := hold
    obtain ⟨htolerant, hport, hlost⟩ := hsourced.failedPorts k r₀ q o hr₀ ho₀
    exact ⟨htolerant, hport, hlater.feederLost hlost⟩
  · intro l t v hmem
    obtain ⟨hoffered, hroute⟩ := hsourced.handed l t v hmem
    exact ⟨hlater.offered hoffered, hroute⟩
  · intro v hv
    obtain ⟨l, hl, hoffered⟩ := hsourced.result v hv
    exact ⟨l, hl, hlater.offered hoffered⟩
  · intro c b hb
    obtain ⟨hkind, rc, hrc, htruth, hin⟩ := hsourced.decided c b hb
    refine ⟨hkind, ?_⟩
    rw [run?_conclude h hr hends]
    split_ifs with heq
    · subst heq
      obtain rfl := Option.some.inj (hr.symm.trans hrc)
      exact ⟨r', rfl, by rw [hends.inputs]; exact htruth, by rw [hends.inputs]; exact hin⟩
    · exact ⟨rc, hrc, htruth, hin⟩
  · intro k r₁ hr₁ hterm hstart
    rcases run?_conclude_cases h hr hends hr₁ with ⟨rfl, rfl⟩ | ⟨-, hr₁⟩
    · have hstarted := (h.shape.clear k r hr).running hrunning
      rw [← hends.startedAt, hstart] at hstarted
      simp at hstarted
    · exact hlater.endCause rfl rfl (hsourced.ended k r₁ hr₁ hterm hstart)

theorem counted_conclude : Counted p (s.putEnded r') sigs := by
  have hcounted := h.counted
  refine ⟨?_, ?_, ?_, ?_⟩
  · intro k r₁ hr₁
    rcases run?_conclude_cases h hr hends hr₁ with ⟨rfl, rfl⟩ | ⟨-, hr₁⟩
    · rw [hends.pendingGates]
      exact hcounted.gates k r hr
    · exact hcounted.gates k r₁ hr₁
  · intro l r₁ lp hr₁ hlp
    rcases run?_conclude_cases h hr hends hr₁ with ⟨rfl, rfl⟩ | ⟨-, hr₁⟩
    · rw [hends.pendingCaptures]
      exact hcounted.captures l r lp hr hlp
    · exact hcounted.captures l r₁ lp hr₁ hlp
  · intro k r₁ hr₁ hnone
    rcases run?_conclude_cases h hr hends hr₁ with ⟨rfl, rfl⟩ | ⟨-, hr₁⟩
    · rw [hends.pendingCaptures]
      exact hcounted.capturesNone k r hr hnone
    · exact hcounted.capturesNone k r₁ hr₁ hnone
  · intro l
    have hold : (s.handedKeys l).Nodup := (List.nodup_append.mp (hcounted.fresh l)).1
    have hsame : (s.putEnded r').handedKeys l = s.handedKeys l := rfl
    rw [hsame]
    rcases hsigs.arrivals with hnil | hall
    · rw [hnil, List.append_nil]
      exact hold
    · rw [hall]
      refine List.nodup_append.mpr ⟨hold, hp.nodup_forwardOut n, ?_⟩
      rintro t ht _ ht' rfl
      -- nothing that the node feeds was handed on before it ended
      obtain ⟨c, hc, hct⟩ := List.mem_map.mp ht'
      obtain ⟨⟨t₁, v⟩, hmem, rfl⟩ := List.mem_map.mp ht
      obtain ⟨hoffered, -⟩ := h.sourced.handed l t₁ v hmem
      rcases hoffered with ⟨m, rm, o, hrm, hsucceeded, -, hout⟩ | hgiv
      · obtain ⟨c', hc', hct', -⟩ := mem_outboundValues.mp hout
        obtain ⟨rfl, -⟩ := hp.forwardOut_unique hc hc' (hct.trans hct'.symm)
        obtain rfl := Option.some.inj (hr.symm.trans hrm)
        rw [hrunning] at hsucceeded
        simp at hsucceeded
      · exact hp.external_not_member
          ((h.proper.complete t₁).mp (List.mem_map.mpr ⟨_, hgiv, rfl⟩)) hc hct
          ((h.shape.member n).mp (by simp [hr]))

omit hp hsigs hrunning in
/-- What is settled after a node has ended was settled before, or it is settled by the node. -/
theorem settled_conclude {t : PortRef} (hsettled : Settled p given (s.putEnded r') t) :
    Settled p given s t ∨ (p.Feeds n t ∧ r'.state ≠ .cancelled) := by
  rcases hsettled with hgiv | ⟨m, hfeeds, rm, hrm, hterm, hcancel⟩
  · exact Or.inl (Or.inl hgiv)
  · rcases run?_conclude_cases h hr hends hrm with ⟨rfl, rfl⟩ | ⟨-, hrm⟩
    · exact Or.inr ⟨hfeeds, hcancel⟩
    · exact Or.inl (Or.inr ⟨m, hfeeds, rm, hrm, hterm, hcancel⟩)

theorem owed_conclude : Owed p given (s.putEnded r') sigs := by
  have howed := h.owed
  have hlive : ∀ {k r₁}, (s.putEnded r').run? k = some r₁ → r₁.state.isTerminal = false →
      s.run? k = some r₁ := by
    intro k r₁ hr₁ hlive
    rcases run?_conclude_cases h hr hends hr₁ with ⟨rfl, rfl⟩ | ⟨-, hr₁⟩
    · rw [hends.terminal] at hlive
      simp at hlive
    · exact hr₁
  have hpending : ∀ {r₁ : NodeRun}, r₁.state = .pending → r₁.state.isTerminal = false := by
    intro r₁ hstate
    rw [hstate]
    rfl
  refine ⟨?_, ?_, ?_, ?_, ?_, ?_, ?_⟩
  · intro k r₁ q hr₁ hstate hq hsettled
    have hr₁ := hlive hr₁ (hpending hstate)
    rcases settled_conclude h hr hends hsettled with hold | ⟨hfeeds, hcancel⟩
    · obtain ⟨sig, hsig, -⟩ := howed.supplied k r₁ q hr₁ hstate hq hold
      simp at hsig
    · rcases hsigs.complete hcancel _ hfeeds with ⟨v, hroute⟩ | ⟨origin, hcascade⟩
      · exact ⟨_, hroute, .route⟩
      · exact ⟨_, hcascade, .cascade hfeeds⟩
  · intro l r₁ t hr₁ hunstarted hroute ht hsettled
    have hr₁ := hlive hr₁ (live_of_isUnstarted hunstarted)
    rcases settled_conclude h hr hends hsettled with hold | ⟨hfeeds, hcancel⟩
    · obtain ⟨sig, hsig, -⟩ := howed.brought l r₁ t hr₁ hunstarted hroute ht hold
      simp at hsig
    · rcases hsigs.complete hcancel _ hfeeds with ⟨v, hsent⟩ | ⟨origin, hcascade⟩
      · exact ⟨_, hsent, .route⟩
      · exact ⟨_, hcascade, .cascade hfeeds⟩
  · intro k r₁ gate hr₁ hunstarted hgate hclosed
    have hr₁ := hlive hr₁ (live_of_isUnstarted hunstarted)
    have hold : Closed s gate := by
      rcases hclosed with htaken | ⟨⟨rc, hrc, hterm⟩, hnone⟩
      · exact Or.inl htaken
      · refine Or.inr ⟨?_, hnone⟩
        rcases run?_conclude_cases h hr hends hrc with ⟨heq, rfl⟩ | ⟨-, hrc⟩
        · have hkind := hp.kind?_of_mem_exclusive (hp.mem_gates_iff.mp hgate)
          rw [heq] at hkind hnone
          exact absurd hnone (howed.running n r hr hkind hrunning)
        · exact ⟨rc, hrc, hterm⟩
    obtain ⟨sig, hsig, -⟩ := howed.barred k r₁ gate hr₁ hunstarted hgate hold
    simp at hsig
  · intro k r₁ branch hr₁ hstate htaken hfed hport
    obtain ⟨sig, hsig, -⟩ :=
      howed.forgone k r₁ branch (hlive hr₁ (hpending hstate)) hstate htaken hfed hport
    simp at hsig
  · intro c r₁ hr₁ hkind hunstarted hfree hnone
    obtain ⟨sig, hsig, -⟩ := howed.decided c r₁ (hlive hr₁ (live_of_isUnstarted hunstarted)) hkind
      hunstarted hfree hnone
    simp at hsig
  · intro c r₁ hr₁ hkind hstate
    exact howed.running c r₁ (hlive hr₁ (by rw [hstate]; rfl)) hkind hstate
  · intro k r₁ hr₁ hsat
    obtain ⟨sig, hsig, -⟩ := howed.promoted k r₁
      (hlive hr₁ (hpending (NodeRun.pending_of_isSatisfied hsat).1)) hsat
    simp at hsig

omit hp in
theorem accounted_conclude : Accounted p (s.putEnded r') sigs := by
  have haccounted := h.accounted
  refine ⟨?_, ?_, ?_⟩
  · intro k r₁ node q hr₁ hnode hq
    rcases run?_conclude_cases h hr hends hr₁ with ⟨rfl, rfl⟩ | ⟨-, hr₁⟩
    · rw [hends.pendingInputs] at hq
      exact haccounted.waits k r node q hr hnode hq
    · exact haccounted.waits k r₁ node q hr₁ hnode hq
  · intro k r₁ node q hr₁ hnode hq halive
    have hnone : ∀ {r₀ : NodeRun},
        ¬ (r₀.state = .pending ∧ ∃ e rest, [] = Signal.fail k e :: rest) := by
      rintro r₀ ⟨-, e, rest, heq⟩
      simp at heq
    rcases run?_conclude_cases h hr hends hr₁ with ⟨rfl, rfl⟩ | ⟨-, hr₁⟩
    · have hstart := (h.shape.clear k r hr).running hrunning
      rcases haccounted.inputs k r node q hr hnode hq (Or.inr hstart) with hi | hi | hi | hi | hi
      · exact Or.inl (by rwa [hends.pendingInputs])
      · exact Or.inr (Or.inl (by rwa [hends.inputs]))
      · exact Or.inr (Or.inr (Or.inl (by rwa [hends.failedPorts])))
      · exact Or.inr (Or.inr (Or.inr (Or.inl hi)))
      · exact absurd hi hnone
    · rcases haccounted.inputs k r₁ node q hr₁ hnode hq halive with hi | hi | hi | hi | hi
      · exact Or.inl hi
      · exact Or.inr (Or.inl hi)
      · exact Or.inr (Or.inr (Or.inl hi))
      · exact Or.inr (Or.inr (Or.inr (Or.inl hi)))
      · exact absurd hi hnone
  · intro k r₁ node q v hr₁ hnode hfallback
    rcases run?_conclude_cases h hr hends hr₁ with ⟨rfl, rfl⟩ | ⟨-, hr₁⟩
    · rw [hends.inputs]
      exact haccounted.fallbacks k r node q v hr hnode hfallback
    · exact haccounted.fallbacks k r₁ node q v hr₁ hnode hfallback

omit hp hsigs in
theorem listed_conclude : Listed p (s.putEnded r') := by
  have hqueue : s.dequeue n = s := by
    have hready : s.ready.filter (fun e => !(e.2 == n)) = s.ready := by
      refine List.filter_eq_self.mpr ?_
      intro e he
      simp only [Bool.not_eq_true', beq_eq_false_iff_ne]
      intro heq
      obtain ⟨-, r₁, hr₁, hstate⟩ := (h.listed.ready e).mp he
      rw [heq, hr] at hr₁
      obtain rfl := Option.some.inj hr₁
      rw [hrunning] at hstate
      simp at hstate
    unfold dequeue
    rw [hready]
  have hlisted := h.listed.putEnded hr (by rw [hrunning]; rfl)
    (hends.node.trans (h.shape.node n r hr)) hends.terminal
  rwa [hqueue] at hlisted

/-- A scope stays coherent when a node ends and what this means is announced. -/
theorem Coherent.conclude : Coherent p given (s.putEnded r') sigs where
  shape := shape_conclude h hr hrunning hends
  isLoop := h.isLoop
  proper := h.proper
  sourced := sourced_conclude h hr hrunning hends hsigs
  counted := counted_conclude hp h hr hrunning hends hsigs
  owed := owed_conclude hp h hr hrunning hends hsigs
  accounted := accounted_conclude h hr hrunning hends hsigs
  listed := listed_conclude h hr hrunning hends

end Conclude

/-! ### Conditions at rest -/

section Rest

variable {p : Plan} {now : Timestamp} {given : List (PortRef × Json)} {s t : Scope}
variable {sigs left : List Signal}

/-- A scope that owes nothing has resolved every condition that it can. -/
theorem Coherent.resolved (h : Coherent p given s []) {c : NodeId} {r : NodeRun}
    (hr : s.run? c = some r) (hkind : p.kind? c = some .condition)
    (hunstarted : isUnstarted r = true) (hfree : PortName.condition ∉ r.pendingInputs) :
    s.resolved.find? c ≠ none := by
  intro hnone
  obtain ⟨sig, hsig, -⟩ := h.owed.decided c r hr hkind hunstarted hfree hnone
  simp at hsig

theorem Coherent.resolved_of_ready (h : Coherent p given s []) {c : NodeId} {r : NodeRun}
    (hr : s.run? c = some r) (hkind : p.kind? c = some .condition) (hready : r.state = .ready) :
    s.resolved.find? c ≠ none := by
  have hfree := ((h.shape.clear c r hr).free (Or.inl hready)).1
  exact h.resolved hr hkind (isUnstarted_of_ready hready) (by simp [hfree])

theorem Coherent.chosen (hp : p.Sound) (hu : p.Untangled) (h : Coherent p given s sigs)
    (hprompt : Prompt p s sigs) (hchosen : Chosen p s) (hdrains : Drains p now s sigs t left) :
    Chosen p t := by
  refine (hdrains.keeps (P := fun u sigs => Coherent p given u sigs ∧ Prompt p u sigs ∧ Chosen p u)
    ?_ ⟨h, hprompt, hchosen⟩).2.2
  rintro u sig rest u' more ⟨hcoherent, hprompt, hchosen⟩ hreact
  exact ⟨hcoherent.react hp hu hreact, hprompt.react hp hcoherent.shape hreact,
    hchosen.react hp hcoherent.shape hreact hprompt⟩

end Rest

/-! ### Hearing of a node -/

section Hear

variable {p : Plan} {now : Timestamp} {given : List (PortRef × Json)} {s : Scope}
variable (hp : p.Sound) (hu : p.Untangled)

theorem Coherent.violate (h : Coherent p given s []) (f : Fault) :
    Coherent p given (s.violate f) [] where
  shape := ⟨h.shape.member, h.shape.node, h.shape.clear, h.shape.ordered⟩
  isLoop := h.isLoop
  proper := h.proper
  sourced := ⟨h.sourced.causes, h.sourced.inputs, h.sourced.failedPorts, h.sourced.handed,
    h.sourced.result, h.sourced.decided, h.sourced.ended⟩
  counted := ⟨h.counted.gates, h.counted.captures, h.counted.capturesNone, h.counted.fresh⟩
  owed := by
    refine ⟨?_, ?_, ?_, ?_, ?_, h.owed.running, ?_⟩
    · intro n r q hr hstate hq hsettled
      obtain ⟨sig, hsig, -⟩ := h.owed.supplied n r q hr hstate hq hsettled
      simp at hsig
    · intro l r t hr hunstarted hroute ht hsettled
      obtain ⟨sig, hsig, -⟩ := h.owed.brought l r t hr hunstarted hroute ht hsettled
      simp at hsig
    · intro n r gate hr hunstarted hgate hclosed
      obtain ⟨sig, hsig, -⟩ := h.owed.barred n r gate hr hunstarted hgate hclosed
      simp at hsig
    · intro n r branch hr hstate htaken hfed hport
      obtain ⟨sig, hsig, -⟩ := h.owed.forgone n r branch hr hstate htaken hfed hport
      simp at hsig
    · intro c r hr hkind hunstarted hfree hnone
      obtain ⟨sig, hsig, -⟩ := h.owed.decided c r hr hkind hunstarted hfree hnone
      simp at hsig
    · intro n r hr hsat
      obtain ⟨sig, hsig, -⟩ := h.owed.promoted n r hr hsat
      simp at hsig
  accounted := ⟨h.accounted.waits, h.accounted.inputs, h.accounted.fallbacks⟩
  listed := ⟨h.listed.ready, h.listed.nodup, h.listed.known, h.listed.ended⟩

theorem later_violate (s : Scope) (f : Fault) : Later s (s.violate f) :=
  ⟨rfl, (Later.refl s).ended, (Later.refl s).started, (Later.refl s).inputs, fun _ _ h => h,
    fun _ _ _ _ h => h⟩

/-- How a run ends. -/
def concluded (now : Timestamp) (r : NodeRun) : Outcome → NodeRun
  | .succeeded outputs => r.succeed now outputs
  | .failed e => r.fail now e
  | .cancelled | .fatal _ => r.cancel now

/-- What follows when a run ends. -/
def announced (p : Plan) (n : NodeId) : Outcome → List Signal
  | .succeeded outputs => (p.outboundValues n outputs).map fun v => .route v.1 v.2
  | .failed _ => [.cascade n n, .settle n]
  | .cancelled | .fatal _ => []

/-- What a scope does when it hears of a node: it finds a fault, or the run ends and the signals that
follow are handled. An outcome may bring a fault with it. -/
theorem hear_eq (p : Plan) (now : Timestamp) (s : Scope) (report : Report) :
    (∃ f, s.hear p now report = s.violate f) ∨
      ∃ c r, report = .ended c ∧ s.run? c.node = some r ∧ r.state = .running ∧
        (s.hear p now report =
            (s.putEnded (concluded now { r with attempts := c.attempts } c.outcome)).handle p now
              (announced p c.node c.outcome) ∨
          ∃ f, s.hear p now report =
            ((s.putEnded (concluded now { r with attempts := c.attempts } c.outcome)).handle p now
              (announced p c.node c.outcome)).violate f) := by
  cases report with
  | lost id => exact Or.inl ⟨.lost id, rfl⟩
  | ended c =>
    change (∃ f, s.complete p now c = s.violate f) ∨ _
    cases hr : s.run? c.node with
    | none => exact Or.inl ⟨.strange c.node, by simp [Scope.complete, hr]⟩
    | some r =>
      by_cases hrunning : r.state = .running
      · refine Or.inr ⟨c, r, rfl, hr, hrunning, ?_⟩
        have hnothing : ∀ u : Scope, u.handle p now [] = u := by
          intro u
          unfold handle
          cases budget p [] <;> rfl
        cases hout : c.outcome with
        | succeeded outputs | failed e =>
          exact Or.inl (by simp [Scope.hear, Scope.complete, hr, hrunning, hout, concluded, announced])
        | cancelled =>
          exact Or.inl (by simp [Scope.hear, Scope.complete, hr, hrunning, hout, concluded, announced,
            hnothing])
        | fatal f =>
          exact Or.inr ⟨f, by simp [Scope.hear, Scope.complete, hr, hrunning, hout, concluded,
            announced, hnothing]⟩
      · exact Or.inl ⟨.untimely c.node r.state, by simp [Scope.complete, hr, hrunning]⟩

theorem concludes_concluded (now : Timestamp) (r : NodeRun) (attempts : List Attempt) (o : Outcome) :
    Concludes r (concluded now { r with attempts := attempts } o) := by
  cases o with
  | succeeded outputs => exact ⟨rfl, rfl, by simp [concluded], rfl, rfl, rfl, rfl, rfl, rfl⟩
  | failed e => exact ⟨rfl, rfl, by simp [concluded], rfl, rfl, rfl, rfl, rfl, rfl⟩
  | cancelled => exact ⟨rfl, rfl, by simp [concluded], rfl, rfl, rfl, rfl, rfl, rfl⟩
  | fatal f => exact ⟨rfl, rfl, by simp [concluded], rfl, rfl, rfl, rfl, rfl, rfl⟩

theorem announces_announced {n : NodeId} {r : NodeRun} (hnode : r.node = n)
    (attempts : List Attempt) (o : Outcome) :
    Announces p s n (concluded now { r with attempts := attempts } o) (announced p n o) := by
  have hrun : (s.putEnded (concluded now { r with attempts := attempts } o)).run? n =
      some (concluded now { r with attempts := attempts } o) := by
    rw [run?_putEnded, (concludes_concluded now r attempts o).node, if_pos hnode]
  cases o with
  | succeeded outputs =>
    have harrivals : arrivals (announced p n (.succeeded outputs)) =
        (p.forwardOut n).map inputOf := by
      rw [← keys_outboundValues p n outputs]
      unfold arrivals announced
      rw [List.filterMap_map]
      change List.filterMap (fun v : PortRef × Json => some v.1) _ = _
      rw [List.filterMap_eq_map']
    refine ⟨?_, Or.inr harrivals, ?_⟩
    · intro given sig hsig
      obtain ⟨v, hv, rfl⟩ := List.mem_map.mp hsig
      exact Or.inl ⟨n, _, outputs, hrun, rfl, rfl, hv⟩
    · rintro - t ⟨c, hc, rfl⟩
      refine Or.inl ⟨(outputs.find? c.label.sourcePort).getD .null, ?_⟩
      exact List.mem_map.mpr ⟨_, mem_outboundValues.mpr ⟨c, hc, rfl, rfl⟩, rfl⟩
  | failed e =>
    refine ⟨?_, Or.inl rfl, fun _ _ _ => Or.inr ⟨n, by simp [announced]⟩⟩
    intro given sig hsig
    simp only [announced, List.mem_cons, List.not_mem_nil, or_false] at hsig
    rcases hsig with rfl | rfl
    · exact ⟨_, hrun, Or.inl rfl⟩
    · exact ⟨_, hrun, rfl⟩
  | cancelled => exact ⟨by simp [announced], Or.inl rfl, fun hne => absurd rfl hne⟩
  | fatal f => exact ⟨by simp [announced], Or.inl rfl, fun hne => absurd rfl hne⟩

include hp hu

/-- A scope that hears how a node ended stays coherent, and its conditions stay well chosen. -/
theorem Coherent.complete (h : Coherent p given s []) {c : Completion} {r : NodeRun}
    (hr : s.run? c.node = some r) (hrunning : r.state = .running) :
    Coherent p given (s.complete p now c) [] ∧
      Later (s.putEnded (concluded now { r with attempts := c.attempts } c.outcome))
        (s.complete p now c) ∧
      (Chosen p s → Chosen p (s.complete p now c)) ∧
      ((∀ f, c.outcome ≠ .fatal f) → (s.complete p now c).fault = s.fault) := by
  have hends := concludes_concluded now r c.attempts c.outcome
  have hcoherent := h.conclude hp hr hrunning hends
    (announces_announced (p := p) (h.shape.node _ r hr) c.attempts c.outcome)
  have hchosen : Chosen p s → Chosen p
      (s.putEnded (concluded now { r with attempts := c.attempts } c.outcome)) := by
    intro hchosen k r₁ hr₁ hkind hstate
    rcases run?_conclude_cases h hr hends hr₁ with ⟨rfl, rfl⟩ | ⟨-, hr₁⟩
    · rw [hends.failedPorts]
      exact hchosen _ r hr hkind (Or.inr ((h.shape.clear _ r hr).running hrunning))
    · exact hchosen k r₁ hr₁ hkind hstate
  have hprompt : Prompt p (s.putEnded (concluded now { r with attempts := c.attempts } c.outcome))
      (announced p c.node c.outcome) := by
    intro k r₁ hr₁ hkind hunstarted hfree hnone
    rcases run?_conclude_cases h hr hends hr₁ with ⟨rfl, rfl⟩ | ⟨-, hr₁⟩
    · rw [isUnstarted_of_isTerminal hends.terminal] at hunstarted
      simp at hunstarted
    · exact absurd hnone (h.resolved hr₁ hkind hunstarted hfree)
  have hdrains := drains_handle hp hu now hcoherent.shape (announced p c.node c.outcome)
  obtain ⟨hrest, hfault, hlater⟩ := hcoherent.handle hp hu now
  have hkept : Chosen p s → Chosen p ((s.putEnded (concluded now { r with attempts := c.attempts }
      c.outcome)).handle p now (announced p c.node c.outcome)) :=
    fun hs => hcoherent.chosen hp hu hprompt (hchosen hs) hdrains
  unfold PortGraph.Scope.complete
  rw [hr]
  simp only [hrunning, if_true]
  cases hout : c.outcome with
  | succeeded outputs =>
    rw [hout] at hrest hfault hlater hkept
    exact ⟨hrest, hlater, hkept, fun _ => hfault⟩
  | failed e =>
    rw [hout] at hrest hfault hlater hkept
    exact ⟨hrest, hlater, hkept, fun _ => hfault⟩
  | cancelled =>
    rw [hout] at hcoherent hchosen
    exact ⟨hcoherent, Later.refl _, hchosen, fun _ => rfl⟩
  | fatal f =>
    rw [hout] at hcoherent hchosen
    exact ⟨hcoherent.violate f, later_violate _ f, hchosen, fun hne => absurd rfl (hne f)⟩

/-- Whatever a scope hears, it stays coherent, and what has started or ended in it stays. -/
theorem Coherent.hear (h : Coherent p given s []) (report : Report) :
    Coherent p given (s.hear p now report) [] ∧ Later s (s.hear p now report) ∧
      (Chosen p s → Chosen p (s.hear p now report)) := by
  cases report with
  | lost id => exact ⟨h.violate (.lost id), later_violate s _, fun hs => hs⟩
  | ended c =>
    change Coherent p given (s.complete p now c) [] ∧ Later s (s.complete p now c) ∧
      (Chosen p s → Chosen p (s.complete p now c))
    cases hr : s.run? c.node with
    | none =>
      have heq : s.complete p now c = s.violate (.strange c.node) := by
        simp [Scope.complete, hr]
      rw [heq]
      exact ⟨h.violate _, later_violate s _, fun hs => hs⟩
    | some r =>
      by_cases hrunning : r.state = .running
      · obtain ⟨hcoherent, hlater, hchosen, -⟩ : Coherent p given (s.complete p now c) [] ∧ _ :=
          h.complete hp hu hr hrunning
        exact ⟨hcoherent, (later_conclude h hr hrunning
          (concludes_concluded now r c.attempts c.outcome)).trans hlater, hchosen⟩
      · have heq : s.complete p now c = s.violate (.untimely c.node r.state) := by
          simp [Scope.complete, hr, hrunning]
        rw [heq]
        exact ⟨h.violate _, later_violate s _, fun hs => hs⟩

variable (now) in
/-- What a scope does when it hears of a node: it finds a fault, or the run ends and the scope works
off what follows. An outcome may bring a fault with it. -/
theorem Coherent.hear_cases (h : Coherent p given s []) (report : Report) :
    (∃ f, s.hear p now report = s.violate f) ∨
      ∃ c r t, report = .ended c ∧ s.run? c.node = some r ∧ r.state = .running ∧
        Drains p now (s.putEnded (concluded now { r with attempts := c.attempts } c.outcome))
          (announced p c.node c.outcome) t [] ∧
        (s.hear p now report = t ∨ ∃ f, s.hear p now report = t.violate f) := by
  rcases hear_eq p now s report with hfault | ⟨c, r, rfl, hr, hrunning, hcases⟩
  · exact Or.inl hfault
  · have hcoherent := h.conclude hp hr hrunning
      (concludes_concluded now r c.attempts c.outcome)
      (announces_announced (p := p) (h.shape.node _ r hr) c.attempts c.outcome)
    exact Or.inr ⟨c, r, _, rfl, hr, hrunning,
      drains_handle hp hu now hcoherent.shape (announced p c.node c.outcome), hcases⟩

end Hear

/-! ### Starting a node -/

section Start

/-- The scope after the first node of the queue has started. -/
def started (now : Timestamp) (s : Scope) (r : NodeRun) (rest : List (ℕ × NodeId)) : Scope :=
  { s.put (r.start now) with ready := rest }

variable {p : Plan} {now : Timestamp} {given : List (PortRef × Json)} {s s' : Scope}
variable {n : NodeId} {k : ℕ} {r r' : NodeRun} {rest : List (ℕ × NodeId)}

theorem startNext?_eq_some (h : Coherent p given s []) (hstart : s.startNext? now = some (s', r')) :
    ∃ n k r rest, s.ready = (k, n) :: rest ∧ s.run? n = some r ∧ r.state = .ready ∧
      r' = r.start now ∧ s' = started now s r rest := by
  unfold startNext? at hstart
  cases hready : s.ready with
  | nil => simp [hready] at hstart
  | cons e rest =>
    obtain ⟨k, n⟩ := e
    obtain ⟨-, r, hr, hstate⟩ := (h.listed.ready (k, n)).mp (by rw [hready]; simp)
    rw [hready] at hstart
    simp only [hr, Option.bind_eq_bind, Option.bind_some, Option.pure_def, Option.some.injEq,
      Prod.mk.injEq] at hstart
    exact ⟨n, k, r, rest, rfl, hr, hstate, hstart.2.symm, hstart.1.symm⟩

variable (h : Coherent p given s []) (hready : s.ready = (k, n) :: rest) (hr : s.run? n = some r)
  (hstate : r.state = .ready)
include h hr

theorem run?_started (m : NodeId) :
    (started now s r rest).run? m = if n = m then some (r.start now) else s.run? m := by
  have hnode : (r.start now).node = n := h.shape.node n r hr
  rw [← hnode]
  exact run?_put s m (r.start now)

theorem run?_started_cases {m : NodeId} {r₁ : NodeRun}
    (hr₁ : (started now s r rest).run? m = some r₁) :
    (m = n ∧ r₁ = r.start now) ∨ (m ≠ n ∧ s.run? m = some r₁) := by
  rw [run?_started h hr] at hr₁
  split_ifs at hr₁ with heq
  · exact Or.inl ⟨heq.symm, (Option.some.inj hr₁).symm⟩
  · exact Or.inr ⟨fun heq' => heq heq'.symm, hr₁⟩

/-- Starting a node changes nothing of its run but its state and its times. -/
theorem exists_run?_of_started {m : NodeId} {r₁ : NodeRun}
    (hr₁ : (started now s r rest).run? m = some r₁) :
    ∃ r₀, s.run? m = some r₀ ∧ r₁.inputs = r₀.inputs ∧ r₁.failedPorts = r₀.failedPorts ∧
      r₁.pendingInputs = r₀.pendingInputs ∧ r₁.pendingCaptures = r₀.pendingCaptures ∧
      r₁.pendingGates = r₀.pendingGates := by
  rcases run?_started_cases h hr hr₁ with ⟨rfl, rfl⟩ | ⟨-, hr₁⟩
  · exact ⟨r, hr, rfl, rfl, rfl, rfl, rfl⟩
  · exact ⟨r₁, hr₁, rfl, rfl, rfl, rfl, rfl⟩

theorem run?_of_started_terminal {m : NodeId} {r₁ : NodeRun}
    (hr₁ : (started now s r rest).run? m = some r₁) (hterm : r₁.state.isTerminal = true) :
    s.run? m = some r₁ := by
  rcases run?_started_cases h hr hr₁ with ⟨rfl, rfl⟩ | ⟨-, hr₁⟩
  · simp [NodeRun.start, RunState.isTerminal] at hterm
  · exact hr₁

theorem run?_of_started_unstarted {m : NodeId} {r₁ : NodeRun}
    (hr₁ : (started now s r rest).run? m = some r₁) (hidle : isUnstarted r₁ = true) :
    s.run? m = some r₁ := by
  rcases run?_started_cases h hr hr₁ with ⟨rfl, rfl⟩ | ⟨-, hr₁⟩
  · simp [isUnstarted, NodeRun.start] at hidle
  · exact hr₁

theorem settled_started {t : PortRef} (hsettled : Settled p given (started now s r rest) t) :
    Settled p given s t := by
  obtain hgiven | ⟨m, hfeeds, rm, hrm, hterm, hcancel⟩ := hsettled
  · exact Or.inl hgiven
  · exact Or.inr ⟨m, hfeeds, rm, run?_of_started_terminal h hr hrm hterm, hterm, hcancel⟩

theorem closed_started {gate : Gate} (hclosed : Closed (started now s r rest) gate) :
    Closed s gate := by
  refine hclosed.imp_right ?_
  rintro ⟨⟨rc, hrc, hterm⟩, hnone⟩
  exact ⟨⟨rc, run?_of_started_terminal h hr hrc hterm, hterm⟩, hnone⟩

theorem counted_started : Counted p (started now s r rest) [] := by
  refine ⟨?_, ?_, ?_, h.counted.fresh⟩
  · intro m r₁ hr₁
    obtain ⟨r₀, hr₀, -, -, -, -, hgates⟩ := exists_run?_of_started h hr hr₁
    rw [hgates]
    exact h.counted.gates m r₀ hr₀
  · intro l r₁ lp hr₁ hlp
    obtain ⟨r₀, hr₀, -, -, -, hcaptures, -⟩ := exists_run?_of_started h hr hr₁
    rw [hcaptures]
    exact h.counted.captures l r₀ lp hr₀ hlp
  · intro m r₁ hr₁ hnone
    obtain ⟨r₀, hr₀, -, -, -, hcaptures, -⟩ := exists_run?_of_started h hr hr₁
    rw [hcaptures]
    exact h.counted.capturesNone m r₀ hr₀ hnone

include hstate

theorem later_started : Later s (started now s r rest) := by
  refine ⟨rfl, ?_, ?_, ?_, fun _ _ hb => hb, fun _ _ _ _ hnone => hnone⟩
  · intro m r₁ hr₁ hterm
    refine ⟨r₁, ?_, rfl, rfl, rfl, rfl⟩
    rw [run?_started h hr, if_neg (ne_of_ended hr (by rw [hstate]; rfl) hr₁ hterm), hr₁]
  · intro m r₁ hr₁ hstart
    refine ⟨r₁, ?_, rfl, rfl, rfl⟩
    rw [run?_started h hr, if_neg, hr₁]
    rintro rfl
    obtain rfl := Option.some.inj (hr.symm.trans hr₁)
    rw [(h.shape.clear n r hr).idle (isUnstarted_of_ready hstate)] at hstart
    simp at hstart
  · intro m r₁ q hr₁ hq
    rw [run?_started h hr]
    split_ifs with heq
    · subst heq
      obtain rfl := Option.some.inj (hr.symm.trans hr₁)
      exact ⟨r.start now, rfl, hq⟩
    · exact ⟨r₁, hr₁, hq⟩

theorem shape_started : Shape p (started now s r rest) := by
  refine ⟨?_, ?_, ?_, Table.ordered_insert h.shape.ordered _ _⟩
  · intro m
    have hmember : (s.run? m).isSome ↔ m ∈ p.membersIn s.owner := h.shape.member m
    rw [run?_started h hr]
    split_ifs with heq
    · subst heq
      rw [hr] at hmember
      exact hmember
    · exact hmember
  · intro m r₁ hr₁
    rcases run?_started_cases h hr hr₁ with ⟨rfl, rfl⟩ | ⟨-, hr₁⟩
    · exact h.shape.node m r hr
    · exact h.shape.node m r₁ hr₁
  · intro m r₁ hr₁
    rcases run?_started_cases h hr hr₁ with ⟨rfl, rfl⟩ | ⟨-, hr₁⟩
    · exact ⟨by simp [NodeRun.start], by simp [isUnstarted, NodeRun.start],
        fun _ => (h.shape.clear m r hr).free (Or.inl hstate), fun _ => rfl, by simp [NodeRun.start]⟩
    · exact h.shape.clear m r₁ hr₁

theorem sourced_started : Sourced p given (started now s r rest) [] := by
  have hlater : Later s (started now s r rest) := later_started h hr hstate
  refine ⟨by simp, ?_, ?_, ?_, ?_, ?_, ?_⟩
  · intro m r₁ q w hr₁ hw
    obtain ⟨r₀, hr₀, hinputs, -⟩ := exists_run?_of_started h hr hr₁
    rw [hinputs] at hw
    exact hlater.filled (h.sourced.inputs m r₀ q w hr₀ hw)
  · intro m r₁ q o hr₁ ho
    obtain ⟨r₀, hr₀, -, hports, -⟩ := exists_run?_of_started h hr hr₁
    rw [hports] at ho
    obtain ⟨htolerant, hport, hlost⟩ := h.sourced.failedPorts m r₀ q o hr₀ ho
    exact ⟨htolerant, hport, hlater.feederLost hlost⟩
  · intro l t v hmem
    obtain ⟨hoffered, hroute⟩ := h.sourced.handed l t v hmem
    exact ⟨hlater.offered hoffered, hroute⟩
  · intro v hv
    obtain ⟨l, hl, hoffered⟩ := h.sourced.result v hv
    exact ⟨l, hl, hlater.offered hoffered⟩
  · intro c b hb
    obtain ⟨hkind, rc, hrc, htruth, hin⟩ := h.sourced.decided c b hb
    refine ⟨hkind, ?_⟩
    rw [run?_started h hr]
    split_ifs with heq
    · subst heq
      obtain rfl := Option.some.inj (hr.symm.trans hrc)
      exact ⟨r.start now, rfl, htruth, hin⟩
    · exact ⟨rc, hrc, htruth, hin⟩
  · intro m r₁ hr₁ hterm hidle
    have hr₀ := run?_of_started_terminal h hr hr₁ hterm
    exact hlater.endCause rfl rfl (h.sourced.ended m r₁ hr₀ hterm hidle)

/-- Nothing is owed to the node that starts: it was ready. To the others nothing new is owed, for
no node has ended. -/
theorem owed_started : Owed p given (started now s r rest) [] := by
  have hlive : ∀ {m : NodeId} {r₁ : NodeRun}, (started now s r rest).run? m = some r₁ →
      isUnstarted r₁ = true → s.run? m = some r₁ := run?_of_started_unstarted h hr
  refine ⟨?_, ?_, ?_, ?_, ?_, ?_, ?_⟩
  · intro m r₁ q hr₁ hpending hq ht
    obtain ⟨sig, hsig, -⟩ := h.owed.supplied m r₁ q
      (hlive hr₁ (isUnstarted_of_pending hpending)) hpending hq (settled_started h hr ht)
    simp at hsig
  · intro l r₁ t hr₁ hidle hroute ht hset
    obtain ⟨sig, hsig, -⟩ := h.owed.brought l r₁ t (hlive hr₁ hidle) hidle hroute ht
      (settled_started h hr hset)
    simp at hsig
  · intro m r₁ gate hr₁ hidle hgate hclosed
    obtain ⟨sig, hsig, -⟩ := h.owed.barred m r₁ gate (hlive hr₁ hidle) hidle hgate
      (closed_started h hr hclosed)
    simp at hsig
  · intro m r₁ branch hr₁ hpending htaken hfed hport
    obtain ⟨sig, hsig, -⟩ := h.owed.forgone m r₁ branch
      (hlive hr₁ (isUnstarted_of_pending hpending)) hpending htaken hfed hport
    simp at hsig
  · intro c r₁ hr₁ hkind hidle hfree hnone
    obtain ⟨sig, hsig, -⟩ := h.owed.decided c r₁ (hlive hr₁ hidle) hkind hidle hfree hnone
    simp at hsig
  · intro c r₁ hr₁ hkind hrunning
    rcases run?_started_cases h hr hr₁ with ⟨rfl, rfl⟩ | ⟨-, hr₁⟩
    · exact h.resolved_of_ready hr hkind hstate
    · exact h.owed.running c r₁ hr₁ hkind hrunning
  · intro m r₁ hr₁ hsat
    obtain ⟨sig, hsig, -⟩ := h.owed.promoted m r₁
      (hlive hr₁ (isUnstarted_of_pending (NodeRun.pending_of_isSatisfied hsat).1)) hsat
    simp at hsig

theorem accounted_started : Accounted p (started now s r rest) [] := by
  refine ⟨?_, ?_, ?_⟩
  · intro m r₁ node q hr₁ hnode₁ hq
    obtain ⟨r₀, hr₀, -, -, hpending, -⟩ := exists_run?_of_started h hr hr₁
    rw [hpending] at hq
    exact h.accounted.waits m r₀ node q hr₀ hnode₁ hq
  · intro m r₁ node q hr₁ hnode₁ hq halive
    rcases run?_started_cases h hr hr₁ with ⟨rfl, rfl⟩ | ⟨-, hr₁⟩
    · rcases h.accounted.inputs _ r node q hr hnode₁ hq (Or.inl (isUnstarted_of_ready hstate)) with
        hi | hi | hi | hi | ⟨-, e, rest', hhead⟩
      · exact Or.inl hi
      · exact Or.inr (Or.inl hi)
      · exact Or.inr (Or.inr (Or.inl hi))
      · exact Or.inr (Or.inr (Or.inr (Or.inl hi)))
      · simp at hhead
    · exact h.accounted.inputs m r₁ node q hr₁ hnode₁ hq halive
  · intro m r₁ node q v hr₁ hnode₁ hfallback
    obtain ⟨r₀, hr₀, hinputs, -⟩ := exists_run?_of_started h hr hr₁
    rw [hinputs]
    exact h.accounted.fallbacks m r₀ node q v hr₀ hnode₁ hfallback

include hready

theorem listed_started : Listed p (started now s r rest) := by
  have hnodup := h.listed.nodup
  rw [hready] at hnodup
  obtain ⟨hhead, hrest⟩ := List.nodup_cons.mp hnodup
  have hrank : k = p.rank n := ((h.listed.ready (k, n)).mp (by rw [hready]; simp)).1
  refine ⟨?_, hrest, ?_, ?_⟩
  · intro e
    have hmem := h.listed.ready e
    rw [hready, List.mem_cons] at hmem
    change e ∈ rest ↔ _
    rw [run?_started h hr]
    split_ifs with heq
    · subst heq
      simp only [Option.some.injEq, exists_eq_left', NodeRun.start, reduceCtorEq, and_false,
        iff_false]
      intro hin
      have hrank' := (hmem.mp (Or.inr hin)).1
      exact hhead (by rw [hrank, ← hrank']; exact hin)
    · rw [← hmem]
      constructor
      · exact Or.inr
      · rintro (rfl | hin)
        · exact absurd rfl heq
        · exact hin
  · intro r₁ hr₁
    obtain ⟨hterm, r₂, hr₂, hsame⟩ := h.listed.known r₁ hr₁
    obtain ⟨r₃, hr₃, hstate₃, -⟩ := (later_started h hr hstate).ended _ r₂ hr₂ (by rwa [hsame])
    exact ⟨hterm, r₃, hr₃, hstate₃.trans hsame⟩
  · intro m r₁ hr₁ hterm
    exact h.listed.ended m r₁ (run?_of_started_terminal h hr hr₁ hterm) hterm

/-- A coherent scope stays coherent when it starts the first node of its queue. -/
theorem Coherent.start : Coherent p given (started now s r rest) [] where
  shape := shape_started h hr hstate
  isLoop := h.isLoop
  proper := h.proper
  sourced := sourced_started h hr hstate
  counted := counted_started h hr
  owed := owed_started h hr hstate
  accounted := accounted_started h hr hstate
  listed := listed_started h hready hr hstate

omit hready in
theorem Chosen.start (hchosen : Chosen p s) : Chosen p (started now s r rest) := by
  intro c r₁ hr₁ hkind hor
  rcases run?_started_cases h hr hr₁ with ⟨rfl, rfl⟩ | ⟨-, hr₁⟩
  · exact hchosen _ r hr hkind (Or.inl hstate)
  · exact hchosen c r₁ hr₁ hkind hor

omit h hready hr hstate in
/-- Starting a node keeps a scope coherent. -/
theorem Coherent.startNext (h : Coherent p given s [])
    (hstart : s.startNext? now = some (s', r')) :
    Coherent p given s' [] ∧ Later s s' ∧ (Chosen p s → Chosen p s') := by
  obtain ⟨n, k, r, rest, hready, hr, hstate, -, rfl⟩ := startNext?_eq_some h hstart
  exact ⟨h.start hready hr hstate, later_started h hr hstate, fun hs => hs.start h hr hstate⟩

end Start

end PortGraph.Scope
