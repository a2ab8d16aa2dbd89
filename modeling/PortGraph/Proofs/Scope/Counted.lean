import PortGraph.Proofs.Plan.Feeds
import PortGraph.Proofs.Scope.Sourced

/-!
The counters of a run: as many gates as branches that are not settled in favour of the node, and as
many captures as values that its body still lacks. A value for an input arrives once, so the
counters reach zero just when nothing is missing.
-/

namespace PortGraph.Scope

open Plan

/-- The branch of the gate is taken. -/
def isOpen (s : Scope) (gate : Gate) : Bool :=
  (s.resolved.find? gate.condition).any fun h => gate.branch == Branch.taken h

theorem isOpen_iff {s : Scope} {gate : Gate} :
    s.isOpen gate = true ↔ ∃ h, s.resolved.find? gate.condition = some h ∧
      gate.branch = Branch.taken h := by
  unfold isOpen
  rw [Option.any_eq_true]
  simp only [beq_iff_eq]

/-- The inputs that values are under way to. -/
def arrivals (sigs : List Signal) : List PortRef :=
  sigs.filterMap fun
    | .route t _ => some t
    | _ => none

/-- The inputs in the body of a loop that have their values. -/
def handedKeys (s : Scope) (l : NodeId) : List PortRef := (s.handedTo l).map (·.1)

structure Counted (p : Plan) (s : Scope) (sigs : List Signal) : Prop where
  gates : ∀ n r, s.run? n = some r →
    r.pendingGates = ((p.gates n).filter fun gate => !s.isOpen gate).length
  captures : ∀ l r lp, s.run? l = some r → p.loop? l = some lp →
    r.pendingCaptures + (s.handedKeys l).length = lp.captures.length
  capturesNone : ∀ n r, s.run? n = some r → p.loop? n = none → r.pendingCaptures = 0
  fresh : ∀ l, (s.handedKeys l ++ arrivals sigs).Nodup

section Step

variable {p : Plan} {now : Timestamp} {given : List (PortRef × Json)} {s s' : Scope}
variable {sig : Signal} {rest more : List Signal}

/-- Only a signal to resolve a condition opens gates. -/
theorem Reacts.gate_cases (hp : p.Sound) (hs : Shape p s) (h : Reacts p now s sig s' more) :
    (∃ c holds, sig = .resolve c ∧ s.resolved.find? c = none ∧ s' = s.decide p c holds ∧
      more = decided p c holds) ∨
    (s'.resolved = s.resolved ∧ ∀ n r', s'.run? n = some r' →
      ∃ r, s.run? n = some r ∧ r'.pendingGates = r.pendingGates) := by
  have hreact := h
  cases h with
  | resolveDecides hnone => exact Or.inl ⟨_, _, rfl, hnone, rfl, rfl⟩
  | resolveIdle | resolveFails => exact Or.inr ⟨rfl, fun n r' hr' => ⟨r', hr', rfl⟩⟩
  | _ =>
    refine Or.inr ⟨by simp [queue], ?_⟩
    intro n r' hr'
    obtain ⟨r, hr, hevolves⟩ := hreact.evolved hp hs hr'
    refine ⟨r, hr, ?_⟩
    cases hevolves with
    | gate hsig => simp at hsig
    | deliver _ _ _ hd => exact (NodeRun.deliver_kept hd).2.2.2.2.2.2.2.1
    | _ => rfl

/-- Only a value for the body of a loop is handed to it. -/
theorem Reacts.hand_cases (hp : p.Sound) (hs : Shape p s) (h : Reacts p now s sig s' more) :
    (∃ l t v, sig = .route t v ∧ p.route s.owner t = some (.nested l) ∧ s' = s.hand l t v) ∨
    (s'.handed = s.handed ∧ ∀ n r', s'.run? n = some r' →
      ∃ r, s.run? n = some r ∧ r'.pendingCaptures = r.pendingCaptures) := by
  have hreact := h
  cases h with
  | routeNested hroute => exact Or.inl ⟨_, _, _, rfl, hroute, rfl⟩
  | routeMember | routeResult | routeNowhere =>
    exact Or.inr ⟨by simp, fun n r' hr' => ⟨r', by simpa using hr', rfl⟩⟩
  | _ =>
    refine Or.inr ⟨by simp [queue], ?_⟩
    intro n r' hr'
    obtain ⟨r, hr, hevolves⟩ := hreact.evolved hp hs hr'
    refine ⟨r, hr, ?_⟩
    cases hevolves with
    | capture hsig => simp at hsig
    | deliver _ _ _ hd => exact (NodeRun.deliver_kept hd).2.2.2.2.2.2.1
    | _ => rfl

/-- No signal sends out values. -/
theorem Reacts.arrivals_more (h : Reacts p now s sig s' more) : arrivals more = [] := by
  have hnil : ∀ sigs : List Signal, (∀ next ∈ sigs, ∀ t v, next ≠ .route t v) →
      arrivals sigs = [] := by
    intro sigs hsigs
    refine List.filterMap_eq_nil_iff.mpr ?_
    intro next hnext
    split
    · exact absurd rfl (hsigs _ hnext _ _)
    · rfl
  refine hnil more ?_
  intro next hnext t v
  rintro rfl
  cases h with
  | writeTaken => split_ifs at hnext <;> simp at hnext
  | resolveDecides => simp [decided] at hnext
  | cascade =>
    obtain ⟨c, -, hc⟩ := List.mem_filterMap.mp hnext
    split at hc <;> simp at hc
  | skips => simp at hnext
  | settles => simp at hnext
  | _ => simp at hnext

theorem handedKeys_hand (l k : NodeId) (t : PortRef) (v : Json) :
    (s.hand l t v).handedKeys k = if l = k then s.handedKeys k ++ [t] else s.handedKeys k := by
  unfold handedKeys
  rw [handedTo_hand]
  split_ifs <;> simp

private theorem length_filter_ne {l : List Gate} (hl : l.Nodup) {a : Gate} {q : Gate → Bool}
    (ha : a ∈ l) (hq : q a = true) :
    (l.filter fun x => q x && x != a).length = (l.filter q).length - 1 := by
  have hmem : a ∈ l.filter q := List.mem_filter.mpr ⟨ha, hq⟩
  rw [← List.length_erase_of_mem hmem, (hl.filter q).erase_eq_filter, List.filter_filter]
  congr 2
  funext x
  exact Bool.and_comm _ _

variable (hp : p.Sound) (hu : p.Untangled) (hs : Shape p s)
  (hsourced : Sourced p given s (sig :: rest)) (hgiven : p.Proper s.owner given)
  (h : Counted p s (sig :: rest)) (hreact : Reacts p now s sig s' more)
include hp hs h hreact

theorem gates_react (n : NodeId) (r' : NodeRun) (hr' : s'.run? n = some r') :
    r'.pendingGates = ((p.gates n).filter fun gate => !s'.isOpen gate).length := by
  rcases hreact.gate_cases hp hs with ⟨c, holds, -, hnone, rfl, -⟩ | ⟨hres, hkeeps⟩
  · have hopen : ∀ gate, (s.decide p c holds).isOpen gate =
        (s.isOpen gate || gate == ⟨c, Branch.taken holds⟩) := by
      rintro ⟨k, branch⟩
      unfold isOpen
      rw [resolved_decide]
      by_cases hk : c = k
      · subst hk
        simp [hnone]
      · have hk' : k ≠ c := fun heq => hk heq.symm
        simp [hk, hk']
    have hfilter : ((p.gates n).filter fun gate => !(s.decide p c holds).isOpen gate) =
        (p.gates n).filter fun gate => (!s.isOpen gate) && gate != ⟨c, Branch.taken holds⟩ := by
      apply List.filter_congr
      intro gate _
      rw [hopen, Bool.not_or]
      rfl
    rw [run?_decide s _ _ p _ (hp.nodup_exclusive _)] at hr'
    rw [hfilter]
    split_ifs at hr' with hmem
    · obtain ⟨r, hr, rfl⟩ := Option.map_eq_some_iff.mp hr'
      have hclosed : (!s.isOpen ⟨c, Branch.taken holds⟩) = true := by
        simp [isOpen, hnone]
      rw [length_filter_ne (hp.nodup_gates n) (hp.mem_gates_iff.mpr hmem) hclosed,
        ← h.gates n r hr]
      rfl
    · rw [h.gates n r' hr']
      congr 1
      apply List.filter_congr
      intro gate hgate
      have hne : gate ≠ ⟨c, Branch.taken holds⟩ := by
        rintro rfl
        exact hmem (hp.mem_gates_iff.mp hgate)
      simp [hne]
  · obtain ⟨r, hr, hgates⟩ := hkeeps n r' hr'
    rw [hgates, h.gates n r hr]
    simp only [isOpen, hres]

theorem fresh_react (l : NodeId) : (s'.handedKeys l ++ arrivals (more ++ rest)).Nodup := by
  have harrivals : arrivals (more ++ rest) = arrivals rest := by
    unfold arrivals
    rw [List.filterMap_append]
    have hmore := hreact.arrivals_more
    unfold arrivals at hmore
    rw [hmore, List.nil_append]
  rw [harrivals]
  have hfresh := h.fresh l
  rcases hreact.hand_cases hp hs with ⟨k, t, v, rfl, -, rfl⟩ | ⟨hhanded, -⟩
  · have hhead : arrivals (.route t v :: rest) = t :: arrivals rest := rfl
    rw [hhead] at hfresh
    rw [handedKeys_hand]
    split_ifs
    · simpa using hfresh
    · exact hfresh.sublist ((List.sublist_cons_self _ _).append_left _)
  · have hsame : s'.handedKeys l = s.handedKeys l := by
      unfold handedKeys handedTo
      rw [hhanded]
    rw [hsame]
    refine hfresh.sublist (List.Sublist.append_left ?_ _)
    exact (List.sublist_cons_self sig rest).filterMap _

omit hp hreact hs h in
theorem fed_of_offered (hs : Shape p s) (hgiven : p.Proper s.owner given) {t : PortRef} {v : Json}
    (h : Offered p given s t v) : p.Fed s.owner t := by
  rcases h with ⟨m, r, o, hr, -, -, hmem⟩ | hgiv
  · obtain ⟨c, hc, ht, -⟩ := mem_outboundValues.mp hmem
    exact Or.inl ⟨m, (hs.member m).mp (by simp [hr]), c, hc, ht⟩
  · exact Or.inr ((hgiven.complete t).mp (List.mem_map.mpr ⟨_, hgiv, rfl⟩))

include hu hgiven

omit h hreact in
/-- What was handed to a loop are captures of it. -/
theorem handedKeys_subset {sigs : List Signal} (hsourced : Sourced p given s sigs) {l : NodeId}
    {lp : LoopPlan} (hlp : p.loop? l = some lp) :
    s.handedKeys l ⊆ lp.captures.map Link.target := by
  intro t ht
  obtain ⟨⟨t, v⟩, hmem, rfl⟩ := List.mem_map.mp ht
  obtain ⟨hoffered, hroute⟩ := hsourced.handed l t v hmem
  obtain ⟨lp', hlp', hcapture⟩ := hp.capture_of_nested hu (fed_of_offered hs hgiven hoffered)
    hroute
  obtain rfl : lp = lp' := Option.some.inj (hlp.symm.trans hlp')
  exact hcapture

include hsourced

theorem captures_react (l : NodeId) (r' : NodeRun) (lp : LoopPlan) (hr' : s'.run? l = some r')
    (hlp : p.loop? l = some lp) :
    r'.pendingCaptures + (s'.handedKeys l).length = lp.captures.length := by
  rcases hreact.hand_cases hp hs with ⟨k, t, v, rfl, hroute, rfl⟩ | ⟨hhanded, hkeeps⟩
  · rw [run?_hand] at hr'
    rw [handedKeys_hand]
    split_ifs at hr' ⊢ with hk
    · subst hk
      obtain ⟨r, hr, rfl⟩ := Option.map_eq_some_iff.mp hr'
      have hcount := h.captures _ r lp hr hlp
      -- the value is one more than those that were handed before
      have hroom : (s.handedKeys k).length + 1 ≤ lp.captures.length := by
        have hnodup : (s.handedKeys k ++ [t]).Nodup := by
          have hfresh := h.fresh k
          have hhead : arrivals (.route t v :: rest) = t :: arrivals rest := rfl
          rw [hhead] at hfresh
          refine hfresh.sublist (List.Sublist.append_left ?_ _)
          exact List.Sublist.cons_cons t (List.nil_sublist _)
        have hsub : s.handedKeys k ++ [t] ⊆ lp.captures.map Link.target := by
          intro x hx
          rcases List.mem_append.mp hx with hx | hx
          · exact handedKeys_subset hp hu hs hgiven hsourced hlp hx
          · rw [List.mem_singleton.mp hx]
            have hoffered : Offered p given s t v := hsourced.causes (.route t v) (by simp)
            obtain ⟨lp', hlp', hcapture⟩ := hp.capture_of_nested hu
              (fed_of_offered hs hgiven hoffered) hroute
            obtain rfl : lp = lp' := Option.some.inj (hlp.symm.trans hlp')
            exact hcapture
        have hle := (hnodup.subperm hsub).length_le
        simpa using hle
      have htake : r.takeCapture.pendingCaptures = r.pendingCaptures - 1 := rfl
      rw [htake, List.length_append, List.length_singleton]
      omega
    · exact h.captures l r' lp hr' hlp
  · obtain ⟨r, hr, hcaptures⟩ := hkeeps l r' hr'
    have hsame : s'.handedKeys l = s.handedKeys l := by
      unfold handedKeys handedTo
      rw [hhanded]
    rw [hcaptures, hsame]
    exact h.captures l r lp hr hlp

/-- Each signal keeps the counts. -/
theorem Counted.react : Counted p s' (more ++ rest) where
  gates := gates_react hp hs h hreact
  captures := captures_react hp hu hs hsourced hgiven h hreact
  capturesNone := by
    intro n r' hr' hnone
    rcases hreact.hand_cases hp hs with ⟨k, t, v, rfl, -, rfl⟩ | ⟨-, hkeeps⟩
    · rw [run?_hand] at hr'
      split_ifs at hr'
      · obtain ⟨r, hr, rfl⟩ := Option.map_eq_some_iff.mp hr'
        have hzero := h.capturesNone n r hr hnone
        have htake : r.takeCapture.pendingCaptures = r.pendingCaptures - 1 := rfl
        omega
      · exact h.capturesNone n r' hr' hnone
    · obtain ⟨r, hr, hcaptures⟩ := hkeeps n r' hr'
      rw [hcaptures]
      exact h.capturesNone n r hr hnone
  fresh := fresh_react hp hs h hreact

end Step

/-! ### What the counts tell -/

section Zero

variable {p : Plan} {given : List (PortRef × Json)} {s : Scope} {sigs : List Signal}
variable (hp : p.Sound) (hu : p.Untangled) (hs : Shape p s) (hsourced : Sourced p given s sigs)
  (hgiven : p.Proper s.owner given) (h : Counted p s sigs)

include h in
/-- A node waits for a gate just as long as one of its branches is not settled in its favour. -/
theorem Counted.gates_zero_iff {n : NodeId} {r : NodeRun} (hr : s.run? n = some r) :
    r.pendingGates = 0 ↔ ∀ gate ∈ p.gates n, s.isOpen gate = true := by
  rw [h.gates n r hr, List.length_eq_zero_iff, List.filter_eq_nil_iff]
  simp

include hp hu hs hsourced hgiven h in
/-- A loop waits for captures just as long as its body lacks a value. -/
theorem Counted.captures_zero_iff {l : NodeId} {r : NodeRun} {lp : LoopPlan}
    (hr : s.run? l = some r) (hlp : p.loop? l = some lp) :
    r.pendingCaptures = 0 ↔ ∀ t ∈ lp.captures.map Link.target, t ∈ s.handedKeys l := by
  have hcount := h.captures l r lp hr hlp
  have hnodup : (s.handedKeys l).Nodup := (List.nodup_append.mp (h.fresh l)).1
  have hsub := handedKeys_subset hp hu hs hgiven hsourced hlp
  constructor
  · intro hzero t ht
    have hperm := (hnodup.subperm hsub).perm_of_length_le (by
      rw [List.length_map]
      omega)
    exact hperm.mem_iff.mpr ht
  · intro hall
    have hbody : (Nesting.bodyOf p.graph l).Nodup := Nesting.nodup_bodyOf p.graph l
    have htargets : (lp.captures.map Link.target).Nodup := by
      rw [(hp.loop?_eq_some hlp).2.1]
      exact hp.graph.nodup_captures hbody l
    have hle := (htargets.subperm hall).length_le
    rw [List.length_map] at hle
    omega

end Zero

end PortGraph.Scope
