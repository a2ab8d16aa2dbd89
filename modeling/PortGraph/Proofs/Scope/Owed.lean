import PortGraph.Proofs.Scope.Counted

/-!
What a scope still owes. A member whose value has been sent, or will not come, is waited for only
while a signal is on its way that settles the matter; the same holds of branches, of conditions and
of nodes that nothing holds back. A scope that has worked off its signals owes nothing.
-/

namespace PortGraph.Scope

open Plan

/-- A member has ended, and was not interrupted. -/
def Over (s : Scope) (m : NodeId) : Prop :=
  ∃ r, s.run? m = some r ∧ r.state.isTerminal = true ∧ r.state ≠ .cancelled

/-- It is settled whether a value for the input comes. -/
def Settled (p : Plan) (given : List (PortRef × Json)) (s : Scope) (t : PortRef) : Prop :=
  t ∈ given.map (·.1) ∨ ∃ m, p.Feeds m t ∧ s.Over m

/-- The branch of the gate will not be taken. -/
def Closed (s : Scope) (gate : Gate) : Prop :=
  NotTaken s gate.condition gate.branch ∨
    (s.Ended gate.condition ∧ s.resolved.find? gate.condition = none)

section Signals

variable (p : Plan) (s : Scope)

/-- The signal will end the node without a run. -/
inductive Ends (n : NodeId) : Signal → Prop
  | skip {reason : SkipReason} : Ends n (.skip n reason)
  | fail {e : NodeError} : Ends n (.fail n e)
  | settle {c : NodeId} {branch : Branch} : s.resolved.find? c = none →
      n ∈ p.exclusive ⟨c, branch⟩ → Ends n (.settle c)

/-- The signal will see to an input that a node waits for. -/
inductive Serves (n : NodeId) (q : String) : Signal → Prop
  | ends {sig : Signal} : Ends p s n sig → Serves n q sig
  | route {v : Json} : Serves n q (.route ⟨n, q⟩ v)
  | write {v : Json} : Serves n q (.write n q v)
  | failed {origin : NodeId} : Serves n q (.feederFailed n q origin)
  | cascade {m origin : NodeId} : p.Feeds m ⟨n, q⟩ → Serves n q (.cascade m origin)
  | forgo {branch : Branch} : FedBehind p n branch → q = branch.port → Serves n q (.forgo n branch)

/-- The signal will see to a value for the body of a loop. -/
inductive Brings (l : NodeId) (t : PortRef) : Signal → Prop
  | ends {sig : Signal} : Ends p s l sig → Brings l t sig
  | route {v : Json} : Brings l t (.route t v)
  | cascade {m origin : NodeId} : p.Feeds m t → Brings l t (.cascade m origin)

end Signals

structure Owed (p : Plan) (given : List (PortRef × Json)) (s : Scope) (sigs : List Signal) :
    Prop where
  supplied : ∀ n r q, s.run? n = some r → r.state = .pending → q ∈ r.pendingInputs →
    Settled p given s ⟨n, q⟩ → ∃ sig ∈ sigs, Serves p s n q sig
  brought : ∀ l r t, s.run? l = some r → isUnstarted r = true →
    p.route s.owner t = some (.nested l) → t ∉ s.handedKeys l → Settled p given s t →
      ∃ sig ∈ sigs, Brings p s l t sig
  barred : ∀ n r gate, s.run? n = some r → isUnstarted r = true → gate ∈ p.gates n →
    Closed s gate → ∃ sig ∈ sigs, Ends p s n sig
  forgone : ∀ n r branch, s.run? n = some r → r.state = .pending → NotTaken s n branch →
    FedBehind p n branch → branch.port ∈ r.pendingInputs →
      ∃ sig ∈ sigs, Ends p s n sig ∨ sig = .forgo n branch
  decided : ∀ c r, s.run? c = some r → p.kind? c = some .condition → isUnstarted r = true →
    PortName.condition ∉ r.pendingInputs → s.resolved.find? c = none →
      ∃ sig ∈ sigs, Ends p s c sig ∨ sig = .resolve c
  running : ∀ c r, s.run? c = some r → p.kind? c = some .condition → r.state = .running →
    s.resolved.find? c ≠ none
  promoted : ∀ n r, s.run? n = some r → r.isSatisfied = true →
    ∃ sig ∈ sigs, Ends p s n sig ∨ sig = .promote n

theorem isUnstarted_of_pending {r : NodeRun} (h : r.state = .pending) : isUnstarted r = true := by
  simp [isUnstarted, h, RunState.isTerminal]

theorem isUnstarted_of_ready {r : NodeRun} (h : r.state = .ready) : isUnstarted r = true := by
  simp [isUnstarted, h, RunState.isTerminal]

section Step

variable {p : Plan} {now : Timestamp} {given : List (PortRef × Json)} {s s' : Scope}
variable {sig : Signal} {rest more : List Signal}

/-- A member that has ended after a signal had ended before it, or was ended by it. -/
theorem Reacts.ended_cases (hp : p.Sound) (hs : Shape p s) (h : Reacts p now s sig s' more)
    {m : NodeId} {r' : NodeRun} (hr' : s'.run? m = some r') (hterm : r'.state.isTerminal = true) :
    (∃ r, s.run? m = some r ∧ r.state = r'.state) ∨
      ∃ r, s.run? m = some r ∧ isUnstarted r = true ∧
        ((∃ reason, sig = .skip m reason ∧
            more = (reason.failedOrigin?.map fun origin => Signal.cascade m origin).toList ++
              [.settle m]) ∨
          (∃ e, sig = .fail m e) ∧ more = [.cascade m m, .settle m]) := by
  obtain ⟨r, hr, hevolves⟩ := h.evolved hp hs hr'
  have hnode := hs.node m r hr
  cases hended : r.state.isTerminal with
  | true => exact Or.inl ⟨r, hr, (hevolves.settled (isUnstarted_of_isTerminal hended)).1.symm⟩
  | false =>
    refine Or.inr ⟨r, hr, ?_⟩
    rcases hevolves.ended hended hterm with ⟨reason, hsig, hunstarted, -⟩ | ⟨e, hsig, hunstarted, -⟩
    · rw [hnode] at hsig
      subst hsig
      refine ⟨hunstarted, Or.inl ⟨reason, rfl, ?_⟩⟩
      cases h with
      | skipIdle hidle =>
        rw [hidle r hr] at hunstarted
        simp at hunstarted
      | skips => rfl
    · rw [hnode] at hsig
      subst hsig
      refine ⟨hunstarted, Or.inr ⟨⟨e, rfl⟩, ?_⟩⟩
      cases h with
      | failIdle hidle =>
        rw [hidle r hr] at hunstarted
        simp at hunstarted
      | fails => rfl

/-- Once the condition of a condition no longer waits, it is resolved next, or the node fails. -/
theorem Reacts.condition_dropped (hp : p.Sound) (hs : Shape p s) (h : Reacts p now s sig s' more)
    {c : NodeId} {r r' : NodeRun} (hkind : p.kind? c = some .condition) (hr : s.run? c = some r)
    (hr' : s'.run? c = some r') (hwaits : PortName.condition ∈ r.pendingInputs)
    (hfree : PortName.condition ∉ r'.pendingInputs) :
    more = [.resolve c, .promote c] ∨ ∃ e, more = [.fail c e] := by
  obtain ⟨r₁, hr₁, hevolves⟩ := h.evolves hp hs hr
  obtain rfl : r₁ = r' := Option.some.inj (hr₁.symm.trans hr')
  have hnode := hs.node c r hr
  cases hevolves with
  | @drop branch =>
    refine absurd ((mem_dropInput r _ _).mpr ⟨hwaits, ?_⟩) hfree
    cases branch <;> simp [Branch.port, PortName.condition, PortName.trueValue, PortName.falseValue]
  | lose _ _ hport => exact absurd ((mem_dropInput r _ _).mpr ⟨hwaits, hport.symm⟩) hfree
  | @deliver node port v r' result hsig hnode' hpending hd =>
    rw [hnode] at hsig hnode'
    subst hsig
    have hport : port = PortName.condition := by
      by_contra hne
      rw [(NodeRun.deliver_kept hd).2.2.2.2.2.1] at hfree
      exact hfree ((mem_dropInput r _ _).mpr ⟨hwaits, fun heq => hne heq.symm⟩)
    subst hport
    obtain ⟨node₂, hnode₂, hcond⟩ := Graph.kind?_eq_some hkind
    obtain rfl : node = node₂ := Option.some.inj (hnode'.symm.trans hnode₂)
    cases h with
    | writeIdle hidle => exact absurd hpending (hidle node r hnode' hr)
    | writeTaken hnode₁ =>
      obtain rfl := Option.some.inj (hnode'.symm.trans hnode₁)
      exact Or.inl (by simp [hcond])
    | writeRejected => exact Or.inr ⟨_, rfl⟩
  | _ => exact absurd hwaits hfree

theorem Ends.later (hlater : Later s s') (hcause : Cause p given s sig) {n : NodeId}
    (h : Ends p s n sig) : Ends p s' n sig := by
  cases h with
  | skip => exact .skip
  | fail => exact .fail
  | settle hnone hmem =>
    obtain ⟨r, hr, hterm⟩ : s.Ended _ := hcause
    exact .settle (hlater.undecided _ r hr hterm hnone) hmem

theorem Serves.later (hlater : Later s s') (hcause : Cause p given s sig) {n : NodeId} {q : String}
    (h : Serves p s n q sig) : Serves p s' n q sig := by
  cases h with
  | ends h => exact .ends (h.later hlater hcause)
  | route => exact .route
  | write => exact .write
  | failed => exact .failed
  | cascade h => exact .cascade h
  | forgo h hq => exact .forgo h hq

theorem Brings.later (hlater : Later s s') (hcause : Cause p given s sig) {l : NodeId} {t : PortRef}
    (h : Brings p s l t sig) : Brings p s' l t sig := by
  cases h with
  | ends h => exact .ends (h.later hlater hcause)
  | route => exact .route
  | cascade h => exact .cascade h

/-! ### A signal at work -/

theorem mem_cascade_member {m n origin : NodeId} {q : String} (h : p.Feeds m ⟨n, q⟩)
    (hroute : p.route s.owner ⟨n, q⟩ = some (.member n)) :
    Signal.feederFailed n q origin ∈ (s.reactCascade p m origin).2 := by
  obtain ⟨c, hc, ht⟩ := h
  obtain ⟨rfl, rfl⟩ := PortRef.mk.inj ht
  exact mem_reactCascade.mpr ⟨c, hc, Or.inl ⟨_, hroute, rfl⟩⟩

theorem mem_cascade_nested {m l origin : NodeId} {t : PortRef} (h : p.Feeds m t)
    (hroute : p.route s.owner t = some (.nested l)) :
    Signal.skip l (.feederFailed origin) ∈ (s.reactCascade p m origin).2 := by
  obtain ⟨c, hc, rfl⟩ := h
  exact mem_reactCascade.mpr ⟨c, hc, Or.inr ⟨l, hroute, rfl⟩⟩

section Handled

variable (hp : p.Sound) (hu : p.Untangled) (hs : Shape p s) (hreact : Reacts p now s sig s' more)
include hp hu hs hreact

theorem Ends.react {n : NodeId} {r' : NodeRun} (h : Ends p s n sig) (hr' : s'.run? n = some r')
    (hunstarted : isUnstarted r' = true) : ∃ next ∈ more, Ends p s' n next := by
  cases h with
  | skip =>
    cases hreact with
    | skipIdle hidle => rw [hidle r' hr'] at hunstarted; simp at hunstarted
    | skips hr =>
      rw [run?_putEnded, node_skip, hs.node n _ hr, if_pos rfl] at hr'
      obtain rfl := Option.some.inj hr'
      simp [isUnstarted, RunState.isTerminal] at hunstarted
  | fail =>
    cases hreact with
    | failIdle hidle => rw [hidle r' hr'] at hunstarted; simp at hunstarted
    | fails hr =>
      rw [run?_putEnded, node_fail, hs.node n _ hr, if_pos rfl] at hr'
      obtain rfl := Option.some.inj hr'
      simp [isUnstarted, RunState.isTerminal] at hunstarted
  | @settle c branch hnone hmem =>
    cases hreact with
    | settleIdle hidle =>
      rcases hidle with hres | hkind
      · simp [Table.contains, hnone] at hres
      · exact absurd ((hp.mem_exclusive_iff hu).mp hmem).1 hkind
    | settles =>
      refine ⟨.skip n (.conditionUnresolved c), List.mem_map.mpr ⟨n, ?_, rfl⟩, .skip⟩
      cases branch with
      | whenTrue => exact List.mem_append_left _ hmem
      | whenFalse => exact List.mem_append_right _ hmem

theorem Serves.react {n : NodeId} {q : String} {r' : NodeRun} (h : Serves p s n q sig)
    (hr' : s'.run? n = some r') (hpending : r'.state = .pending) (hq : q ∈ r'.pendingInputs) :
    ∃ next ∈ more, Serves p s' n q next := by
  obtain ⟨r, hr, hevolves⟩ := hreact.evolved hp hs hr'
  have hmem : n ∈ p.membersIn s.owner := (hs.member n).mp (by simp [hr])
  have hmember : p.route s.owner ⟨n, q⟩ = some (.member n) :=
    (hp.route_eq_member_iff hu).mpr ⟨rfl, hmem⟩
  obtain ⟨hbefore, -, hwaits⟩ := hevolves.pending hpending
  cases h with
  | ends h =>
    obtain ⟨next, hnext, hends⟩ := h.react hp hu hs hreact hr' (isUnstarted_of_pending hpending)
    exact ⟨next, hnext, .ends hends⟩
  | route =>
    cases hreact with
    | routeMember hroute =>
      obtain rfl : n = _ := Route.member.inj (Option.some.inj (hmember.symm.trans hroute))
      exact ⟨_, List.mem_singleton_self _, .write⟩
    | routeNested hroute | routeResult hroute | routeNowhere hroute =>
      rw [hmember] at hroute
      simp at hroute
  | write =>
    cases hreact with
    | writeIdle hidle =>
      obtain ⟨node, hnode, -⟩ := hp.node?_of_mem_membersIn hmem
      exact absurd hbefore (hidle node r hnode hr)
    | writeTaken _ hid _ hd | writeRejected _ hid _ hd =>
      obtain ⟨hnode, -, -, -, -, hinputs, -⟩ := NodeRun.deliver_kept hd
      rw [run?_put, hnode, hs.node n _ hid, if_pos rfl] at hr'
      obtain rfl := Option.some.inj hr'
      rw [hinputs, mem_dropInput] at hq
      exact absurd rfl hq.2
  | @failed origin =>
    cases hreact with
    | feederSkips => exact ⟨_, List.mem_singleton_self _, .ends .skip⟩
    | feederFails => exact ⟨_, List.mem_singleton_self _, .ends .fail⟩
    | feederCounts => exact ⟨_, List.mem_singleton_self _, .write⟩
    | @feederDrops _ _ _ r₀ _ _ hid =>
      have hnode : (r₀.losePort q origin).node = n := hs.node n r₀ hid
      rw [run?_put, hnode, if_pos rfl] at hr'
      obtain rfl := Option.some.inj hr'
      exact absurd rfl ((mem_dropInput _ q q).mp hq).2
    | feederIdle _ _ hidle => exact absurd hbefore (hidle r hr)
  | cascade hfeeds =>
    cases hreact with
    | cascade =>
      exact ⟨_, mem_cascade_member hfeeds hmember, .failed⟩
  | forgo hfed hport =>
    cases hreact with
    | forgoDrops =>
      rw [run?_change, if_pos rfl, hr] at hr'
      obtain rfl := Option.some.inj hr'
      exact absurd hport ((mem_dropInput r _ q).mp hq).2
    | forgoKeeps hnot => exact absurd hfed hnot

theorem Brings.react {l : NodeId} {t : PortRef} {r' : NodeRun} (h : Brings p s l t sig)
    (hr' : s'.run? l = some r') (hunstarted : isUnstarted r' = true)
    (hroute : p.route s.owner t = some (.nested l)) (ht : t ∉ s'.handedKeys l) :
    ∃ next ∈ more, Brings p s' l t next := by
  cases h with
  | ends h =>
    obtain ⟨next, hnext, hends⟩ := h.react hp hu hs hreact hr' hunstarted
    exact ⟨next, hnext, .ends hends⟩
  | route =>
    cases hreact with
    | routeNested hroute' =>
      obtain rfl : l = _ := Route.nested.inj (Option.some.inj (hroute.symm.trans hroute'))
      rw [handedKeys_hand, if_pos rfl] at ht
      simp at ht
    | routeMember hroute' | routeResult hroute' | routeNowhere hroute' =>
      rw [hroute] at hroute'
      simp at hroute'
  | cascade hfeeds =>
    cases hreact with
    | cascade =>
      exact ⟨_, mem_cascade_nested hfeeds hroute, .ends .skip⟩

end Handled

/-! ### One signal -/

/-- What an old signal sees to is still seen to: by itself, or by what follows from it. -/
private theorem kept {P P' : Signal → Prop} (hold : ∃ next ∈ sig :: rest, P next)
    (hrest : ∀ next ∈ rest, P next → P' next) (hhead : P sig → ∃ next ∈ more, P' next) :
    ∃ next ∈ more ++ rest, P' next := by
  obtain ⟨next, hnext, hP⟩ := hold
  rcases List.mem_cons.mp hnext with rfl | hnext
  · obtain ⟨next, hnext, hP⟩ := hhead hP
    exact ⟨next, List.mem_append_left _ hnext, hP⟩
  · exact ⟨next, List.mem_append_right _ hnext, hrest next hnext hP⟩

/-- What a later signal sees to, the first one left out, is still seen to. -/
private theorem kept_rest {P P' : Signal → Prop} (hold : ∃ next ∈ sig :: rest, P next)
    (hrest : ∀ next ∈ rest, P next → P' next) (hhead : ¬ P sig) :
    ∃ next ∈ more ++ rest, P' next :=
  kept hold hrest fun h => absurd h hhead

/-- What a node behind a branch feeds is the port of the branch, or a node behind it too. -/
theorem fed_of_exclusive (hp : p.Sound) (hu : p.Untangled) {m n c : NodeId} {q : String}
    {branch : Branch} (hfeeds : p.Feeds m ⟨n, q⟩) (hm : m ∈ p.exclusive ⟨c, branch⟩) :
    (n = c ∧ q = branch.port ∧ FedBehind p c branch) ∨ n ∈ p.exclusive ⟨c, branch⟩ := by
  obtain ⟨k, hk, ht⟩ := hfeeds
  obtain ⟨rfl, rfl⟩ := PortRef.mk.inj ht
  rcases hp.exclusive_feeds hu hm hk with ⟨hc, hport⟩ | hin
  · refine Or.inl ⟨hc, hport, ⟨m, k.label.sourcePort⟩, ?_, hm⟩
    have htarget : inputOf k = ⟨c, branch.port⟩ := by
      unfold inputOf
      rw [hc, hport]
    have hin := hp.inbound?_of_forwardOut hk
    rwa [htarget] at hin
  · exact Or.inr hin

section Owing

variable (hp : p.Sound) (hu : p.Untangled) (hs : Shape p s)
  (hsourced : Sourced p given s (sig :: rest)) (h : Owed p given s (sig :: rest))
  (hreact : Reacts p now s sig s' more)
include hp hu hs hsourced h hreact

theorem barred_react {n : NodeId} {r' : NodeRun} {gate : Gate} (hr' : s'.run? n = some r')
    (hunstarted : isUnstarted r' = true) (hgate : gate ∈ p.gates n) (hclosed : Closed s' gate) :
    ∃ next ∈ more ++ rest, Ends p s' n next := by
  have hlater := hreact.later hp hs
  obtain ⟨r, hr, hevolves⟩ := hreact.evolved hp hs hr'
  have hold : Closed s gate → ∃ next ∈ more ++ rest, Ends p s' n next := by
    intro hclosed
    refine kept (h.barred n r gate hr (hevolves.isUnstarted hunstarted) hgate hclosed) ?_ ?_
    · intro next hnext hends
      exact hends.later hlater (hsourced.causes next (List.mem_cons_of_mem _ hnext))
    · intro hends
      exact hends.react hp hu hs hreact hr' hunstarted
  have hmem : n ∈ p.exclusive gate := hp.mem_gates_iff.mp hgate
  rcases hclosed with ⟨b, hb, hbranch⟩ | ⟨⟨rc', hrc', hterm⟩, hnone⟩
  · rcases hreact.gate_cases hp hs with ⟨c, holds, rfl, hnone, rfl, rfl⟩ | ⟨hres, -⟩
    · by_cases hc : c = gate.condition
      · -- the branch has just been settled, and the node is to be skipped
        subst hc
        rw [resolved_decide, if_pos rfl] at hb
        obtain rfl := Option.some.inj hb
        refine ⟨.skip n (.branchNotTaken gate.condition), List.mem_append_left _ ?_, .skip⟩
        refine List.mem_append_left _ (List.mem_append_right _ (List.mem_map.mpr ⟨n, ?_, rfl⟩))
        rw [← hbranch]
        exact hmem
      · rw [resolved_decide, if_neg hc] at hb
        exact hold (Or.inl ⟨b, hb, hbranch⟩)
    · rw [hres] at hb
      exact hold (Or.inl ⟨b, hb, hbranch⟩)
  · have hnone' : s.resolved.find? gate.condition = none := hreact.undecided hnone
    have hsettle : Ends p s' n (.settle gate.condition) :=
      .settle hnone (show n ∈ p.exclusive ⟨gate.condition, gate.branch⟩ from hmem)
    rcases hreact.ended_cases hp hs hrc' hterm with ⟨rc, hrc, hstate⟩ | ⟨rc, -, -, hended⟩
    · exact hold (Or.inr ⟨⟨rc, hrc, by rw [hstate]; exact hterm⟩, hnone'⟩)
    · refine ⟨.settle gate.condition, List.mem_append_left _ ?_, hsettle⟩
      rcases hended with ⟨reason, -, hmore⟩ | ⟨-, hmore⟩ <;> simp [hmore]

omit h in
/-- Whether a node is ended or another signal sees to it: either is still seen to, if what follows
from that signal sees to it. -/
private theorem kept_ends {n : NodeId} {r' : NodeRun} {x : Signal}
    (hold : ∃ next ∈ sig :: rest, Ends p s n next ∨ next = x) (hr' : s'.run? n = some r')
    (hunstarted : isUnstarted r' = true)
    (hhead : sig = x → ∃ next ∈ more, Ends p s' n next ∨ next = x) :
    ∃ next ∈ more ++ rest, Ends p s' n next ∨ next = x := by
  refine kept hold ?_ ?_
  · intro next hnext hcase
    exact hcase.imp_left fun hends =>
      hends.later (hreact.later hp hs) (hsourced.causes next (List.mem_cons_of_mem _ hnext))
  · rintro (hends | hsig)
    · obtain ⟨next, hnext, hends⟩ := hends.react hp hu hs hreact hr' hunstarted
      exact ⟨next, hnext, Or.inl hends⟩
    · exact hhead hsig

theorem forgone_react {n : NodeId} {r' : NodeRun} {branch : Branch} (hr' : s'.run? n = some r')
    (hpending : r'.state = .pending) (htaken : NotTaken s' n branch) (hfed : FedBehind p n branch)
    (hq : branch.port ∈ r'.pendingInputs) :
    ∃ next ∈ more ++ rest, Ends p s' n next ∨ next = .forgo n branch := by
  obtain ⟨r, hr, hevolves⟩ := hreact.evolved hp hs hr'
  obtain ⟨hbefore, -, hwaits⟩ := hevolves.pending hpending
  have hold : NotTaken s n branch →
      ∃ next ∈ more ++ rest, Ends p s' n next ∨ next = .forgo n branch := by
    intro htaken
    refine kept_ends hp hu hs hsourced hreact
      (h.forgone n r branch hr hbefore htaken hfed (hwaits _ hq)) hr'
      (isUnstarted_of_pending hpending) ?_
    rintro rfl
    cases hreact with
    | forgoDrops =>
      rw [run?_change, if_pos rfl, hr] at hr'
      obtain rfl := Option.some.inj hr'
      exact absurd rfl ((mem_dropInput r _ _).mp hq).2
    | forgoKeeps hnot => exact absurd hfed hnot
  obtain ⟨b, hb, hbranch⟩ := htaken
  rcases hreact.gate_cases hp hs with ⟨c, holds, rfl, hnone, rfl, rfl⟩ | ⟨hres, -⟩
  · by_cases hc : c = n
    · subst hc
      rw [resolved_decide, if_pos rfl] at hb
      obtain rfl := Option.some.inj hb
      refine ⟨.forgo c branch, List.mem_append_left _ ?_, Or.inr rfl⟩
      rw [hbranch]
      exact List.mem_append_right _ (List.mem_singleton_self _)
    · rw [resolved_decide, if_neg hc] at hb
      exact hold ⟨b, hb, hbranch⟩
  · rw [hres] at hb
    exact hold ⟨b, hb, hbranch⟩

theorem owed_decided_react {c : NodeId} {r' : NodeRun} (hr' : s'.run? c = some r')
    (hkind : p.kind? c = some .condition) (hunstarted : isUnstarted r' = true)
    (hfree : PortName.condition ∉ r'.pendingInputs) (hnone : s'.resolved.find? c = none) :
    ∃ next ∈ more ++ rest, Ends p s' c next ∨ next = .resolve c := by
  obtain ⟨r, hr, hevolves⟩ := hreact.evolved hp hs hr'
  have hnone' : s.resolved.find? c = none := hreact.undecided hnone
  have hold : PortName.condition ∉ r.pendingInputs →
      ∃ next ∈ more ++ rest, Ends p s' c next ∨ next = .resolve c := by
    intro hfree
    refine kept_ends hp hu hs hsourced hreact
      (h.decided c r hr hkind (hevolves.isUnstarted hunstarted) hfree hnone') hr' hunstarted ?_
    rintro rfl
    cases hreact with
    | resolveIdle hidle =>
      have hterm := hidle r' hnone' hr'
      rw [isUnstarted_of_isTerminal hterm] at hunstarted
      simp at hunstarted
    | resolveFails => exact ⟨_, List.mem_singleton_self _, Or.inl .fail⟩
    | resolveDecides =>
      rw [resolved_decide, if_pos rfl] at hnone
      simp at hnone
  by_cases hwaits : PortName.condition ∈ r.pendingInputs
  · rcases hreact.condition_dropped hp hs hkind hr hr' hwaits hfree with rfl | ⟨e, rfl⟩
    · exact ⟨.resolve c, by simp, Or.inr rfl⟩
    · exact ⟨.fail c e, by simp, Or.inl .fail⟩
  · exact hold hwaits

theorem promoted_react {n : NodeId} {r' : NodeRun} (hr' : s'.run? n = some r')
    (hsat' : r'.isSatisfied = true) :
    ∃ next ∈ more ++ rest, Ends p s' n next ∨ next = .promote n := by
  obtain ⟨r, hr, hevolves⟩ := hreact.evolved hp hs hr'
  have hnode := hs.node n r hr
  have hpending := (NodeRun.pending_of_isSatisfied hsat').1
  have hold : r.isSatisfied = true →
      ∃ next ∈ more ++ rest, Ends p s' n next ∨ next = .promote n := by
    intro hsat
    refine kept_ends hp hu hs hsourced hreact (h.promoted n r hr hsat) hr'
      (isUnstarted_of_pending hpending) ?_
    rintro rfl
    cases hreact with
    | promoteIdle hidle =>
      rw [hidle r' hr'] at hsat'
      simp at hsat'
    | promoteSkips => exact ⟨_, List.mem_singleton_self _, Or.inl .skip⟩
    | @promoteAgain _ r₀ hid =>
      have hnode₀ : r₀.markReady.node = n := hs.node n r₀ hid
      rw [run?_violate, run?_put, hnode₀, if_pos rfl] at hr'
      obtain rfl := Option.some.inj hr'
      simp [NodeRun.markReady] at hpending
    | @promoteQueues _ r₀ hid =>
      rw [run?_queue, hs.node n r₀ hid, if_pos rfl] at hr'
      obtain rfl := Option.some.inj hr'
      simp [NodeRun.markReady] at hpending
  have hnew : Signal.promote n ∈ more →
      ∃ next ∈ more ++ rest, Ends p s' n next ∨ next = .promote n :=
    fun hmore => ⟨_, List.mem_append_left _ hmore, Or.inr rfl⟩
  cases hevolves with
  | same => exact hold hsat'
  | capture hsig hroute =>
    rw [hnode] at hroute
    subst hsig
    cases hreact with
    | routeNested hroute' =>
      obtain rfl : n = _ := Route.nested.inj (Option.some.inj (hroute.symm.trans hroute'))
      exact hnew (List.mem_singleton_self _)
    | routeMember hroute' | routeResult hroute' | routeNowhere hroute' =>
      rw [hroute] at hroute'
      simp at hroute'
  | gate hsig hnone hmem =>
    subst hsig
    have hsame : s.run? n = some r.openGate → r.isSatisfied = true := by
      intro hopen
      rw [Option.some.inj (hr.symm.trans hopen)]
      exact hsat'
    cases hreact with
    | resolveIdle | resolveFails => exact hold (hsame hr')
    | @resolveDecides _ _ holds =>
      rw [run?_decide s _ _ p _ (hp.nodup_exclusive _)] at hr'
      split_ifs at hr' with hmem
      · refine hnew (List.mem_append_left _ (List.mem_append_left _ ?_))
        exact List.mem_map.mpr ⟨n, hmem, rfl⟩
      · exact hold (hsame hr')
  | drop hsig hfed =>
    rw [hnode] at hsig
    subst hsig
    cases hreact with
    | forgoDrops | forgoKeeps => exact hnew (List.mem_singleton_self _)
  | deliver hsig hnode' hstate hd =>
    rw [hnode] at hsig hnode'
    subst hsig
    cases hreact with
    | writeIdle hidle => exact absurd hstate (hidle _ r hnode' hr)
    | writeTaken =>
      refine hnew ?_
      split_ifs <;> simp
    | writeRejected =>
      exact ⟨_, List.mem_append_left _ (List.mem_singleton_self _), Or.inl .fail⟩
  | lose hsig htolerant hport hstate =>
    rw [hnode] at hsig
    subst hsig
    cases hreact with
    | feederSkips =>
      exact ⟨_, List.mem_append_left _ (List.mem_singleton_self _), Or.inl .skip⟩
    | feederFails =>
      exact ⟨_, List.mem_append_left _ (List.mem_singleton_self _), Or.inl .fail⟩
    | feederCounts => exact absurd rfl hport
    | feederDrops => exact hnew (List.mem_singleton_self _)
    | feederIdle _ _ hidle => exact absurd hstate (hidle r hr)
  | ready => simp [NodeRun.markReady] at hpending
  | skip => simp at hpending
  | fail => simp at hpending

/-- What a member that ends without a value means for the inputs that it feeds. -/
theorem served_of_over {m n : NodeId} {q : String} {r r' : NodeRun} (hfeeds : p.Feeds m ⟨n, q⟩)
    (hm' : s'.Over m) (hr : s.run? n = some r) (hbefore : r.state = .pending)
    (hwaits : q ∈ r.pendingInputs) (hr' : s'.run? n = some r') (hpending : r'.state = .pending) :
    s.Over m ∨ ∃ next ∈ more ++ rest, Serves p s' n q next := by
  have hlater := hreact.later hp hs
  obtain ⟨rm', hrm', hterm, hcancel⟩ := hm'
  have hne : n ≠ m := by
    rintro rfl
    obtain rfl : r' = rm' := Option.some.inj (hr'.symm.trans hrm')
    rw [hpending] at hterm
    simp [RunState.isTerminal] at hterm
  rcases hreact.ended_cases hp hs hrm' hterm with ⟨rm, hrm, hstate⟩ | ⟨rm, hrm, -, hended⟩
  · exact Or.inl ⟨rm, hrm, by rwa [hstate], by rwa [hstate]⟩
  refine Or.inr ?_
  rcases hended with ⟨reason, rfl, rfl⟩ | ⟨⟨e, rfl⟩, rfl⟩
  swap
  · exact ⟨.cascade m m, by simp, .cascade hfeeds⟩
  obtain ⟨hreach, hcause⟩ : reason ≠ .unreachable ∧ SkipCause p s m reason :=
    hsourced.causes _ (List.mem_cons_self)
  have hends : (∃ next ∈ Signal.skip m reason :: rest, Ends p s n next) →
      ∃ next ∈ ((reason.failedOrigin?.map fun origin => Signal.cascade m origin).toList ++
        [.settle m]) ++ rest, Serves p s' n q next := by
    intro hold
    refine kept_rest hold ?_ ?_
    · intro next hnext hends
      exact .ends (hends.later hlater (hsourced.causes next (List.mem_cons_of_mem _ hnext)))
    · intro hends
      cases hends with
      | skip => exact hne rfl
  cases reason with
  | feederFailed origin =>
    exact ⟨.cascade m origin, by simp [SkipReason.failedOrigin?], .cascade hfeeds⟩
  | branchNotTaken c =>
    obtain ⟨branch, htaken, hm⟩ := hcause
    rcases fed_of_exclusive hp hu hfeeds hm with ⟨rfl, rfl, hfed⟩ | hin
    · refine kept_rest (h.forgone n r branch hr hbefore htaken hfed hwaits) ?_ ?_
      · rintro next hnext (hends | rfl)
        · exact .ends (hends.later hlater (hsourced.causes next (List.mem_cons_of_mem _ hnext)))
        · exact .forgo hfed rfl
      · rintro (hends | hforgo)
        · cases hends with
          | skip => exact hne rfl
        · simp at hforgo
    · exact hends (h.barred n r _ hr (isUnstarted_of_pending hbefore) (hp.mem_gates_iff.mpr hin)
        (Or.inl htaken))
  | conditionUnresolved c =>
    obtain ⟨hc, hnone, branch, hm⟩ := hcause
    rcases fed_of_exclusive hp hu hfeeds hm with ⟨rfl, -, -⟩ | hin
    · obtain ⟨rc, hrc, hcterm⟩ := hc
      obtain rfl : r = rc := Option.some.inj (hr.symm.trans hrc)
      rw [hbefore] at hcterm
      simp [RunState.isTerminal] at hcterm
    · exact hends (h.barred n r _ hr (isUnstarted_of_pending hbefore) (hp.mem_gates_iff.mpr hin)
        (Or.inr ⟨hc, hnone⟩))
  | unreachable => exact absurd rfl hreach
  | aborted => exact hcause.elim

theorem supplied_react {n : NodeId} {r' : NodeRun} {q : String} (hr' : s'.run? n = some r')
    (hpending : r'.state = .pending) (hq : q ∈ r'.pendingInputs)
    (hsettled : Settled p given s' ⟨n, q⟩) : ∃ next ∈ more ++ rest, Serves p s' n q next := by
  have hlater := hreact.later hp hs
  obtain ⟨r, hr, hevolves⟩ := hreact.evolved hp hs hr'
  obtain ⟨hbefore, -, hwaits⟩ := hevolves.pending hpending
  have hold : Settled p given s ⟨n, q⟩ → ∃ next ∈ more ++ rest, Serves p s' n q next := by
    intro hsettled
    refine kept (h.supplied n r q hr hbefore (hwaits q hq) hsettled) ?_ ?_
    · intro next hnext hserves
      exact hserves.later hlater (hsourced.causes next (List.mem_cons_of_mem _ hnext))
    · intro hserves
      exact hserves.react hp hu hs hreact hr' hpending hq
  rcases hsettled with hgiv | ⟨m, hfeeds, hm⟩
  · exact hold (Or.inl hgiv)
  · rcases served_of_over hp hu hs hsourced h hreact hfeeds hm hr hbefore (hwaits q hq) hr' hpending
      with hm | hserved
    · exact hold (Or.inr ⟨m, hfeeds, hm⟩)
    · exact hserved

theorem brought_react {l : NodeId} {r' : NodeRun} {t : PortRef} (hr' : s'.run? l = some r')
    (hunstarted : isUnstarted r' = true) (hroute : p.route s.owner t = some (.nested l))
    (ht : t ∉ s'.handedKeys l) (hsettled : Settled p given s' t) :
    ∃ next ∈ more ++ rest, Brings p s' l t next := by
  have hlater := hreact.later hp hs
  obtain ⟨r, hr, hevolves⟩ := hreact.evolved hp hs hr'
  have hbefore : t ∉ s.handedKeys l := by
    intro hin
    rcases hreact.hand_cases hp hs with ⟨k, t', v, -, -, rfl⟩ | ⟨hhanded, -⟩
    · rw [handedKeys_hand] at ht
      split_ifs at ht
      · exact ht (List.mem_append_left _ hin)
      · exact ht hin
    · unfold handedKeys handedTo at ht hin
      rw [hhanded] at ht
      exact ht hin
  have hold : Settled p given s t → ∃ next ∈ more ++ rest, Brings p s' l t next := by
    intro hsettled
    refine kept (h.brought l r t hr (hevolves.isUnstarted hunstarted) hroute hbefore hsettled) ?_ ?_
    · intro next hnext hbrings
      exact hbrings.later hlater (hsourced.causes next (List.mem_cons_of_mem _ hnext))
    · intro hbrings
      exact hbrings.react hp hu hs hreact hr' hunstarted hroute ht
  rcases hsettled with hgiv | ⟨m, hfeeds, rm', hrm', hterm, hcancel⟩
  · exact hold (Or.inl hgiv)
  rcases hreact.ended_cases hp hs hrm' hterm with ⟨rm, hrm, hstate⟩ | ⟨rm, hrm, -, hended⟩
  · exact hold (Or.inr ⟨m, hfeeds, rm, hrm, by rwa [hstate], by rwa [hstate]⟩)
  rcases hended with ⟨reason, rfl, rfl⟩ | ⟨⟨e, rfl⟩, rfl⟩
  swap
  · exact ⟨.cascade m m, by simp, .cascade hfeeds⟩
  obtain ⟨hreach, hcause⟩ : reason ≠ .unreachable ∧ SkipCause p s m reason :=
    hsourced.causes _ (List.mem_cons_self)
  have hnot : ∀ gate, m ∉ p.exclusive gate := fun gate =>
    hp.not_exclusive_of_nested hu hfeeds ((hs.member m).mp (by simp [hrm])) hroute
  cases reason with
  | feederFailed origin =>
    exact ⟨.cascade m origin, by simp [SkipReason.failedOrigin?], .cascade hfeeds⟩
  | branchNotTaken c =>
    obtain ⟨branch, -, hm⟩ := hcause
    exact absurd hm (hnot _)
  | conditionUnresolved c =>
    obtain ⟨-, -, branch, hm⟩ := hcause
    exact absurd hm (hnot _)
  | unreachable => exact absurd rfl hreach
  | aborted => exact hcause.elim

/-- Each signal keeps what is owed. -/
theorem Owed.react : Owed p given s' (more ++ rest) where
  supplied := fun n r' q => supplied_react hp hu hs hsourced h hreact
  brought := by
    intro l r' t hr' hunstarted hroute
    rw [hreact.owner] at hroute
    exact brought_react hp hu hs hsourced h hreact hr' hunstarted hroute
  barred := fun n r' gate => barred_react hp hu hs hsourced h hreact
  forgone := fun n r' branch => forgone_react hp hu hs hsourced h hreact
  decided := fun c r' => owed_decided_react hp hu hs hsourced h hreact
  running := by
    intro c r' hr' hkind hstate
    obtain ⟨r, hr, hevolves⟩ := hreact.evolved hp hs hr'
    have hrunning : r.state = .running := by
      cases hevolves with
      | deliver _ _ _ hd => rwa [(NodeRun.deliver_kept hd).2.1] at hstate
      | ready => simp [NodeRun.markReady] at hstate
      | skip => simp at hstate
      | fail => simp at hstate
      | _ => exact hstate
    obtain ⟨b, hb⟩ := Option.ne_none_iff_exists'.mp (h.running c r hr hkind hrunning)
    rw [hreact.resolved hb]
    simp
  promoted := fun n r' => promoted_react hp hu hs hsourced h hreact

end Owing

end Step

end PortGraph.Scope
