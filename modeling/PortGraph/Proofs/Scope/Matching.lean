import PortGraph.Proofs.Scope.Agreement

/-!
A scope on its way, next to one that has run to its end in the same place. As long as no end hangs on
who was first, whatever happens in the one has happened in the other: signals, starts and the ends of
nodes keep that, and two scopes that have both run to their end are the same.
-/

namespace PortGraph.Scope

open Plan

/-- At the top level, whoever is out of reach is skipped. -/
def Dead (p : Plan) (s : Scope) : Prop :=
  ∀ n ∈ p.membersIn s.owner, s.owner = none → n ∈ p.unreachable →
    ∃ r, s.run? n = some r ∧ r.state = .skipped

/-- Only who succeeded has outputs. -/
def Silent (s : Scope) : Prop :=
  ∀ n r, s.run? n = some r → r.state ≠ .succeeded → r.outputs = none

/-- What a member sent to the loop around the scope is the result of the scope, or on its way. -/
def Returned (p : Plan) (s : Scope) (sigs : List Signal) : Prop :=
  ∀ l v, s.owner = some l → Offered p [] s ⟨l, PortName.result⟩ v →
    s.result = some v ∨ .route ⟨l, PortName.result⟩ v ∈ sigs

/-- A scope that has run to its end, where no end hung on who was first. -/
structure Complete (p : Plan) (given : List (PortRef × Json)) (s : Scope) : Prop where
  coherent : Coherent p given s []
  chosen : Chosen p s
  clear : Uncontested p s
  dead : Dead p s
  silent : Silent s
  returned : Returned p s []
  done : ∀ n r, s.run? n = some r → r.state.isTerminal = true ∧ r.state ≠ .cancelled

/-- What has happened in the first scope has happened in the second one, which has run to its end. -/
structure Matches (s t : Scope) : Prop where
  owner : t.owner = s.owner
  started : ∀ n r, s.run? n = some r → r.startedAt.isSome = true → ∃ r', t.run? n = some r' ∧
    r'.startedAt.isSome = true ∧ (∀ q, r.inputs.find? q = r'.inputs.find? q) ∧
      (r.state.isTerminal = true → r'.state = r.state ∧ r'.outputs = r.outputs)
  passed : ∀ n r, s.run? n = some r → r.state.isTerminal = true → r.startedAt = none →
    ∃ r', t.run? n = some r' ∧ r'.startedAt = none

variable {p : Plan} {now : Timestamp} {given given' : List (PortRef × Json)} {s s' t : Scope}
variable {sig : Signal} {sigs rest more : List Signal} {m n : NodeId} {r r' : NodeRun}
variable {x : PortRef} {v : Json}

theorem Chosen.decided (h : Chosen p s) : Decided p s := by
  intro c hkind hstart
  obtain ⟨r, hr, hsome⟩ : ∃ r, s.run? c = some r ∧ r.startedAt.isSome = true := by
    unfold startOf? at hstart
    cases hr : s.run? c with
    | none => simp [hr] at hstart
    | some r => exact ⟨r, rfl, by simpa [hr] using hstart⟩
  obtain ⟨b, hb, -⟩ := h c r hr hkind (Or.inr hsome)
  simp [hb]

theorem Dead.reached (h : Dead p s) (hs : Shape p s) (hr : s.run? n = some r)
    (hstate : r.state ≠ .skipped) : ¬ (s.owner = none ∧ n ∈ p.unreachable) := by
  rintro ⟨howner, hdead⟩
  obtain ⟨r', hr', hskipped⟩ := h n ((hs.member n).mp (by rw [hr]; rfl)) howner hdead
  obtain rfl := Option.some.inj (hr.symm.trans hr')
  exact hstate hskipped

/-- A condition that failed without having run has nothing behind it, or nothing could give it a
value any more. -/
theorem not_raced (hn : ¬ Contested p s n) (hr : s.run? n = some r) (hstate : r.state = .failed)
    (hstart : r.startedAt = none) (hdeprived : Deprived p s n) :
    (∀ branch, p.exclusive ⟨n, branch⟩ = []) ∨ Valueless p s n := by
  by_contra hnot
  obtain ⟨hbehind, hvalue⟩ := not_or.mp hnot
  exact hn ⟨⟨r, hr, hstate, hstart⟩,
    Or.inr ⟨hdeprived, Or.inr ⟨not_forall.mp hbehind, hvalue⟩⟩⟩

/-! ### A scope that has run to its end -/

section Complete

variable (ht : Complete p given t)
include ht

theorem Complete.endCause (hr : t.run? n = some r) (hstart : r.startedAt = none) :
    EndCause p given t n r :=
  ht.coherent.sourced.ended n r hr (ht.done n r hr).1 hstart

theorem Complete.lost (hr : t.run? n = some r) (hstart : r.startedAt = none) : t.Lost n := by
  rcases ht.endCause hr hstart with ⟨hstate, -⟩ | ⟨hstate, -⟩
  · exact ⟨r, hr, Or.inr hstate⟩
  · exact ⟨r, hr, Or.inl hstate⟩

/-- Whoever was started there is not out of reach. -/
theorem Complete.reached (hr : t.run? n = some r) (hstart : r.startedAt.isSome = true) :
    ¬ (t.owner = none ∧ n ∈ p.unreachable) := by
  refine ht.dead.reached ht.coherent.shape hr fun hskipped => ?_
  rw [(ht.coherent.shape.clear n r hr).skipped hskipped] at hstart
  simp at hstart

end Complete

/-! ### Matching scopes -/

section Agreement

variable (hs : Shape p s) (hsourced : Sourced p given s sigs) (ht : Complete p given' t)
  (hgiven : ∀ y ∈ given, y ∈ given') (h : Matches s t)
include ht h

theorem Matches.lost (hm : s.Lost m) : t.Lost m := by
  obtain ⟨r, hr, hstate⟩ := hm
  have hterm : r.state.isTerminal = true := by
    rcases hstate with hstate | hstate <;> rw [hstate] <;> rfl
  cases hstart : r.startedAt with
  | none =>
    obtain ⟨r', hr', hstart'⟩ := h.passed m r hr hterm hstart
    exact ht.lost hr' hstart'
  | some at' =>
    obtain ⟨r', hr', -, -, hsame⟩ := h.started m r hr (by rw [hstart]; rfl)
    exact ⟨r', hr', by rwa [(hsame hterm).1]⟩

theorem Matches.feederLost (hx : FeederLost p s x) : FeederLost p t x := by
  obtain ⟨m, hm, hfeeds⟩ := hx
  exact ⟨m, h.lost ht hm, hfeeds⟩

omit ht in
include hs hsourced in
theorem Matches.sent (hx : Offered p [] s x v) : Offered p [] t x v := by
  obtain ⟨m, r, o, hr, hstate, ho, hmem⟩ | hnil := hx
  · obtain ⟨r', hr', -, -, hsame⟩ :=
      h.started m r hr (started_of_succeeded hs hsourced hr hstate)
    obtain ⟨hstate', ho'⟩ := hsame (by rw [hstate]; rfl)
    exact Or.inl ⟨m, r', o, hr', hstate'.trans hstate, ho'.trans ho, hmem⟩
  · simp at hnil

omit ht in
include hs hsourced hgiven in
theorem Matches.offered (hx : Offered p given s x v) : Offered p given' t x v := by
  rcases hx with hsent | hmem
  · rcases h.sent hs hsourced (Or.inl hsent) with hsent' | hnil
    · exact Or.inl hsent'
    · simp at hnil
  · exact Or.inr (hgiven _ hmem)

include hs hsourced hgiven in
theorem Matches.agrees (hp : p.Sound) : Agrees p given given' s t where
  owner := h.owner
  values := fun _ _ _ hv hw => offered_unique hp ht.coherent.shape ht.coherent.proper
    (h.offered hs hsourced hgiven hv) hw
  lost := fun _ _ hlost hw => not_feederLost_of_offered hp ht.coherent.shape ht.coherent.proper hw
    (h.feederLost ht hlost)
  sent := fun _ _ hv => not_feederLost_of_offered hp ht.coherent.shape ht.coherent.proper
    (h.offered hs hsourced hgiven hv)

end Agreement

/-! ### One step -/

section Step

variable (hp : p.Sound) (hu : p.Untangled) (ht : Complete p given' t)
  (hgiven : ∀ y ∈ given, y ∈ given') (h : Matches s t)
include hp hu ht hgiven h

/-- A signal ends no node that was started in the other scope. -/
theorem Matches.react (hs : Coherent p given s (sig :: rest)) (hdecided : Decided p s)
    (hclear : Uncontested p s) (hclear' : Uncontested p s') (hreact : Reacts p now s sig s' more) :
    Matches s' t := by
  have hlater := hreact.later hp hs.shape
  refine ⟨h.owner.trans hlater.owner.symm, ?_, ?_⟩
  · intro n r' hr' hstart
    obtain ⟨r, hr, hevolves⟩ := hreact.evolved hp hs.shape hr'
    rw [hevolves.startedAt] at hstart
    have hsettled : isUnstarted r = false := by
      by_contra hne
      rw [(hs.shape.clear n r hr).idle (by simpa using hne)] at hstart
      simp at hstart
    obtain ⟨hstate, hinputs, houtputs, -⟩ := hevolves.settled hsettled
    rw [hinputs, hstate, houtputs]
    exact h.started n r hr hstart
  · intro n r' hr' hterm hstart
    obtain ⟨r, hr, hevolves⟩ := hreact.evolved hp hs.shape hr'
    rw [hevolves.startedAt] at hstart
    cases hended : r.state.isTerminal with
    | true => exact h.passed n r hr hended hstart
    | false =>
      obtain ⟨rt, hrt⟩ := Option.isSome_iff_exists.mp
        ((ht.coherent.shape.member n).mpr (by
          rw [h.owner]
          exact (hs.shape.member n).mp (by rw [hr]; rfl)))
      refine ⟨rt, hrt, ?_⟩
      by_contra hstarted
      have hdue : rt.Due := Or.inr (Option.isSome_iff_ne_none.mpr hstarted)
      have hagrees := h.agrees hs.shape hs.sourced ht hgiven hp
      have hreach : ¬ (s.owner = none ∧ n ∈ p.unreachable) := by
        rw [← h.owner]
        exact ht.reached hrt (Option.isSome_iff_ne_none.mpr hstarted)
      have hcause : Cause p given s sig := hs.sourced.causes sig List.mem_cons_self
      rcases hevolves.ended hended hterm with ⟨reason, hsig, -⟩ | ⟨e, hsig, -, rfl⟩
      · rw [hsig, hs.shape.node n r hr] at hcause
        exact not_skipCause_of_due hp hu hs ht.coherent hagrees hrt hdue hdecided hclear ht.chosen
          hreach reason hcause.2
      · rw [hsig, hs.shape.node n r hr] at hcause
        refine not_failCause_of_due hp hu hs ht.coherent hagrees hrt hdue ?_ hcause
        intro _ hdeprived
        refine (not_raced (hclear' n) hr' rfl hstart
          (hlater.deprived hdeprived)).imp_right ?_
        rintro ⟨m, hm, ⟨rm, hrm, hlost⟩, hfeeds⟩
        -- the feeder of its condition ended before
        have hne : m ≠ n := ne_of_mem_endedBefore hm
        refine ⟨m, ?_, hfeeds⟩
        rcases hreact.ended_cases hp hs.shape hrm (by
          rcases hlost with hlost | hlost <;> rw [hlost] <;> rfl) with
          ⟨rm₀, hrm₀, hsame⟩ | ⟨rm₀, -, -, ⟨reason, hskip, -⟩ | ⟨⟨e', hfail⟩, -⟩⟩
        · exact ⟨rm₀, hrm₀, by rwa [hsame]⟩
        · rw [hsig] at hskip
          simp at hskip
        · rw [hsig, hs.shape.node n r hr] at hfail
          exact absurd (Signal.fail.inj hfail).1.symm hne

/-- A node that starts was started in the other scope, from the same inputs. -/
theorem Matches.start (hs : Coherent p given s []) (hchosen : Chosen p s) (hdead : Dead p s)
    (hstart : s.startNext? now = some (s', r')) : Matches s' t := by
  obtain ⟨n, k, r, rest, -, hr, hready, rfl, rfl⟩ := startNext?_eq_some hs hstart
  have hagrees := h.agrees hs.shape hs.sourced ht hgiven hp
  have hdue : r.Due := Or.inl hready
  obtain ⟨rt, hrt⟩ := Option.isSome_iff_exists.mp
    ((ht.coherent.shape.member n).mpr (by
      rw [h.owner]
      exact (hs.shape.member n).mp (by rw [hr]; rfl)))
  have hstarted : rt.startedAt.isSome = true := by
    by_contra hnot
    have hnone : rt.startedAt = none := by simpa using hnot
    have hreach : ¬ (t.owner = none ∧ n ∈ p.unreachable) := by
      rw [h.owner]
      exact hdead.reached hs.shape hr (by rw [hready]; simp)
    rcases ht.endCause hrt hnone with ⟨-, reason, -, hcause⟩ | ⟨hfailed, hcause⟩
    · exact not_skipCause_of_due hp hu ht.coherent hs hagrees.symm hr hdue ht.chosen.decided
        ht.clear hchosen hreach reason hcause
    · refine not_failCause_of_due hp hu ht.coherent hs hagrees.symm hr hdue ?_ hcause
      intro _ hdeprived
      refine (not_raced (ht.clear n) hrt hfailed hnone hdeprived).imp_right ?_
      rintro ⟨m, -, hlost, hfeeds⟩
      exact ⟨m, hlost, hfeeds⟩
  refine ⟨h.owner, ?_, ?_⟩
  · intro m r₁ hr₁ hstart₁
    rcases run?_started_cases hs hr hr₁ with ⟨rfl, rfl⟩ | ⟨-, hold⟩
    · have hinputs := inputs_of_due hp hu hs hchosen ht.coherent hagrees hr hrt hdue
        (Or.inr hstarted) ht.chosen
      refine ⟨rt, hrt, hstarted, hinputs, ?_⟩
      intro hterm
      simp [NodeRun.start, RunState.isTerminal] at hterm
    · exact h.started m r₁ hold hstart₁
  · intro m r₁ hr₁ hterm hnone
    rcases run?_started_cases hs hr hr₁ with ⟨rfl, rfl⟩ | ⟨-, hold⟩
    · simp [NodeRun.start] at hnone
    · exact h.passed m r₁ hold hterm hnone

end Step

/-- The end of a node that runs is matched if the other scope has the same end. -/
theorem Matches.conclude (hs : Coherent p given s []) (h : Matches s t) (c : Completion)
    (hr : s.run? c.node = some r) (hrunning : r.state = .running)
    (hsame : ∀ r', t.run? c.node = some r' →
      r'.state = (concluded now { r with attempts := c.attempts } c.outcome).state ∧
        r'.outputs = (concluded now { r with attempts := c.attempts } c.outcome).outputs) :
    Matches (s.putEnded (concluded now { r with attempts := c.attempts } c.outcome)) t := by
  have hends := concludes_concluded now r c.attempts c.outcome
  have hstart := (hs.shape.clear _ r hr).running hrunning
  refine ⟨h.owner, ?_, ?_⟩
  · intro n r₁ hr₁ hstart₁
    rcases run?_conclude_cases hs hr hends hr₁ with ⟨rfl, rfl⟩ | ⟨-, hold⟩
    · obtain ⟨r', hr', hstart', hinputs, -⟩ := h.started _ r hr hstart
      rw [hends.inputs]
      exact ⟨r', hr', hstart', hinputs, fun _ => hsame r' hr'⟩
    · exact h.started n r₁ hold hstart₁
  · intro n r₁ hr₁ hterm hnone
    rcases run?_conclude_cases hs hr hends hr₁ with ⟨rfl, rfl⟩ | ⟨-, hold⟩
    · rw [hends.startedAt] at hnone
      rw [hnone] at hstart
      simp at hstart
    · exact h.passed n r₁ hold hterm hnone

/-- A scope that begins is matched. -/
theorem matches_opening (hp : p.Sound) (ht : Complete p given t) (now : Timestamp) :
    Matches (opening p now t.owner) t := by
  refine ⟨(opening_spec now t.owner hp).2.2.2.1.symm, ?_, ?_⟩
  · intro n r hr hstart
    rw [idle_opening now t.owner hp hr] at hstart
    simp at hstart
  · intro n r hr hterm _
    obtain ⟨hmem, node, r₀, -, -, hfresh, ⟨-, rfl⟩ | ⟨hdead, rfl⟩⟩ := opening_run now t.owner hp hr
    · rw [hfresh.state] at hterm
      simp [RunState.isTerminal] at hterm
    · obtain ⟨howner, -, hunreachable⟩ := (mem_unreached t.owner).mp hdead
      obtain ⟨rt, hrt, hskipped⟩ := ht.dead n hmem howner hunreachable
      exact ⟨rt, hrt, (ht.coherent.shape.clear n rt hrt).skipped hskipped⟩

section Drains

variable (hp : p.Sound) (hu : p.Untangled) (ht : Complete p given' t)
  (hgiven : ∀ y ∈ given, y ∈ given')
include hp hu ht hgiven

/-- Signals keep a scope matched, as long as no end hangs on who was first. -/
theorem Matches.drains (h : Matches s t) (hs : Coherent p given s sigs) (hrecorded : Recorded s)
    (hdecided : Decided p s) {left : List Signal} (hdrains : Drains p now s sigs s' left)
    (hclear : Uncontested p s') : Matches s' t := by
  refine (hdrains.keeps (P := fun u sigs => Coherent p given u sigs ∧ Recorded u ∧ Decided p u ∧
    (Uncontested p u → Matches u t)) ?_ ⟨hs, hrecorded, hdecided, fun _ => h⟩).2.2.2 hclear
  rintro u sig rest u' more ⟨hcoherent, hrecorded, hdecided, hmatches⟩ hreact
  have hlater := hreact.later hp hcoherent.shape
  obtain ⟨hrecorded', hretains⟩ := hreact.recorded hp hcoherent.shape hrecorded
  refine ⟨hcoherent.react hp hu hreact, hrecorded',
    hdecided.later hlater (hreact.startOf? hp hcoherent.shape), fun hclear' => ?_⟩
  have hclear := hclear'.before hlater hrecorded hretains.ended
  exact (hmatches hclear).react hp hu ht hgiven hcoherent hdecided hclear hclear' hreact

theorem matches_seed (now : Timestamp) (hproper : p.Proper t.owner given)
    (hclear : Uncontested p (seed p now t.owner given)) : Matches (seed p now t.owner given) t := by
  have hopening := coherent_opening now t.owner hp hproper hu ht.coherent.isLoop
  rw [seed_eq now t.owner hp] at hclear ⊢
  refine (matches_opening hp ht now).drains hp hu ht hgiven hopening
    (recorded_opening now hp t.owner) ?_ (drains_handle hp hu now hopening.shape _) hclear
  intro c _ hstart
  unfold startOf? at hstart
  cases hr : (opening p now t.owner).run? c with
  | none => simp [hr] at hstart
  | some r => simp [hr, idle_opening now t.owner hp hr] at hstart

/-- A scope stays matched when it hears of a node that has ended as in the other scope. -/
theorem Matches.hear (h : Matches s t) (hs : Coherent p given s []) (hrecorded : Recorded s)
    (hdecided : Decided p s) (report : Report)
    (hsame : ∀ c r r', report = .ended c → s.run? c.node = some r → t.run? c.node = some r' →
      r'.state = (concluded now { r with attempts := c.attempts } c.outcome).state ∧
        r'.outputs = (concluded now { r with attempts := c.attempts } c.outcome).outputs)
    (hclear : Uncontested p (s.hear p now report)) (hfault : (s.hear p now report).fault = none) :
    Matches (s.hear p now report) t := by
  rcases hs.hear_cases now hp hu report with
    ⟨f, heq⟩ | ⟨c, r, u, hreport, hr, hrunning, hdrains, heq | ⟨f, heq⟩⟩
  · rw [heq] at hfault
    simp [violate] at hfault
  · have hends := concludes_concluded now r c.attempts c.outcome
    obtain ⟨hput, -⟩ := hrecorded.putEnded hr (by rw [hrunning]; rfl)
      (hends.node.trans (hs.shape.node _ r hr)) hends.terminal
    rw [heq] at hclear ⊢
    refine (h.conclude hs c hr hrunning fun r' => hsame c r r' hreport hr).drains hp hu ht hgiven
      (hs.conclude hp hr hrunning hends
        (announces_announced (hs.shape.node _ r hr) c.attempts c.outcome)) hput ?_ hdrains hclear
    exact hdecided.later (later_conclude hs hr hrunning hends) (startOf?_conclude hs hr hends)
  · rw [heq] at hfault
    simp [violate] at hfault

end Drains

theorem firstFailure?_eq_none_iff (h : Listed p s) :
    s.firstFailure? = none ↔ ∀ n r, s.run? n = some r → r.state ≠ .failed := by
  unfold firstFailure?
  rw [List.find?_eq_none]
  constructor
  · intro hnone n r hr hfailed
    obtain ⟨r', hmem, -, hstate⟩ := h.ended n r hr (by rw [hfailed]; rfl)
    exact hnone r' hmem (by simp [hstate, hfailed])
  · intro hnone r hmem hfailed
    obtain ⟨-, r', hr', hstate⟩ := h.known r hmem
    exact hnone _ r' hr' (by simpa [hstate] using hfailed)

/-- The result of a scope was sent by a member. -/
theorem sent_of_result (hp : p.Sound) (hs : Coherent p given s sigs) (hv : s.result = some v) :
    ∃ l, s.owner = some l ∧ Offered p [] s ⟨l, PortName.result⟩ v := by
  obtain ⟨l, hl, hsent | hmem⟩ := hs.sourced.result v hv
  · exact ⟨l, hl, Or.inl hsent⟩
  · -- nothing that comes from outside goes to the loop itself
    exfalso
    obtain ⟨l', hl', e, he, htarget, hsource⟩ :=
      (hs.proper.complete _).mp (List.mem_map.mpr ⟨_, hmem, rfl⟩)
    obtain rfl := Option.some.inj (hl.symm.trans hl')
    have hbody := Nesting.loop_notMem_body hp.graph l
    rcases hsource with ⟨rfl, -⟩ | hcapture
    · have hin : p.graph.inbound? e.source PortName.result = some e.sourceRef :=
        hp.graph.inbound?_eq_some.mpr ⟨e.label, by
          rwa [← show e.target = e.source from congrArg PortRef.node htarget],
          congrArg PortRef.port htarget, rfl⟩
      exact hbody ((hp.nesting.closed _ (hs.isLoop _ hl)).result _ hin)
    · obtain ⟨e', he', hlink, hin, -⟩ := Graph.mem_captures.mp hcapture
      obtain rfl := hp.graph.edge_of_target he' he (congrArg Link.target hlink)
      have hnode : e'.target = l := congrArg PortRef.node htarget
      exact hbody (hnode ▸ hin)

/-! ### Two scopes that have run to their end -/

theorem Complete.closed_of_shut (hp : p.Sound) (hu : p.Untangled) (hs : Complete p given s)
    (hr : s.run? n = some r) {gate : Gate} (hgate : n ∈ p.exclusive gate)
    (hshut : s.isOpen gate = false) : Closed s gate := by
  have hcond : gate.condition ∈ p.membersIn s.owner := by
    have hn := (hs.coherent.shape.member n).mp (by rw [hr]; rfl)
    rw [← (hp.mem_membersIn.mp hn).2, hp.exclusive_scope hu hgate]
    exact hp.mem_membersIn.mpr ⟨Sound.ids_of_kind? (hp.kind?_of_mem_exclusive hgate), rfl⟩
  obtain ⟨rc, hrc⟩ := Option.isSome_iff_exists.mp ((hs.coherent.shape.member _).mpr hcond)
  cases hb : s.resolved.find? gate.condition with
  | none => exact Or.inr ⟨⟨rc, hrc, (hs.done _ rc hrc).1⟩, hb⟩
  | some b =>
    refine Or.inl ⟨b, hb, ?_⟩
    have hne : gate.branch ≠ Branch.taken b := by
      intro heq
      rw [isOpen_iff.mpr ⟨b, hb, heq⟩] at hshut
      simp at hshut
    cases hbranch : gate.branch <;> rw [hbranch] at hne <;>
      cases b <;> simp [Branch.taken, Branch.other] at hne ⊢

section Both

variable (hp : p.Sound) (hu : p.Untangled) (hs : Complete p given s) (ht : Complete p given' t)
include hp hu hs ht

/-- Who failed without having run in one scope was not skipped in the other. -/
theorem not_skipped_of_failed (h : Agrees p given given' s t) (hlost : ∀ m, t.Lost m → s.Lost m)
    (hr : s.run? n = some r) (hstart : r.startedAt = none) (hfailed : r.state = .failed)
    (hr' : t.run? n = some r') (hstart' : r'.startedAt = none) : r'.state ≠ .skipped := by
  have hcontested := hs.clear n
  have hreach := hs.dead.reached hs.coherent.shape hr (by rw [hfailed]; simp)
  have hdeprived : ¬ (Deprived p s n ∧ p.kind? n ≠ some .condition) := fun ⟨hdeprived, hkind⟩ =>
    hcontested ⟨⟨r, hr, hfailed, hstart⟩, Or.inr ⟨hdeprived, Or.inl hkind⟩⟩
  have hclosed : ∀ {gate}, n ∈ p.exclusive gate → ¬ Closed t gate := by
    intro gate hgate hclosed
    obtain ⟨gate', hgate', hshut⟩ := exists_shut hp hu ht.coherent ht.chosen.decided ht.clear
      hs.coherent h.symm (by rwa [h.owner]) hgate hclosed
    exact hcontested ⟨⟨r, hr, hfailed, hstart⟩,
      Or.inl ⟨gate', hgate', hs.closed_of_shut hp hu hr hgate' hshut⟩⟩
  intro hskipped
  rcases ht.endCause hr' hstart' with ⟨-, reason, -, hcause⟩ | ⟨hother, -⟩
  · cases reason with
    | feederFailed o =>
      rcases hcause with ⟨hother, q, m, hm, hfeeds⟩ | ⟨x, ⟨m, hm, hfeeds⟩, hroute⟩ |
        ⟨htolerant, b, hb, -⟩
      · refine hdeprived ⟨deprived_of_feederLost hp hs.coherent hr ⟨m, hlost m hm, hfeeds⟩, ?_⟩
        intro hkind
        obtain ⟨node, settings, hnode, hsettings⟩ := condition_of_kind hkind
        exact hother node settings hnode hsettings
      · refine hdeprived ⟨⟨m, hlost m hm, x, hfeeds, Or.inr (by rwa [← h.owner])⟩, ?_⟩
        intro hkind
        have hloop := ((hp.encloses_iff hu).mp ((hp.route_eq_nested_iff hu).mp hroute).2).1
        rw [show p.graph.kind? n = some .condition from hkind] at hloop
        simp at hloop
      · -- the condition has a value there, which it would have taken here
        rcases hs.endCause hr hstart with ⟨hstate, -⟩ |
          ⟨-, ⟨hstrict, -⟩ | ⟨node, q, v, hnode, hsupplied, hrefuses⟩⟩
        · rw [hfailed] at hstate
          simp at hstate
        · exact hstrict.not_tolerant htolerant
        · have hport : q = PortName.condition := by
            by_contra hne
            exact not_refuses_of_condition hp hnode htolerant.kind hne hrefuses
          subst hport
          obtain ⟨node', w, w', hnode', hsupplied', hconverts⟩ := supplied_of_resolved ht.coherent
            hb (inbound?_of_supplied hp hs.coherent.proper hsupplied)
          obtain rfl := Option.some.inj (hnode.symm.trans hnode')
          exact h.not_converts hsupplied hrefuses hsupplied' hconverts
    | branchNotTaken c =>
      obtain ⟨branch, hnot, hgate⟩ := hcause
      exact hclosed hgate (Or.inl hnot)
    | conditionUnresolved c =>
      obtain ⟨hended, hnone, branch, hgate⟩ := hcause
      exact hclosed hgate (Or.inr ⟨hended, hnone⟩)
    | unreachable => exact hreach (by rw [← h.owner]; exact hcause)
    | aborted => exact hcause
  · rw [hskipped] at hother
    simp at hother

variable (hgiven : ∀ y ∈ given, y ∈ given') (h : Matches s t)
include hgiven h

omit hp hu hgiven in
theorem Matches.lost_iff : t.Lost m ↔ s.Lost m := by
  refine ⟨?_, h.lost ht⟩
  rintro ⟨r', hr', hstate'⟩
  obtain ⟨r, hr⟩ := Option.isSome_iff_exists.mp ((hs.coherent.shape.member m).mpr (by
    rw [← h.owner]
    exact (ht.coherent.shape.member m).mp (by rw [hr']; rfl)))
  cases hstart : r.startedAt with
  | none => exact hs.lost hr hstart
  | some at' =>
    obtain ⟨r₁, hr₁, -, -, hsame⟩ := h.started m r hr (by rw [hstart]; rfl)
    obtain rfl := Option.some.inj (hr'.symm.trans hr₁)
    exact ⟨r, hr, by rwa [← (hsame (hs.done m r hr).1).1]⟩

/-- Two scopes that have run to their end and match have the same ends and the same outputs. -/
theorem Matches.same (hr : s.run? n = some r) :
    ∃ r', t.run? n = some r' ∧ r'.state = r.state ∧ r'.outputs = r.outputs := by
  obtain ⟨hterm, -⟩ := hs.done n r hr
  cases hstart : r.startedAt with
  | some at' =>
    obtain ⟨r', hr', -, -, hsame⟩ := h.started n r hr (by rw [hstart]; rfl)
    exact ⟨r', hr', hsame hterm⟩
  | none =>
    obtain ⟨r', hr', hstart'⟩ := h.passed n r hr hterm hstart
    have hagrees := h.agrees hs.coherent.shape hs.coherent.sourced ht hgiven hp
    have hstate : r'.state = r.state := by
      rcases hs.endCause hr hstart with ⟨hstate, -⟩ | ⟨hstate, -⟩ <;>
        rcases ht.endCause hr' hstart' with ⟨hstate', -⟩ | ⟨hstate', -⟩
      · exact hstate'.trans hstate.symm
      · exact absurd hstate (not_skipped_of_failed hp hu ht hs hagrees.symm
          (fun m => h.lost ht) hr' hstart' hstate' hr hstart)
      · exact absurd hstate' (not_skipped_of_failed hp hu hs ht hagrees
          (fun m => (h.lost_iff hs ht).mp) hr hstart hstate hr' hstart')
      · exact hstate'.trans hstate.symm
    have hnot : r.state ≠ .succeeded := by
      rcases hs.endCause hr hstart with ⟨hstate, -⟩ | ⟨hstate, -⟩ <;> simp [hstate]
    exact ⟨r', hr', hstate, (ht.silent n r' hr' (by rwa [hstate])).trans
      (hs.silent n r hr hnot).symm⟩

/-- The two scopes have the same result. -/
theorem Matches.result : t.result = s.result := by
  have hback : ∀ {x v}, Offered p [] t x v → Offered p [] s x v := by
    rintro x v (⟨m, r', o, hr', hstate, ho, hmem⟩ | hnil)
    · obtain ⟨r, hr⟩ := Option.isSome_iff_exists.mp ((hs.coherent.shape.member m).mpr (by
        rw [← h.owner]
        exact (ht.coherent.shape.member m).mp (by rw [hr']; rfl)))
      obtain ⟨r₁, hr₁, hstate₁, ho₁⟩ := h.same hp hu hs ht hgiven hr
      obtain rfl := Option.some.inj (hr'.symm.trans hr₁)
      exact Or.inl ⟨m, r, o, hr, hstate₁.symm.trans hstate, ho₁.symm.trans ho, hmem⟩
    · simp at hnil
  have hforth : ∀ v, s.result = some v → t.result = some v := by
    intro v hv
    obtain ⟨l, hl, hsent⟩ := sent_of_result hp hs.coherent hv
    simpa using ht.returned l v (h.owner.trans hl)
      (h.sent hs.coherent.shape hs.coherent.sourced hsent)
  cases hv : s.result with
  | some v => exact hforth v hv
  | none =>
    cases hw : t.result with
    | none => rfl
    | some w =>
      obtain ⟨l, hl, hsent⟩ := sent_of_result hp ht.coherent hw
      have hsome : s.result = some w := by
        simpa using hs.returned l w (h.owner.symm.trans hl) (hback hsent)
      rw [hv] at hsome
      simp at hsome

/-- One of the two scopes has a member that failed if and only if the other one has. -/
theorem Matches.firstFailure?_isNone : t.firstFailure?.isNone = s.firstFailure?.isNone := by
  rw [Bool.eq_iff_iff, Option.isNone_iff_eq_none, Option.isNone_iff_eq_none,
    firstFailure?_eq_none_iff ht.coherent.listed, firstFailure?_eq_none_iff hs.coherent.listed]
  constructor
  · intro hnone n r hr
    obtain ⟨r', hr', hstate, -⟩ := h.same hp hu hs ht hgiven hr
    rw [← hstate]
    exact hnone n r' hr'
  · intro hnone n r' hr'
    obtain ⟨r, hr⟩ := Option.isSome_iff_exists.mp ((hs.coherent.shape.member n).mpr (by
      rw [← h.owner]
      exact (ht.coherent.shape.member n).mp (by rw [hr']; rfl)))
    obtain ⟨r₁, hr₁, hstate, -⟩ := h.same hp hu hs ht hgiven hr
    obtain rfl := Option.some.inj (hr'.symm.trans hr₁)
    rw [hstate]
    exact hnone n r hr

end Both

end PortGraph.Scope
