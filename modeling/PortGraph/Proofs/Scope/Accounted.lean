import PortGraph.Proofs.Scope.Owed

/-!
What became of the inputs of a node. An input that no longer waits has a value, or lost its feeder,
or belongs to a branch that is not taken; or its value was refused, and the node fails at once. A
condition that has what it is decided by is decided at once.
-/

namespace PortGraph.Scope

open Plan

/-- What an input that a node waits for has come to. -/
def Accounts (p : Plan) (s : Scope) (sigs : List Signal) (n : NodeId) (r : NodeRun) (q : String) :
    Prop :=
  q ∈ r.pendingInputs ∨ (r.inputs.find? q).isSome = true ∨ (r.failedPorts.find? q).isSome = true ∨
    (∃ branch, NotTaken s n branch ∧ FedBehind p n branch ∧ q = branch.port) ∨
    (r.state = .pending ∧ ∃ e rest, sigs = .fail n e :: rest)

structure Accounted (p : Plan) (s : Scope) (sigs : List Signal) : Prop where
  waits : ∀ n r node q, s.run? n = some r → p.node? n = some node → q ∈ r.pendingInputs →
    q ∈ p.connectedInputs node
  inputs : ∀ n r node q, s.run? n = some r → p.node? n = some node →
    q ∈ p.connectedInputs node → (isUnstarted r = true ∨ r.startedAt.isSome = true) →
      Accounts p s sigs n r q
  fallbacks : ∀ n r node q v, s.run? n = some r → p.node? n = some node →
    (q, v) ∈ p.fallbacks node → (r.inputs.find? q).isSome = true

/-- A condition that has its value is resolved next, or fails. -/
def Prompt (p : Plan) (s : Scope) (sigs : List Signal) : Prop :=
  ∀ c r, s.run? c = some r → p.kind? c = some .condition → isUnstarted r = true →
    PortName.condition ∉ r.pendingInputs → s.resolved.find? c = none →
      ∃ rest, sigs = .resolve c :: rest ∨ ∃ e, sigs = .fail c e :: rest

/-- A condition that is queued or has started knows its branch, and the value for it is not lost. -/
def Chosen (p : Plan) (s : Scope) : Prop :=
  ∀ c r, s.run? c = some r → p.kind? c = some .condition →
    (r.state = .ready ∨ r.startedAt.isSome = true) →
      ∃ h, s.resolved.find? c = some h ∧ r.failedPorts.find? (Branch.taken h).port = none

section Step

variable {p : Plan} {now : Timestamp} {given : List (PortRef × Json)} {s s' : Scope}
variable {sig : Signal} {rest more : List Signal}

variable (hp : p.Sound) (hs : Shape p s) (hsourced : Sourced p given s (sig :: rest))
  (hreact : Reacts p now s sig s' more)
include hp hs hreact

theorem waits_react (h : Accounted p s (sig :: rest)) {n : NodeId} {r' : NodeRun} {node : Node}
    {q : String} (hr' : s'.run? n = some r') (hnode : p.node? n = some node)
    (hq : q ∈ r'.pendingInputs) : q ∈ p.connectedInputs node := by
  obtain ⟨r, hr, hevolves⟩ := hreact.evolved hp hs hr'
  refine h.waits n r node q hr hnode ?_
  cases hevolves with
  | drop | lose => exact ((mem_dropInput r _ q).mp hq).1
  | deliver _ _ _ hd =>
    rw [(NodeRun.deliver_kept hd).2.2.2.2.2.1] at hq
    exact ((mem_dropInput r _ q).mp hq).1
  | _ => exact hq

include hsourced

theorem accounts_react (h : Accounted p s (sig :: rest)) {n : NodeId} {r' : NodeRun} {node : Node}
    {q : String} (hr' : s'.run? n = some r') (hnode : p.node? n = some node)
    (hq : q ∈ p.connectedInputs node)
    (halive : isUnstarted r' = true ∨ r'.startedAt.isSome = true) :
    Accounts p s' (more ++ rest) n r' q := by
  have hlater := hreact.later hp hs
  obtain ⟨r, hr, hevolves⟩ := hreact.evolved hp hs hr'
  have hid := hs.node n r hr
  have halive' : isUnstarted r = true ∨ r.startedAt.isSome = true := by
    rw [hevolves.startedAt] at halive
    exact halive.imp_left hevolves.isUnstarted
  rcases h.inputs n r node q hr hnode hq halive' with hwaits | hfilled | hlost | hnot | hrefused
  · -- the input waits; only what settles it takes it off the list
    by_cases hstill : q ∈ r'.pendingInputs
    · exact Or.inl hstill
    have hdropped : ∀ port, r'.pendingInputs = (r.dropInput port).pendingInputs → q = port := by
      intro port hinputs
      by_contra hne
      rw [hinputs] at hstill
      exact hstill ((mem_dropInput r port q).mpr ⟨hwaits, hne⟩)
    cases hevolves with
    | @drop branch hsig hfed =>
      rw [hid] at hsig hfed
      subst hsig
      have htaken : NotTaken s n branch := hsourced.causes _ List.mem_cons_self
      exact Or.inr (Or.inr (Or.inr (Or.inl
        ⟨branch, hlater.notTaken htaken, hfed, hdropped _ rfl⟩)))
    | @deliver node' port v r' result hsig hnode' hpending hd =>
      rw [hid] at hsig hnode'
      obtain rfl := hdropped port (NodeRun.deliver_kept hd).2.2.2.2.2.1
      cases result with
      | ok u =>
        obtain ⟨w, -, hinputs⟩ := NodeRun.deliver_ok hd
        refine Or.inr (Or.inl ?_)
        rw [hinputs, Table.find?_insert, if_pos rfl]
        rfl
      | error e =>
        subst hsig
        refine Or.inr (Or.inr (Or.inr (Or.inr ⟨?_, ?_⟩)))
        · rw [(NodeRun.deliver_kept hd).2.1]
          exact hpending
        · cases hreact with
          | writeIdle hidle => exact absurd hpending (hidle node' r hnode' hr)
          | writeTaken hnode₁ hr₁ _ hd₁ =>
            obtain rfl := Option.some.inj (hnode'.symm.trans hnode₁)
            obtain rfl := Option.some.inj (hr.symm.trans hr₁)
            rw [hd] at hd₁
            simp at hd₁
          | writeRejected => exact ⟨_, _, rfl⟩
    | @lose port origin =>
      obtain rfl := hdropped port rfl
      refine Or.inr (Or.inr (Or.inl ?_))
      change ((r.failedPorts.insert q origin).find? q).isSome = true
      rw [Table.find?_insert, if_pos rfl]
      rfl
    | _ => exact absurd hwaits hstill
  · exact Or.inr (Or.inl (hevolves.filled hfilled))
  · exact Or.inr (Or.inr (Or.inl (hevolves.lost hlost)))
  · obtain ⟨branch, htaken, hfed, hport⟩ := hnot
    exact Or.inr (Or.inr (Or.inr (Or.inl ⟨branch, hlater.notTaken htaken, hfed, hport⟩)))
  · -- the node fails at once
    obtain ⟨hpending, e, rest', hhead⟩ := hrefused
    obtain ⟨rfl, rfl⟩ := List.cons.inj hhead
    have hunstarted := isUnstarted_of_pending hpending
    cases hreact with
    | failIdle hidle => rw [hidle r hr] at hunstarted; simp at hunstarted
    | fails hr₁ =>
      obtain rfl := Option.some.inj (hr.symm.trans hr₁)
      rw [run?_putEnded, node_fail, hid, if_pos rfl] at hr'
      obtain rfl := Option.some.inj hr'
      have hidle : (r.fail now e).startedAt = none := (hs.clear n r hr).idle hunstarted
      rw [hidle] at halive
      simp [isUnstarted, RunState.isTerminal] at halive

/-- Each signal keeps account of the inputs. -/
theorem Accounted.react (h : Accounted p s (sig :: rest)) : Accounted p s' (more ++ rest) where
  waits := fun _ _ _ _ => waits_react hp hs hreact h
  inputs := fun _ _ _ _ => accounts_react hp hs hsourced hreact h
  fallbacks := by
    intro n r' node q v hr' hnode hfallback
    obtain ⟨r, hr, hevolves⟩ := hreact.evolved hp hs hr'
    exact hevolves.filled (h.fallbacks n r node q v hr hnode hfallback)

/-! ### Conditions -/

omit hsourced in
theorem Prompt.react (h : Prompt p s (sig :: rest)) : Prompt p s' (more ++ rest) := by
  intro c r' hr' hkind hunstarted hfree hnone
  obtain ⟨r, hr, hevolves⟩ := hreact.evolved hp hs hr'
  have hnone' : s.resolved.find? c = none := hreact.undecided hnone
  have hunstarted' := hevolves.isUnstarted hunstarted
  by_cases hwaits : PortName.condition ∈ r.pendingInputs
  · rcases hreact.condition_dropped hp hs hkind hr hr' hwaits hfree with rfl | ⟨e, rfl⟩
    · exact ⟨_, Or.inl rfl⟩
    · exact ⟨_, Or.inr ⟨e, rfl⟩⟩
  · obtain ⟨rest', hhead⟩ := h c r hr hkind hunstarted' hwaits hnone'
    rcases hhead with hhead | ⟨e, hhead⟩
    · obtain ⟨rfl, rfl⟩ := List.cons.inj hhead
      cases hreact with
      | resolveIdle hidle =>
        have hterm := hidle r hnone' hr
        rw [isUnstarted_of_isTerminal hterm] at hunstarted'
        simp at hunstarted'
      | resolveFails => exact ⟨rest, Or.inr ⟨_, rfl⟩⟩
      | resolveDecides =>
        rw [resolved_decide, if_pos rfl] at hnone
        simp at hnone
    · obtain ⟨rfl, rfl⟩ := List.cons.inj hhead
      cases hreact with
      | failIdle hidle => rw [hidle r hr] at hunstarted'; simp at hunstarted'
      | fails hr₁ =>
        rw [run?_putEnded, node_fail, hs.node c _ hr₁, if_pos rfl] at hr'
        obtain rfl := Option.some.inj hr'
        simp [isUnstarted, RunState.isTerminal] at hunstarted

omit hsourced in
/-- A condition that is queued now knows its branch: the signal that would have told it would stand
before the one that queues it. -/
theorem Chosen.react (h : Chosen p s) (hprompt : Prompt p s (sig :: rest)) : Chosen p s' := by
  intro c r' hr' hkind hstate
  obtain ⟨r, hr, hevolves⟩ := hreact.evolved hp hs hr'
  have hclear := hs.clear c r hr
  have hfresh : r.state = .pending → ¬ (r.state = .ready ∨ r.startedAt.isSome = true) := by
    rintro hpending (hready | hstart)
    · simp [hpending] at hready
    · rw [hclear.idle (isUnstarted_of_pending hpending)] at hstart
      simp at hstart
  by_cases hbefore : r.state = .ready ∨ r.startedAt.isSome = true
  · obtain ⟨b, hb, hport⟩ := h c r hr hkind hbefore
    refine ⟨b, hreact.resolved hb, ?_⟩
    cases hevolves with
    | deliver _ _ hpending => exact absurd hbefore (hfresh hpending)
    | lose _ _ _ hpending => exact absurd hbefore (hfresh hpending)
    | ready _ hsat => exact absurd hbefore (hfresh (NodeRun.pending_of_isSatisfied hsat).1)
    | _ => exact hport
  · rw [hevolves.startedAt] at hstate
    cases hevolves with
    | deliver _ _ _ hd =>
      rw [(NodeRun.deliver_kept hd).2.1] at hstate
      exact absurd hstate hbefore
    | ready hsig hsat hchoice =>
      rw [hs.node c r hr] at hsig
      subst hsig
      have hdecided : s.resolved.find? c ≠ none := by
        intro hnone
        obtain ⟨hpending, hinputs, -⟩ := NodeRun.pending_of_isSatisfied hsat
        obtain ⟨rest', hhead | ⟨e, hhead⟩⟩ := hprompt c r hr hkind
          (isUnstarted_of_pending hpending) (by simp [hinputs]) hnone
        · simp at hhead
        · simp at hhead
      obtain ⟨b, hb⟩ := Option.ne_none_iff_exists'.mp hdecided
      refine ⟨b, hreact.resolved hb, ?_⟩
      unfold failedChoice? at hchoice
      rw [hs.node c r hr, hb] at hchoice
      exact hchoice
    | skip | fail =>
      rcases hstate with hready | hstart
      · simp at hready
      · exact absurd (Or.inr hstart) hbefore
    | _ => exact absurd hstate hbefore

end Step

end PortGraph.Scope
