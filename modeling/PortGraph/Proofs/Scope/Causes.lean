import PortGraph.Proofs.Plan.Connections
import PortGraph.Proofs.Scope.Budget

/-!
Why a scope does what it does. A value on its way was sent by a member that succeeded or was given to
the scope; a node is skipped or failed for a reason that can still be seen in the scope. Since what
has ended stays as it is, a reason once given stays good.
-/

namespace PortGraph.Scope

open Plan

/-- One scope is another one later on. -/
structure Later (s s' : Scope) : Prop where
  owner : s'.owner = s.owner
  ended : ∀ n r, s.run? n = some r → r.state.isTerminal = true → ∃ r', s'.run? n = some r' ∧
    r'.state = r.state ∧ r'.outputs = r.outputs ∧ r'.skipReason = r.skipReason ∧
      r'.startedAt = r.startedAt
  started : ∀ n r, s.run? n = some r → r.startedAt.isSome = true → ∃ r', s'.run? n = some r' ∧
    r'.startedAt = r.startedAt ∧ r'.inputs = r.inputs ∧ r'.failedPorts = r.failedPorts
  inputs : ∀ n r q, s.run? n = some r → (r.inputs.find? q).isSome = true → ∃ r',
    s'.run? n = some r' ∧ (r'.inputs.find? q).isSome = true
  resolved : ∀ c h, s.resolved.find? c = some h → s'.resolved.find? c = some h
  undecided : ∀ c r, s.run? c = some r → r.state.isTerminal = true →
    s.resolved.find? c = none → s'.resolved.find? c = none

/-- A member has ended without a value. -/
def Lost (s : Scope) (m : NodeId) : Prop :=
  ∃ r, s.run? m = some r ∧ (r.state = .failed ∨ r.state = .skipped)

def Ended (s : Scope) (m : NodeId) : Prop :=
  ∃ r, s.run? m = some r ∧ r.state.isTerminal = true

section Reasons

variable (p : Plan) (given : List (PortRef × Json)) (s : Scope)

/-- A value for an input: a member that succeeded sent it, or it was given to the scope. -/
def Offered (t : PortRef) (v : Json) : Prop :=
  (∃ m r o, s.run? m = some r ∧ r.state = .succeeded ∧ r.outputs = some o ∧
    (t, v) ∈ p.outboundValues m o) ∨ (t, v) ∈ given

/-- The member that feeds an input has ended without a value. -/
def FeederLost (t : PortRef) : Prop :=
  ∃ m, s.Lost m ∧ ∃ c ∈ p.forwardOut m, inputOf c = t

/-- A member that feeds the body of a loop has ended without a value. -/
def CaptureLost (l : NodeId) : Prop :=
  ∃ t, FeederLost p s t ∧ p.route s.owner t = some (.nested l)

/-- A value for an input of a member; a failure counts as false if the condition says so. -/
def Supplied (n : NodeId) (port : String) (v : Json) : Prop :=
  Offered p given s ⟨n, port⟩ v ∨
    (Tolerant p n ∧ port = PortName.condition ∧ v = .bool false ∧ FeederLost p s ⟨n, port⟩)

/-- The condition has a value, and the other branch is taken. -/
def NotTaken (c : NodeId) (branch : Branch) : Prop :=
  ∃ h, s.resolved.find? c = some h ∧ branch = (Branch.taken h).other

/-- Why a node may be skipped for the given reason. -/
def SkipCause (n : NodeId) : SkipReason → Prop
  | .feederFailed _ =>
      ((∀ node settings, p.node? n = some node → node.settings ≠ .condition settings) ∧
          ∃ port, FeederLost p s ⟨n, port⟩) ∨
        CaptureLost p s n ∨
        (Tolerant p n ∧ ∃ h, s.resolved.find? n = some h ∧
          FeederLost p s ⟨n, (Branch.taken h).port⟩)
  | .branchNotTaken c => ∃ branch, NotTaken s c branch ∧ n ∈ p.exclusive ⟨c, branch⟩
  | .conditionUnresolved c =>
      s.Ended c ∧ s.resolved.find? c = none ∧ ∃ branch, n ∈ p.exclusive ⟨c, branch⟩
  | .unreachable => s.owner = none ∧ n ∈ p.unreachable
  | .aborted => False

/-- Why a node may fail without having run. -/
def FailCause (n : NodeId) : Prop :=
  (Strict p n ∧ ∃ port, FeederLost p s ⟨n, port⟩) ∨
    ∃ node port v, p.node? n = some node ∧ Supplied p given s n port v ∧
      NodeRun.Refuses node port v

/-- What must hold for a signal to be sent. -/
def Cause : Signal → Prop
  | .route t v => Offered p given s t v
  | .write n port v => Supplied p given s n port v
  | .resolve c => p.kind? c = some .condition ∧
      (p.graph.inbound? c PortName.condition = none ∨
        ∃ r, s.run? c = some r ∧ (r.inputs.find? PortName.condition).isSome = true)
  | .forgo c branch => NotTaken s c branch
  | .promote _ => True
  | .cascade m _ => s.Lost m
  | .feederFailed n port _ => FeederLost p s ⟨n, port⟩
  | .skip n reason => reason ≠ .unreachable ∧ SkipCause p s n reason
  | .fail n _ => FailCause p given s n
  | .settle c => s.Ended c

end Reasons

/-! ### Reasons stay good -/

section Later

variable {p : Plan} {given : List (PortRef × Json)} {s s' : Scope} (h : Later s s')
include h

theorem Later.lost {m : NodeId} (hm : s.Lost m) : s'.Lost m := by
  obtain ⟨r, hr, hstate⟩ := hm
  have hterm : r.state.isTerminal = true := by
    rcases hstate with hstate | hstate <;> rw [hstate] <;> rfl
  obtain ⟨r', hr', hsame, -⟩ := h.ended m r hr hterm
  exact ⟨r', hr', by rwa [hsame]⟩

theorem Later.isEnded {m : NodeId} (hm : s.Ended m) : s'.Ended m := by
  obtain ⟨r, hr, hterm⟩ := hm
  obtain ⟨r', hr', hsame, -⟩ := h.ended m r hr hterm
  exact ⟨r', hr', by rwa [hsame]⟩

theorem Later.offered {t : PortRef} {v : Json} (ht : Offered p given s t v) :
    Offered p given s' t v := by
  rcases ht with ⟨m, r, o, hr, hstate, houtputs, hmem⟩ | hgiven
  · obtain ⟨r', hr', hsame, hout, -⟩ := h.ended m r hr (by rw [hstate]; rfl)
    exact Or.inl ⟨m, r', o, hr', hsame.trans hstate, hout.trans houtputs, hmem⟩
  · exact Or.inr hgiven

theorem Later.feederLost {t : PortRef} (ht : FeederLost p s t) : FeederLost p s' t := by
  obtain ⟨m, hm, hfeeds⟩ := ht
  exact ⟨m, h.lost hm, hfeeds⟩

theorem Later.captureLost {l : NodeId} (hl : CaptureLost p s l) : CaptureLost p s' l := by
  obtain ⟨t, ht, hroute⟩ := hl
  exact ⟨t, h.feederLost ht, by rwa [h.owner]⟩

theorem Later.supplied {n : NodeId} {port : String} {v : Json}
    (hv : Supplied p given s n port v) : Supplied p given s' n port v := by
  rcases hv with hv | ⟨htolerant, hport, hfalse, hlost⟩
  · exact Or.inl (h.offered hv)
  · exact Or.inr ⟨htolerant, hport, hfalse, h.feederLost hlost⟩

theorem Later.notTaken {c : NodeId} {branch : Branch} (hc : NotTaken s c branch) :
    NotTaken s' c branch := by
  obtain ⟨b, hb, hbranch⟩ := hc
  exact ⟨b, h.resolved c b hb, hbranch⟩

theorem Later.skipCause {n : NodeId} {reason : SkipReason} (hn : SkipCause p s n reason) :
    SkipCause p s' n reason := by
  cases reason with
  | feederFailed origin =>
    rcases hn with ⟨hkind, port, hlost⟩ | hlost | ⟨htolerant, b, hb, hlost⟩
    · exact Or.inl ⟨hkind, port, h.feederLost hlost⟩
    · exact Or.inr (Or.inl (h.captureLost hlost))
    · exact Or.inr (Or.inr ⟨htolerant, b, h.resolved n b hb, h.feederLost hlost⟩)
  | branchNotTaken c =>
    obtain ⟨branch, hc, hmem⟩ := hn
    exact ⟨branch, h.notTaken hc, hmem⟩
  | conditionUnresolved c =>
    obtain ⟨hc, hnone, hmem⟩ := hn
    obtain ⟨r, hr, hterm⟩ := id hc
    exact ⟨h.isEnded hc, h.undecided c r hr hterm hnone, hmem⟩
  | unreachable => exact ⟨h.owner.trans hn.1, hn.2⟩
  | aborted => exact hn

theorem Later.failCause {n : NodeId} (hn : FailCause p given s n) : FailCause p given s' n := by
  rcases hn with ⟨hstrict, port, hlost⟩ | ⟨node, port, v, hnode, hv, hrefuses⟩
  · exact Or.inl ⟨hstrict, port, h.feederLost hlost⟩
  · exact Or.inr ⟨node, port, v, hnode, h.supplied hv, hrefuses⟩

theorem Later.cause {sig : Signal} (hsig : Cause p given s sig) : Cause p given s' sig := by
  cases sig with
  | route t v => exact h.offered hsig
  | write n port v => exact h.supplied hsig
  | resolve c =>
    obtain ⟨hkind, hfree | ⟨r, hr, hin⟩⟩ := hsig
    · exact ⟨hkind, Or.inl hfree⟩
    · exact ⟨hkind, Or.inr (h.inputs c r _ hr hin)⟩
  | forgo c branch => exact h.notTaken hsig
  | promote n => trivial
  | cascade m origin => exact h.lost hsig
  | feederFailed n port origin => exact h.feederLost hsig
  | skip n reason => exact ⟨hsig.1, h.skipCause hsig.2⟩
  | fail n e => exact h.failCause hsig
  | settle c => exact h.isEnded hsig

end Later

theorem Later.refl (s : Scope) : Later s s := by
  refine ⟨rfl, ?_, ?_, ?_, fun _ _ h => h, fun _ _ _ _ h => h⟩
  · exact fun n r hr _ => ⟨r, hr, rfl, rfl, rfl, rfl⟩
  · exact fun n r hr _ => ⟨r, hr, rfl, rfl, rfl⟩
  · exact fun n r q hr hq => ⟨r, hr, hq⟩

theorem Later.trans {s s' s'' : Scope} (h : Later s s') (h' : Later s' s'') : Later s s'' := by
  refine ⟨h'.owner.trans h.owner, ?_, ?_, ?_, ?_, ?_⟩
  · intro n r hr hterm
    obtain ⟨r', hr', hs, ho, hk, ht⟩ := h.ended n r hr hterm
    obtain ⟨r'', hr'', hs', ho', hk', ht'⟩ := h'.ended n r' hr' (by rwa [hs])
    exact ⟨r'', hr'', hs'.trans hs, ho'.trans ho, hk'.trans hk, ht'.trans ht⟩
  · intro n r hr hstart
    obtain ⟨r', hr', hs, hi, hf⟩ := h.started n r hr hstart
    obtain ⟨r'', hr'', hs', hi', hf'⟩ := h'.started n r' hr' (by rwa [hs])
    exact ⟨r'', hr'', hs'.trans hs, hi'.trans hi, hf'.trans hf⟩
  · intro n r q hr hq
    obtain ⟨r', hr', hq'⟩ := h.inputs n r q hr hq
    exact h'.inputs n r' q hr' hq'
  · exact fun c b hb => h'.resolved c b (h.resolved c b hb)
  · intro c r hr hterm hnone
    obtain ⟨r', hr', hs, -⟩ := h.ended c r hr hterm
    exact h'.undecided c r' hr' (by rwa [hs]) (h.undecided c r hr hterm hnone)

theorem isUnstarted_of_isTerminal {r : NodeRun} (h : r.state.isTerminal = true) :
    isUnstarted r = false := by
  simp [isUnstarted, h]

/-- Signals only add to what is known. -/
theorem Reacts.later {p : Plan} {now : Timestamp} {s s' : Scope} {sig : Signal}
    {more : List Signal} (h : Reacts p now s sig s' more) (hp : p.Sound) (hs : Shape p s) :
    Later s s' := by
  refine ⟨h.owner, ?_, ?_, ?_, fun c b hb => h.resolved hb, ?_⟩
  · intro n r hr hterm
    obtain ⟨r', hr', hevolves⟩ := h.evolves hp hs hr
    obtain ⟨hstate, -, houtputs, hstart, hreason, -⟩ :=
      hevolves.settled (isUnstarted_of_isTerminal hterm)
    exact ⟨r', hr', hstate, houtputs, hreason, hstart⟩
  · intro n r hr hstart
    obtain ⟨r', hr', hevolves⟩ := h.evolves hp hs hr
    have hunstarted : isUnstarted r = false := by
      by_contra hne
      rw [(hs.clear n r hr).idle (by simpa using hne)] at hstart
      simp at hstart
    obtain ⟨-, hinputs, -, hstart', -, hfailed⟩ := hevolves.settled hunstarted
    exact ⟨r', hr', hstart', hinputs, hfailed⟩
  · intro n r q hr hq
    obtain ⟨r', hr', hevolves⟩ := h.evolves hp hs hr
    exact ⟨r', hr', hevolves.filled hq⟩
  · intro c r hr hterm hnone
    cases h with
    | @resolveDecides id r' holds _ hr' hlive =>
      rw [resolved_decide, if_neg, hnone]
      rintro rfl
      obtain rfl : r' = r := Option.some.inj (hr'.symm.trans hr)
      rw [hterm] at hlive
      simp at hlive
    | _ => simpa [queue] using hnone

end PortGraph.Scope
