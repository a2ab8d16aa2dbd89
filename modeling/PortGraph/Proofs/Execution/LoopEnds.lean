import PortGraph.Proofs.Execution.Failures
import PortGraph.Proofs.Execution.Faithful
import PortGraph.Proofs.Scope.Slot

/-!
Ends of loops, told from their items and from what their iterations come to. A sequential loop stops
at the first iteration that fails, a parallel one never; the first failure is the same in both. An
iteration without a failure has a result whenever its body feeds one.
-/

namespace PortGraph

open Plan Relation

namespace Scope

variable {p : Plan} {given : List (PortRef × Json)} {s : Scope} {n : NodeId} {source : PortRef}
variable {v : Json}

/-- A member of the scope has failed. -/
def Fails (s : Scope) : Prop := ∃ m r, s.run? m = some r ∧ r.state = .failed

theorem Listed.isSome_firstFailure?_iff (h : Listed p s) :
    s.firstFailure?.isSome = true ↔ s.Fails := by
  rw [Option.isSome_iff_ne_none, Ne, firstFailure?_eq_none_iff h]
  unfold Fails
  push Not
  rfl

/-- In an iteration that has run to its end without a failure, what feeds the result has succeeded. -/
theorem Coherent.succeeded_of_returns (hp : p.Sound) (hu : p.Untangled)
    (hs : Coherent p given s []) (hattributed : Attributed p s []) (howner : s.owner = some n)
    (hin : p.graph.inbound? n PortName.result = some source)
    (hdone : ∀ m r, s.run? m = some r → r.state.isTerminal = true ∧ r.state ≠ .cancelled)
    (hwell : ¬ s.Fails) : ∃ r, s.run? source.node = some r ∧ r.state = .succeeded := by
  have hkind := hs.isLoop n howner
  have hmember : source.node ∈ p.membersIn s.owner := howner ▸ hp.mem_of_returns hu hkind hin
  obtain ⟨r, hr⟩ := Option.isSome_iff_exists.mp ((hs.shape.member _).mpr hmember)
  refine ⟨r, hr, ?_⟩
  by_contra hmissing
  obtain ⟨hterm, hkept⟩ := hdone _ r hr
  obtain ⟨o, ro, hro, hfailed | ⟨hnone, -⟩⟩ := hs.root_of_spared hattributed
    (hp.not_exclusive_of_returns hu hkind hin) hr hterm hkept hmissing
  · exact hwell ⟨o, ro, hro, hfailed⟩
  · rw [howner] at hnone
    simp at hnone

/-- So it has a result. -/
theorem Coherent.result_of_returns (hp : p.Sound) (hu : p.Untangled) (hs : Coherent p given s [])
    (hattributed : Attributed p s []) (hreturned : Returned p s []) (howner : s.owner = some n)
    (hin : p.graph.inbound? n PortName.result = some source)
    (hdone : ∀ m r, s.run? m = some r → r.state.isTerminal = true ∧ r.state ≠ .cancelled)
    (hsends : ∀ m r, s.run? m = some r → r.state = .succeeded → r.outputs.isSome = true)
    (hwell : ¬ s.Fails) : ∃ v, s.result = some v := by
  have hkind := hs.isLoop n howner
  obtain ⟨r, hr, hstate⟩ := hs.succeeded_of_returns hp hu hattributed howner hin hdone hwell
  obtain ⟨o, ho⟩ := Option.isSome_iff_exists.mp (hsends _ r hr hstate)
  obtain ⟨c, hc, htarget⟩ := hp.feeds_of_returns hu hkind hin
  have hsent : Offered p [] s ⟨n, PortName.result⟩ ((o.find? c.label.sourcePort).getD .null) :=
    Or.inl ⟨source.node, r, o, hr, hstate, ho, mem_outboundValues.mpr ⟨c, hc, htarget, rfl⟩⟩
  rcases hreturned n _ howner hsent with hresult | hnil
  · exact ⟨_, hresult⟩
  · simp at hnil

end Scope

/-! ### Ends of loops -/

/-- How a loop ends. -/
inductive LoopEnd
  /-- An iteration has failed, and none before it. -/
  | failedAt (index : ℕ)
  /-- There are more items than iterations allowed. -/
  | overBound (most length : ℕ)
  | done (results : List Json)

/-- How a loop ends by its limit and its items, and by what each iteration comes to: whether it fails,
and what it contributes. -/
def LoopEnd.of (most : ℕ) (items : List Json) (fails : ℕ → Bool) (value : ℕ → Json) : LoopEnd :=
  match (List.range (min items.length most)).find? fails with
  | some i => .failedAt i
  | none =>
      if most < items.length then .overBound most items.length
      else .done ((List.range items.length).map value)

namespace LoopSettings

/-- How many iterations a loop runs: all up to the limit if they run in parallel or none of them
fails, else those up to the first that fails. -/
def executed (settings : LoopSettings) (length : ℕ) (fails : ℕ → Bool) : ℕ :=
  if settings.parallel then min length settings.maxIterations
  else (((List.range (min length settings.maxIterations)).find? fails).map (· + 1)).getD
    (min length settings.maxIterations)

variable {settings : LoopSettings} {length : ℕ} {fails : ℕ → Bool}

/-- The iterations that are run decide which fails first. -/
theorem find?_executed :
    (List.range (settings.executed length fails)).find? fails =
      (List.range (min length settings.maxIterations)).find? fails := by
  unfold executed
  split_ifs with hparallel
  · rfl
  · cases hfirst : (List.range (min length settings.maxIterations)).find? fails with
    | none => exact hfirst
    | some j =>
      obtain ⟨hfails, -, hbefore⟩ := List.find?_range_eq_some.mp hfirst
      exact List.find?_range_eq_some.mpr ⟨hfails, by simp, hbefore⟩

theorem executed_of_well (h : (List.range (settings.executed length fails)).find? fails = none) :
    settings.executed length fails = min length settings.maxIterations := by
  rw [find?_executed] at h
  unfold executed
  rw [h]
  split_ifs <;> rfl

end LoopSettings

/-- The run of a loop has ended in this way. -/
def NodeRun.EndsAs (r : NodeRun) : LoopEnd → Prop
  | .failedAt i => r.state = .failed ∧ r.outputs = none ∧
      ∃ node reason, r.error = some (.iterationFailed i node reason)
  | .overBound most length => r.state = .failed ∧ r.outputs = none ∧
      r.error = some (.tooManyItems most length)
  | .done results => r.state = .succeeded ∧ r.outputs = some [(PortName.results, .array results)]

/-- Two loops have ended in the same way: with the same results, or with the same kind of failure, at
the same iteration if one has failed. -/
structure NodeRun.EndsLike (r r₂ : NodeRun) : Prop where
  state : r₂.state = r.state
  outputs : r₂.outputs = r.outputs
  failedAt : r.state = .failed → ∀ i,
    (∃ node reason, r.error = some (.iterationFailed i node reason)) ↔
      ∃ node reason, r₂.error = some (.iterationFailed i node reason)
  overBound : r.state = .failed → ∀ most length,
    r.error = some (.tooManyItems most length) ↔ r₂.error = some (.tooManyItems most length)

theorem NodeRun.EndsAs.alike {r r₂ : NodeRun} {ending : LoopEnd} (h : r.EndsAs ending)
    (h₂ : r₂.EndsAs ending) : r.EndsLike r₂ := by
  cases ending with
  | failedAt i =>
    obtain ⟨hstate, houtputs, node, reason, herror⟩ := h
    obtain ⟨hstate₂, houtputs₂, node₂, reason₂, herror₂⟩ := h₂
    refine ⟨hstate₂.trans hstate.symm, houtputs₂.trans houtputs.symm, fun _ j => ?_, fun _ m k => ?_⟩
    · simp [herror, herror₂]
    · simp [herror, herror₂]
  | overBound most length =>
    obtain ⟨hstate, houtputs, herror⟩ := h
    obtain ⟨hstate₂, houtputs₂, herror₂⟩ := h₂
    refine ⟨hstate₂.trans hstate.symm, houtputs₂.trans houtputs.symm, fun _ j => ?_, fun _ m k => ?_⟩
    · simp [herror, herror₂]
    · simp [herror, herror₂]
  | done results =>
    obtain ⟨hstate, houtputs⟩ := h
    obtain ⟨hstate₂, houtputs₂⟩ := h₂
    exact ⟨hstate₂.trans hstate.symm, houtputs₂.trans houtputs.symm,
      fun hfailed => by simp [hstate] at hfailed, fun hfailed => by simp [hstate] at hfailed⟩

namespace Looping

variable {l : Looping} {ys : List (ℕ × Scope)} {fails : ℕ → Bool} {items : List Json}

theorem itemList_of_ok (h : l.items = .ok items) : l.itemList = items := by
  unfold itemList
  rw [h]

/-- The first iteration with a failed member is the first that fails. -/
theorem firstFailure?_eq_find? (hfails : ∀ y ∈ ys, fails y.1 = y.2.firstFailure?.isSome) :
    (firstFailure? ys).map Prod.fst = (ys.map Prod.fst).find? fails := by
  induction ys with
  | nil => rfl
  | cons y ys ih =>
    obtain ⟨i, s⟩ := y
    have hhead := hfails (i, s) List.mem_cons_self
    have hrest := ih fun y hy => hfails y (List.mem_cons_of_mem _ hy)
    unfold firstFailure?
    rw [List.map_cons, List.find?_cons]
    cases hfailure : s.firstFailure? with
    | some r => simp [hhead, hfailure]
    | none => simpa [hhead, hfailure] using hrest

/-- A loop without faults ends as the list of its iterations says. -/
theorem endsAs_of_outcome {value : ℕ → Json} {k : ℕ} (hitems : l.items = .ok items)
    (hindices : ys.map Prod.fst = List.range k)
    (hk : (List.range k).find? fails =
      (List.range (min items.length l.settings.maxIterations)).find? fails)
    (hall : (List.range k).find? fails = none → k = min items.length l.settings.maxIterations)
    (hfault : ∀ y ∈ ys, y.2.fault = none)
    (hfails : ∀ y ∈ ys, fails y.1 = y.2.firstFailure?.isSome)
    (hvalue : ∀ y ∈ ys, y.2.firstFailure? = none → l.contribution y = value y.1)
    {r : NodeRun} (hr : r.EndedBy (l.outcome ys false)) :
    r.EndsAs (.of l.settings.maxIterations items fails value) := by
  have hfirst := firstFailure?_eq_find? hfails
  rw [hindices] at hfirst
  have hnofault : (ys.findSome? fun y => y.2.fault) = none := List.findSome?_eq_none_iff.mpr hfault
  unfold outcome at hr
  rw [hitems, hnofault] at hr
  simp only [Bool.false_eq_true, if_false] at hr
  unfold LoopEnd.of
  rw [← hk, ← hfirst]
  cases hsome : firstFailure? ys with
  | some failure =>
    rw [hsome] at hr
    obtain ⟨hstate, houtputs⟩ := Prod.mk.inj hr.yield
    exact ⟨hstate, houtputs, _, _, hr.error _ rfl⟩
  | none =>
    rw [hsome] at hr hfirst
    dsimp only at hr
    rw [Option.map_none]
    dsimp only
    split_ifs at hr ⊢ with hbound
    · obtain ⟨hstate, houtputs⟩ := Prod.mk.inj hr.yield
      exact ⟨hstate, houtputs, hr.error _ rfl⟩
    · obtain ⟨hstate, houtputs⟩ := Prod.mk.inj hr.yield
      refine ⟨hstate, houtputs.trans ?_⟩
      have hlength : items.length = k := by
        have hcount := hall hfirst.symm
        omega
      have hnone : ∀ y ∈ ys, y.2.firstFailure? = none := by
        intro y hy
        have hindex : y.1 ∈ List.range k := hindices ▸ List.mem_map.mpr ⟨y, hy, rfl⟩
        have hwell := List.find?_eq_none.mp hfirst.symm y.1 hindex
        rw [hfails y hy] at hwell
        simpa using hwell
      have hresults : ys.map l.contribution = (List.range items.length).map value := by
        rw [hlength, ← hindices, List.map_map]
        exact List.map_congr_left fun y hy => hvalue y hy (hnone y hy)
      rw [hresults]

end Looping

namespace Execution

variable {p : Plan} {n : NodeId} {l : Looping} {xs : List (ℕ × Site)} {inputs : PortValues}
variable {items : List Json} {fails : ℕ → Bool}

/-! ### How many iterations are run -/

/-- A loop that has its outcome has run just the iterations that it should. -/
theorem Concluded.opened_eq (h : Concluded p xs n inputs l) (hitems : l.items = .ok items)
    (hfails : ∀ x ∈ xs, fails x.1 = x.2.scope.firstFailure?.isSome) :
    l.opened = l.settings.executed items.length fails := by
  have hcount : l.count = min items.length l.settings.maxIterations := by
    unfold Looping.count
    rw [Looping.itemList_of_ok hitems]
  have hlast := h.last
  have hopened := h.opened
  rw [hcount] at hlast hopened
  unfold LoopSettings.executed
  split_ifs with hparallel
  · rcases hlast with hall | ⟨hsequential, -⟩
    · exact hall
    · simp [hparallel] at hsequential
  have hsequential : l.settings.parallel = false := by simpa using hparallel
  -- an iteration that fails is the last one
  have hstops : ∀ x ∈ xs, fails x.1 = true → l.opened = x.1 + 1 := by
    intro x hx hfailed
    have hlt : x.1 < l.opened := by
      have hindex : x.1 ∈ xs.map (·.1) := List.mem_map.mpr ⟨x, hx, rfl⟩
      rwa [h.indices, List.mem_range] at hindex
    by_contra hne
    have hwell := (h.well hsequential x hx (by omega)).2
    rw [hfails x hx, hwell] at hfailed
    simp at hfailed
  cases hfirst : (List.range (min items.length l.settings.maxIterations)).find? fails with
  | none =>
    rcases hlast with hall | ⟨-, x, hx, hlast, hfailure⟩
    · exact hall
    · have hwell := List.find?_range_eq_none.mp hfirst x.1 (by omega)
      rw [hfails x hx] at hwell
      exact absurd (by simpa using hwell) hfailure
  | some j =>
    obtain ⟨hfailed, hj, hbefore⟩ := List.find?_range_eq_some.mp hfirst
    have hin : j < l.opened := by
      rcases hlast with hall | ⟨-, x, hx, hlast, hfailure⟩
      · rw [hall]
        exact List.mem_range.mp hj
      · by_contra hlt
        have hwell := hbefore x.1 (by omega)
        rw [hfails x hx] at hwell
        exact hfailure (by simpa using hwell)
    obtain ⟨x, hx, rfl⟩ := mem_of_indices h.indices hin
    exact hstops x hx hfailed

end Execution

end PortGraph
