import PortGraph.Proofs.Execution.Faults
import PortGraph.Proofs.Execution.Invariants
import PortGraph.Proofs.Scope.Matching

/-!
Scopes that have run to their end. In an execution that nobody calls off, every member of a scope
that has ended has ended by itself, so that closing has left the scope as it was.
-/

namespace PortGraph

open Plan

namespace Scope

variable {p : Plan} {now : Timestamp} {given : List (PortRef × Json)} {s s' : Scope}
variable {sig : Signal} {sigs more : List Signal} {n : NodeId} {r r' : NodeRun} {x : PortRef}
variable {v : Json}

/-! ### What scopes never lose -/

theorem Dead.later (h : Dead p s) (hlater : Later s s') : Dead p s' := by
  rw [Dead, hlater.owner]
  intro n hn howner hdead
  obtain ⟨r, hr, hstate⟩ := h n hn howner hdead
  obtain ⟨r', hr', hstate', -⟩ := hlater.ended n r hr (by rw [hstate]; rfl)
  exact ⟨r', hr', hstate'.trans hstate⟩

theorem invariant_dead (hp : p.Sound) : Invariant p (fun s _ => Dead p s) where
  opening := by
    intro now owner deliveries _ _ n hn howner hdead
    rw [(opening_spec now owner hp).2.2.2.1] at hn howner
    have hmember := (shape_opening now owner hp).member n
    rw [(opening_spec now owner hp).2.2.2.1] at hmember
    obtain ⟨r, hr⟩ := Option.isSome_iff_exists.mp (hmember.mpr hn)
    obtain ⟨-, node, r₀, -, -, -, ⟨hnot, -⟩ | ⟨-, rfl⟩⟩ := opening_run now owner hp hr
    · exact absurd ((mem_unreached owner).mpr ⟨howner, hn, hdead⟩) hnot
    · exact ⟨_, hr, rfl⟩
  react := fun hs h hreact => h.later (hreact.later hp hs.shape)
  start := fun hs h hstart => h.later (hs.startNext hstart).2.1
  conclude := fun c hs h hr hrunning =>
    h.later (later_conclude hs hr hrunning (concludes_concluded _ _ c.attempts c.outcome))
  violate := fun _ h => h
  close := fun aborted hs h => h.later (later_close hs.shape aborted)

theorem outputs_concluded (hsilent : Silent s) (hr : s.run? n = some r)
    (hrunning : r.state = .running) (attempts : List Attempt) (o : Outcome) :
    (concluded now { r with attempts } o).state ≠ .succeeded →
      (concluded now { r with attempts } o).outputs = none := by
  have hnone : r.outputs = none := hsilent n r hr (by rw [hrunning]; simp)
  cases o with
  | succeeded outputs => exact fun hne => absurd rfl hne
  | _ => exact fun _ => hnone

theorem invariant_silent (hp : p.Sound) : Invariant p (fun s _ => Silent s) where
  opening := by
    intro now owner deliveries _ _ n r hr _
    obtain ⟨-, node, r₀, -, -, hfresh, ⟨-, rfl⟩ | ⟨-, rfl⟩⟩ := opening_run now owner hp hr
    · exact hfresh.outputs
    · exact hfresh.outputs
  react := by
    intro now given s sig rest s' more hs h hreact n r' hr' hne
    obtain ⟨r, hr, hevolves⟩ := hreact.evolved hp hs.shape hr'
    rw [hevolves.outputs]
    exact h n r hr fun hstate => hne ((Evolves.firm hevolves rfl).mpr hstate)
  start := by
    intro now given s s' r' hs h hstart n r₁ hr₁ hne
    obtain ⟨m, k, r, rest, -, hr, hready, rfl, rfl⟩ := startNext?_eq_some hs hstart
    rcases run?_started_cases hs hr hr₁ with ⟨rfl, rfl⟩ | ⟨-, hold⟩
    · exact h n r hr (by rw [hready]; simp)
    · exact h n r₁ hold hne
  conclude := by
    intro now given s r c hs h hr hrunning n r₁ hr₁ hne
    rcases run?_conclude_cases hs hr (concludes_concluded now r c.attempts c.outcome) hr₁ with
      ⟨rfl, rfl⟩ | ⟨-, hold⟩
    · exact outputs_concluded h hr hrunning c.attempts c.outcome hne
    · exact h n r₁ hold hne
  violate := fun _ h => h
  close := by
    intro now given s aborted hs h n r' hr' hne
    rw [run?_close hs.shape] at hr'
    obtain ⟨r, hr, rfl⟩ := Option.map_eq_some_iff.mp hr'
    split_ifs at hne ⊢ with hterm
    · exact h n r hr hne
    · have hnone : r.outputs = none := h n r hr fun hstate => hterm (by rw [hstate]; rfl)
      unfold leftOver
      split_ifs <;> exact hnone

/-- A signal sends nothing. -/
theorem Reacts.offered (hreact : Reacts p now s sig s' more) (hp : p.Sound) (hs : Shape p s)
    (h : Offered p [] s' x v) : Offered p [] s x v := by
  obtain ⟨m, r', o, hr', hstate, ho, hmem⟩ | hnil := h
  · obtain ⟨r, hr, hevolves⟩ := hreact.evolved hp hs hr'
    exact Or.inl ⟨m, r, o, hr, (Evolves.firm hevolves rfl).mp hstate, hevolves.outputs ▸ ho, hmem⟩
  · simp at hnil

/-- A result stays, and what is routed to the loop around a scope becomes its result. -/
theorem returned_react (hp : p.Sound) (hu : p.Untangled) {rest : List Signal}
    (hs : Coherent p given s (sig :: rest)) (hreact : Reacts p now s sig s' more)
    (h : Returned p s (sig :: rest)) : Returned p s' (more ++ rest) := by
  intro l v howner hsent
  rw [hreact.owner] at howner
  have hsent₀ := hreact.offered hp hs.shape hsent
  have hstays : s.result = some v → s'.result = some v := by
    intro hold
    cases hreact with
    | @routeResult t w hroute =>
      -- there is one value for the result
      have hcause : Offered p given s t w := hs.sourced.causes _ List.mem_cons_self
      rcases hp.route_cases hu hroute with ⟨heq, -⟩ | ⟨k, heq, -⟩ | ⟨-, htarget, hport⟩
      · simp at heq
      · simp at heq
      · rw [← hport, Option.some.inj (howner.symm.trans htarget)] at hsent₀
        exact congrArg some
          (offered_unique hp hs.shape hs.proper hcause (hsent₀.imp_right (by simp)))
    | _ => simpa [queue] using hold
  rcases h l v howner hsent₀ with hold | hmem
  · exact Or.inl (hstays hold)
  · rcases List.mem_cons.mp hmem with hsig | hrest
    · have hroute : p.route s.owner ⟨l, PortName.result⟩ = some .resultSlot := by
        rw [howner]
        exact hp.route_result hu (hs.isLoop l howner)
      subst hsig
      cases hreact with
      | routeResult => exact Or.inl rfl
      | routeMember hother | routeNested hother | routeNowhere hother =>
        rw [hroute] at hother
        simp at hother
    · exact Or.inr (List.mem_append_right _ hrest)

theorem not_offered_opening (hp : p.Sound) (now : Timestamp) (owner : ScopeId) :
    ¬ Offered p [] (opening p now owner) x v := by
  rintro (⟨m, r, o, hr, hstate, -⟩ | hnil)
  · obtain ⟨-, node, r₀, -, -, hfresh, ⟨-, rfl⟩ | ⟨-, rfl⟩⟩ := opening_run now owner hp hr
    · rw [hfresh.state] at hstate
      simp at hstate
    · simp at hstate
  · simp at hnil

theorem invariant_returned (hp : p.Sound) (hu : p.Untangled) : Invariant p (Returned p) where
  opening := fun now owner deliveries _ _ l v _ hsent =>
    absurd hsent (not_offered_opening hp now owner)
  react := fun hs h hreact => returned_react hp hu hs hreact h
  start := by
    intro now given s s' r' hs h hstart l v howner hsent
    obtain ⟨n, k, r, rest, -, hr, hready, rfl, rfl⟩ := startNext?_eq_some hs hstart
    refine h l v howner ?_
    obtain ⟨m, r₁, o, hr₁, hstate, ho, hmem⟩ | hnil := hsent
    · rcases run?_started_cases hs hr hr₁ with ⟨rfl, rfl⟩ | ⟨-, hold⟩
      · simp [NodeRun.start] at hstate
      · exact Or.inl ⟨m, r₁, o, hold, hstate, ho, hmem⟩
    · simp at hnil
  conclude := by
    intro now given s r c hs h hr hrunning l v howner hsent
    obtain ⟨m, r₁, o, hr₁, hstate, ho, hmem⟩ | hnil := hsent
    · rcases run?_conclude_cases hs hr (concludes_concluded now r c.attempts c.outcome) hr₁ with
        ⟨rfl, rfl⟩ | ⟨-, hold⟩
      · right
        cases hout : c.outcome with
        | succeeded outputs =>
          rw [hout] at ho
          obtain rfl := Option.some.inj ho
          exact List.mem_map.mpr ⟨_, hmem, rfl⟩
        | _ =>
          rw [hout] at hstate
          simp [concluded] at hstate
      · rcases h l v howner (Or.inl ⟨m, r₁, o, hold, hstate, ho, hmem⟩) with hres | hnone
        · exact Or.inl hres
        · simp at hnone
    · simp at hnil
  violate := fun _ h => h
  close := by
    intro now given s aborted hs h l v howner hsent
    rw [(close_kept aborted).1] at howner
    rw [result_close]
    refine h l v howner ?_
    obtain ⟨m, r', o, hr', hstate, ho, hmem⟩ | hnil := hsent
    · rw [run?_close hs.shape] at hr'
      obtain ⟨r, hr, rfl⟩ := Option.map_eq_some_iff.mp hr'
      split_ifs at hstate ho with hterm
      · exact Or.inl ⟨m, r, o, hr, hstate, ho, hmem⟩
      · rw [leftOver_state] at hstate
        split_ifs at hstate
    · simp at hnil

end Scope

namespace Execution

variable {p : Plan} {verbose : Bool} {e : Execution} {a : Address} {t : Site}
variable {given : List (PortRef × Json)}

/-- In a scope of an execution without faults nobody is left over at the end. -/
theorem Calm.unfinished (h : Calm t) (hended : t.phase = .ended) {now : Timestamp} {s : Scope}
    {aborted : Bool} (hs : Scope.Shape p s) (hclose : t.scope = s.close now aborted) :
    s.unfinished = [] := by
  refine List.eq_nil_iff_forall_not_mem.mpr fun n hn => ?_
  obtain ⟨r, hr, hlive⟩ := (Scope.mem_unfinished hs).mp hn
  have hrun : t.scope.run? n = some (Scope.leftOver now r) := by
    rw [hclose, Scope.run?_close hs, hr]
    simp [hlive]
  by_cases hrunning : r.state = .running
  · have hin : t.scope.isIn .cancelled n = true :=
      Scope.isIn_iff.mpr ⟨_, hrun, by rw [Scope.leftOver_state, if_pos hrunning]⟩
    rw [h.kept n] at hin
    simp at hin
  · refine h.forsaken hended n ⟨_, hrun, ?_, ?_⟩
    · rw [Scope.leftOver_state, if_neg hrunning]
    · rw [Scope.leftOver, if_neg hrunning]
      rfl

theorem Orderly.calm (hp : p.Sound) (hu : p.Untangled) (h : Orderly p verbose e)
    (haborted : e.aborted = false) : ∀ a t, e.site? a = some t → Calm t := by
  rcases (h.judged hp hu).cases with ⟨-, hcalm⟩ | ⟨hyes, -⟩
  · exact hcalm
  · rw [haborted] at hyes
    simp at hyes

/-- A scope that has ended in an execution without faults is as it was before it closed. -/
theorem Orderly.unclosed (hp : p.Sound) (hu : p.Untangled) (he : Orderly p verbose e)
    (haborted : e.aborted = false) (ht : e.site? a = some t) (hended : t.phase = .ended) :
    ∃ given, Rooted p e a t given ∧ Scope.Coherent p given t.scope [] ∧
      t.scope.owner = a.owner ∧ (p.SeedsSighted → Scope.Chosen p t.scope) := by
  obtain ⟨given, hroot⟩ := (he.reachable.grounded hp hu).sites a t ht
  have hcalm := he.calm hp hu haborted a t ht
  obtain ⟨s, hcoherent, howner, hchosen, ⟨hlive, -⟩ | ⟨-, now, aborted, hclose⟩⟩ := hroot.scope
  · exact absurd hended hlive
  have hsame : t.scope = s := by
    rw [hclose]
    exact Scope.close_of_finished aborted (hcalm.unfinished hended hcoherent.shape hclose)
  subst hsame
  exact ⟨given, hroot, hcoherent, howner, hchosen⟩

/-- Each of its members has ended by itself. -/
theorem Calm.done (h : Calm t) (hended : t.phase = .ended) {n : NodeId} {r : NodeRun}
    (hr : t.scope.run? n = some r) : r.state.isTerminal = true ∧ r.state ≠ .cancelled := by
  refine ⟨h.ended hended n r hr, fun hcancelled => ?_⟩
  have hin : t.scope.isIn .cancelled n = true := Scope.isIn_iff.mpr ⟨r, hr, hcancelled⟩
  rw [h.kept n] at hin
  simp at hin

/-- A scope that has ended in an execution without faults has run to its end. -/
theorem Orderly.complete (hp : p.Sound) (hu : p.Untangled) (hsighted : p.SeedsSighted)
    (he : Orderly p verbose e) (haborted : e.aborted = false) (ht : e.site? a = some t)
    (hended : t.phase = .ended) (hclear : Scope.Uncontested p t.scope) :
    ∃ given, Rooted p e a t given ∧ Scope.Complete p given t.scope := by
  have hreach := he.reachable
  obtain ⟨given, hroot, hcoherent, -, hchosen⟩ := he.unclosed hp hu haborted ht hended
  exact ⟨given, hroot, hcoherent, hchosen hsighted, hclear,
    hreach.invariant hp hu (Scope.invariant_dead hp) a t ht,
    hreach.invariant hp hu (Scope.invariant_silent hp) a t ht,
    hreach.invariant hp hu (Scope.invariant_returned hp hu) a t ht,
    fun n r hr => (he.calm hp hu haborted a t ht).done hended hr⟩

end Execution

end PortGraph
