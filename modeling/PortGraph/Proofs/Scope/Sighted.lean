import PortGraph.Proofs.Scope.Seeded

/-!
Conditions of a scope that has just begun. If no member is out of reach, every condition that can be
resolved from the start is resolved before any value is known to be lost, so none is queued without
the value of its branch. At a top level with members out of reach this may fail.
-/

namespace PortGraph.Scope

open Plan

/-- No node is queued although the value of its branch is lost. -/
def Sighted (s : Scope) : Prop :=
  ∀ n r, s.run? n = some r → r.state = .ready → s.failedChoice? r = none

section Drains

variable {p : Plan} {now : Timestamp} {s t : Scope} {sigs left : List Signal}

/-- A run through a list of signals is a run through its first part and one through the rest. -/
theorem Drains.split {first second : List Signal} (h : Drains p now s (first ++ second) t []) :
    ∃ u, Drains p now s first u [] ∧ Drains p now u second t [] := by
  generalize hall : first ++ second = all at h
  generalize hnil : ([] : List Signal) = left at h
  induction h generalizing first with
  | stay =>
    subst hnil
    obtain ⟨rfl, rfl⟩ := List.append_eq_nil_iff.mp hall
    exact ⟨_, .stay, .stay⟩
  | @step s s' t sig rest more left hreact hdrains ih =>
    subst hnil
    cases first with
    | nil =>
      rw [List.nil_append] at hall
      subst hall
      exact ⟨s, .stay, .step hreact hdrains⟩
    | cons a first =>
      obtain ⟨rfl, rfl⟩ := List.cons.inj hall
      obtain ⟨u, hfirst, hsecond⟩ := ih (List.append_assoc more first second) rfl
      exact ⟨u, .step hreact hfirst, hsecond⟩

/-- No signal starts a node. -/
theorem Drains.idle (hp : p.Sound) (h : Drains p now s sigs t left) (hs : Shape p s)
    (hidle : ∀ n r, s.run? n = some r → r.startedAt = none) :
    ∀ n r, t.run? n = some r → r.startedAt = none := by
  refine (h.keeps (P := fun u _ => Shape p u ∧ ∀ n r, u.run? n = some r → r.startedAt = none) ?_
    ⟨hs, hidle⟩).2
  rintro u sig rest u' more ⟨hu, hidle⟩ hreact
  refine ⟨hu.react hp hreact, ?_⟩
  intro n r' hr'
  obtain ⟨r, hr, hevolves⟩ := hreact.evolved hp hu hr'
  rw [hevolves.startedAt]
  exact hidle n r hr

end Drains

/-! ### Signals that lose no value -/

/-- A signal after which no consumer has to be told that a value will not come. -/
inductive Mild : Signal → Prop
  | resolve {c : NodeId} : Mild (.resolve c)
  | promote {n : NodeId} : Mild (.promote n)
  | forgo {c : NodeId} {branch : Branch} : Mild (.forgo c branch)
  | settle {c : NodeId} : Mild (.settle c)
  | skip {n : NodeId} {reason : SkipReason} : reason.failedOrigin? = none → Mild (.skip n reason)

section Mild

variable {p : Plan} {now : Timestamp} {given : List (PortRef × Json)} {s s' t : Scope}
variable {sig : Signal} {rest more sigs second : List Signal}

theorem Mild.react (hp : p.Sound) (h : Coherent p given s (sig :: rest)) (hmild : Mild sig)
    (hports : ∀ n r, s.run? n = some r → r.failedPorts = [])
    (hreact : Reacts p now s sig s' more) :
    (∀ next ∈ more, Mild next) ∧ ∀ n r, s'.run? n = some r → r.failedPorts = [] := by
  refine ⟨?_, ?_⟩
  · cases hreact with
    | @resolveFails c r e _ hr _ htruth =>
      obtain ⟨hkind, -⟩ : Cause p given s (.resolve c) := h.sourced.causes _ List.mem_cons_self
      obtain ⟨b, hb⟩ := truth_of_filled hp hkind fun w => h.sourced.inputs c r _ w hr
      rw [htruth] at hb
      simp at hb
    | resolveDecides =>
      intro next hnext
      rcases mem_decided.mp hnext with ⟨n, -, rfl⟩ | ⟨n, -, rfl⟩ | rfl
      · exact .promote
      · exact .skip rfl
      · exact .forgo
    | forgoDrops | forgoKeeps =>
      intro next hnext
      rw [List.mem_singleton.mp hnext]
      exact .promote
    | @promoteSkips n origin r hr _ hchoice =>
      unfold failedChoice? at hchoice
      rw [hports n r hr] at hchoice
      obtain ⟨b, -, hport⟩ := Option.bind_eq_some_iff.mp hchoice
      simp at hport
    | @skips n reason r _ _ =>
      intro next hnext
      have hnone : reason.failedOrigin? = none := by
        cases hmild with
        | skip hnone => exact hnone
      rw [hnone] at hnext
      rw [List.mem_singleton.mp hnext]
      exact .settle
    | settles =>
      intro next hnext
      obtain ⟨n, -, rfl⟩ := List.mem_map.mp hnext
      exact .skip rfl
    | resolveIdle | promoteIdle | promoteAgain | promoteQueues | skipIdle | settleIdle => simp
    | _ => cases hmild
  · intro n r' hr'
    obtain ⟨r, hr, hevolves⟩ := hreact.evolved hp h.shape hr'
    have hnil := hports n r hr
    cases hevolves with
    | deliver hsig => rw [hsig] at hmild; cases hmild
    | lose hsig => rw [hsig] at hmild; cases hmild
    | _ => exact hnil

theorem Coherent.mild (hp : p.Sound) (hu : p.Untangled) (h : Coherent p given s (sigs ++ second))
    (hmild : ∀ sig ∈ sigs, Mild sig) (hports : ∀ n r, s.run? n = some r → r.failedPorts = [])
    (hdrains : Drains p now s sigs t []) :
    Coherent p given t second ∧ ∀ n r, t.run? n = some r → r.failedPorts = [] := by
  have hkept := hdrains.keeps (P := fun u sigs => Coherent p given u (sigs ++ second) ∧
    (∀ sig ∈ sigs, Mild sig) ∧ ∀ n r, u.run? n = some r → r.failedPorts = []) ?_ ⟨h, hmild, hports⟩
  · exact ⟨hkept.1, hkept.2.2⟩
  rintro u sig rest u' more ⟨hcoherent, hmild, hports⟩ hreact
  obtain ⟨hmore, hports'⟩ :=
    (hmild sig List.mem_cons_self).react hp hcoherent hports hreact
  refine ⟨?_, ?_, hports'⟩
  · rw [List.append_assoc]
    exact hcoherent.react hp hu hreact
  · intro next hnext
    rcases List.mem_append.mp hnext with hnext | hnext
    · exact hmore next hnext
    · exact hmild next (List.mem_cons_of_mem _ hnext)

end Mild

/-! ### The first signals -/

section Seed

variable {p : Plan} (hp : p.Sound) (hu : p.Untangled) (now : Timestamp) {owner : ScopeId}
variable {deliveries : List (PortRef × Json)} (hproper : p.Proper owner deliveries)
  (hloop : ∀ l, owner = some l → p.graph.kind? l = some .loop)
include hp hu hproper hloop

/-- Nothing has started in a scope that has just begun. -/
theorem idle_seed {n : NodeId} {r : NodeRun}
    (hr : (seed p now owner deliveries).run? n = some r) : r.startedAt = none := by
  have hopening := coherent_opening now owner hp hproper hu hloop
  rw [seed_eq now owner hp] at hr
  exact (drains_handle hp hu now hopening.shape _).idle hp hopening.shape
    (fun _ _ hrm => idle_opening now owner hp hrm) n r hr

theorem chosen_of_sighted (h : Sighted (seed p now owner deliveries)) :
    Chosen p (seed p now owner deliveries) := by
  obtain ⟨hcoherent, -⟩ := coherent_seed now owner hp hproper hu hloop
  intro c r hr hkind hstate
  have hready : r.state = .ready := by
    rcases hstate with hready | hstart
    · exact hready
    · rw [idle_seed hp hu now hproper hloop hr] at hstart
      simp at hstart
  obtain ⟨b, hb⟩ := Option.ne_none_iff_exists'.mp (hcoherent.resolved_of_ready hr hkind hready)
  refine ⟨b, hb, ?_⟩
  have hchoice := h c r hr hready
  unfold failedChoice? at hchoice
  rw [hcoherent.shape.node c r hr, hb] at hchoice
  exact hchoice

/-- Where no member is out of reach, the conditions are resolved first. -/
theorem chosen_of_reached (hreached : unreached p owner = []) :
    Chosen p (seed p now owner deliveries) := by
  have hopening := coherent_opening now owner hp hproper hu hloop
  have hdrains := drains_handle hp hu now hopening.shape (openingSignals p owner deliveries)
  rw [← seed_eq now owner hp] at hdrains
  have hsigs : openingSignals p owner deliveries =
      ((p.membersIn owner).filter (isSelfDecided p)).map Signal.resolve ++
        (deliveries.map (fun d => Signal.route d.1 d.2) ++
          (p.membersIn owner).map Signal.promote) := by
    unfold openingSignals
    simp [hreached]
  rw [hsigs] at hopening hdrains
  obtain ⟨u, hfirst, hsecond⟩ := hdrains.split
  obtain ⟨hcoherent, hports⟩ := hopening.mild hp hu (by
    intro sig hsig
    obtain ⟨c, -, rfl⟩ := List.mem_map.mp hsig
    exact .resolve) (by
    intro n r hr
    obtain ⟨-, node, r₀, -, -, hfresh, ⟨-, rfl⟩ | ⟨-, rfl⟩⟩ := opening_run now owner hp hr
    · exact hfresh.failedPorts
    · exact hfresh.failedPorts) hfirst
  have hresolved : ∀ c r, u.run? c = some r → p.kind? c = some .condition →
      isUnstarted r = true → PortName.condition ∉ r.pendingInputs → u.resolved.find? c ≠ none := by
    intro c r hr hkind hunstarted hfree hnone
    obtain ⟨sig, hsig, hcase⟩ := hcoherent.owed.decided c r hr hkind hunstarted hfree hnone
    simp only [List.mem_append, List.mem_map] at hsig
    rcases hsig with ⟨d, -, rfl⟩ | ⟨n, -, rfl⟩ <;> rcases hcase with hends | heq
    · cases hends
    · simp at heq
    · cases hends
    · simp at heq
  refine hcoherent.chosen hp hu ?_ ?_ hsecond
  · intro c r hr hkind hunstarted hfree hnone
    exact absurd hnone (hresolved c r hr hkind hunstarted hfree)
  · intro c r hr hkind hstate
    have hidle := hfirst.idle hp hopening.shape
      (fun _ _ hrm => idle_opening now owner hp hrm) c r hr
    have hready : r.state = .ready := by
      rcases hstate with hready | hstart
      · exact hready
      · rw [hidle] at hstart
        simp at hstart
    have hfree := ((hcoherent.shape.clear c r hr).free (Or.inl hready)).1
    obtain ⟨b, hb⟩ := Option.ne_none_iff_exists'.mp (hresolved c r hr hkind
      (isUnstarted_of_ready hready) (by simp [hfree]))
    exact ⟨b, hb, by rw [hports c r hr]; rfl⟩

/-- A scope with well chosen conditions queues none without the value of its branch. -/
theorem sighted_of_chosen (h : Chosen p (seed p now owner deliveries)) :
    Sighted (seed p now owner deliveries) := by
  obtain ⟨hcoherent, -⟩ := coherent_seed now owner hp hproper hu hloop
  intro n r hr hready
  unfold failedChoice?
  rw [hcoherent.shape.node n r hr]
  cases hres : (seed p now owner deliveries).resolved.find? n with
  | none => rfl
  | some b =>
    obtain ⟨hkind, -⟩ := hcoherent.sourced.decided n b hres
    obtain ⟨b', hb', hport⟩ := h n r hr hkind (Or.inl hready)
    obtain rfl := Option.some.inj (hres.symm.trans hb')
    exact hport

end Seed

end PortGraph.Scope
