import PortGraph.Proofs.Plan.Rings
import PortGraph.Proofs.Scope.States

/-!
Scopes that have nothing to do any more. With nothing queued and nobody running, whoever has not
ended waits for somebody else who has not ended, so there is a ring among the members that are left.
-/

namespace PortGraph.Scope

open Plan Relation

/-- A member that never ran although nothing stood against it. -/
def Forsaken (s : Scope) (n : NodeId) : Prop :=
  ∃ r, s.run? n = some r ∧ r.state = .skipped ∧ r.skipReason = some .aborted

/-- Some members that never ran supply each other in a ring. -/
def Ringed (p : Plan) (s : Scope) : Prop :=
  ∃ n, TransGen (fun m k => s.Forsaken m ∧ s.Forsaken k ∧ p.Supplies s.owner m k) n n

variable {p : Plan} {now : Timestamp} {given : List (PortRef × Json)} {s : Scope} {n : NodeId}
variable {r : NodeRun}

theorem not_forsaken (h : Coherent p given s []) (n : NodeId) : ¬ s.Forsaken n := by
  rintro ⟨r, hr, hstate, hreason⟩
  have hstart := (h.shape.clear n r hr).skipped hstate
  rcases h.sourced.ended n r hr (by simp [hstate, RunState.isTerminal]) hstart with
    ⟨-, reason, hreason', hcause⟩ | ⟨hfailed, -⟩
  · rw [hreason] at hreason'
    rw [← Option.some.inj hreason'] at hcause
    exact hcause
  · rw [hstate] at hfailed
    simp at hfailed

section Quiet

variable (hp : p.Sound) (hu : p.Untangled) (h : Coherent p given s [])
include h

/-- The feeder of an input about which nothing is settled has not ended. -/
theorem unfinished_feeder (hkept : ∀ m, s.isIn .cancelled m = false) {t : PortRef}
    (hfed : p.Fed s.owner t) (hunsettled : ¬ Settled p given s t) :
    ∃ m ∈ s.unfinished, p.Feeds m t := by
  rcases hfed with ⟨m, hm, hfeeds⟩ | hext
  · refine ⟨m, ?_, hfeeds⟩
    obtain ⟨rm, hrm⟩ := Option.isSome_iff_exists.mp ((h.shape.member m).mpr hm)
    refine (mem_unfinished h.shape).mpr ⟨rm, hrm, ?_⟩
    by_contra hterm
    refine hunsettled (Or.inr ⟨m, hfeeds, rm, hrm, by simpa using hterm, ?_⟩)
    intro hcancelled
    have hin := isIn_iff.mpr ⟨rm, hrm, hcancelled⟩
    rw [hkept m] at hin
    simp at hin
  · exact absurd (Or.inl ((h.proper.complete _).mpr hext)) hunsettled

include hp hu

/-- A member that waits for an input waits for a member that has not ended. -/
theorem feeder_of_waits (hkept : ∀ m, s.isIn .cancelled m = false) (hr : s.run? n = some r)
    (hpending : r.state = .pending) {q : String} (hq : q ∈ r.pendingInputs) :
    ∃ m ∈ s.unfinished, p.Feeds m ⟨n, q⟩ := by
  have hn : n ∈ p.membersIn s.owner := (h.shape.member n).mp (by rw [hr]; rfl)
  obtain ⟨node, hnode, -, -⟩ := hp.node?_of_mem_membersIn hn
  have hconnected := h.accounted.waits n r node q hr hnode hq
  refine unfinished_feeder h hkept (hp.fed_of_waits hu hn hnode hconnected) ?_
  intro hsettled
  obtain ⟨sig, hsig, -⟩ := h.owed.supplied n r q hr hpending hq hsettled
  simp at hsig

/-- A loop that waits for a capture waits for a member that has not ended. -/
theorem feeder_of_captures (hkept : ∀ m, s.isIn .cancelled m = false) (hr : s.run? n = some r)
    (hunstarted : isUnstarted r = true) (hwaits : r.pendingCaptures ≠ 0) :
    ∃ m ∈ s.unfinished, ∃ t, p.Feeds m t ∧ p.route s.owner t = some (.nested n) := by
  have hn : n ∈ p.membersIn s.owner := (h.shape.member n).mp (by rw [hr]; rfl)
  cases hlp : p.loop? n with
  | none => exact absurd (h.counted.capturesNone n r hr hlp) hwaits
  | some lp =>
    rw [Ne, h.counted.captures_zero_iff hp hu h.shape h.sourced h.proper hr hlp, not_forall]
      at hwaits
    obtain ⟨t, hmissing⟩ := hwaits
    obtain ⟨ht, hmissing⟩ := Classical.not_imp.mp hmissing
    obtain ⟨hfed, hroute⟩ := hp.fed_of_capture hu hn hlp ht
    obtain ⟨m, hm, hfeeds⟩ := unfinished_feeder h hkept hfed (by
      intro hsettled
      obtain ⟨sig, hsig, -⟩ := h.owed.brought n r t hr hunstarted hroute hmissing hsettled
      simp at hsig)
    exact ⟨m, hm, t, hfeeds, hroute⟩

/-- A member that waits for a branch waits for a condition that is not decided. -/
theorem condition_of_gates (hr : s.run? n = some r) (hunstarted : isUnstarted r = true)
    (hwaits : r.pendingGates ≠ 0) :
    ∃ gate rc, n ∈ p.exclusive gate ∧ s.run? gate.condition = some rc ∧
      rc.state.isTerminal = false ∧ s.resolved.find? gate.condition = none ∧
        p.kind? gate.condition = some .condition := by
  rw [Ne, h.counted.gates_zero_iff hr, not_forall] at hwaits
  obtain ⟨gate, hshut⟩ := hwaits
  obtain ⟨hgate, hshut⟩ := Classical.not_imp.mp hshut
  have hex := hp.mem_gates_iff.mp hgate
  have hopen : ¬ Closed s gate := by
    intro hclosed
    obtain ⟨sig, hsig, -⟩ := h.owed.barred n r gate hr hunstarted hgate hclosed
    simp at hsig
  have hnone : s.resolved.find? gate.condition = none := by
    by_contra hsome
    obtain ⟨holds, hholds⟩ := Option.ne_none_iff_exists'.mp hsome
    by_cases htaken : gate.branch = Branch.taken holds
    · exact hshut (isOpen_iff.mpr ⟨holds, hholds, htaken⟩)
    · refine hopen (Or.inl ⟨holds, hholds, ?_⟩)
      cases holds <;> cases hb : gate.branch <;> simp_all [Branch.taken, Branch.other]
  have hkind := hp.kind?_of_mem_exclusive hex
  have hn : n ∈ p.membersIn s.owner := (h.shape.member n).mp (by rw [hr]; rfl)
  have hcond : gate.condition ∈ p.membersIn s.owner := hp.mem_membersIn.mpr
    ⟨Sound.ids_of_kind? hkind, (hp.exclusive_scope hu hex).symm.trans (hp.mem_membersIn.mp hn).2⟩
  obtain ⟨rc, hrc⟩ := Option.isSome_iff_exists.mp ((h.shape.member _).mpr hcond)
  refine ⟨gate, rc, hex, hrc, ?_, hnone, hkind⟩
  by_contra hterm
  exact hopen (Or.inr ⟨⟨rc, hrc, by simpa using hterm⟩, hnone⟩)

/-- In a scope with an empty queue and nobody running, whoever has not ended is stuck. -/
theorem stuck_of_quiet (hready : s.ready = []) (hidle : ∀ m, s.isIn .running m = false)
    (hkept : ∀ m, s.isIn .cancelled m = false) : p.Stuck s.owner s.unfinished.toFinset := by
  have hpending : ∀ {m : NodeId} {rm : NodeRun}, s.run? m = some rm →
      rm.state.isTerminal = false → rm.state = .pending := by
    intro m rm hrm hlive
    cases hstate : rm.state with
    | pending => rfl
    | ready =>
      have hmem := (h.listed.ready (p.rank m, m)).mpr ⟨rfl, rm, hrm, hstate⟩
      rw [hready] at hmem
      simp at hmem
    | running =>
      have hin := isIn_iff.mpr ⟨rm, hrm, hstate⟩
      rw [hidle m] at hin
      simp at hin
    | _ =>
      rw [hstate] at hlive
      simp [RunState.isTerminal] at hlive
  refine ⟨?_, ?_⟩
  · intro m hm
    obtain ⟨rm, hrm, -⟩ := (mem_unfinished h.shape).mp (List.mem_toFinset.mp hm)
    exact (h.shape.member m).mp (by rw [hrm]; rfl)
  · intro m hm
    obtain ⟨rm, hrm, hlive⟩ := (mem_unfinished h.shape).mp (List.mem_toFinset.mp hm)
    have hmember : m ∈ p.membersIn s.owner := (h.shape.member m).mp (by rw [hrm]; rfl)
    have hstate := hpending hrm hlive
    have hunstarted := isUnstarted_of_pending hstate
    by_cases hinputs : rm.pendingInputs = []
    · by_cases hcaptures : rm.pendingCaptures = 0
      · by_cases hgates : rm.pendingGates = 0
        · -- nothing holds it back, so it would have been promoted
          obtain ⟨sig, hsig, -⟩ := h.owed.promoted m rm hrm
            (by simp [NodeRun.isSatisfied, hstate, hinputs, hcaptures, hgates])
          simp at hsig
        · obtain ⟨gate, rc, hex, hrc, hlivec, hnone, hkind⟩ :=
            condition_of_gates hp hu h hrm hunstarted hgates
          have hstatec := hpending hrc hlivec
          have hwaits : PortName.condition ∈ rc.pendingInputs := by
            by_contra hfree
            exact h.resolved hrc hkind (isUnstarted_of_pending hstatec) hfree hnone
          obtain ⟨k, hk, hfeeds⟩ := feeder_of_waits hp hu h hkept hrc hstatec hwaits
          exact Or.inr ⟨gate, hex,
            List.mem_toFinset.mpr ((mem_unfinished h.shape).mpr ⟨rc, hrc, hlivec⟩), k,
            List.mem_toFinset.mpr hk, hfeeds⟩
      · obtain ⟨k, hk, t, hfeeds, hroute⟩ :=
          feeder_of_captures hp hu h hkept hrm hunstarted hcaptures
        exact Or.inl ⟨k, List.mem_toFinset.mpr hk, t, hfeeds, Or.inr hroute⟩
    · obtain ⟨q, hq⟩ := List.exists_mem_of_ne_nil _ hinputs
      obtain ⟨k, hk, hfeeds⟩ := feeder_of_waits hp hu h hkept hrm hstate hq
      exact Or.inl ⟨k, List.mem_toFinset.mpr hk, _, hfeeds,
        Or.inl ((hp.route_eq_member_iff hu).mpr ⟨rfl, hmember⟩)⟩

/-- A scope that closes with members left, although nobody called it off, holds a ring. -/
theorem ringed_close (hready : s.ready = []) (hidle : ∀ m, s.isIn .running m = false)
    (hkept : ∀ m, s.isIn .cancelled m = false) (hleft : s.unfinished ≠ []) (now : Timestamp)
    (aborted : Bool) : Ringed p (s.close now aborted) := by
  have hforsaken : ∀ m ∈ s.unfinished.toFinset, (s.close now aborted).Forsaken m := by
    intro m hm
    obtain ⟨rm, hrm, hlive⟩ := (mem_unfinished h.shape).mp (List.mem_toFinset.mp hm)
    have hrunning : rm.state ≠ .running := by
      intro hstate
      have hin := isIn_iff.mpr ⟨rm, hrm, hstate⟩
      rw [hidle m] at hin
      simp at hin
    refine ⟨rm.skip now .aborted, ?_, rfl, rfl⟩
    rw [run?_close h.shape, hrm]
    simp [hlive, leftOver, hrunning]
  obtain ⟨n, hn⟩ := hp.ring_of_stuck hu (stuck_of_quiet hp hu h hready hidle hkept)
    ((List.toFinset_nonempty_iff _).mpr hleft)
  refine ⟨n, TransGen.mono ?_ n n hn⟩
  rintro m k ⟨hm, hk, hsupplies⟩
  refine ⟨hforsaken m hm, hforsaken k hk, ?_⟩
  rw [(close_kept aborted).1]
  exact hsupplies

end Quiet

end PortGraph.Scope
