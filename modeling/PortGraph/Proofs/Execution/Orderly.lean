import PortGraph.Proofs.Execution.Grounded
import PortGraph.Proofs.Scope.Stuck

/-!
Executions that nobody calls off, with workers that all return. In each scope the nodes that run are
those that are under way, so whatever a scope hears of was running; the only fault that can come up
is that members are left when a scope has nothing to do.
-/

namespace PortGraph

open Plan

/-- A worker returns: the node succeeded or failed. -/
def Outcome.Regular (o : Outcome) : Prop :=
  (∃ outputs, o = .succeeded outputs) ∨ ∃ err, o = .failed err

/-- Nobody calls the execution off, and every worker returns. -/
def Event.Regular : Event → Prop
  | .abort => False
  | .report _ r => ∃ c, r = .ended c ∧ c.outcome.Regular
  | _ => True

/-- The nodes of a scope that are under way. -/
def Site.flying (t : Site) : List NodeId := t.busy ++ t.reports.map Report.node ++ t.loops.keys

theorem Site.inFlight_eq_false_iff {t : Site} : t.inFlight = false ↔ t.flying = [] := by
  simp [Site.inFlight, Site.flying, Table.keys]
  tauto

theorem Site.mem_flying_of_busy {t : Site} {n : NodeId} (hbusy : n ∈ t.busy) : n ∈ t.flying := by
  simp [Site.flying, hbusy]

theorem Site.mem_flying_of_reported {t : Site} {r : Report} (hr : r ∈ t.reports) :
    r.node ∈ t.flying := by
  simp only [Site.flying, List.mem_append]
  exact Or.inl (Or.inr (List.mem_map.mpr ⟨r, hr, rfl⟩))

theorem Site.mem_flying_of_loop {t : Site} {n : NodeId} {l : Looping}
    (hl : t.loops.find? n = some l) : n ∈ t.flying := by
  have hkey : n ∈ t.loops.keys := (Table.isSome_find?_iff t.loops n).mp (by rw [hl]; rfl)
  simp [Site.flying, hkey]

namespace Execution

/-- An execution that nobody has called off from outside, with workers that return. -/
inductive Orderly (p : Plan) (verbose : Bool) : Execution → Prop
  | begin (now : Timestamp) (permits : ℕ) : Orderly p verbose (begin p verbose now permits false)
  | step {now : Timestamp} {e e' : Execution} {event : Event} :
      Orderly p verbose e → event.Regular → e.perform? p verbose now event = some e' →
      Orderly p verbose e'

variable {p : Plan} {verbose : Bool} {now : Timestamp} {e e' : Execution} {a : Address}
variable {t t' : Site} {given : List (PortRef × Json)} {event : Event}

theorem Orderly.reachable (h : Orderly p verbose e) : Reachable p verbose e := by
  induction h with
  | begin now permits => exact .begin now permits false
  | step _ _ hevent ih => exact .step ih hevent

theorem mem_iterations (h : (e.sites.map (·.1)).Nodup) {loop : NodeId} {i : ℕ} {u : Site} :
    (i, u) ∈ e.iterations a loop ↔ e.site? ((loop, i) :: a) = some u := by
  unfold iterations site?
  rw [lookup_eq_some_iff_mem h, List.mem_filterMap]
  constructor
  · rintro ⟨⟨_ | ⟨⟨l, j⟩, outer⟩, w⟩, hmem, hsome⟩
    · simp at hsome
    · dsimp only at hsome
      split_ifs at hsome with heq
      obtain ⟨rfl, rfl⟩ := heq
      obtain ⟨rfl, rfl⟩ := Prod.mk.inj (Option.some.inj hsome)
      exact hmem
  · intro hmem
    exact ⟨_, hmem, by simp⟩

/-! ### What is under way -/

/-- A fault that can come up: members were left when a scope had nothing to do. -/
def Leaves (f : Fault) : Prop := ∃ ids, f = .neverReady ids

/-- The nodes under way are those that run, each once, and no fault comes from elsewhere. -/
structure Tidy (t : Site) : Prop where
  flight : ∀ n, t.flying.count n = if t.scope.isIn .running n then 1 else 0
  loops : t.loops.Ordered
  reports : ∀ r ∈ t.reports, ∃ c, r = .ended c ∧ ∀ f, c.outcome = .fatal f → Leaves f
  fault : ∀ f, t.scope.fault = some f → Leaves f
  ended : t.phase = .ended → t.flying = []

/-- A scope that has ended with nobody under way does not move any more. -/
theorem Moves.live (hmoves : Moves p now e a t event t')
    (hidle : t.phase = .ended → t.flying = []) : t.phase ≠ .ended := by
  intro hended
  obtain ⟨hbusy, hreports, hloops⟩ : t.busy = [] ∧ t.reports = [] ∧ t.loops = [] := by
    simpa [Site.flying, Table.keys] using hidle hended
  cases hmoves with
  | startLoop hphase | startWork hphase | leave hphase | close hphase =>
    rw [hended] at hphase
    simp at hphase
  | report hmem =>
    rw [hbusy] at hmem
    simp at hmem
  | hear hlive => exact hlive hended
  | iterate hl | conclude hl =>
    rw [hloops] at hl
    simp at hl

/-! ### One move -/

theorem count_heard (rs : List Report) (id n : NodeId) :
    ((rs.filter fun r => !(r.node == id)).map Report.node).count n =
      if n = id then 0 else (rs.map Report.node).count n := by
  induction rs with
  | nil => simp
  | cons r rest ih =>
    by_cases hr : r.node = id
    · have hbeq : (r.node == id) = true := beq_iff_eq.mpr hr
      rw [List.filter_cons_of_neg (by simp [hbeq]), ih, List.map_cons, List.count_cons, hr]
      by_cases hn : n = id
      · simp [hn]
      · simp [hn, Ne.symm hn]
    · rw [List.filter_cons_of_pos (by simpa using hr), List.map_cons, List.count_cons, ih,
        List.map_cons, List.count_cons]
      by_cases hn : n = id
      · simp [hn, hr]
      · simp [hn]

theorem Tidy.running (h : Tidy t) {n : NodeId} (hn : n ∈ t.flying) :
    t.scope.isIn .running n = true := by
  by_contra hnot
  have hcount := h.flight n
  rw [if_neg hnot] at hcount
  exact absurd hn (List.count_eq_zero.mp hcount)

/-- Whoever is heard of has ended and runs in its scope. -/
theorem Tidy.heard (h : Tidy t) {r : Report} {id : NodeId}
    (hr : t.reports.find? (fun r => r.node == id) = some r) :
    ∃ c run, r = .ended c ∧ r ∈ t.reports ∧ c.node = id ∧ t.scope.run? c.node = some run ∧
      run.state = .running := by
  have hmem := List.mem_of_find?_eq_some hr
  have hid : r.node = id := by simpa using List.find?_some hr
  obtain ⟨c, rfl, -⟩ := h.reports r hmem
  obtain ⟨run, hrun, hrunning⟩ := Scope.isIn_iff.mp (h.running (Site.mem_flying_of_reported hmem))
  exact ⟨c, run, rfl, hmem, hid, hrun, hrunning⟩

theorem Tidy.hear (hp : p.Sound) (hu : p.Untangled) (hroot : Rooted p e a t given) (h : Tidy t)
    (hlive : t.phase ≠ .ended) {r : Report} {id : NodeId}
    (hr : t.reports.find? (fun r => r.node == id) = some r) :
    Tidy { t with
      scope := t.scope.hear p now r
      reports := t.reports.filter fun r => !(r.node == id) } := by
  obtain ⟨hcoherent, -⟩ := hroot.coherent hlive
  obtain ⟨c, run, rfl, hmem, hid, hrun, hrunning⟩ := h.heard hr
  have hfatal : ∀ f, c.outcome = .fatal f → Leaves f := by
    obtain ⟨c', hc', hfatal⟩ := h.reports _ hmem
    obtain rfl := Report.ended.inj hc'
    exact hfatal
  have hpos : 0 < (t.reports.map Report.node).count id :=
    List.count_pos_iff.mpr (List.mem_map.mpr ⟨_, hmem, hid⟩)
  have hin : t.scope.isIn .running id = true :=
    Scope.isIn_iff.mpr ⟨run, by rw [← hid]; exact hrun, hrunning⟩
  have hstates : ∀ n, (t.scope.complete p now c).isIn .running n =
      if c.node = n then (Scope.concluded now { run with attempts := c.attempts } c.outcome).state
        == .running else t.scope.isIn .running n :=
    hcoherent.isIn_complete hp hu hrun hrunning rfl
  have hover : ((Scope.concluded now { run with attempts := c.attempts } c.outcome).state
      == .running) = false := by
    have hends := Scope.concludes_concluded now run c.attempts c.outcome
    rw [beq_eq_false_iff_ne]
    intro hstate
    have hterm := hends.terminal
    rw [hstate] at hterm
    simp [RunState.isTerminal] at hterm
  refine ⟨?_, h.loops, ?_, ?_, fun hended => absurd hended hlive⟩
  · intro n
    have hn := h.flight n
    simp only [Site.flying, List.count_append] at hn ⊢
    rw [count_heard]
    change _ = if (t.scope.complete p now c).isIn .running n = true then 1 else 0
    rw [hstates n, hover]
    by_cases hsame : n = id
    · subst hsame
      rw [if_pos hin] at hn
      rw [if_pos rfl, if_pos hid]
      simp only [Bool.false_eq_true, if_false]
      omega
    · have hne : c.node ≠ n := by
        rw [hid]
        exact Ne.symm hsame
      rw [if_neg hsame, if_neg hne]
      exact hn
  · intro r' hr'
    exact h.reports r' (List.mem_of_mem_filter hr')
  · intro f hf
    rcases hcoherent.fault_complete hp hu hrun hrunning hf with hold | hout
    · exact h.fault f hold
    · exact hfatal f hout

theorem Tidy.startNext (h : Tidy t) (hcoherent : Scope.Coherent p given t.scope [])
    {s : Scope} {r : NodeRun} (hstart : t.scope.startNext? now = some (s, r)) :
    t.scope.isIn .running r.node = false ∧
      (∀ n, s.isIn .running n = if r.node = n then true else t.scope.isIn .running n) ∧
      ∀ f, s.fault = some f → Leaves f := by
  have hstates : ∀ n, s.isIn .running n =
      if r.node = n then RunState.running == .running else t.scope.isIn .running n :=
    fun n => hcoherent.isIn_startNext hstart n
  obtain ⟨m, k, r₀, rest, -, hr₀, hready, rfl, rfl⟩ := Scope.startNext?_eq_some hcoherent hstart
  have hid : (r₀.start now).node = m := hcoherent.shape.node m r₀ hr₀
  refine ⟨?_, hstates, h.fault⟩
  rw [hid, Bool.eq_false_iff]
  intro hin
  obtain ⟨r₁, hr₁, hrunning⟩ := Scope.isIn_iff.mp hin
  rw [← Option.some.inj (hr₀.symm.trans hr₁), hready] at hrunning
  simp at hrunning

/-- A fault that a loop ends with comes from one of its iterations. -/
theorem fault_of_outcome {l : Looping} {scopes : List (ℕ × Scope)} {aborted : Bool} {f : Fault}
    (h : l.outcome scopes aborted = .fatal f) : ∃ x ∈ scopes, x.2.fault = some f := by
  unfold Looping.outcome at h
  split at h
  · simp at h
  · split at h
    · rename_i fault hfind
      obtain ⟨x, hx, hfault⟩ := List.exists_of_findSome?_eq_some hfind
      obtain rfl := Outcome.fatal.inj h
      exact ⟨x, hx, hfault⟩
    · by_cases haborted : aborted = true
      · rw [if_pos haborted] at h
        simp at h
      · rw [if_neg haborted] at h
        split at h
        · simp at h
        · split_ifs at h

/-- A loop whose iterations found no fault succeeds or fails. -/
theorem regular_of_outcome {l : Looping} {scopes : List (ℕ × Scope)}
    (h : ∀ x ∈ scopes, x.2.fault = none) : (l.outcome scopes false).Regular := by
  unfold Looping.outcome
  split
  · exact Or.inr ⟨_, rfl⟩
  · have hnone : (scopes.findSome? fun e => e.2.fault) = none :=
      List.findSome?_eq_none_iff.mpr h
    rw [hnone]
    simp only [Bool.false_eq_true, if_false]
    split
    · exact Or.inr ⟨_, rfl⟩
    · split_ifs
      · exact Or.inr ⟨_, rfl⟩
      · exact Or.inl ⟨_, rfl⟩

theorem Tidy.not_ended (h : Tidy t) {n : NodeId} (hn : n ∈ t.flying) : t.phase ≠ .ended := by
  intro hended
  rw [h.ended hended] at hn
  simp at hn

theorem Tidy.startLoop (h : Tidy t) (hcoherent : Scope.Coherent p given t.scope [])
    (hlive : t.phase ≠ .ended) {s : Scope} {r : NodeRun} (l : Looping)
    (hstart : t.scope.startNext? now = some (s, r)) :
    Tidy { t with scope := s, loops := t.loops.insert r.node l } := by
  obtain ⟨hidle, hstates, hfault⟩ := h.startNext hcoherent hstart
  refine ⟨?_, Table.ordered_insert h.loops _ _, h.reports, hfault,
    fun hended => absurd hended hlive⟩
  intro n
  have hn := h.flight n
  simp only [Site.flying, List.count_append, Table.count_keys h.loops] at hn
  simp only [Site.flying, List.count_append, Table.count_keys (Table.ordered_insert h.loops _ _),
    Table.find?_insert]
  rw [hstates n]
  by_cases hsame : r.node = n
  · subst hsame
    rw [hidle] at hn
    simp only [Bool.false_eq_true, if_false] at hn
    simp only [if_true, Option.isSome_some]
    omega
  · rw [if_neg hsame, if_neg hsame]
    exact hn

theorem Tidy.startWork (h : Tidy t) (hcoherent : Scope.Coherent p given t.scope [])
    (hlive : t.phase ≠ .ended) {s : Scope} {r : NodeRun}
    (hstart : t.scope.startNext? now = some (s, r)) :
    Tidy { t with scope := s, busy := t.busy ++ [r.node] } := by
  obtain ⟨hidle, hstates, hfault⟩ := h.startNext hcoherent hstart
  refine ⟨?_, h.loops, h.reports, hfault, fun hended => absurd hended hlive⟩
  intro n
  have hn := h.flight n
  simp only [Site.flying, List.count_append] at hn
  simp only [Site.flying, List.count_append, List.count_singleton]
  rw [hstates n]
  by_cases hsame : r.node = n
  · subst hsame
    rw [hidle] at hn
    simp only [Bool.false_eq_true, if_false] at hn
    simp only [beq_self_eq_true, if_true]
    omega
  · rw [if_neg hsame, ← hn]
    simp [hsame]

theorem Tidy.report (h : Tidy t) {r : Report} (hbusy : r.node ∈ t.busy)
    (hregular : ∃ c, r = .ended c ∧ c.outcome.Regular) :
    Tidy { t with busy := t.busy.erase r.node, reports := t.reports ++ [r] } := by
  refine ⟨?_, h.loops, ?_, h.fault,
    fun hended => absurd hended (h.not_ended (Site.mem_flying_of_busy hbusy))⟩
  · intro n
    have hn := h.flight n
    have hpos : 0 < t.busy.count r.node := List.count_pos_iff.mpr hbusy
    simp only [Site.flying, List.count_append] at hn
    simp only [Site.flying, List.map_append, List.map_cons, List.map_nil, List.count_append,
      List.count_erase, List.count_singleton]
    by_cases hsame : r.node = n
    · subst hsame
      simp only [beq_self_eq_true, if_true]
      omega
    · simp only [beq_iff_eq, hsame, if_false]
      omega
  · intro r' hr'
    rcases List.mem_append.mp hr' with hr' | hr'
    · exact h.reports r' hr'
    · obtain rfl := List.mem_singleton.mp hr'
      obtain ⟨c, rfl, hout⟩ := hregular
      refine ⟨c, rfl, ?_⟩
      intro f hf
      rcases hout with ⟨outputs, hout⟩ | ⟨err, hout⟩ <;> simp [hout] at hf

theorem Tidy.iterate (h : Tidy t) {loop : NodeId} {l : Looping} (l' : Looping)
    (hl : t.loops.find? loop = some l) : Tidy { t with loops := t.loops.insert loop l' } := by
  refine ⟨?_, Table.ordered_insert h.loops _ _, h.reports, h.fault,
    fun hended => absurd hended (h.not_ended (Site.mem_flying_of_loop hl))⟩
  intro n
  have hn := h.flight n
  simp only [Site.flying, List.count_append, Table.count_keys h.loops] at hn
  simp only [Site.flying, List.count_append,
    Table.count_keys (Table.ordered_insert h.loops _ _), Table.find?_insert]
  by_cases hsame : loop = n
  · subst hsame
    rw [hl] at hn
    simpa using hn
  · rw [if_neg hsame]
    exact hn

theorem Tidy.conclude (h : Tidy t) {loop : NodeId} {l : Looping} {o : Outcome}
    (hl : t.loops.find? loop = some l) (ho : ∀ f, o = .fatal f → Leaves f) :
    Tidy { t with
      loops := t.loops.erase loop
      reports := t.reports ++ [.ended ⟨loop, [], o⟩] } := by
  refine ⟨?_, Table.ordered_erase h.loops _, ?_, h.fault,
    fun hended => absurd hended (h.not_ended (Site.mem_flying_of_loop hl))⟩
  · intro n
    have hn := h.flight n
    simp only [Site.flying, List.count_append, Table.count_keys h.loops] at hn
    simp only [Site.flying, List.map_append, List.map_cons, List.map_nil, List.count_append,
      Table.count_keys (Table.ordered_erase h.loops _), Table.find?_erase, List.count_singleton,
      Report.node]
    by_cases hsame : loop = n
    · subst hsame
      rw [hl] at hn
      simp only [Option.isSome_some, if_true] at hn
      simp only [beq_self_eq_true, if_true, Option.isSome_none, Bool.false_eq_true, if_false]
      omega
    · simp only [beq_iff_eq, hsame, if_false]
      omega
  · intro r' hr'
    rcases List.mem_append.mp hr' with hr' | hr'
    · exact h.reports r' hr'
    · rw [List.mem_singleton.mp hr']
      exact ⟨_, rfl, ho⟩

theorem Tidy.close (h : Tidy t) (hcoherent : Scope.Coherent p given t.scope [])
    (hflying : t.flying = []) (now : Timestamp) (aborted : Bool) :
    Tidy { t with scope := t.scope.close now aborted, phase := .ended } := by
  refine ⟨?_, h.loops, h.reports, ?_, fun _ => hflying⟩
  · intro n
    have hnone : (t.scope.close now aborted).isIn .running n = false := by
      rw [Bool.eq_false_iff]
      intro hin
      obtain ⟨r, hr, hrunning⟩ := Scope.isIn_iff.mp hin
      have hterm := Scope.terminal_of_close hcoherent.shape aborted hr
      rw [hrunning] at hterm
      simp [RunState.isTerminal] at hterm
    change t.flying.count n = if (t.scope.close now aborted).isIn .running n = true then 1 else 0
    rw [hnone, hflying]
    rfl
  · intro f hf
    change (t.scope.close now aborted).fault = some f at hf
    rw [Scope.close_eq, (Scope.foldl_closeOne_kept _ _).1] at hf
    split_ifs at hf
    · exact h.fault f hf
    · cases hs : t.scope.fault with
      | none =>
        simp only [Scope.violate, hs, Option.getD_none] at hf
        exact ⟨_, (Option.some.inj hf).symm⟩
      | some f₀ =>
        simp only [Scope.violate, hs, Option.getD_some] at hf
        exact h.fault f (hs.trans hf)

/-- A move of an orderly execution keeps its scope tidy. -/
theorem Moves.tidy (hp : p.Sound) (hu : p.Untangled) (hg : Grounded p e)
    (hall : ∀ b u, e.site? b = some u → Tidy u) (hevent : event.Regular)
    (ht : e.site? a = some t) (hmoves : Moves p now e a t event t') : Tidy t' := by
  have h := hall a t ht
  obtain ⟨given, hroot⟩ := hg.sites a t ht
  have hlive : t.phase ≠ .ended := hmoves.live h.ended
  have hcoherent : Scope.Coherent p given t.scope [] := (hroot.coherent hlive).1
  cases hmoves with
  | startLoop _ _ hstart => exact h.startLoop hcoherent hlive _ hstart
  | startWork _ _ hstart => exact h.startWork hcoherent hlive hstart
  | report hbusy => exact h.report hbusy hevent
  | hear _ _ hr => exact h.hear hp hu hroot hlive hr
  | iterate hl => exact h.iterate _ hl
  | conclude hl =>
    refine h.conclude hl fun f hf => ?_
    -- what a loop ends with comes from an iteration, a scope of the same execution
    obtain ⟨x, hx, hfault⟩ := fault_of_outcome hf
    obtain ⟨⟨i, u⟩, hmem, rfl⟩ := List.mem_map.mp hx
    exact (hall _ u ((mem_iterations hg.keys).mp hmem)).fault f hfault
  | leave => exact ⟨h.flight, h.loops, h.reports, h.fault, by simp⟩
  | close _ hidle => exact h.close hcoherent (Site.inFlight_eq_false_iff.mp hidle) _ _

end Execution

end PortGraph
