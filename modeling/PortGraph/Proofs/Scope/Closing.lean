import PortGraph.Proofs.Scope.Stages

/-!
Closing a scope. Whoever has ended stays as it is; the others are cancelled if they run and skipped
if they have not started. A scope that is not called off must have nobody left.
-/

namespace PortGraph.Scope

variable {p : Plan} {now : Timestamp} {s : Scope}

theorem mem_unfinished (hs : Shape p s) {n : NodeId} :
    n ∈ s.unfinished ↔ ∃ r, s.run? n = some r ∧ r.state.isTerminal = false := by
  unfold unfinished
  rw [List.mem_map]
  constructor
  · rintro ⟨⟨k, r⟩, he, rfl⟩
    obtain ⟨hmem, hlive⟩ := List.mem_filter.mp he
    exact ⟨r, Table.find?_of_mem hs.ordered.nodup hmem, by simpa using hlive⟩
  · rintro ⟨r, hr, hlive⟩
    exact ⟨(n, r), List.mem_filter.mpr ⟨Table.mem_of_find? hr, by simp [hlive]⟩, rfl⟩

theorem nodup_unfinished (hs : Shape p s) : s.unfinished.Nodup := by
  have hkeys : (s.runs.map (·.1)).Nodup := hs.ordered.nodup
  exact hkeys.sublist (List.filter_sublist.map _)

/-- The run of a member that is left when its scope closes. -/
def leftOver (now : Timestamp) (r : NodeRun) : NodeRun :=
  if r.state = .running then r.cancel now else r.skip now .aborted

theorem leftOver_kept (now : Timestamp) (r : NodeRun) :
    (leftOver now r).node = r.node ∧ (leftOver now r).inputs = r.inputs ∧
      (leftOver now r).startedAt = r.startedAt ∧ (leftOver now r).failedPorts = r.failedPorts ∧
      (leftOver now r).state.isTerminal = true := by
  unfold leftOver
  split_ifs <;> exact ⟨rfl, rfl, rfl, rfl, rfl⟩

theorem leftOver_state (now : Timestamp) (r : NodeRun) :
    (leftOver now r).state = if r.state = .running then .cancelled else .skipped := by
  unfold leftOver
  split_ifs <;> rfl

theorem clear_leftOver {r : NodeRun} (h : r.Clear) (hlive : r.state.isTerminal = false) :
    (leftOver now r).Clear := by
  have hreleased : r.startedAt.isSome = true ∨ 0 < r.promotions →
      r.pendingInputs = [] ∧ r.pendingCaptures = 0 ∧ r.pendingGates = 0 :=
    fun hreleased => h.free (Or.inr (Or.inr hreleased))
  unfold leftOver
  split_ifs with hrunning
  · have hended : isUnstarted (r.cancel now) = false := rfl
    refine ⟨by simp, by simp [hended], ?_, by simp, by simp⟩
    simp only [state_cancel, reduceCtorEq, false_or]
    exact hreleased
  · have hended : isUnstarted (r.skip now .aborted) = false := rfl
    have hidle : r.startedAt = none := h.idle (by simp [isUnstarted, hlive, hrunning])
    refine ⟨by simp, by simp [hended], ?_, by simp, fun _ => hidle⟩
    simp only [state_skip, reduceCtorEq, false_or]
    exact hreleased

/-- Ends one of the members that are left when a scope closes. -/
def closeOne (now : Timestamp) (s : Scope) (id : NodeId) : Scope :=
  match s.run? id with
  | none => s
  | some r => s.putEnded (leftOver now r)

theorem close_eq (s : Scope) (aborted : Bool) :
    s.close now aborted = s.unfinished.foldl (closeOne now)
      (if aborted || s.unfinished.isEmpty then s else s.violate (.neverReady s.unfinished)) := rfl

/-- A scope in which every member has ended closes as it is. -/
theorem close_of_finished (aborted : Bool) (h : s.unfinished = []) :
    s.close now aborted = s := by
  simp [close_eq, h]

/-- What ending one member leaves as it is, ending all of them does. -/
theorem view_foldl_closeOne {α : Type} {view : Scope → α}
    (hview : ∀ s id, view (closeOne now s id) = view s) (ids : List NodeId) (s : Scope) :
    view (ids.foldl (closeOne now) s) = view s := by
  induction ids generalizing s with
  | nil => rfl
  | cons a rest ih => rw [List.foldl_cons, ih, hview]

theorem foldl_closeOne_kept (ids : List NodeId) (s : Scope) :
    (ids.foldl (closeOne now) s).fault = s.fault ∧ (ids.foldl (closeOne now) s).owner = s.owner ∧
      (ids.foldl (closeOne now) s).resolved = s.resolved := by
  refine ⟨view_foldl_closeOne ?_ ids s, view_foldl_closeOne ?_ ids s, view_foldl_closeOne ?_ ids s⟩
  all_goals
    intro s id
    unfold closeOne
    cases s.run? id <;> rfl

theorem result_foldl_closeOne (ids : List NodeId) (s : Scope) :
    (ids.foldl (closeOne now) s).result = s.result := by
  refine view_foldl_closeOne (fun s id => ?_) ids s
  unfold closeOne
  cases s.run? id <;> rfl

theorem handed_foldl_closeOne (ids : List NodeId) (s : Scope) :
    (ids.foldl (closeOne now) s).handed = s.handed := by
  refine view_foldl_closeOne (fun s id => ?_) ids s
  unfold closeOne
  cases s.run? id <;> rfl

theorem run?_foldl_closeOne {ids : List NodeId} (hids : ids.Nodup) {s : Scope}
    (hnode : ∀ n r, s.run? n = some r → r.node = n) (n : NodeId) :
    (ids.foldl (closeOne now) s).run? n =
      if n ∈ ids then (s.run? n).map (leftOver now) else s.run? n := by
  induction ids generalizing s with
  | nil => simp
  | cons a rest ih =>
    obtain ⟨ha, hrest⟩ := List.nodup_cons.mp hids
    have hrun : ∀ k, (closeOne now s a).run? k =
        if a = k then (s.run? k).map (leftOver now) else s.run? k := by
      intro k
      unfold closeOne
      cases hr : s.run? a with
      | none =>
        by_cases hk : a = k
        · subst hk
          simp [hr]
        · simp [hk]
      | some r =>
        have hnode' : (leftOver now r).node = a :=
          (leftOver_kept now r).1.trans (hnode a r hr)
        by_cases hk : a = k
        · subst hk
          simp [run?_putEnded, hnode', hr]
        · simp [run?_putEnded, hnode', hk]
    rw [List.foldl_cons, ih hrest]
    · by_cases hn : n = a
      · subst hn
        simp [hrun, ha]
      · simp [hrun, hn, Ne.symm hn]
    · intro k r hr
      rw [hrun] at hr
      split_ifs at hr with heq
      · obtain ⟨r₀, hr₀, rfl⟩ := Option.map_eq_some_iff.mp hr
        exact (leftOver_kept now r₀).1.trans (hnode k r₀ hr₀)
      · exact hnode k r hr

theorem ordered_foldl_closeOne (ids : List NodeId) {s : Scope} (h : s.runs.Ordered) :
    (ids.foldl (closeOne now) s).runs.Ordered := by
  induction ids generalizing s with
  | nil => exact h
  | cons a rest ih =>
    refine ih ?_
    unfold closeOne
    cases s.run? a with
    | none => exact h
    | some r => exact Table.ordered_insert h _ _

section Closed

variable (hs : Shape p s) (aborted : Bool)
include hs

omit hs in
theorem close_kept : (s.close now aborted).owner = s.owner ∧
    (s.close now aborted).resolved = s.resolved := by
  rw [close_eq, (foldl_closeOne_kept _ _).2.1, (foldl_closeOne_kept _ _).2.2]
  split_ifs <;> exact ⟨rfl, rfl⟩

/-- Who has ended stays; the others are left over. -/
theorem run?_close (n : NodeId) :
    (s.close now aborted).run? n =
      (s.run? n).map fun r => if r.state.isTerminal then r else leftOver now r := by
  have hrun : ∀ u : Scope, (∀ k, u.run? k = s.run? k) →
      (s.unfinished.foldl (closeOne now) u).run? n =
        (s.run? n).map fun r => if r.state.isTerminal then r else leftOver now r := by
    intro u hu
    rw [run?_foldl_closeOne (nodup_unfinished hs) (fun k r hr => hs.node k r (hu k ▸ hr)), hu]
    cases hr : s.run? n with
    | none => simp
    | some r =>
      have hmem := mem_unfinished hs (n := n)
      rw [hr] at hmem
      cases hlive : r.state.isTerminal with
      | true => simp [hmem, hlive]
      | false => simp [hmem, hlive]
  rw [close_eq]
  split_ifs
  · exact hrun s fun _ => rfl
  · exact hrun (s.violate _) fun _ => rfl

theorem terminal_of_close {n : NodeId} {r : NodeRun}
    (hr : (s.close now aborted).run? n = some r) : r.state.isTerminal = true := by
  rw [run?_close hs] at hr
  obtain ⟨r₀, -, rfl⟩ := Option.map_eq_some_iff.mp hr
  by_cases hterm : r₀.state.isTerminal = true
  · rw [if_pos hterm]
    exact hterm
  · rw [if_neg hterm]
    exact (leftOver_kept now r₀).2.2.2.2

/-- A scope that closes keeps its members. -/
theorem shape_close : Shape p (s.close now aborted) where
  member n := by
    rw [run?_close hs, Option.isSome_map, (close_kept aborted).1]
    exact hs.member n
  node n r hr := by
    rw [run?_close hs] at hr
    obtain ⟨r₀, hr₀, rfl⟩ := Option.map_eq_some_iff.mp hr
    split_ifs
    · exact hs.node n r₀ hr₀
    · exact (leftOver_kept now r₀).1.trans (hs.node n r₀ hr₀)
  clear n r hr := by
    rw [run?_close hs] at hr
    obtain ⟨r₀, hr₀, rfl⟩ := Option.map_eq_some_iff.mp hr
    split_ifs with hterm
    · exact hs.clear n r₀ hr₀
    · exact clear_leftOver (hs.clear n r₀ hr₀) (by simpa using hterm)
  ordered := by
    rw [close_eq]
    refine ordered_foldl_closeOne _ ?_
    split_ifs <;> exact hs.ordered

/-- A started member of a closed scope had started before. -/
theorem run?_of_close {n : NodeId} {r : NodeRun} (hr : (s.close now aborted).run? n = some r) :
    ∃ r₀, s.run? n = some r₀ ∧ r.inputs = r₀.inputs ∧ r.startedAt = r₀.startedAt ∧
      r.failedPorts = r₀.failedPorts := by
  rw [run?_close hs] at hr
  obtain ⟨r₀, hr₀, rfl⟩ := Option.map_eq_some_iff.mp hr
  refine ⟨r₀, hr₀, ?_⟩
  split_ifs
  · exact ⟨rfl, rfl, rfl⟩
  · obtain ⟨-, hinputs, hstart, hports, -⟩ := leftOver_kept now r₀
    exact ⟨hinputs, hstart, hports⟩

omit hs in
@[simp] theorem result_close : (s.close now aborted).result = s.result := by
  rw [close_eq, result_foldl_closeOne]
  split_ifs <;> rfl

omit hs in
@[simp] theorem handed_close : (s.close now aborted).handed = s.handed := by
  rw [close_eq, handed_foldl_closeOne]
  split_ifs <;> rfl

/-- Closing changes nothing of what has started or ended. -/
theorem later_close : Later s (s.close now aborted) where
  owner := (close_kept aborted).1
  ended := by
    intro n r hr hterm
    exact ⟨r, by rw [run?_close hs, hr]; simp [hterm], rfl, rfl, rfl, rfl⟩
  started := by
    intro n r hr hstart
    obtain ⟨r', hr'⟩ := Option.isSome_iff_exists.mp
      (show ((s.close now aborted).run? n).isSome by rw [run?_close hs, hr]; rfl)
    obtain ⟨r₀, hr₀, hinputs, hstart', hports⟩ := run?_of_close hs aborted hr'
    obtain rfl := Option.some.inj (hr.symm.trans hr₀)
    exact ⟨r', hr', hstart', hinputs, hports⟩
  inputs := by
    intro n r q hr hq
    obtain ⟨r', hr'⟩ := Option.isSome_iff_exists.mp
      (show ((s.close now aborted).run? n).isSome by rw [run?_close hs, hr]; rfl)
    obtain ⟨r₀, hr₀, hinputs, -⟩ := run?_of_close hs aborted hr'
    obtain rfl := Option.some.inj (hr.symm.trans hr₀)
    exact ⟨r', hr', by rw [hinputs]; exact hq⟩
  resolved := by
    intro c h hc
    rw [(close_kept aborted).2]
    exact hc
  undecided := by
    intro c r _ _ hc
    rw [(close_kept aborted).2]
    exact hc

omit hs in
/-- A scope that is not called off finds a fault when it closes just if a member has not ended. -/
theorem fault_close (hfault : s.fault = none) :
    (s.close now false).fault =
      if s.unfinished = [] then none else some (.neverReady s.unfinished) := by
  rw [close_eq, (foldl_closeOne_kept _ _).1]
  by_cases hrest : s.unfinished = []
  · simp [hrest, hfault]
  · simp [hrest, violate, hfault]

end Closed

end PortGraph.Scope
