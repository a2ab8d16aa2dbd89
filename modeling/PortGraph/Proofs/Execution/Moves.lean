import PortGraph.Execution.Basic
import PortGraph.Proofs.Scope.Closing
import PortGraph.Proofs.Scope.Sighted

/-!
What the events of an execution do. Apart from an abort, an event moves one scope on; the start of
an iteration opens one more.
-/

namespace PortGraph

namespace Execution

/-! ### Views of an execution with one scope put -/

section Put

variable (p : Plan) (verbose : Bool) (now : Timestamp) (e : Execution) (a b : Address) (t : Site)

theorem site?_putSite :
    (e.putSite p verbose a t).site? b = if a = b then some t else e.site? b := by
  unfold putSite site?
  dsimp only
  split_ifs with hknown heq heq
  · subst heq
    rw [lookup_map_replace, if_pos rfl]
    obtain ⟨u, hu⟩ := Option.isSome_iff_exists.mp hknown
    simp [hu]
  · rw [lookup_map_replace, if_neg heq]
  · subst heq
    rw [lookup_append_singleton _ _ _ _ (Option.not_isSome_iff_eq_none.mp hknown), if_pos rfl]
  · rw [lookup_append_singleton _ _ _ _ (Option.not_isSome_iff_eq_none.mp hknown), if_neg (Ne.symm heq)]

@[simp] theorem permits_putSite : (e.putSite p verbose a t).permits = e.permits := rfl

@[simp] theorem aborted_putSite :
    (e.putSite p verbose a t).aborted = (e.aborted || t.scope.fault.isSome) := rfl

theorem keys_putSite :
    (e.putSite p verbose a t).sites.map (·.1) =
      if (e.site? a).isSome then e.sites.map (·.1) else e.sites.map (·.1) ++ [a] := by
  unfold putSite
  dsimp only
  split_ifs
  · rw [List.map_map]
    refine List.map_congr_left fun x _ => ?_
    dsimp only [Function.comp_apply]
    split_ifs with heq
    · exact heq.symm
    · rfl
  · simp

theorem site?_openSite (deliveries : List (PortRef × Json)) :
    (e.openSite p verbose now a deliveries).site? b =
      if a = b then some ⟨Scope.seed p now a.owner deliveries, .running, [], [], []⟩
      else e.site? b :=
  site?_putSite p verbose e a b _

variable {p verbose now e a b} in
/-- Where no scope was before, opening one leaves the others as they are. -/
theorem site?_openSite_of_known {deliveries : List (PortRef × Json)} {u : Site}
    (hfresh : e.site? a = none) (hb : e.site? b = some u) :
    (e.openSite p verbose now a deliveries).site? b = some u := by
  rw [site?_openSite, if_neg]
  · exact hb
  · rintro rfl
    rw [hfresh] at hb
    simp at hb

end Put

/-! ### Moves -/

/-- What an event does to the scope that it is about. -/
inductive Moves (p : Plan) (now : Timestamp) (e : Execution) (a : Address) (t : Site) :
    Event → Site → Prop
  | startLoop {s : Scope} {r : NodeRun} {node : Node} {settings : LoopSettings} :
      t.phase = .running → t.scope.fault = none → t.scope.startNext? now = some (s, r) →
      p.node? r.node = some node → node.settings = .loop settings →
      Moves p now e a t (.dispatch a)
        { t with scope := s, loops := t.loops.insert r.node (.start p settings t.scope r) }
  | startWork {s : Scope} {r : NodeRun} :
      t.phase = .running → t.scope.fault = none → t.scope.startNext? now = some (s, r) →
      (∀ node settings, p.node? r.node = some node → node.settings ≠ .loop settings) →
      e.busyCount < e.permits →
      Moves p now e a t (.dispatch a) { t with scope := s, busy := t.busy ++ [r.node] }
  | report {r : Report} :
      r.node ∈ t.busy →
      Moves p now e a t (.report a r)
        { t with busy := t.busy.erase r.node, reports := t.reports ++ [r] }
  | hear {r : Report} {id : NodeId} :
      t.phase ≠ .ended → (t.phase = .running → t.scope.fault = none) →
      t.reports.find? (fun r => r.node == id) = some r →
      Moves p now e a t (.hear a id)
        { t with
          scope := t.scope.hear p now r
          reports := t.reports.filter fun r => !(r.node == id) }
  | iterate {loop : NodeId} {l : Looping} :
      t.loops.find? loop = some l → e.mayIterate a l = true →
      Moves p now e a t (.iterate a loop)
        { t with loops := t.loops.insert loop { l with opened := l.opened + 1 } }
  | conclude {loop : NodeId} {l : Looping} :
      t.loops.find? loop = some l → e.mayConclude a l = true →
      Moves p now e a t (.conclude a loop)
        { t with
          loops := t.loops.erase loop
          reports := t.reports ++ [.ended ⟨loop, [],
            l.outcome ((e.iterations a loop).map fun x => (x.1, x.2.scope)) e.aborted⟩] }
  | leave {aborted : Bool} :
      t.phase = .running → aborted = (e.aborted || t.scope.fault.isSome) →
      (aborted = true ∨ (t.scope.ready = [] ∧ t.inFlight = false)) →
      Moves p now e a t (.leave a) { t with phase := .leaving aborted }
  | close {aborted : Bool} :
      t.phase = .leaving aborted → t.inFlight = false →
      Moves p now e a t (.close a)
        { t with scope := t.scope.close now aborted, phase := .ended }

section Inversion

variable {p : Plan} {verbose : Bool} {now : Timestamp} {e e' : Execution} {a : Address}

theorem moves_of_dispatch (h : e.dispatch? p verbose now a = some e') :
    ∃ t t', e.site? a = some t ∧ Moves p now e a t (.dispatch a) t' ∧
      e' = e.putSite p verbose a t' := by
  unfold dispatch? at h
  obtain ⟨t, ht, h⟩ := Option.bind_eq_some_iff.mp h
  by_cases hphase : t.phase ≠ .running ∨ t.scope.fault.isSome
  · rw [if_pos hphase] at h
    simp at h
  rw [if_neg hphase] at h
  obtain ⟨hrunning, hfault⟩ := not_or.mp hphase
  have hfault' : t.scope.fault = none := by simpa using hfault
  obtain ⟨⟨s, r⟩, hstart, h⟩ := Option.bind_eq_some_iff.mp h
  dsimp only at h
  split at h
  · rename_i settings hsettings
    obtain ⟨node, hnode, hloop⟩ := Option.map_eq_some_iff.mp hsettings
    exact ⟨t, _, ht, .startLoop (not_not.mp hrunning) hfault' hstart hnode hloop,
      (Option.some.inj h).symm⟩
  · rename_i hother
    split_ifs at h with hfree
    refine ⟨t, _, ht, .startWork (not_not.mp hrunning) hfault' hstart ?_ hfree,
      (Option.some.inj h).symm⟩
    intro node settings hnode hloop
    exact hother settings (by rw [hnode]; exact congrArg some hloop)

theorem moves_of_report {r : Report} (h : e.report? p verbose a r = some e') :
    ∃ t t', e.site? a = some t ∧ Moves p now e a t (.report a r) t' ∧
      e' = e.putSite p verbose a t' := by
  unfold report? at h
  obtain ⟨t, ht, h⟩ := Option.bind_eq_some_iff.mp h
  split_ifs at h with hbusy
  exact ⟨t, _, ht, .report (by simpa using hbusy), (Option.some.inj h).symm⟩

theorem moves_of_hear {id : NodeId} (h : e.hear? p verbose now a id = some e') :
    ∃ t t', e.site? a = some t ∧ Moves p now e a t (.hear a id) t' ∧
      e' = e.putSite p verbose a t' := by
  unfold hear? at h
  obtain ⟨t, ht, h⟩ := Option.bind_eq_some_iff.mp h
  obtain ⟨r, hr, h⟩ := Option.bind_eq_some_iff.mp h
  dsimp only at h
  split at h
  · rename_i hphase
    split_ifs at h with hfault
    exact ⟨t, _, ht, .hear (by simp [hphase]) (fun _ => by simpa using hfault) hr,
      (Option.some.inj h).symm⟩
  · rename_i hphase
    exact ⟨t, _, ht, .hear (by simp [hphase]) (by simp [hphase]) hr, (Option.some.inj h).symm⟩
  · simp at h

theorem moves_of_iterate {loop : NodeId} (h : e.iterate? p verbose now a loop = some e') :
    ∃ t t' l, e.site? a = some t ∧ Moves p now e a t (.iterate a loop) t' ∧
      t.loops.find? loop = some l ∧ e.mayIterate a l = true ∧
      t' = { t with loops := t.loops.insert loop { l with opened := l.opened + 1 } } ∧
      e' = (e.putSite p verbose a t').openSite p verbose now ((loop, l.opened) :: a)
        (l.deliveries p l.opened) := by
  unfold iterate? at h
  obtain ⟨t, ht, h⟩ := Option.bind_eq_some_iff.mp h
  obtain ⟨l, hl, h⟩ := Option.bind_eq_some_iff.mp h
  split_ifs at h with hmay
  exact ⟨t, _, l, ht, .iterate hl hmay, hl, hmay, rfl, (Option.some.inj h).symm⟩

theorem moves_of_conclude {loop : NodeId} (h : e.conclude? p verbose a loop = some e') :
    ∃ t t', e.site? a = some t ∧ Moves p now e a t (.conclude a loop) t' ∧
      e' = e.putSite p verbose a t' := by
  unfold conclude? at h
  obtain ⟨t, ht, h⟩ := Option.bind_eq_some_iff.mp h
  obtain ⟨l, hl, h⟩ := Option.bind_eq_some_iff.mp h
  split_ifs at h with hmay
  exact ⟨t, _, ht, .conclude hl hmay, (Option.some.inj h).symm⟩

theorem moves_of_leave (h : e.leave? p verbose a = some e') :
    ∃ t t', e.site? a = some t ∧ Moves p now e a t (.leave a) t' ∧
      e' = e.putSite p verbose a t' := by
  unfold leave? at h
  obtain ⟨t, ht, h⟩ := Option.bind_eq_some_iff.mp h
  dsimp only at h
  split_ifs at h with hmay
  refine ⟨t, _, ht, .leave hmay.1 rfl ?_, (Option.some.inj h).symm⟩
  simpa using hmay.2

theorem moves_of_close (h : e.close? p verbose now a = some e') :
    ∃ t t', e.site? a = some t ∧ Moves p now e a t (.close a) t' ∧
      e' = e.putSite p verbose a t' := by
  unfold close? at h
  obtain ⟨t, ht, h⟩ := Option.bind_eq_some_iff.mp h
  split at h
  · rename_i aborted hphase
    split_ifs at h with hflying
    exact ⟨t, _, ht, .close hphase (by simpa using hflying), (Option.some.inj h).symm⟩
  · simp at h

/-- An event calls the execution off, or moves one scope on; an iteration that starts has a scope of
its own. -/
theorem perform?_eq_some {event : Event} (h : e.perform? p verbose now event = some e') :
    (event = .abort ∧ e' = { e with aborted := true }) ∨
    ∃ a t t', e.site? a = some t ∧ Moves p now e a t event t' ∧
      (((∀ loop, event ≠ .iterate a loop) ∧ e' = e.putSite p verbose a t') ∨
        ∃ loop l, event = .iterate a loop ∧ t.loops.find? loop = some l ∧
          e.mayIterate a l = true ∧
          t' = { t with loops := t.loops.insert loop { l with opened := l.opened + 1 } } ∧
          e' = (e.putSite p verbose a t').openSite p verbose now ((loop, l.opened) :: a)
            (l.deliveries p l.opened)) := by
  cases event with
  | dispatch a =>
    obtain ⟨t, t', ht, hmoves, he⟩ := moves_of_dispatch h
    exact Or.inr ⟨a, t, t', ht, hmoves, Or.inl ⟨by simp, he⟩⟩
  | report a r =>
    obtain ⟨t, t', ht, hmoves, he⟩ := moves_of_report h
    exact Or.inr ⟨a, t, t', ht, hmoves, Or.inl ⟨by simp, he⟩⟩
  | hear a id =>
    obtain ⟨t, t', ht, hmoves, he⟩ := moves_of_hear h
    exact Or.inr ⟨a, t, t', ht, hmoves, Or.inl ⟨by simp, he⟩⟩
  | iterate a loop =>
    obtain ⟨t, t', l, ht, hmoves, hl, hmay, ht', he⟩ := moves_of_iterate h
    exact Or.inr ⟨a, t, t', ht, hmoves, Or.inr ⟨loop, l, rfl, hl, hmay, ht', he⟩⟩
  | conclude a loop =>
    obtain ⟨t, t', ht, hmoves, he⟩ := moves_of_conclude h
    exact Or.inr ⟨a, t, t', ht, hmoves, Or.inl ⟨by simp, he⟩⟩
  | leave a =>
    obtain ⟨t, t', ht, hmoves, he⟩ := moves_of_leave h
    exact Or.inr ⟨a, t, t', ht, hmoves, Or.inl ⟨by simp, he⟩⟩
  | close a =>
    obtain ⟨t, t', ht, hmoves, he⟩ := moves_of_close h
    exact Or.inr ⟨a, t, t', ht, hmoves, Or.inl ⟨by simp, he⟩⟩
  | abort => exact Or.inl ⟨rfl, (Option.some.inj h).symm⟩

theorem aborted_of_perform? {event : Event} (hevent : e.perform? p verbose now event = some e')
    (h : e'.aborted = false) : e.aborted = false := by
  by_contra hyes
  have haborted : e.aborted = true := by simpa using hyes
  obtain ⟨-, rfl⟩ | ⟨a, t, t', -, -, ⟨-, rfl⟩ | ⟨loop, l, -, -, -, -, rfl⟩⟩ :=
    perform?_eq_some hevent
  · simp at h
  · simp [haborted] at h
  · simp [openSite, haborted] at h

/-- An execution that is called off stays so. -/
theorem aborted_mono {event : Event} (hevent : e.perform? p verbose now event = some e')
    (h : e.aborted = true) : e'.aborted = true := by
  by_contra hgoes
  rw [aborted_of_perform? hevent (by simpa using hgoes)] at h
  cases h

/-- After an event a scope is as it was, or has moved on, or has just begun. -/
theorem perform?_site_cases {event : Event} (hevent : e.perform? p verbose now event = some e')
    {t' : Site} (ht' : e'.site? a = some t') :
    e.site? a = some t' ∨ (∃ t, e.site? a = some t ∧ Moves p now e a t event t') ∨
      ∃ outer u loop l, a = (loop, l.opened) :: outer ∧ e.site? outer = some u ∧
        u.loops.find? loop = some l ∧
        t' = ⟨Scope.seed p now (some loop) (l.deliveries p l.opened), .running, [], [], []⟩ := by
  obtain ⟨-, rfl⟩ | ⟨b, t, u, ht, hmoves, hcases⟩ := perform?_eq_some hevent
  · exact Or.inl ht'
  have hput : (e.putSite p verbose b u).site? a = some t' →
      e.site? a = some t' ∨ ∃ t, e.site? a = some t ∧ Moves p now e a t event t' := by
    intro h
    rw [site?_putSite] at h
    split_ifs at h with hab
    · rw [← hab, ← Option.some.inj h]
      exact Or.inr ⟨t, ht, hmoves⟩
    · exact Or.inl h
  rcases hcases with ⟨-, rfl⟩ | ⟨loop, l, -, hl, -, -, rfl⟩
  · exact (hput ht').imp_right Or.inl
  · rw [site?_openSite] at ht'
    split_ifs at ht' with hnew
    · exact Or.inr (Or.inr ⟨b, t, loop, l, hnew.symm, ht, hl, (Option.some.inj ht').symm⟩)
    · exact (hput ht').imp_right Or.inl

/-- A loop is interrupted only when the execution is called off. -/
theorem aborted_of_outcome {l : Looping} {scopes : List (ℕ × Scope)} {aborted : Bool}
    (h : l.outcome scopes aborted = .cancelled) : aborted = true := by
  unfold Looping.outcome at h
  split at h
  · cases h
  · split at h
    · cases h
    · by_contra hgoes
      rw [if_neg hgoes] at h
      split at h
      · cases h
      · split_ifs at h

/-- A scope is told of the end of a node by whoever worked on it, or by a loop. -/
theorem told_of_perform? {event : Event} (hevent : e.perform? p verbose now event = some e')
    {t' : Site} (ht' : e'.site? a = some t') {c : Completion} (hc : .ended c ∈ t'.reports) :
    (∃ t, e.site? a = some t ∧ .ended c ∈ t.reports) ∨ event = .report a (.ended c) ∨
      (c.attempts = [] ∧ (c.outcome = .cancelled → e.aborted = true)) := by
  rcases perform?_site_cases hevent ht' with hsame | ⟨t, ht, hmoves⟩ | ⟨_, _, _, _, -, -, -, rfl⟩
  · exact Or.inl ⟨t', hsame, hc⟩
  · cases hmoves with
    | startLoop | startWork | iterate | leave | close => exact Or.inl ⟨t, ht, hc⟩
    | report =>
      rcases List.mem_append.mp hc with hold | hnew
      · exact Or.inl ⟨t, ht, hold⟩
      · rw [List.mem_singleton.mp hnew]
        exact Or.inr (Or.inl rfl)
    | hear => exact Or.inl ⟨t, ht, List.mem_of_mem_filter hc⟩
    | conclude =>
      rcases List.mem_append.mp hc with hold | hnew
      · exact Or.inl ⟨t, ht, hold⟩
      · cases List.mem_singleton.mp hnew
        exact Or.inr (Or.inr ⟨rfl, aborted_of_outcome⟩)
  · simp at hc

end Inversion

end Execution

end PortGraph
