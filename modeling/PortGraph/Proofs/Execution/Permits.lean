import Mathlib.Data.List.MinMax
import PortGraph.Proofs.Execution.Logged

/-!
Permits. No more workers are ever busy than there are permits, and a loop never holds one: it waits for
its iterations without. So an execution never gets stuck. The innermost scopes that go on wait for
nobody but workers, and whoever waits for a permit waits for a worker that holds one.
-/

namespace PortGraph

open Plan

/-- What the scopes and loops of an execution do themselves: all but the end of a worker's work and
the caller's abort. -/
def Event.Own : Event → Prop
  | .report _ _ | .abort => False
  | _ => True

namespace Execution

variable {p : Plan} {verbose : Bool} {now : Timestamp} {e e' : Execution} {a : Address}
variable {t t' : Site} {event : Event} {n : NodeId} {l : Looping}

/-! ### Who is busy -/

theorem busyCount_eq (e : Execution) :
    e.busyCount = (e.sites.map fun x => x.2.busy.length).sum :=
  List.length_flatMap

variable (p verbose t') in
/-- Where one scope is put in place of another, so are its busy nodes. -/
theorem busyCount_putSite (hkeys : (e.sites.map (·.1)).Nodup) (ht : e.site? a = some t) :
    (e.putSite p verbose a t').busyCount + t.busy.length = e.busyCount + t'.busy.length := by
  have hreplace : ∀ sites : List (Address × Site), (sites.map (·.1)).Nodup →
      sites.lookup a = some t →
      ((sites.map fun x => if x.1 = a then (a, t') else x).map fun x => x.2.busy.length).sum +
        t.busy.length = (sites.map fun x => x.2.busy.length).sum + t'.busy.length := by
    intro sites
    induction sites with
    | nil => simp
    | cons x rest ih =>
      obtain ⟨b, u⟩ := x
      intro hnodup hlookup
      obtain ⟨hb, hrest⟩ := List.nodup_cons.mp hnodup
      by_cases heq : b = a
      · subst heq
        obtain rfl : u = t := by simpa using hlookup
        have hsame : (rest.map fun x => if x.1 = b then (b, t') else x) = rest := by
          refine (List.map_congr_left fun x hx => ?_).trans (List.map_id rest)
          rw [if_neg]
          · rfl
          · rintro rfl
            exact hb (List.mem_map.mpr ⟨x, hx, rfl⟩)
        simp only [List.map_cons, if_true, hsame, List.sum_cons]
        omega
      · have hbeq : (a == b) = false := beq_false_of_ne (Ne.symm heq)
        rw [List.lookup_cons, hbeq] at hlookup
        have hih := ih hrest hlookup
        simp only [List.map_cons, heq, if_false, List.sum_cons]
        omega
  have hsome : (e.site? a).isSome = true := by rw [ht]; rfl
  rw [busyCount_eq, busyCount_eq]
  unfold putSite
  dsimp only
  rw [if_pos hsome]
  exact hreplace e.sites hkeys ht

/-- A scope that begins keeps nobody busy. -/
theorem busyCount_openSite (hfresh : e.site? a = none) (deliveries : List (PortRef × Json)) :
    (e.openSite p verbose now a deliveries).busyCount = e.busyCount := by
  rw [busyCount_eq, busyCount_eq]
  unfold openSite putSite
  simp [hfresh]

/-- How an event changes who is busy in its scope: a node other than a loop starts while a permit is
free, or a worker is done. -/
theorem Moves.busy (hmoves : Moves p now e a t event t') :
    t'.busy = t.busy ∨
      (∃ n, t'.busy = t.busy ++ [n] ∧ p.kind? n ≠ some .loop ∧ e.busyCount < e.permits) ∨
      ∃ n ∈ t.busy, t'.busy = t.busy.erase n := by
  cases hmoves with
  | @startWork s r _ _ _ hother hfree =>
    refine Or.inr (Or.inl ⟨r.node, rfl, ?_, hfree⟩)
    intro hkind
    obtain ⟨node, settings, hnode, hsettings⟩ := Graph.loop_of_kind? hkind
    exact hother node settings hnode hsettings
  | report hbusy => exact Or.inr (Or.inr ⟨_, hbusy, rfl⟩)
  | _ => exact Or.inl rfl

/-- Permits bound who is busy, and no loop is. -/
structure Permitted (p : Plan) (e : Execution) : Prop where
  bound : e.busyCount ≤ e.permits
  works : ∀ a t n, e.site? a = some t → n ∈ t.busy → p.kind? n ≠ some .loop

theorem Permitted.putSite (h : Permitted p e) (hkeys : (e.sites.map (·.1)).Nodup)
    (ht : e.site? a = some t) (hmoves : Moves p now e a t event t') :
    Permitted p (e.putSite p verbose a t') := by
  have hcount := busyCount_putSite p verbose t' hkeys ht
  refine ⟨?_, ?_⟩
  · have hbound := h.bound
    rw [permits_putSite]
    rcases hmoves.busy with hsame | ⟨n, hstarted, -, hfree⟩ | ⟨n, hn, hdone⟩
    · rw [hsame] at hcount
      omega
    · rw [hstarted, List.length_append, List.length_singleton] at hcount
      omega
    · have hlength := List.length_pos_of_mem hn
      rw [hdone, List.length_erase_of_mem hn] at hcount
      omega
  · intro b u m hu hm
    rw [site?_putSite] at hu
    split_ifs at hu
    · obtain rfl := Option.some.inj hu
      rcases hmoves.busy with hsame | ⟨n, hstarted, hkind, -⟩ | ⟨n, -, hdone⟩
      · exact h.works a t m ht (hsame ▸ hm)
      · rw [hstarted, List.mem_append, List.mem_singleton] at hm
        rcases hm with hm | rfl
        · exact h.works a t m ht hm
        · exact hkind
      · rw [hdone] at hm
        exact h.works a t m ht (List.mem_of_mem_erase hm)
    · exact h.works b u m hu hm

theorem Permitted.openSite (h : Permitted p e) (hfresh : e.site? a = none)
    (deliveries : List (PortRef × Json)) :
    Permitted p (e.openSite p verbose now a deliveries) := by
  refine ⟨?_, ?_⟩
  · rw [busyCount_openSite hfresh]
    exact h.bound
  · intro b u m hu hm
    rw [site?_openSite] at hu
    split_ifs at hu
    · rw [← Option.some.inj hu] at hm
      simp at hm
    · exact h.works b u m hu hm

/-- No event starts more workers than there are permits. -/
theorem Permitted.perform (hg : Grounded p e) (h : Permitted p e)
    (hevent : e.perform? p verbose now event = some e') : Permitted p e' := by
  obtain ⟨-, rfl⟩ | ⟨a, t, t', ht, hmoves, ⟨-, rfl⟩ | ⟨loop, l, rfl, hl, -, -, rfl⟩⟩ :=
    perform?_eq_some hevent
  · exact ⟨h.bound, h.works⟩
  · exact h.putSite hg.keys ht hmoves
  · exact (h.putSite hg.keys ht hmoves).openSite (hg.fresh_putSite ht hl) _

theorem permits_of_perform? (hevent : e.perform? p verbose now event = some e') :
    e'.permits = e.permits := by
  obtain ⟨-, rfl⟩ | ⟨a, t, t', -, -, ⟨-, rfl⟩ | ⟨loop, l, -, -, -, -, rfl⟩⟩ :=
    perform?_eq_some hevent <;> rfl

theorem permits_of_leads (h : Leads p verbose e e') : e'.permits = e.permits := by
  induction h with
  | refl => rfl
  | tail _ hstep ih =>
    obtain ⟨now, event, hevent⟩ := hstep
    exact (permits_of_perform? hevent).trans ih

/-! ### Who can go on -/

/-- A scope or a loop can take a step. -/
def CanStep (p : Plan) (verbose : Bool) (e : Execution) : Prop :=
  ∀ now, ∃ event e', event.Own ∧ e.perform? p verbose now event = some e'

theorem canStep_of_report (ht : e.site? a = some t) (hlive : t.phase ≠ .ended)
    (hfault : t.phase = .running → t.scope.fault = none) {r : Report} (hr : r ∈ t.reports) :
    CanStep p verbose e := by
  intro now
  obtain ⟨r', hfind⟩ : ∃ r', t.reports.find? (fun x => x.node == r.node) = some r' := by
    refine Option.isSome_iff_exists.mp ?_
    rw [List.find?_isSome]
    exact ⟨r, hr, beq_self_eq_true r.node⟩
  refine ⟨.hear a r.node, ?_⟩
  simp only [perform?, hear?, ht, hfind, Option.bind_eq_bind, Option.bind_some]
  cases hphase : t.phase with
  | running =>
    dsimp only
    rw [if_neg (by simp [hfault hphase])]
    exact ⟨_, trivial, rfl⟩
  | leaving aborted => exact ⟨_, trivial, rfl⟩
  | ended => exact absurd hphase hlive

/-- A loop whose iterations have all ended begins another one, or has its outcome. -/
theorem canStep_of_loop (ht : e.site? a = some t) (hl : t.loops.find? n = some l)
    (hnode : l.node = n) (hopened : l.opened ≤ l.count)
    (hended : ∀ i u, e.site? ((n, i) :: a) = some u → u.phase = .ended)
    (hkeys : (e.sites.map (·.1)).Nodup) : CanStep p verbose e := by
  intro now
  have hidle : e.isIdle a l.node = true := by
    refine List.all_eq_true.mpr fun x hx => ?_
    rw [hnode] at hx
    simpa using hended x.1 x.2 ((mem_iterations hkeys).mp hx)
  by_cases hiterates : e.mayIterate a l = true
  · refine ⟨.iterate a n, ?_⟩
    simp only [perform?, iterate?, ht, hl, Option.bind_eq_bind, Option.bind_some]
    rw [if_pos hiterates]
    exact ⟨_, trivial, rfl⟩
  -- no other iteration begins, so the loop has its outcome
  have hconcludes : e.mayConclude a l = true := by
    refine (Bool.and_eq_true _ _).mpr ⟨?_, hidle⟩
    by_contra hgoes
    obtain ⟨hcount, hstops⟩ := not_or.mp (fun h => hgoes ((Bool.or_eq_true _ _).mpr h))
    have hlt : l.opened < l.count := lt_of_le_of_ne hopened (by simpa using hcount)
    refine hiterates ?_
    unfold mayIterate
    unfold stopsEarly at hstops
    cases hlatest : e.latest? a l with
    | none => simp [hlt]
    | some u =>
      have hu : u.phase = .ended := by
        unfold latest? at hlatest
        split_ifs at hlatest
        rw [hnode] at hlatest
        exact hended _ u hlatest
      rw [hlatest] at hstops
      cases hparallel : l.settings.parallel with
      | true => simp [hlt]
      | false =>
        have hgoeson : Looping.goesOn u.scope e.aborted = true := by
          simpa [hparallel, hu] using hstops
        have hwell : Looping.goesOn u.scope false = true := by
          unfold Looping.goesOn at hgoeson ⊢
          simp only [Bool.and_eq_true] at hgoeson ⊢
          exact ⟨hgoeson.1, rfl⟩
        simp [hlt, hu, hwell]
  refine ⟨.conclude a n, ?_⟩
  simp only [perform?, conclude?, ht, hl, Option.bind_eq_bind, Option.bind_some]
  rw [if_pos hconcludes]
  exact ⟨_, trivial, rfl⟩

/-- What a scope does that may start a node: a loop starts at once, any other node as soon as a permit
is free. -/
theorem dispatch?_of_ready (hg : Grounded p e) (ht : e.site? a = some t) (hphase : t.phase = .running)
    (hfault : t.scope.fault = none) {k : ℕ} {rest : List (ℕ × NodeId)}
    (hqueue : t.scope.ready = (k, n) :: rest) :
    (p.kind? n = some .loop → ∃ t', e.dispatch? p verbose now a = some (e.putSite p verbose a t') ∧
      t'.busy = t.busy) ∧
    (p.kind? n ≠ some .loop → e.busyCount < e.permits → ∃ t',
      e.dispatch? p verbose now a = some (e.putSite p verbose a t') ∧ t'.busy = t.busy ++ [n]) := by
  obtain ⟨given, hroot⟩ := hg.sites a t ht
  obtain ⟨hcoherent, -⟩ := hroot.coherent (by simp [hphase])
  obtain ⟨-, r, hr, -⟩ := (hcoherent.listed.ready (k, n)).mp (by rw [hqueue]; exact List.mem_cons_self)
  have hnode : (r.start now).node = n := hcoherent.shape.node n r hr
  have hstart : t.scope.startNext? now =
      some ({ t.scope.put (r.start now) with ready := rest }, r.start now) := by
    unfold Scope.startNext?
    rw [hqueue]
    dsimp only
    rw [hr]
    rfl
  unfold dispatch?
  simp only [ht, hstart, Option.bind_eq_bind, Option.bind_some]
  rw [if_neg (by simp [hphase, hfault]), hnode]
  refine ⟨fun hkind => ?_, fun hkind hfree => ?_⟩
  · obtain ⟨node, settings, hn, hsettings⟩ := Graph.loop_of_kind? hkind
    have hloop : (p.node? n).map Node.settings = some (.loop settings) :=
      Option.map_eq_some_iff.mpr ⟨node, hn, hsettings⟩
    rw [hloop]
    exact ⟨_, rfl, rfl⟩
  · split
    · rename_i settings hloop
      obtain ⟨node, hn, hsettings⟩ := Option.map_eq_some_iff.mp hloop
      exact absurd (Graph.kind?_of_settings hn hsettings) hkind
    · rw [if_pos hfree]
      exact ⟨_, rfl, rfl⟩

/-- A scope that goes on, around no other one that does, takes a step or waits for a worker. -/
theorem canStep_of_innermost (hg : Grounded p e) (hpermits : 0 < e.permits) (ht : e.site? a = some t)
    (hlive : t.phase ≠ .ended)
    (hinner : ∀ n i u, e.site? ((n, i) :: a) = some u → u.phase = .ended) :
    0 < e.busyCount ∨ CanStep p verbose e := by
  obtain ⟨given, hroot⟩ := hg.sites a t ht
  by_cases hbusy : t.busy = []
  swap
  · have hcount := busyCount_putSite p verbose { t with busy := [] } hg.keys ht
    have hlength := List.length_pos_iff.mpr hbusy
    simp only [List.length_nil] at hcount
    omega
  by_cases hleaves : t.phase = .running ∧ (e.aborted || t.scope.fault.isSome) = true
  · refine Or.inr fun now => ⟨.leave a, ?_⟩
    simp only [perform?, leave?, ht, Option.bind_eq_bind, Option.bind_some]
    rw [if_pos ⟨hleaves.1, Or.inl hleaves.2⟩]
    exact ⟨_, trivial, rfl⟩
  have hfault : t.phase = .running → t.scope.fault = none := by
    intro hphase
    have hnot : ¬ (e.aborted || t.scope.fault.isSome) = true := fun h => hleaves ⟨hphase, h⟩
    simp only [Bool.or_eq_true, not_or] at hnot
    simpa using hnot.2
  by_cases hreports : t.reports = []
  swap
  · obtain ⟨r, rest, hcons⟩ := List.exists_cons_of_ne_nil hreports
    exact Or.inr (canStep_of_report ht hlive hfault (by rw [hcons]; exact List.mem_cons_self))
  by_cases hloops : t.loops = []
  swap
  · obtain ⟨⟨n, l⟩, rest, hcons⟩ := List.exists_cons_of_ne_nil hloops
    have hl : t.loops.find? n = some l := by
      rw [hcons]
      simp [Table.find?]
    have hstems := hroot.loops n l hl
    exact Or.inr (canStep_of_loop ht hl hstems.node hstems.opened (hinner n) hg.keys)
  have hidle : t.inFlight = false := by
    simp [Site.inFlight, hbusy, hreports, hloops]
  cases hphase : t.phase with
  | running =>
    by_cases hqueue : t.scope.ready = []
    · refine Or.inr fun now => ⟨.leave a, ?_⟩
      simp only [perform?, leave?, ht, Option.bind_eq_bind, Option.bind_some]
      rw [if_pos ⟨hphase, Or.inr (by simp [hqueue, hidle])⟩]
      exact ⟨_, trivial, rfl⟩
    · obtain ⟨⟨k, n⟩, rest, hcons⟩ := List.exists_cons_of_ne_nil hqueue
      by_cases hfree : e.busyCount < e.permits
      · refine Or.inr fun now => ⟨.dispatch a, ?_⟩
        obtain ⟨hloop, hwork⟩ := dispatch?_of_ready hg ht hphase (hfault hphase) hcons
        by_cases hkind : p.kind? n = some .loop
        · obtain ⟨t', hdispatch, -⟩ := hloop hkind
          exact ⟨_, trivial, hdispatch⟩
        · obtain ⟨t', hdispatch, -⟩ := hwork hkind hfree
          exact ⟨_, trivial, hdispatch⟩
      · exact Or.inl (hpermits.trans_le (not_lt.mp hfree))
  | leaving aborted =>
    refine Or.inr fun now => ⟨.close a, ?_⟩
    simp only [perform?, close?, ht, hphase, Option.bind_eq_bind, Option.bind_some]
    rw [if_neg (by simp [hidle])]
    exact ⟨_, trivial, rfl⟩
  | ended => exact absurd hphase hlive

/-- Among the scopes that go on there is one around no other. -/
theorem exists_innermost (hkeys : (e.sites.map (·.1)).Nodup) (hover : e.isOver = false) :
    ∃ a t, e.site? a = some t ∧ t.phase ≠ .ended ∧
      ∀ n i u, e.site? ((n, i) :: a) = some u → u.phase = .ended := by
  have hmem : ∀ {a t}, (a, t) ∈ e.sites.filter (fun x => x.2.phase != .ended) ↔
      e.site? a = some t ∧ t.phase ≠ .ended := by
    intro a t
    unfold site?
    rw [List.mem_filter, lookup_eq_some_iff_mem hkeys]
    simp
  obtain ⟨t, ht, hlive⟩ : ∃ t, e.site? [] = some t ∧ t.phase ≠ .ended := by
    unfold isOver at hover
    split at hover
    · rename_i t ht
      exact ⟨t, ht, by simpa using hover⟩
    · simp at hover
  cases hdeepest : (e.sites.filter fun x => x.2.phase != .ended).argmax fun x => x.1.length with
  | none =>
    rw [List.argmax_eq_none.mp hdeepest] at hmem
    exact absurd (hmem.mpr ⟨ht, hlive⟩) List.not_mem_nil
  | some x =>
    obtain ⟨a, u⟩ := x
    obtain ⟨hu, hlive⟩ := hmem.mp (List.argmax_mem hdeepest)
    refine ⟨a, u, hu, hlive, fun n i w hw => ?_⟩
    by_contra hgoes
    have hle := List.le_of_mem_argmax (hmem.mpr ⟨hw, hgoes⟩) hdeepest
    simp at hle

/-- No more workers are busy than the concurrency that was asked for, and none with a loop; and unless
the execution is over, a worker is busy, or a scope or a loop can take a step. -/
structure BoundedAndLive (p : Plan) (verbose : Bool) (concurrency : ℕ) (e : Execution) : Prop where
  bound : e.busyCount ≤ max 1 concurrency
  works : ∀ {a t n}, e.site? a = some t → n ∈ t.busy → p.kind? n ≠ some .loop
  goesOn : e.isOver = false → 0 < e.busyCount ∨ CanStep p verbose e

theorem boundedAndLive_of_leads (hp : p.Sound) (hu : p.Untangled) {concurrency : ℕ} {aborted : Bool}
    (he : Leads p verbose (begin p verbose now concurrency aborted) e) :
    BoundedAndLive p verbose concurrency e := by
  have hgrounded : ∀ {e}, Leads p verbose (begin p verbose now concurrency aborted) e →
      Grounded p e := fun he => ((Reachable.begin now concurrency aborted).leads he).grounded hp hu
  have hpermits : e.permits = max 1 concurrency := permits_of_leads he
  have hpermitted : Permitted p e := by
    clear hpermits
    induction he with
    | refl =>
      refine ⟨by simp [busyCount_eq, sites_begin], ?_⟩
      intro a t n ht hn
      obtain ⟨rfl, rfl⟩ := site?_begin_eq_some ht
      simp at hn
    | tail hleads hstep ih =>
      obtain ⟨now, event, hevent⟩ := hstep
      exact Permitted.perform (hgrounded hleads) ih hevent
  refine ⟨hpermits ▸ hpermitted.bound, hpermitted.works _ _ _, fun hover => ?_⟩
  have hg := hgrounded he
  obtain ⟨a, t, ht, hlive, hinner⟩ := exists_innermost hg.keys hover
  exact canStep_of_innermost hg (by omega) ht hlive hinner

end Execution

end PortGraph
