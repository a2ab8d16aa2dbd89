import PortGraph.Proofs.Execution.Iterations

/-!
Executions that can come about. In each, every scope is rooted, the iterations of a loop are those
that it has begun, and no event takes back what has started or ended.
-/

namespace PortGraph.Execution

open Nesting Plan

/-- An execution that some events lead to from its beginning. -/
inductive Reachable (p : Plan) (verbose : Bool) : Execution → Prop
  | begin (now : Timestamp) (permits : ℕ) (aborted : Bool) :
      Reachable p verbose (begin p verbose now permits aborted)
  | step {now : Timestamp} {e e' : Execution} {event : Event} :
      Reachable p verbose e → e.perform? p verbose now event = some e' → Reachable p verbose e'

structure Grounded (p : Plan) (e : Execution) : Prop where
  keys : (e.sites.map (·.1)).Nodup
  sites : ∀ a t, e.site? a = some t → ∃ given, Rooted p e a t given
  begun : ∀ a t n l, e.site? a = some t → t.loops.find? n = some l →
    ∀ i, (e.site? ((n, i) :: a)).isSome = true ↔ i < l.opened

variable {p : Plan} {verbose : Bool} {now : Timestamp} {e e' : Execution} {a : Address}
variable {t t' : Site} {event : Event}

theorem later_putSite (ht : e.site? a = some t) (h : Scope.Later t.scope t'.scope) :
    Later e (e.putSite p verbose a t') := by
  intro b u hu
  rw [site?_putSite]
  split_ifs with heq
  · subst heq
    obtain rfl := Option.some.inj (ht.symm.trans hu)
    exact ⟨t', rfl, h⟩
  · exact ⟨u, hu, .refl _⟩

theorem later_openSite {deliveries : List (PortRef × Json)} (hfresh : e.site? a = none) :
    Later e (e.openSite p verbose now a deliveries) := by
  exact fun b u hu => ⟨u, site?_openSite_of_known hfresh hu, .refl _⟩

theorem nodup_keys_putSite (h : (e.sites.map (·.1)).Nodup) (a : Address) (t : Site) :
    ((e.putSite p verbose a t).sites.map (·.1)).Nodup := by
  rw [keys_putSite]
  split_ifs with hknown
  · exact h
  · refine List.nodup_append.mpr ⟨h, by simp, ?_⟩
    rintro x hx y hy rfl
    obtain rfl := List.mem_singleton.mp hy
    obtain ⟨⟨b, u⟩, hmem, rfl⟩ := List.mem_map.mp hx
    refine hknown ?_
    unfold site?
    rw [List.lookup_isSome_iff]
    exact ⟨_, hmem, by simp⟩

/-- Which iterations have begun after a move: those that had begun, and the one that the event
begins. -/
theorem Moves.begun (h : Grounded p e) (ht : e.site? a = some t)
    (hmoves : Moves p now e a t event t') {n : NodeId} {l : Looping}
    (hl : t'.loops.find? n = some l) (i : ℕ) :
    i < l.opened ↔ (e.site? ((n, i) :: a)).isSome = true ∨
      (event = .iterate a n ∧ l.opened = i + 1) := by
  obtain ⟨given, hroot⟩ := h.sites a t ht
  have hkept : t.loops.find? n = some l → event ≠ .iterate a n →
      (i < l.opened ↔ (e.site? ((n, i) :: a)).isSome = true ∨
        (event = .iterate a n ∧ l.opened = i + 1)) := by
    intro hold hne
    rw [h.begun a t n l ht hold i]
    simp [hne]
  cases hmoves with
  | @startLoop s r node settings hphase hfault hstart hnode hsettings =>
    rw [Table.find?_insert] at hl
    split_ifs at hl with heq
    · obtain rfl := Option.some.inj hl
      subst heq
      obtain ⟨hcoherent, -⟩ := hroot.coherent (by simp [hphase])
      obtain ⟨m, k, r₀, rest, -, hr₀, hstate, rfl, -⟩ := Scope.startNext?_eq_some hcoherent hstart
      have hid : (r₀.start now).node = m := hcoherent.shape.node m r₀ hr₀
      have hidle := (hcoherent.shape.clear m r₀ hr₀).idle (Scope.isUnstarted_of_ready hstate)
      have hnone : e.site? (((r₀.start now).node, i) :: a) = none := by
        by_contra hsome
        obtain ⟨u, hu⟩ := Option.ne_none_iff_exists'.mp hsome
        obtain ⟨given', hroot'⟩ := h.sites _ u hu
        obtain ⟨t₀, r₁, ht₀, hr₁, hstarted⟩ := hroot'.parent _ _ _ rfl
        obtain rfl := Option.some.inj (ht.symm.trans ht₀)
        rw [hid, hr₀] at hr₁
        rw [← Option.some.inj hr₁, hidle] at hstarted
        simp at hstarted
      simp [hnone, Looping.start]
    · exact hkept hl (by simp)
  | startWork | report | hear | leave | close => exact hkept hl (by simp)
  | @iterate loop l₀ hl₀ hmay =>
    rw [Table.find?_insert] at hl
    split_ifs at hl with heq
    · obtain rfl := Option.some.inj hl
      subst heq
      rw [h.begun a t loop l₀ ht hl₀ i]
      simp only [true_and]
      omega
    · refine hkept hl ?_
      intro hevent
      exact heq (Event.iterate.inj hevent).2
  | @conclude loop l₀ hl₀ hmay =>
    rw [Table.find?_erase] at hl
    split_ifs at hl
    exact hkept hl (by simp)

/-! ### One event -/

/-- The site of an iteration that may begin is not there yet. -/
theorem Grounded.fresh (h : Grounded p e) (ht : e.site? a = some t) {n : NodeId} {l : Looping}
    (hl : t.loops.find? n = some l) : e.site? ((n, l.opened) :: a) = none := by
  have hbegun := h.begun a t n l ht hl l.opened
  rw [lt_self_iff_false, iff_false] at hbegun
  exact Option.not_isSome_iff_eq_none.mp hbegun

/-- Nor is it when only its loop has counted it. -/
theorem Grounded.fresh_putSite (h : Grounded p e) (ht : e.site? a = some t) {n : NodeId}
    {l : Looping} (hl : t.loops.find? n = some l) :
    (e.putSite p verbose a t').site? ((n, l.opened) :: a) = none := by
  rw [site?_putSite, if_neg fun heq => by simpa using congrArg List.length heq]
  exact h.fresh ht hl

theorem Grounded.putSite (hp : p.Sound) (hu : p.Untangled) (h : Grounded p e)
    (ht : e.site? a = some t) (hmoves : Moves p now e a t event t')
    (hother : ∀ loop, event ≠ .iterate a loop) :
    Grounded p (e.putSite p verbose a t') ∧ Later e (e.putSite p verbose a t') := by
  obtain ⟨given, hroot⟩ := h.sites a t ht
  obtain ⟨hroot', hlater⟩ := hmoves.rooted hp hu ht hroot
  have hlater' : Later e (e.putSite p verbose a t') := later_putSite ht hlater
  have hsome : ∀ b, ((e.putSite p verbose a t').site? b).isSome = (e.site? b).isSome := by
    intro b
    rw [site?_putSite]
    split_ifs with heq
    · subst heq
      rw [ht]
      rfl
    · rfl
  refine ⟨⟨nodup_keys_putSite h.keys a t', ?_, ?_⟩, hlater'⟩
  · intro b u hb
    rw [site?_putSite] at hb
    split_ifs at hb with heq
    · obtain rfl := Option.some.inj hb
      subst heq
      exact ⟨given, hroot'.later hlater'⟩
    · obtain ⟨given', hroot₁⟩ := h.sites b u hb
      exact ⟨given', hroot₁.later hlater'⟩
  · intro b u n l hb hl i
    rw [hsome]
    rw [site?_putSite] at hb
    split_ifs at hb with heq
    · obtain rfl := Option.some.inj hb
      subst heq
      rw [hmoves.begun h ht hl i]
      simp [hother n]
    · exact h.begun b u n l hb hl i

/-- When an iteration begins, it is among those of its loop that have begun. -/
theorem begun_iterate (h : Grounded p e) (ht : e.site? a = some t) {loop : NodeId} {l : Looping}
    (hmoves : Moves p now e a t (.iterate a loop) t')
    (ht' : t' = { t with loops := t.loops.insert loop { l with opened := l.opened + 1 } })
    {b : Address} {u : Site} {n : NodeId} {l' : Looping}
    (hb : ((e.putSite p verbose a t').openSite p verbose now ((loop, l.opened) :: a)
      (l.deliveries p l.opened)).site? b = some u)
    (hl' : u.loops.find? n = some l') (i : ℕ) :
    (((e.putSite p verbose a t').openSite p verbose now ((loop, l.opened) :: a)
      (l.deliveries p l.opened)).site? ((n, i) :: b)).isSome = true ↔ i < l'.opened := by
  have hsome : ((e.putSite p verbose a t').openSite p verbose now ((loop, l.opened) :: a)
      (l.deliveries p l.opened)).site? ((n, i) :: b) = none ↔
        ¬ ((loop, l.opened) :: a = (n, i) :: b) ∧ e.site? ((n, i) :: b) = none := by
    rw [site?_openSite, site?_putSite]
    split_ifs with hnew hself
    · simp [hnew]
    · subst hself
      simp [ht]
    · simp [hnew]
  rw [← not_iff_not, Option.not_isSome_iff_eq_none, hsome]
  rw [site?_openSite] at hb
  split_ifs at hb with hnew
  · obtain rfl := Option.some.inj hb
    simp at hl'
  rw [site?_putSite] at hb
  split_ifs at hb with heq
  · obtain rfl := Option.some.inj hb
    subst heq
    have hnext : (loop, l.opened) :: a = (n, i) :: a ↔
        Event.iterate a loop = Event.iterate a n ∧ l'.opened = i + 1 := by
      rw [ht', Table.find?_insert] at hl'
      simp only [List.cons.injEq, Prod.mk.injEq, and_true, Event.iterate.injEq, true_and]
      refine and_congr_right fun hn => ?_
      rw [if_pos hn] at hl'
      rw [← Option.some.inj hl']
      simp
    rw [hmoves.begun h ht hl' i, hnext, not_or, Option.not_isSome_iff_eq_none]
    exact and_comm
  · rw [← h.begun b u n l' hb hl' i, Option.not_isSome_iff_eq_none]
    refine and_iff_right ?_
    intro hcons
    exact heq (List.cons.inj hcons).2

theorem Grounded.iterate (hp : p.Sound) (hu : p.Untangled) (h : Grounded p e)
    (ht : e.site? a = some t) {loop : NodeId} {l : Looping} (hl : t.loops.find? loop = some l)
    (hmay : e.mayIterate a l = true)
    (ht' : t' = { t with loops := t.loops.insert loop { l with opened := l.opened + 1 } }) :
    Grounded p ((e.putSite p verbose a t').openSite p verbose now ((loop, l.opened) :: a)
      (l.deliveries p l.opened)) ∧
    Later e ((e.putSite p verbose a t').openSite p verbose now ((loop, l.opened) :: a)
      (l.deliveries p l.opened)) := by
  have hmoves : Moves p now e a t (.iterate a loop) t' := by
    rw [ht']
    exact .iterate hl hmay
  obtain ⟨given, hroot⟩ := h.sites a t ht
  obtain ⟨hroot', hlater⟩ := hmoves.rooted hp hu ht hroot
  have hfresh : (e.putSite p verbose a t').site? ((loop, l.opened) :: a) = none :=
    h.fresh_putSite ht hl
  have hput : Later e (e.putSite p verbose a t') := later_putSite ht hlater
  have hlater' : Later e ((e.putSite p verbose a t').openSite p verbose now
      ((loop, l.opened) :: a) (l.deliveries p l.opened)) := hput.trans (later_openSite hfresh)
  have hopened : l.opened < l.count := of_decide_eq_true ((Bool.and_eq_true _ _).mp hmay).1
  refine ⟨⟨nodup_keys_putSite (nodup_keys_putSite h.keys a t') _ _, ?_,
    fun _ _ _ _ => begun_iterate h ht hmoves ht'⟩, hlater'⟩
  intro b u hb
  rw [site?_openSite] at hb
  split_ifs at hb with heq
  · obtain rfl := Option.some.inj hb
    subst heq
    exact ⟨_, ((hroot.loops loop l hl).rooted_iteration hp hu ht hopened).later hlater'⟩
  · rw [site?_putSite] at hb
    split_ifs at hb with heq'
    · obtain rfl := Option.some.inj hb
      subst heq'
      exact ⟨given, hroot'.later hlater'⟩
    · obtain ⟨given', hroot₁⟩ := h.sites b u hb
      exact ⟨given', hroot₁.later hlater'⟩

/-- An event keeps an execution grounded and takes nothing back. -/
theorem Grounded.perform (hp : p.Sound) (hu : p.Untangled) (h : Grounded p e)
    (hevent : e.perform? p verbose now event = some e') : Grounded p e' ∧ Later e e' := by
  obtain ⟨rfl, rfl⟩ | ⟨a, t, t', ht, hmoves, ⟨hother, rfl⟩ | ⟨loop, l, rfl, hl, hmay, ht', rfl⟩⟩ :=
    perform?_eq_some hevent
  · exact ⟨⟨h.keys, fun a t ht => (h.sites a t ht).imp fun _ hroot => hroot.later (.refl e),
      h.begun⟩, .refl e⟩
  · exact h.putSite hp hu ht hmoves (hother · )
  · exact h.iterate hp hu ht hl hmay ht'

/-- What moves keep of a scope, and what holds of a scope that begins, an event keeps of all. -/
theorem Grounded.each {P : Site → Prop} (hp : p.Sound) (h : Grounded p e)
    (hevent : e.perform? p verbose now event = some e')
    (hseed : ∀ owner deliveries, p.Proper owner deliveries →
      (∀ l, owner = some l → p.graph.kind? l = some .loop) →
        P ⟨Scope.seed p now owner deliveries, .running, [], [], []⟩)
    (hmove : ∀ a t t', e.site? a = some t → Moves p now e a t event t' → P t → P t')
    (hall : ∀ a t, e.site? a = some t → P t) : ∀ a t, e'.site? a = some t → P t := by
  intro a t' ht'
  rcases perform?_site_cases hevent ht' with
    hsame | ⟨t, ht, hmoves⟩ | ⟨outer, u, loop, l, -, hu, hl, rfl⟩
  · exact hall a t' hsame
  · exact hmove a t t' ht hmoves (hall a t ht)
  · obtain ⟨given, hroot⟩ := h.sites outer u hu
    have hstems := hroot.loops loop l hl
    refine hseed _ _ (hstems.proper hp l.opened) ?_
    intro k hk
    rw [← Option.some.inj hk]
    exact hstems.kind

/-! ### All events -/

theorem proper_top (p : Plan) : p.Proper none [] := by
  refine ⟨List.nodup_nil, fun t => ⟨by simp, ?_⟩⟩
  rintro ⟨l, hnone, -⟩
  cases hnone

theorem site?_begin (permits : ℕ) (aborted : Bool) (a : Address) :
    (begin p verbose now permits aborted).site? a =
      if [] = a then some ⟨Scope.seed p now none [], .running, [], [], []⟩ else none :=
  site?_openSite p verbose now _ [] a []

theorem site?_begin_eq_some {permits : ℕ} {aborted : Bool}
    (ht : (begin p verbose now permits aborted).site? a = some t) :
    a = [] ∧ t = ⟨Scope.seed p now none [], .running, [], [], []⟩ := by
  rw [site?_begin] at ht
  split_ifs at ht with heq
  exact ⟨heq.symm, (Option.some.inj ht).symm⟩

theorem sites_begin (permits : ℕ) (aborted : Bool) :
    (begin p verbose now permits aborted).sites =
      [([], ⟨Scope.seed p now none [], .running, [], [], []⟩)] := rfl

theorem grounded_begin (hp : p.Sound) (hu : p.Untangled) (permits : ℕ) (aborted : Bool) :
    Grounded p (begin p verbose now permits aborted) := by
  refine ⟨nodup_keys_putSite (e := ⟨max 1 permits, [], aborted, []⟩) List.nodup_nil _ _, ?_, ?_⟩
  · intro a t ht
    obtain ⟨rfl, rfl⟩ := site?_begin_eq_some ht
    obtain ⟨hcoherent, -, howner⟩ :=
      Scope.coherent_seed now none hp (proper_top p) hu (by simp)
    refine ⟨[], by simp, by simp, ⟨_, hcoherent, howner, ?_, Or.inl ⟨by simp, rfl⟩⟩, by simp⟩
    intro hsighted
    exact Scope.chosen_of_sighted hp hu now (proper_top p) (by simp)
      (hsighted now)
  · intro a t n l ht hl
    obtain ⟨rfl, rfl⟩ := site?_begin_eq_some ht
    simp at hl

theorem Reachable.grounded (hp : p.Sound) (hu : p.Untangled) (h : Reachable p verbose e) :
    Grounded p e := by
  induction h with
  | begin now permits aborted => exact grounded_begin hp hu permits aborted
  | step _ hevent ih => exact (ih.perform hp hu hevent).1

/-- A fault in a scope calls the execution off. -/
theorem Reachable.aborted_of_fault (h : Reachable p verbose e) :
    ∀ a t, e.site? a = some t → t.scope.fault.isSome = true → e.aborted = true := by
  have hput : ∀ {e : Execution} {b u}, (∀ a t, e.site? a = some t → t.scope.fault.isSome = true →
      e.aborted = true) → ∀ a t, (e.putSite p verbose b u).site? a = some t →
        t.scope.fault.isSome = true → (e.putSite p verbose b u).aborted = true := by
    intro e b u hall a t ht hfault
    rw [aborted_putSite, Bool.or_eq_true]
    rw [site?_putSite] at ht
    split_ifs at ht
    · rw [Option.some.inj ht]
      exact Or.inr hfault
    · exact Or.inl (hall a t ht hfault)
  induction h with
  | begin now permits aborted => exact hput (by simp [site?])
  | step _ hevent ih =>
    obtain ⟨-, rfl⟩ | ⟨a, t, t', -, -, ⟨-, rfl⟩ | ⟨loop, l, -, -, -, -, rfl⟩⟩ :=
      perform?_eq_some hevent
    · exact fun _ _ _ _ => rfl
    · exact hput ih
    · exact hput (hput ih)

/-- Every execution has a top level. -/
theorem Reachable.top (hp : p.Sound) (hu : p.Untangled) (h : Reachable p verbose e) :
    ∃ t, e.site? [] = some t := by
  induction h with
  | begin now permits aborted => exact ⟨_, by rw [site?_begin, if_pos rfl]⟩
  | step h hevent ih =>
    obtain ⟨t, ht⟩ := ih
    obtain ⟨t', ht', -⟩ := ((h.grounded hp hu).perform hp hu hevent).2 [] t ht
    exact ⟨t', ht'⟩

end PortGraph.Execution
