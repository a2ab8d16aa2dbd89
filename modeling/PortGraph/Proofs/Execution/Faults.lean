import PortGraph.Proofs.Execution.Orderly

/-!
Faults of orderly executions. As long as no scope has found a fault, each scope leaves in peace:
with an empty queue and nobody under way. If then members are left when it closes, they supply each
other in a ring, and nothing changes that scope any more.
-/

namespace PortGraph.Execution

open Plan Relation

variable {p : Plan} {verbose : Bool} {now : Timestamp} {e e' : Execution} {a : Address}
variable {t t' : Site} {given : List (PortRef × Json)} {event : Event}

/-- A scope of an execution without faults. -/
structure Calm (t : Site) : Prop where
  fault : t.scope.fault = none
  kept : ∀ n, t.scope.isIn .cancelled n = false
  reports : ∀ r ∈ t.reports, ∃ c, r = .ended c ∧ c.outcome.Regular
  leaving : ∀ aborted, t.phase = .leaving aborted →
    aborted = false ∧ t.scope.ready = [] ∧ t.flying = []
  ended : t.phase = .ended → ∀ n r, t.scope.run? n = some r → r.state.isTerminal = true
  forsaken : t.phase = .ended → ∀ n, ¬ t.scope.Forsaken n

/-- A scope that has closed with members left, which supply each other in a ring. -/
def Broken (p : Plan) (t : Site) : Prop :=
  t.phase = .ended ∧ t.scope.fault ≠ none ∧ t.scope.Ringed p

/-- No scope has found a fault. -/
def Clean (e : Execution) : Prop := ∀ a t, e.site? a = some t → t.scope.fault = none

theorem Calm.startNext (h : Calm t) (hcoherent : Scope.Coherent p given t.scope []) {s : Scope}
    {r : NodeRun} (hstart : t.scope.startNext? now = some (s, r)) :
    s.fault = none ∧ ∀ n, s.isIn .cancelled n = false := by
  have hstates : ∀ n, s.isIn .cancelled n =
      if r.node = n then RunState.running == .cancelled else t.scope.isIn .cancelled n :=
    fun n => hcoherent.isIn_startNext hstart n
  obtain ⟨m, k, r₀, rest, -, -, -, -, rfl⟩ := Scope.startNext?_eq_some hcoherent hstart
  refine ⟨h.fault, fun n => ?_⟩
  rw [hstates n, h.kept n]
  split_ifs <;> rfl

/-- A scope with a node under way does not leave. -/
theorem Calm.not_leaving (h : Calm t) {n : NodeId} (hn : n ∈ t.flying) (aborted : Bool) :
    t.phase ≠ .leaving aborted := by
  intro hleaving
  rw [(h.leaving aborted hleaving).2.2] at hn
  simp at hn

theorem Calm.report (h : Calm t) {r : Report} (hbusy : r.node ∈ t.busy)
    (hregular : ∃ c, r = .ended c ∧ c.outcome.Regular) :
    Calm { t with busy := t.busy.erase r.node, reports := t.reports ++ [r] } := by
  refine ⟨h.fault, h.kept, ?_, fun aborted hleaving =>
    absurd hleaving (h.not_leaving (Site.mem_flying_of_busy hbusy) aborted), h.ended, h.forsaken⟩
  intro r' hr'
  rcases List.mem_append.mp hr' with hr' | hr'
  · exact h.reports r' hr'
  · rw [List.mem_singleton.mp hr']
    exact hregular

theorem Calm.hear (hp : p.Sound) (hu : p.Untangled) (h : Calm t) (hframe : Tidy t)
    (hcoherent : Scope.Coherent p given t.scope []) (hlive : t.phase ≠ .ended) {r : Report}
    {id : NodeId} (hr : t.reports.find? (fun r => r.node == id) = some r) :
    Calm { t with
      scope := t.scope.hear p now r
      reports := t.reports.filter fun r => !(r.node == id) } := by
  obtain ⟨c, run, rfl, hmem, hid, hrun, hrunning⟩ := hframe.heard hr
  have hregular : c.outcome.Regular := by
    obtain ⟨c', hc', hregular⟩ := h.reports _ hmem
    obtain rfl := Report.ended.inj hc'
    exact hregular
  refine ⟨?_, ?_, fun r' hr' => h.reports r' (List.mem_of_mem_filter hr'), fun aborted hleaving =>
    absurd hleaving (h.not_leaving (Site.mem_flying_of_reported hmem) aborted),
    fun hended => absurd hended hlive, fun hended => absurd hended hlive⟩
  · by_contra hsome
    obtain ⟨f, hf⟩ := Option.ne_none_iff_exists'.mp hsome
    rcases hcoherent.fault_complete hp hu hrun hrunning hf with hold | hout
    · rw [h.fault] at hold
      simp at hold
    · rcases hregular with ⟨outputs, hreg⟩ | ⟨err, hreg⟩ <;> simp [hreg] at hout
  · intro n
    have hstates : (t.scope.complete p now c).isIn .cancelled n =
        if c.node = n then
          (Scope.concluded now { run with attempts := c.attempts } c.outcome).state == .cancelled
        else t.scope.isIn .cancelled n := hcoherent.isIn_complete hp hu hrun hrunning rfl n
    change (t.scope.complete p now c).isIn .cancelled n = false
    rw [hstates, h.kept n]
    rcases hregular with ⟨outputs, hreg⟩ | ⟨err, hreg⟩ <;> rw [hreg] <;> split_ifs <;> rfl

theorem Calm.conclude (h : Calm t) {loop : NodeId} {l : Looping} {o : Outcome}
    (hl : t.loops.find? loop = some l) (ho : o.Regular) :
    Calm { t with
      loops := t.loops.erase loop
      reports := t.reports ++ [.ended ⟨loop, [], o⟩] } := by
  refine ⟨h.fault, h.kept, ?_, fun aborted hleaving =>
    absurd hleaving (h.not_leaving (Site.mem_flying_of_loop hl) aborted), h.ended, h.forsaken⟩
  intro r' hr'
  rcases List.mem_append.mp hr' with hr' | hr'
  · exact h.reports r' hr'
  · rw [List.mem_singleton.mp hr']
    exact ⟨_, rfl, ho⟩

/-- A calm scope that closes has ended all its members, or those that are left supply each other in
a ring. -/
theorem Calm.close (hp : p.Sound) (hu : p.Untangled) (h : Calm t) (hframe : Tidy t)
    (hcoherent : Scope.Coherent p given t.scope []) (now : Timestamp) {aborted : Bool}
    (hphase : t.phase = .leaving aborted) :
    Calm { t with scope := t.scope.close now aborted, phase := .ended } ∨
      Broken p { t with scope := t.scope.close now aborted, phase := .ended } := by
  obtain ⟨rfl, hready, hflying⟩ := h.leaving aborted hphase
  have hnobody : ∀ n, t.scope.isIn .running n = false := by
    intro n
    have hcount := hframe.flight n
    rw [hflying] at hcount
    by_contra hin
    rw [if_pos (by simpa using hin)] at hcount
    simp at hcount
  by_cases hleft : t.scope.unfinished = []
  · have hsame : t.scope.close now false = t.scope := Scope.close_of_finished false hleft
    rw [hsame]
    refine Or.inl ⟨h.fault, h.kept, h.reports, by simp, ?_, fun _ => Scope.not_forsaken hcoherent⟩
    intro _ n r hr
    by_contra hlive'
    have hmem := (Scope.mem_unfinished hcoherent.shape).mpr ⟨r, hr, by simpa using hlive'⟩
    rw [hleft] at hmem
    simp at hmem
  · refine Or.inr ⟨rfl, ?_,
      Scope.ringed_close hp hu hcoherent hready hnobody h.kept hleft now false⟩
    change (t.scope.close now false).fault ≠ none
    rw [Scope.fault_close h.fault, if_neg hleft]
    simp

/-- In an execution without faults a move leaves a scope calm or closes it with a ring. -/
theorem Moves.calm (hp : p.Sound) (hu : p.Untangled) (hg : Grounded p e)
    (htidy : ∀ b u, e.site? b = some u → Tidy u) (hcalm : ∀ b u, e.site? b = some u → Calm u)
    (haborted : e.aborted = false) (hevent : event.Regular) (ht : e.site? a = some t)
    (hmoves : Moves p now e a t event t') : Calm t' ∨ Broken p t' := by
  have h := hcalm a t ht
  have hframe := htidy a t ht
  obtain ⟨given, hroot⟩ := hg.sites a t ht
  have hlive : t.phase ≠ .ended := hmoves.live hframe.ended
  have hcoherent : Scope.Coherent p given t.scope [] := (hroot.coherent hlive).1
  cases hmoves with
  | startLoop hphase hfault hstart | startWork hphase hfault hstart =>
    obtain ⟨hnone, hkept⟩ := h.startNext hcoherent hstart
    refine Or.inl ⟨hnone, hkept, h.reports, ?_, ?_, ?_⟩
    · intro aborted hleaving
      exact absurd (hphase.symm.trans hleaving) (by simp)
    · exact fun hended => absurd hended hlive
    · exact fun hended => absurd hended hlive
  | report hbusy => exact Or.inl (h.report hbusy hevent)
  | hear _ _ hr => exact Or.inl (h.hear hp hu hframe hcoherent hlive hr)
  | iterate hl =>
    exact Or.inl ⟨h.fault, h.kept, h.reports, fun aborted hleaving =>
      absurd hleaving (h.not_leaving (Site.mem_flying_of_loop hl) aborted), h.ended, h.forsaken⟩
  | conclude hl =>
    refine Or.inl (h.conclude hl ?_)
    rw [haborted]
    refine regular_of_outcome fun x hx => ?_
    obtain ⟨⟨i, u⟩, hmem, rfl⟩ := List.mem_map.mp hx
    exact (hcalm _ u ((mem_iterations hg.keys).mp hmem)).fault
  | @leave aborted hphase heq hquiet =>
    have hnot : aborted = false := by
      rw [heq, haborted, h.fault]
      rfl
    refine Or.inl ⟨h.fault, h.kept, h.reports, ?_, by simp, by simp⟩
    intro aborted' hleaving
    obtain rfl := Phase.leaving.inj hleaving
    rcases hquiet with habort | ⟨hready, hidle⟩
    · rw [hnot] at habort
      simp at habort
    · exact ⟨hnot, hready, Site.inFlight_eq_false_iff.mp hidle⟩
  | close hphase => exact h.close hp hu hframe hcoherent now hphase

/-! ### One event -/

/-- Either no scope has found a fault, or the execution is called off and one scope has closed with
a ring. -/
structure Judged (p : Plan) (e : Execution) : Prop where
  tidy : ∀ a t, e.site? a = some t → Tidy t
  cases : (e.aborted = false ∧ ∀ a t, e.site? a = some t → Calm t) ∨
    (e.aborted = true ∧ ∃ a t, e.site? a = some t ∧ Broken p t)

theorem Judged.putSite (h : Judged p e) (ht : e.site? a = some t) (hlive : t.phase ≠ .ended)
    (htidy : Tidy t') (hmove : e.aborted = false → (∀ b u, e.site? b = some u → Calm u) →
      Calm t' ∨ Broken p t') : Judged p (e.putSite p verbose a t') := by
  refine ⟨?_, ?_⟩
  · intro b u hb
    rw [site?_putSite] at hb
    split_ifs at hb with heq
    · rw [← Option.some.inj hb]
      exact htidy
    · exact h.tidy b u hb
  · rcases h.cases with ⟨haborted, hcalm⟩ | ⟨haborted, b, u, hb, hbroken⟩
    · rcases hmove haborted hcalm with hnext | hbroken
      · refine Or.inl ⟨by rw [aborted_putSite, haborted, hnext.fault]; rfl, ?_⟩
        intro b u hb
        rw [site?_putSite] at hb
        split_ifs at hb with heq
        · rw [← Option.some.inj hb]
          exact hnext
        · exact hcalm b u hb
      · refine Or.inr ⟨?_, a, t', by rw [site?_putSite, if_pos rfl], hbroken⟩
        rw [aborted_putSite, Option.isSome_iff_ne_none.mpr hbroken.2.1, Bool.or_true]
    · refine Or.inr ⟨by rw [aborted_putSite, haborted, Bool.true_or], b, u, ?_, hbroken⟩
      rw [site?_putSite, if_neg]
      · exact hb
      · rintro rfl
        obtain rfl := Option.some.inj (ht.symm.trans hb)
        exact hlive hbroken.1

theorem tidy_seed (hp : p.Sound) (hu : p.Untangled) {owner : ScopeId}
    {deliveries : List (PortRef × Json)} (hproper : p.Proper owner deliveries)
    (hloop : ∀ l, owner = some l → p.graph.kind? l = some .loop) :
    Tidy ⟨Scope.seed p now owner deliveries, .running, [], [], []⟩ ∧
      Calm ⟨Scope.seed p now owner deliveries, .running, [], [], []⟩ := by
  obtain ⟨-, hfault, -⟩ := Scope.coherent_seed now owner hp hproper hu hloop
  refine ⟨⟨?_, List.Pairwise.nil, by simp, ?_, by simp⟩,
    ⟨hfault, ?_, by simp, by simp, by simp, by simp⟩⟩
  · intro n
    have hidle : (Scope.seed p now owner deliveries).isIn .running n = false :=
      Scope.isIn_seed hp hu hproper hloop rfl n
    simp [Site.flying, Table.keys, hidle]
  · intro f hf
    rw [hfault] at hf
    simp at hf
  · exact Scope.isIn_seed hp hu hproper hloop rfl

theorem Judged.openSite (h : Judged p e) (hfresh : e.site? a = none)
    {deliveries : List (PortRef × Json)}
    (htidy : Tidy ⟨Scope.seed p now a.owner deliveries, .running, [], [], []⟩)
    (hcalm : Calm ⟨Scope.seed p now a.owner deliveries, .running, [], [], []⟩) :
    Judged p (e.openSite p verbose now a deliveries) := by
  have haborted : (e.openSite p verbose now a deliveries).aborted = e.aborted := by
    have hfault : (Scope.seed p now a.owner deliveries).fault = none := hcalm.fault
    unfold Execution.openSite
    rw [aborted_putSite, hfault]
    exact Bool.or_false _
  refine ⟨?_, ?_⟩
  · intro b u hb
    rw [site?_openSite] at hb
    split_ifs at hb with heq
    · rw [← Option.some.inj hb]
      exact htidy
    · exact h.tidy b u hb
  · rw [haborted]
    rcases h.cases with ⟨hno, hall⟩ | ⟨hyes, b, u, hb, hbroken⟩
    · refine Or.inl ⟨hno, ?_⟩
      intro b u hb
      rw [site?_openSite] at hb
      split_ifs at hb with heq
      · rw [← Option.some.inj hb]
        exact hcalm
      · exact hall b u hb
    · exact Or.inr ⟨hyes, b, u, site?_openSite_of_known hfresh hb, hbroken⟩

theorem Judged.perform (hp : p.Sound) (hu : p.Untangled) (hg : Grounded p e) (h : Judged p e)
    (hregular : event.Regular) (hevent : e.perform? p verbose now event = some e') :
    Judged p e' := by
  obtain ⟨rfl, -⟩ | ⟨a, t, t', ht, hmoves, hcases⟩ := perform?_eq_some hevent
  · exact hregular.elim
  have hlive : t.phase ≠ .ended := hmoves.live (h.tidy a t ht).ended
  have hput : Judged p (e.putSite p verbose a t') :=
    h.putSite ht hlive (hmoves.tidy hp hu hg h.tidy hregular ht)
      fun haborted hcalm => hmoves.calm hp hu hg h.tidy hcalm haborted hregular ht
  rcases hcases with ⟨-, rfl⟩ | ⟨loop, l, rfl, hl, hmay, -, rfl⟩
  · exact hput
  · obtain ⟨given, hroot⟩ := hg.sites a t ht
    have hstems := hroot.loops loop l hl
    obtain ⟨htidy, hcalm⟩ : Tidy ⟨Scope.seed p now (some loop) (l.deliveries p l.opened), .running,
        [], [], []⟩ ∧ _ := tidy_seed hp hu (hstems.proper hp l.opened) (by
      intro k hk
      rw [← Option.some.inj hk]
      exact hstems.kind)
    exact hput.openSite (hg.fresh_putSite ht hl) htidy hcalm

theorem Orderly.judged (hp : p.Sound) (hu : p.Untangled) (h : Orderly p verbose e) :
    Judged p e := by
  induction h with
  | begin now permits =>
    obtain ⟨htidy, hcalm⟩ : Tidy ⟨Scope.seed p now none [], .running, [], [], []⟩ ∧ _ :=
      tidy_seed hp hu (proper_top p) (by simp)
    have hempty : Judged p ⟨max 1 permits, [], false, []⟩ := ⟨by simp [site?], Or.inl ⟨rfl, by simp [site?]⟩⟩
    exact hempty.openSite rfl htidy hcalm
  | step h hregular hevent ih =>
    exact ih.perform hp hu (h.reachable.grounded hp hu) hregular hevent

/-! ### Freedom from deadlock -/

/-- Nothing calls an execution off but a fault. -/
theorem Orderly.aborted_of_clean (hp : p.Sound) (hu : p.Untangled) (he : Orderly p verbose e)
    (hclean : e.Clean) : e.aborted = false := by
  rcases (he.judged hp hu).cases with ⟨haborted, -⟩ | ⟨-, a, t, ht, -, hfault, -⟩
  · exact haborted
  · exact absurd (hclean a t ht) hfault

theorem clean_of_check (h : (e.sites.all fun x => x.2.scope.fault.isNone) = true) : e.Clean := by
  intro a t ht
  obtain ⟨pre, post, heq, -⟩ := List.lookup_eq_some_iff.mp ht
  simpa using List.all_eq_true.mp h (a, t) (by rw [heq]; simp)

/-- Every member of every scope that has ended has ended by itself. -/
def Finished (p : Plan) (e : Execution) : Prop :=
  ∀ a t n, e.site? a = some t → t.phase = .ended → n ∈ p.membersIn t.scope.owner →
    ∃ r, t.scope.run? n = some r ∧ (r.state = .succeeded ∨ r.state = .failed ∨
      (r.state = .skipped ∧ r.skipReason ≠ some .aborted))

theorem Judged.finished (hg : Grounded p e) (h : Judged p e) (hclean : e.Clean) : Finished p e := by
  rcases h.cases with ⟨-, hcalm⟩ | ⟨-, a, t, ht, hbroken⟩
  · intro a t n ht hended hn
    obtain ⟨given, hroot⟩ := hg.sites a t ht
    obtain ⟨s, hcoherent, -, -, ⟨hlive, -⟩ | ⟨-, now, aborted, heq⟩⟩ := hroot.scope
    · exact absurd hended hlive
    rw [heq, (Scope.close_kept aborted).1] at hn
    obtain ⟨r₀, hr₀⟩ := Option.isSome_iff_exists.mp ((hcoherent.shape.member n).mpr hn)
    obtain ⟨r, hr⟩ : ∃ r, t.scope.run? n = some r := by
      rw [heq, Scope.run?_close hcoherent.shape, hr₀]
      exact ⟨_, rfl⟩
    have hc := hcalm a t ht
    have hterm := hc.ended hended n r hr
    refine ⟨r, hr, ?_⟩
    cases hstate : r.state with
    | succeeded => exact Or.inl rfl
    | failed => exact Or.inr (Or.inl rfl)
    | skipped =>
      exact Or.inr (Or.inr ⟨rfl, fun hreason => hc.forsaken hended n ⟨r, hr, hstate, hreason⟩⟩)
    | cancelled =>
      have hin := Scope.isIn_iff.mpr ⟨r, hr, hstate⟩
      rw [hc.kept n] at hin
      simp at hin
    | _ =>
      rw [hstate] at hterm
      simp [RunState.isTerminal] at hterm
  · exact absurd (hclean a t ht) hbroken.2.1

/-- A scope of an execution without faults holds no ring. -/
theorem Calm.unringed (h : Calm t) (hroot : Rooted p e a t given) : ¬ t.scope.Ringed p := by
  rintro ⟨n, hn⟩
  obtain ⟨m, ⟨hforsaken, -⟩, -⟩ := TransGen.head'_iff.mp hn
  by_cases hended : t.phase = .ended
  · exact h.forsaken hended n hforsaken
  · exact Scope.not_forsaken (hroot.coherent hended).1 n hforsaken

/-- Only members left over can be at fault in an orderly execution. It is without faults just if no
scope holds a ring of members that never ran; then every member of a scope that has ended has ended
by itself. A plan in whose scopes no nodes supply each other in a ring cannot go wrong. -/
theorem orderly_clean_iff {p : Plan} (h : p.Accepted) (hu : p.Untangled) (verbose : Bool) :
    (∀ e, Orderly p verbose e →
      (∀ a t f, e.site? a = some t → t.scope.fault = some f → ∃ ids, f = .neverReady ids) ∧
      (e.Clean ↔ ∀ a t, e.site? a = some t → ¬ t.scope.Ringed p) ∧
      (e.Clean → Finished p e)) ∧
    ((∀ scope n, ¬ TransGen (p.Supplies scope) n n) → ∀ e, Orderly p verbose e → e.Clean) := by
  have hp := Plan.sound_of_accepted h
  have hiff : ∀ e, Orderly p verbose e →
      (e.Clean ↔ ∀ a t, e.site? a = some t → ¬ t.scope.Ringed p) := by
    intro e he
    rcases (he.judged hp hu).cases with ⟨-, hcalm⟩ | ⟨-, a, t, ht, hbroken⟩
    · refine iff_of_true (fun a t ht => (hcalm a t ht).fault) ?_
      intro a t ht
      obtain ⟨given, hroot⟩ := (he.reachable.grounded hp hu).sites a t ht
      exact (hcalm a t ht).unringed hroot
    · exact iff_of_false (fun hclean => hbroken.2.1 (hclean a t ht))
        fun hno => hno a t ht hbroken.2.2
  refine ⟨fun e he => ⟨?_, hiff e he, ?_⟩, ?_⟩
  · exact fun a t f ht => ((he.judged hp hu).tidy a t ht).fault f
  · exact (he.judged hp hu).finished (he.reachable.grounded hp hu)
  · intro hstatic e he
    refine (hiff e he).mpr ?_
    rintro a t ht ⟨n, hn⟩
    exact hstatic t.scope.owner n (TransGen.mono (fun m k hmk => hmk.2.2) n n hn)

theorem loopInLoop_clean : ∃ p, Plan.ofDefinition Plan.loopInLoop = .ok p ∧
    ∀ e, Orderly p false e → e.Clean ∧ Finished p e := by
  obtain ⟨p, hp, hcaptures, hloops⟩ := Plan.exists_of_check (d := Plan.loopInLoop)
    (P := fun p => (∀ l ∈ p.nesting.loops, l.2.captures = []) ∧
      ∀ a ∈ p.nesting.loops, ∀ b ∈ p.nesting.loops, ¬ (a.1 ∈ b.2.body ∧ b.1 ∈ a.2.body))
    (by decide +kernel)
  have haccepted : p.Accepted := ⟨Plan.loopInLoop, hp⟩
  have hu := Plan.untangled_of_loops hloops
  obtain ⟨hall, hstatic⟩ := orderly_clean_iff haccepted hu false
  have hclean := hstatic ((Plan.sound_of_accepted haccepted).ringless_of_captures hu (by
    intro l lp hlp
    obtain ⟨pre, post, heq, -⟩ := List.lookup_eq_some_iff.mp hlp
    exact hcaptures (l, lp) (by rw [heq]; simp)))
  exact ⟨p, hp, fun e he => ⟨hclean e he, (hall e he).2.2 (hclean e he)⟩⟩

/-- The execution after some events at given times; none if one of them cannot happen. -/
def after? (p : Plan) (verbose : Bool) (e : Execution) (events : List (Timestamp × Event)) :
    Option Execution :=
  events.foldlM (fun e x => e.perform? p verbose x.1 x.2) e

theorem orderly_of_after? {events : List (Timestamp × Event)} (h : Orderly p verbose e)
    (hregular : ∀ x ∈ events, x.2.Regular) (hafter : e.after? p verbose events = some e') :
    Orderly p verbose e' := by
  induction events generalizing e with
  | nil =>
    obtain rfl := Option.some.inj hafter
    exact h
  | cons x rest ih =>
    obtain ⟨e₁, hevent, hrest⟩ := Option.bind_eq_some_iff.mp hafter
    exact ih (.step h (hregular x List.mem_cons_self) hevent)
      (fun y hy => hregular y (List.mem_cons_of_mem _ hy)) hrest

/-- A loop whose body takes the value of a node that waits for the loop. -/
def captureRing : Definition :=
  ⟨[⟨"in", "data-input", []⟩, ⟨"loop", "logic-loop", []⟩, ⟨"after", "data-transform", []⟩,
    ⟨"pair", "logic-merge", []⟩],
   [⟨⟨"in", "value"⟩, ⟨"loop", "collection"⟩⟩, ⟨⟨"loop", "item"⟩, ⟨"pair", "input1"⟩⟩,
    ⟨⟨"loop", "results"⟩, ⟨"after", "input"⟩⟩, ⟨⟨"after", "output"⟩, ⟨"pair", "input2"⟩⟩,
    ⟨⟨"pair", "merged"⟩, ⟨"loop", "result"⟩⟩]⟩

/-- The input node gives a list, and then nobody can start. -/
def ringEvents : List (Timestamp × Event) :=
  [.dispatch [], .report [] (.ended ⟨"in", [], .succeeded [("value", .array [.null])]⟩),
    .hear [] "in", .leave [], .close []].map fun event => (.epoch, event)

theorem captureRing_not_clean : ∃ p, Plan.ofDefinition captureRing = .ok p ∧ p.Untangled ∧
    ∃ e t, Orderly p false e ∧ e.site? [] = some t ∧
      t.scope.fault = some (.neverReady ["after", "loop"]) := by
  obtain ⟨p, hp, hloops, hfault⟩ := Plan.exists_of_check (d := captureRing)
    (P := fun p =>
      (∀ a ∈ p.nesting.loops, ∀ b ∈ p.nesting.loops, ¬ (a.1 ∈ b.2.body ∧ b.1 ∈ a.2.body)) ∧
      ((begin p false .epoch 1 false).after? p false ringEvents).any fun e =>
        (e.site? []).any fun t => t.scope.fault == some (.neverReady ["after", "loop"]))
    (by decide +kernel)
  obtain ⟨e, hafter, hsome⟩ := (Option.any_eq_true _ _).mp hfault
  obtain ⟨t, ht, hcheck⟩ := (Option.any_eq_true _ _).mp hsome
  refine ⟨p, hp, Plan.untangled_of_loops hloops, e, t, ?_, ht, by simpa using hcheck⟩
  refine orderly_of_after? (.begin .epoch 1) ?_ hafter
  intro x hx
  simp only [ringEvents, List.map_cons, List.map_nil, List.mem_cons, List.not_mem_nil,
    or_false] at hx
  rcases hx with rfl | rfl | rfl | rfl | rfl
  · trivial
  · exact ⟨_, rfl, Or.inl ⟨_, rfl⟩⟩
  · trivial
  · trivial
  · trivial

end PortGraph.Execution
