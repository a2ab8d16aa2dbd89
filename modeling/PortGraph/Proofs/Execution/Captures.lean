import PortGraph.Proofs.Execution.Loops
import PortGraph.Proofs.Scope.Course

/-!
Captures. Every scope of an execution has its course, so the counter of each loop is exact at any time:
it goes from the number of captures to zero by one value for each of them. Each iteration is then given
these values, each of them once.
-/

namespace PortGraph

open Plan

namespace Scope

/-- A scope that was given these values has come about by these signals, and may have closed since. -/
structure CameBy (p : Plan) (owner : ScopeId) (given : List (PortRef × Json)) (s : Scope)
    (sigs done : List Signal) : Prop where
  proper : p.Proper owner given
  isLoop : ∀ l, owner = some l → p.graph.kind? l = some .loop
  course : Course p owner given s sigs done ∨
    (sigs = [] ∧ ∃ s₀ now aborted, Course p owner given s₀ [] done ∧ s = s₀.close now aborted)

variable {p : Plan} {now : Timestamp} {owner : ScopeId} {given : List (PortRef × Json)}
variable {s t : Scope} {sigs done left : List Signal} {l : NodeId} {lp : LoopPlan}

theorem CameBy.takes (hp : p.Sound) (hu : p.Untangled) (h : CameBy p owner given s sigs done)
    (hlp : p.loop? l = some lp) : Takes p s sigs done l lp := by
  rcases h.course with hcourse | ⟨rfl, s₀, now, aborted, hcourse, rfl⟩
  · exact hcourse.takes hp hu h.proper h.isLoop hlp
  · exact (hcourse.takes hp hu h.proper h.isLoop hlp).close
      (hcourse.coherent hp hu h.proper h.isLoop).1.shape aborted

theorem CameBy.owner_eq (hp : p.Sound) (hu : p.Untangled)
    (h : CameBy p owner given s sigs done) : s.owner = owner := by
  rcases h.course with hcourse | ⟨-, s₀, now, aborted, hcourse, rfl⟩
  · exact (hcourse.coherent hp hu h.proper h.isLoop).2.1
  · exact (close_kept aborted).1.trans (hcourse.coherent hp hu h.proper h.isLoop).2.1

theorem CameBy.shape (hp : p.Sound) (hu : p.Untangled)
    (h : CameBy p owner given s sigs done) : Shape p s := by
  rcases h.course with hcourse | ⟨-, s₀, now, aborted, hcourse, rfl⟩
  · exact (hcourse.coherent hp hu h.proper h.isLoop).1.shape
  · exact shape_close (hcourse.coherent hp hu h.proper h.isLoop).1.shape aborted

theorem CameBy.drains (hproper : p.Proper owner given)
    (hloop : ∀ l, owner = some l → p.graph.kind? l = some .loop)
    (h : Course p owner given s sigs done) (hdrains : Drains p now s sigs t left) :
    ∃ done', CameBy p owner given t left done' := by
  obtain ⟨done', hcourse⟩ := h.drains hdrains
  exact ⟨done', hproper, hloop, Or.inl hcourse⟩

end Scope

namespace Execution

variable {p : Plan} {verbose : Bool} {now : Timestamp} {e : Execution} {a : Address} {s : Scope}
variable {t t' : Site} {event : Event} {l : NodeId} {lp : LoopPlan}

/-- A scope that is given these values, as far as it has come. -/
structure Traced (p : Plan) (t : Site) (owner : ScopeId) (given : List (PortRef × Json))
    (done : List Signal) : Prop where
  cameBy : Scope.CameBy p owner given t.scope [] done
  live : t.phase ≠ .ended → Scope.Course p owner given t.scope [] done

theorem Traced.ofCourse {owner : ScopeId} {given : List (PortRef × Json)} {done : List Signal}
    (hproper : p.Proper owner given)
    (hloop : ∀ l, owner = some l → p.graph.kind? l = some .loop)
    (h : Scope.Course p owner given t.scope [] done) : Traced p t owner given done :=
  ⟨⟨hproper, hloop, Or.inl h⟩, fun _ => h⟩

theorem traced_seed (hp : p.Sound) (hu : p.Untangled) {owner : ScopeId}
    {deliveries : List (PortRef × Json)} (hproper : p.Proper owner deliveries)
    (hloop : ∀ l, owner = some l → p.graph.kind? l = some .loop) :
    ∃ done, Traced p ⟨Scope.seed p now owner deliveries, .running, [], [], []⟩ owner deliveries
      done := by
  have hopening := Scope.coherent_opening now owner hp hproper hu hloop
  have hopens : Scope.Course p owner deliveries (Scope.opening p now owner)
      (Scope.openingSignals p owner deliveries) [] := .opens now
  obtain ⟨done, hcourse⟩ := hopens.drains (Scope.drains_handle hp hu now hopening.shape _)
  exact ⟨done, .ofCourse hproper hloop (by rwa [← Scope.seed_eq now owner hp] at hcourse)⟩

theorem Moves.traced (hp : p.Sound) (hu : p.Untangled) {owner : ScopeId}
    {given : List (PortRef × Json)} {done : List Signal} (hmoves : Moves p now e a t event t')
    (h : Traced p t owner given done) : ∃ done', Traced p t' owner given done' := by
  have hproper := h.cameBy.proper
  have hloop := h.cameBy.isLoop
  cases hmoves with
  | startLoop hphase _ hstart | startWork hphase _ hstart =>
    exact ⟨done, .ofCourse hproper hloop ((h.live (by simp [hphase])).starts hstart)⟩
  | @hear r id hlive =>
    have hcourse := h.live hlive
    obtain ⟨hcoherent, -⟩ := hcourse.coherent hp hu hproper hloop
    rcases hcoherent.hear_cases now hp hu r with
      ⟨f, heq⟩ | ⟨c, run, u, -, hr, hrunning, hdrains, hcases⟩
    · exact ⟨done, .ofCourse hproper hloop (heq ▸ hcourse.violates f)⟩
    · obtain ⟨done', hcourse'⟩ := (hcourse.concludes now c hr hrunning).drains hdrains
      refine ⟨done', .ofCourse hproper hloop ?_⟩
      rcases hcases with heq | ⟨f, heq⟩
      · exact heq ▸ hcourse'
      · exact heq ▸ hcourse'.violates f
  | leave hphase =>
    exact ⟨done, .ofCourse hproper hloop (h.live (by simp [hphase]))⟩
  | @close aborted hphase =>
    have hcourse := h.live (by simp [hphase])
    exact ⟨done, ⟨hproper, hloop, Or.inr ⟨rfl, t.scope, now, aborted, hcourse, rfl⟩⟩,
      fun hlive => absurd rfl hlive⟩
  | _ => exact ⟨done, h.cameBy, h.live⟩

/-- Every scope of an execution has its course. -/
theorem Reachable.traced (hp : p.Sound) (hu : p.Untangled) (h : Reachable p verbose e) :
    ∀ a t, e.site? a = some t → ∃ given done, Traced p t a.owner given done := by
  have hall : ∀ a t, e.site? a = some t → ∃ owner given done, Traced p t owner given done := by
    induction h with
    | begin now permits aborted =>
      intro a t ht
      obtain ⟨rfl, rfl⟩ := site?_begin_eq_some ht
      exact ⟨none, [], traced_seed hp hu (proper_top p) (by simp)⟩
    | step h hevent ih =>
      refine (h.grounded hp hu).each hp hevent
        (fun owner deliveries hproper hloop => ⟨owner, deliveries, traced_seed hp hu hproper hloop⟩)
        ?_ ih
      rintro a t t' - hmoves ⟨owner, given, done, htraced⟩
      exact ⟨owner, given, hmoves.traced hp hu htraced⟩
  intro a t ht
  obtain ⟨owner, given, done, htraced⟩ := hall a t ht
  obtain ⟨given', hroot⟩ := (h.grounded hp hu).sites a t ht
  obtain rfl : a.owner = owner := hroot.owner.symm.trans (htraced.cameBy.owner_eq hp hu)
  exact ⟨given, done, htraced⟩

/-- So has every state that a scope comes to, also between two signals. -/
theorem Reachable.cameBy (hp : p.Sound) (hu : p.Untangled) (h : Reachable p verbose e)
    (hpasses : Passes p e a s) :
    ∃ given sigs done, Scope.CameBy p a.owner given s sigs done := by
  have hg := h.grounded hp hu
  cases hpasses with
  | rests ht =>
    obtain ⟨given, done, htraced⟩ := h.traced hp hu _ _ ht
    exact ⟨given, [], done, htraced.cameBy⟩
  | @hears _ t now c r k ht hlive _ hr hrunning =>
    obtain ⟨given, done, htraced⟩ := h.traced hp hu _ _ ht
    obtain ⟨done', hcame⟩ := Scope.CameBy.drains htraced.cameBy.proper htraced.cameBy.isLoop
      ((htraced.live hlive).concludes now c hr hrunning) (Scope.drains_drain p now k _ _)
    exact ⟨given, _, done', hcame⟩
  | @begins now k =>
    obtain ⟨done', hcame⟩ := Scope.CameBy.drains (proper_top p) (by simp)
      (.opens now) (Scope.drains_drain p now k _ _)
    exact ⟨[], _, done', hcame⟩
  | @iterates outer t loop l now k ht hl =>
    obtain ⟨given, hroot⟩ := hg.sites outer t ht
    have hstems := hroot.loops loop l hl
    have hloop : ∀ k, some loop = some k → p.graph.kind? k = some .loop := by
      intro k hk
      rw [← Option.some.inj hk]
      exact hstems.kind
    obtain ⟨done', hcame⟩ := Scope.CameBy.drains (hstems.proper hp l.opened) hloop
      (.opens now) (Scope.drains_drain p now k _ _)
    exact ⟨_, _, done', hcame⟩

/-! ### Iterations -/

/-- Every iteration has begun with its item, its position, and one value for each capture. -/
theorem Reachable.begun (hp : p.Sound) (hu : p.Untangled) (h : Reachable p verbose e) {i : ℕ}
    (ht : e.site? ((l, i) :: a) = some t) : ∃ items, Begun p verbose e a l items i := by
  obtain ⟨now, u, looping, e₁, hreach, hleads, hsite, hstems, hlt, hopened⟩ := h.opened hp hu ht
  have hlater := (Leads.grounded hp hu (hreach.grounded hp hu) hleads).2
  obtain ⟨items, hitems⟩ : ∃ items, looping.items = .ok items := by
    have hlength : 0 < looping.itemList.length :=
      (Nat.zero_le i).trans_lt (hlt.trans_le (min_le_left _ _))
    unfold Looping.itemList at hlength
    cases hitems : looping.items with
    | error err => simp [hitems] at hlength
    | ok items => exact ⟨items, rfl⟩
  exact ⟨items, now, _, e₁, hleads, hopened, hstems.given hp hitems hlt hlater⟩

/-- The captures of a loop are counted exactly. -/
structure CountsCaptures (p : Plan) (l : NodeId) (lp : LoopPlan) : Prop where
  /-- They are the values delivered around the loop that lead into its body. -/
  links : ((p.delivered (p.scopeOf l)).filter fun k =>
    p.route (p.scopeOf l) k.target = some (.nested l)).Perm lp.captures
  single : lp.captures.Nodup
  /-- Each of them lowers the counter of the loop once, along every course of a scope. -/
  course : ∀ {owner given s sigs done}, p.Proper owner given →
    (∀ k, owner = some k → p.graph.kind? k = some .loop) →
      Scope.Course p owner given s sigs done → Scope.Takes p s sigs done l lp
  /-- Each state that a scope comes to has such a course. -/
  states : ∀ {verbose e a s}, Reachable p verbose e → Passes p e a s → ∃ given sigs done,
    Scope.CameBy p a.owner given s sigs done ∧ Scope.Takes p s sigs done l lp
  /-- Each iteration is given the value of each of them. -/
  iterations : ∀ {verbose e a i t}, Reachable p verbose e → e.site? ((l, i) :: a) = some t →
    ∃ items, Begun p verbose e a l items i

/-- Capture counting is exact. What is delivered around a loop and leads into its body are its captures,
each once. The counter of the loop starts at their number and each value that the loop takes in lowers
it by one; it is at zero, with one value taken in for each capture, when the loop is queued; and each
iteration is given each of these values once. -/
theorem capturesCounted {p : Plan} (h : p.Accepted) (hu : p.Untangled) {l : NodeId} {lp : LoopPlan}
    (hlp : p.loop? l = some lp) : CountsCaptures p l lp := by
  have hp := Plan.sound_of_accepted h
  refine ⟨hp.perm_captures hu (hp.scopeOf_mem_scopeIds l) rfl hlp, ?_, ?_, ?_, ?_⟩
  · refine List.Nodup.of_map Link.target ?_
    rw [(hp.loop?_eq_some hlp).2.1]
    exact hp.graph.nodup_captures (Nesting.nodup_bodyOf p.graph l) l
  · exact fun hproper hloop hcourse => hcourse.takes hp hu hproper hloop hlp
  · intro verbose e a s he hpasses
    obtain ⟨given, sigs, done, hcame⟩ := he.cameBy hp hu hpasses
    exact ⟨given, sigs, done, hcame, hcame.takes hp hu hlp⟩
  · exact fun he ht => he.begun hp hu ht

/-- A cell of the first row has begun. -/
def cellEvents : List (Timestamp × Event) :=
  [.dispatch [], .report [] (.ended ⟨"aside", [], .succeeded [("value", .bool true)]⟩),
    .hear [] "aside", .dispatch [],
    .report [] (.ended ⟨"in", [], .succeeded [("value", .array [.array [.null]])]⟩),
    .hear [] "in", .dispatch [], .iterate [] "rows", .dispatch [("rows", 0)],
    .iterate [("rows", 0)] "cells"].map fun event => (.epoch, event)

/-- The value that both loops take in has come to a cell. -/
theorem pairedCells_capturesCounted : ∃ p lp e, Plan.ofDefinition pairedCells = .ok p ∧
    p.loop? "cells" = some lp ∧ lp.captures = [⟨⟨"aside", "value"⟩, ⟨"pair", "input2"⟩⟩] ∧
    CountsCaptures p "cells" lp ∧ Reachable p false e ∧
    ∃ t, e.site? [("cells", 0), ("rows", 0)] = some t ∧
      (t.scope.run? "pair").map (fun r => r.inputs.find? "input2") = some (some (.bool true)) := by
  obtain ⟨p, hp, hloops, hcaptures, hall⟩ := Plan.exists_of_check (d := pairedCells)
    (P := fun p =>
      (∀ a ∈ p.nesting.loops, ∀ b ∈ p.nesting.loops, ¬ (a.1 ∈ b.2.body ∧ b.1 ∈ a.2.body)) ∧
      (p.loop? "cells").map LoopPlan.captures =
        some [⟨⟨"aside", "value"⟩, ⟨"pair", "input2"⟩⟩] ∧
      ((begin p false .epoch 1 false).after? p false cellEvents).any fun e =>
        (e.site? [("cells", 0), ("rows", 0)]).any fun t =>
          (t.scope.run? "pair").map (fun r => r.inputs.find? "input2") == some (some (.bool true)))
    (by decide +kernel)
  obtain ⟨e, hafter, hsite⟩ := (Option.any_eq_true _ _).mp hall
  obtain ⟨t, ht, hvalue⟩ := (Option.any_eq_true _ _).mp hsite
  obtain ⟨lp, hlp, hlinks⟩ := Option.map_eq_some_iff.mp hcaptures
  exact ⟨p, lp, e, hp, hlp, hlinks,
    capturesCounted ⟨pairedCells, hp⟩ (Plan.untangled_of_loops hloops) hlp,
    (Reachable.begin .epoch 1 false).leads (leads_of_after? hafter), t, ht, by simpa using hvalue⟩

end Execution

end PortGraph
