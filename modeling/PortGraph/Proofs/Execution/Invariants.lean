import PortGraph.Proofs.Execution.Grounded
import PortGraph.Proofs.Scope.Recorded

/-!
What holds of all scopes of all executions. A property of a scope and of the signals that it has yet
to work off is an invariant if it holds when a scope begins, and signals, starts, ends and the close
of the scope keep it. It then holds of every scope that an execution comes to.
-/

namespace PortGraph

open Plan

/-- A property that scopes have from their beginning and never lose. -/
structure Scope.Invariant (p : Plan) (Q : Scope → List Signal → Prop) : Prop where
  opening : ∀ now owner deliveries, p.Proper owner deliveries →
    (∀ l, owner = some l → p.graph.kind? l = some .loop) →
      Q (opening p now owner) (openingSignals p owner deliveries)
  react : ∀ {now given s sig rest s' more}, Coherent p given s (sig :: rest) → Q s (sig :: rest) →
    Reacts p now s sig s' more → Q s' (more ++ rest)
  start : ∀ {now given s s' r}, Coherent p given s [] → Q s [] →
    s.startNext? now = some (s', r) → Q s' []
  conclude : ∀ {now given s r} (c : Completion), Coherent p given s [] → Q s [] →
    s.run? c.node = some r → r.state = .running →
      Q (s.putEnded (concluded now { r with attempts := c.attempts } c.outcome))
        (announced p c.node c.outcome)
  violate : ∀ {s} (f : Fault), Q s [] → Q (s.violate f) []
  close : ∀ {now given s} (aborted : Bool), Coherent p given s [] → Q s [] →
    Q (s.close now aborted) []

namespace Scope

variable {p : Plan} {now : Timestamp} {given : List (PortRef × Json)} {s t : Scope}
variable {sigs left : List Signal} {Q : Scope → List Signal → Prop}

theorem Invariant.drains (hp : p.Sound) (hu : p.Untangled) (h : Invariant p Q)
    (hs : Coherent p given s sigs) (hq : Q s sigs) (hdrains : Drains p now s sigs t left) :
    Q t left :=
  (hdrains.keeps (P := fun u sigs => Coherent p given u sigs ∧ Q u sigs)
    (fun _ _ _ _ _ ⟨hcoherent, hq⟩ hreact =>
      ⟨hcoherent.react hp hu hreact, h.react hcoherent hq hreact⟩) ⟨hs, hq⟩).2

theorem Invariant.seed (hp : p.Sound) (hu : p.Untangled) (h : Invariant p Q) {owner : ScopeId}
    {deliveries : List (PortRef × Json)} (hproper : p.Proper owner deliveries)
    (hloop : ∀ l, owner = some l → p.graph.kind? l = some .loop) :
    Q (Scope.seed p now owner deliveries) [] := by
  have hopening := coherent_opening now owner hp hproper hu hloop
  rw [seed_eq now owner hp]
  exact h.drains hp hu hopening (h.opening now owner deliveries hproper hloop)
    (drains_handle hp hu now hopening.shape _)

theorem Invariant.hear (hp : p.Sound) (hu : p.Untangled) (h : Invariant p Q)
    (hs : Coherent p given s []) (hq : Q s []) (report : Report) : Q (s.hear p now report) [] := by
  rcases hs.hear_cases now hp hu report with
    ⟨f, heq⟩ | ⟨c, r, t, -, hr, hrunning, hdrains, hcases⟩
  · rw [heq]
    exact h.violate f hq
  · have hcoherent := hs.conclude hp hr hrunning (concludes_concluded now r c.attempts c.outcome)
      (announces_announced (hs.shape.node _ r hr) c.attempts c.outcome)
    have ht := h.drains hp hu hcoherent (h.conclude c hs hq hr hrunning) hdrains
    rcases hcases with heq | ⟨f, heq⟩
    · rw [heq]
      exact ht
    · rw [heq]
      exact h.violate f ht

end Scope

namespace Execution

variable {p : Plan} {verbose : Bool} {e : Execution} {Q : Scope → List Signal → Prop}

theorem Moves.invariant {now : Timestamp} {a : Address} {t t' : Site} {event : Event}
    {given : List (PortRef × Json)} (hp : p.Sound) (hu : p.Untangled) (hQ : Scope.Invariant p Q)
    (hroot : Rooted p e a t given) (hmoves : Moves p now e a t event t') (h : Q t.scope []) :
    Q t'.scope [] := by
  cases hmoves with
  | startLoop hphase _ hstart | startWork hphase _ hstart =>
    obtain ⟨hcoherent, -⟩ := hroot.coherent (by simp [hphase])
    exact hQ.start hcoherent h hstart
  | hear hlive =>
    obtain ⟨hcoherent, -⟩ := hroot.coherent hlive
    exact hQ.hear hp hu hcoherent h _
  | @close aborted hphase =>
    obtain ⟨hcoherent, -⟩ := hroot.coherent (by simp [hphase])
    exact hQ.close aborted hcoherent h
  | _ => exact h

/-- Every scope that an execution comes to has the invariants. -/
theorem Reachable.invariant (hp : p.Sound) (hu : p.Untangled) (hQ : Scope.Invariant p Q)
    (h : Reachable p verbose e) : ∀ a t, e.site? a = some t → Q t.scope [] := by
  induction h with
  | begin now permits aborted =>
    intro a t ht
    obtain ⟨rfl, rfl⟩ := site?_begin_eq_some ht
    exact hQ.seed hp hu (proper_top p) (by simp)
  | step h hevent ih =>
    have hg := h.grounded hp hu
    refine hg.each hp hevent (fun _ _ hproper hloop => hQ.seed hp hu hproper hloop) ?_ ih
    intro a t t' ht hmoves hscope
    obtain ⟨given, hroot⟩ := hg.sites a t ht
    exact hmoves.invariant hp hu hQ hroot hscope

end Execution

end PortGraph
