import Mathlib.Data.Fintype.EquivFin
import Mathlib.Data.Fintype.Sets
import Mathlib.Order.WellFounded
import PortGraph.Proofs.Plan.Feeds

/-!
Who waits for whom. A node waits for the nodes that supply it, and a node behind a branch waits for
the condition, which comes after it. Where nodes wait for each other and for nobody else, some of
them supply each other in a ring: the waiting for conditions alone holds nobody up for good.
-/

namespace PortGraph.Plan

open Nesting Relation

/-- One node of a scope sends a value to another one, or into the body of a loop there. -/
def Supplies (p : Plan) (scope : ScopeId) (m n : NodeId) : Prop :=
  ∃ t, p.Feeds m t ∧ (p.route scope t = some (.member n) ∨ p.route scope t = some (.nested n))

/-- Supply among the given nodes. -/
def SuppliesIn (p : Plan) (scope : ScopeId) (V : Finset NodeId) (m n : NodeId) : Prop :=
  m ∈ V ∧ n ∈ V ∧ p.Supplies scope m n

/-- The condition of a gate waits for its own condition. -/
def Awaits (p : Plan) (V : Finset NodeId) (c : NodeId) : Prop :=
  c ∈ V ∧ ∃ m ∈ V, p.Feeds m ⟨c, PortName.condition⟩

/-- Members of a scope each of which waits for one of them. -/
structure Stuck (p : Plan) (scope : ScopeId) (V : Finset NodeId) : Prop where
  members : ∀ n ∈ V, n ∈ p.membersIn scope
  waits : ∀ n ∈ V, (∃ m ∈ V, p.Supplies scope m n) ∨
    ∃ gate, n ∈ p.exclusive gate ∧ p.Awaits V gate.condition

section Order

variable {p : Plan} {scope : ScopeId} {V : Finset NodeId}

/-- Without a ring, one of the given nodes with a property comes first, or last. -/
theorem exists_last (hring : ∀ n, ¬ TransGen (p.SuppliesIn scope V) n n) {P : NodeId → Prop}
    {n : NodeId} (hn : n ∈ V) (hP : P n) :
    ∃ k ∈ V, P k ∧ ∀ x ∈ V, P x → ¬ TransGen (p.SuppliesIn scope V) k x := by
  have htrans : IsTrans V fun x y => TransGen (p.SuppliesIn scope V) y.1 x.1 :=
    ⟨fun x y z hxy hyz => hyz.trans hxy⟩
  have hirrefl : Std.Irrefl fun x y : V => TransGen (p.SuppliesIn scope V) y.1 x.1 :=
    ⟨fun x hx => hring x.1 hx⟩
  have hwf : WellFounded fun x y : V => TransGen (p.SuppliesIn scope V) y.1 x.1 :=
    Finite.wellFounded_of_trans_of_irrefl _
  obtain ⟨k, hk, hlast⟩ := hwf.has_min { x : V | P x.1 } ⟨⟨n, hn⟩, hP⟩
  exact ⟨k.1, k.2, hk, fun x hx hPx => hlast ⟨x, hx⟩ hPx⟩

theorem exists_first (hring : ∀ n, ¬ TransGen (p.SuppliesIn scope V) n n) (hne : V.Nonempty) :
    ∃ k ∈ V, ∀ x ∈ V, ¬ p.Supplies scope x k := by
  have htrans : IsTrans V fun x y => TransGen (p.SuppliesIn scope V) x.1 y.1 :=
    ⟨fun x y z hxy hyz => hxy.trans hyz⟩
  have hirrefl : Std.Irrefl fun x y : V => TransGen (p.SuppliesIn scope V) x.1 y.1 :=
    ⟨fun x hx => hring x.1 hx⟩
  have hwf : WellFounded fun x y : V => TransGen (p.SuppliesIn scope V) x.1 y.1 :=
    Finite.wellFounded_of_trans_of_irrefl _
  obtain ⟨n, hn⟩ := hne
  obtain ⟨k, -, hfirst⟩ := hwf.has_min Set.univ ⟨⟨n, hn⟩, trivial⟩
  exact ⟨k.1, k.2, fun x hx hsupplies =>
    hfirst ⟨x, hx⟩ trivial (.single ⟨hx, k.2, hsupplies⟩)⟩

end Order

namespace Sound

variable {p : Plan} (hp : p.Sound) (hu : p.Untangled)
include hp hu

/-- What a node behind a branch supplies is the condition of the branch, or behind it too. -/
theorem supplies_of_exclusive {scope : ScopeId} {m n : NodeId} {gate : Gate}
    (hm : m ∈ p.membersIn scope) (hex : m ∈ p.exclusive gate) (h : p.Supplies scope m n) :
    n = gate.condition ∨ n ∈ p.exclusive gate := by
  obtain ⟨t, hfeeds, hroute | hroute⟩ := h
  · obtain ⟨c, hc, rfl⟩ := hfeeds
    obtain ⟨rfl, -⟩ := (hp.route_eq_member_iff hu).mp hroute
    rcases hp.exclusive_feeds hu hex hc with ⟨hnode, -⟩ | hmem
    · exact Or.inl hnode
    · exact Or.inr hmem
  · exact absurd hex (hp.not_exclusive_of_nested hu hfeeds hm hroute)

/-- What decides a condition is not behind one of its branches. -/
theorem not_exclusive_of_decides {c m : NodeId} (h : p.Feeds m ⟨c, PortName.condition⟩)
    (branch : Branch) : m ∉ p.exclusive ⟨c, branch⟩ := by
  intro hex
  obtain ⟨conn, hconn, hinput⟩ := h
  obtain ⟨hnode, hport⟩ := PortRef.mk.inj hinput
  rcases hp.exclusive_feeds hu hex hconn with ⟨-, hport'⟩ | hmem
  · rw [hport] at hport'
    cases branch <;> simp [Branch.port, PortName.condition, PortName.trueValue,
      PortName.falseValue] at hport'
  · rw [hnode] at hmem
    exact ((hp.mem_exclusive_iff hu).mp hmem).2.2.1 rfl

theorem supplies_condition {scope : ScopeId} {c m : NodeId} (hc : c ∈ p.membersIn scope)
    (h : p.Feeds m ⟨c, PortName.condition⟩) : p.Supplies scope m c :=
  ⟨_, h, Or.inl ((hp.route_eq_member_iff hu).mpr ⟨rfl, hc⟩)⟩

/-- Members that wait for each other stay stuck without the last of the conditions that they wait
for, what is behind its branches and what comes after it. -/
theorem stuck_without {scope : ScopeId} {V : Finset NodeId} (h : p.Stuck scope V) {c : NodeId}
    (hring : ∀ n, ¬ TransGen (p.SuppliesIn scope V) n n) (hc : p.Awaits V c)
    (hlast : ∀ x ∈ V, p.Awaits V x → ¬ TransGen (p.SuppliesIn scope V) c x) :
    ∃ W : Finset NodeId, W ⊂ V ∧ W.Nonempty ∧ p.Stuck scope W := by
  classical
  have hkept : ∀ n, n ∈ V.filter (fun n => (∀ branch, n ∉ p.exclusive ⟨c, branch⟩) ∧ n ≠ c ∧
      ¬ TransGen (p.SuppliesIn scope V) c n) ↔ n ∈ V ∧ (∀ branch, n ∉ p.exclusive ⟨c, branch⟩) ∧
        n ≠ c ∧ ¬ TransGen (p.SuppliesIn scope V) c n := fun n => Finset.mem_filter
  -- whoever supplies a node that is kept is kept
  have hsupplier : ∀ m n, m ∈ V → n ∈ V → (∀ branch, n ∉ p.exclusive ⟨c, branch⟩) → n ≠ c →
      ¬ TransGen (p.SuppliesIn scope V) c n → p.Supplies scope m n →
      (∀ branch, m ∉ p.exclusive ⟨c, branch⟩) ∧ m ≠ c ∧
        ¬ TransGen (p.SuppliesIn scope V) c m := by
    intro m n hm hn hex hne hafter hsupplies
    refine ⟨?_, ?_, ?_⟩
    · intro branch hm'
      rcases hp.supplies_of_exclusive hu (h.members m hm) hm' hsupplies with heq | hn'
      · exact hne heq
      · exact hex branch hn'
    · rintro rfl
      exact hafter (.single ⟨hm, hn, hsupplies⟩)
    · intro hbefore
      exact hafter (hbefore.tail ⟨hm, hn, hsupplies⟩)
  obtain ⟨hcV, m, hm, hfeeds⟩ := hc
  refine ⟨V.filter fun n => (∀ branch, n ∉ p.exclusive ⟨c, branch⟩) ∧ n ≠ c ∧
    ¬ TransGen (p.SuppliesIn scope V) c n, ?_, ?_, ?_, ?_⟩
  · exact Finset.filter_ssubset.mpr ⟨c, hcV, fun hin => hin.2.1 rfl⟩
  · -- the feeder of the condition is kept
    have hstep := hp.supplies_condition hu (h.members c hcV) hfeeds
    refine ⟨m, (hkept m).mpr ⟨hm, hp.not_exclusive_of_decides hu hfeeds, ?_, ?_⟩⟩
    · rintro rfl
      exact hring _ (.single ⟨hm, hm, hstep⟩)
    · intro hbefore
      exact hring c (hbefore.tail ⟨hm, hcV, hstep⟩)
  · intro n hn
    exact h.members n ((hkept n).mp hn).1
  · intro n hn
    obtain ⟨hnV, hex, hne, hafter⟩ := (hkept n).mp hn
    rcases h.waits n hnV with ⟨m', hm', hsupplies⟩ | ⟨gate, hgate, hd, k, hk, hdecides⟩
    · exact Or.inl ⟨m', (hkept m').mpr ⟨hm', hsupplier m' n hm' hnV hex hne hafter hsupplies⟩,
        hsupplies⟩
    · -- another condition, which does not come after the last
      have hdec : gate.condition ∈ V ∧ (∀ branch, gate.condition ∉ p.exclusive ⟨c, branch⟩) ∧
          gate.condition ≠ c ∧ ¬ TransGen (p.SuppliesIn scope V) c gate.condition := by
        refine ⟨hd, ?_, ?_, hlast _ hd ⟨hd, k, hk, hdecides⟩⟩
        · intro branch hbehind
          exact hex branch (hp.exclusive_trans hu hgate hbehind)
        · intro heq
          refine hex gate.branch ?_
          rw [← heq]
          exact hgate
      have hstep := hp.supplies_condition hu (h.members _ hd) hdecides
      refine Or.inr ⟨gate, hgate, (hkept _).mpr hdec, k, (hkept k).mpr ⟨hk, ?_⟩, hdecides⟩
      exact hsupplier k _ hk hd hdec.2.1 hdec.2.2.1 hdec.2.2.2 hstep

/-- Members that wait for each other and for nobody else supply each other in a ring. -/
theorem ring_of_stuck {scope : ScopeId} {V : Finset NodeId} (h : p.Stuck scope V)
    (hne : V.Nonempty) : ∃ n, TransGen (p.SuppliesIn scope V) n n := by
  induction V using Finset.strongInduction with
  | H V ih =>
    by_contra hring
    have hring : ∀ n, ¬ TransGen (p.SuppliesIn scope V) n n := fun n hn => hring ⟨n, hn⟩
    by_cases hawaits : ∃ c, p.Awaits V c
    · obtain ⟨c, hc⟩ := hawaits
      obtain ⟨k, hk, hawaitsk, hlast⟩ := exists_last hring hc.1 hc
      obtain ⟨W, hW, hneW, hstuck⟩ := hp.stuck_without hu h hring hawaitsk hlast
      obtain ⟨n, hn⟩ := ih W hW hstuck hneW
      refine hring n (TransGen.mono ?_ n n hn)
      rintro x y ⟨hx, hy, hsupplies⟩
      exact ⟨hW.1 hx, hW.1 hy, hsupplies⟩
    · obtain ⟨k, hk, hfirst⟩ := exists_first hring hne
      rcases h.waits k hk with ⟨m, hm, hsupplies⟩ | ⟨gate, -, hgate⟩
      · exact hfirst m hm hsupplies
      · exact hawaits ⟨_, hgate⟩

theorem scopeOf_of_supplies {scope : ScopeId} {m n : NodeId} (h : p.Supplies scope m n) :
    p.scopeOf n = scope := by
  obtain ⟨t, -, hroute | hroute⟩ := h
  · obtain ⟨rfl, hmem⟩ := (hp.route_eq_member_iff hu).mp hroute
    exact (hp.mem_membersIn.mp hmem).2
  · exact ((hp.route_eq_nested_iff hu).mp hroute).1

/-- Who is supplied is a member of the scope. -/
theorem mem_of_supplies {scope : ScopeId} {m n : NodeId} (h : p.Supplies scope m n) :
    n ∈ p.membersIn scope := by
  have hscope := hp.scopeOf_of_supplies hu h
  obtain ⟨t, -, hroute | hroute⟩ := h
  · obtain ⟨rfl, hmem⟩ := (hp.route_eq_member_iff hu).mp hroute
    exact hmem
  · have hkind := ((hp.encloses_iff hu).mp ((hp.route_eq_nested_iff hu).mp hroute).2).1
    exact hp.mem_membersIn.mpr ⟨ids_of_kind? hkind, hscope⟩

/-- Where no loop takes values from around it, supply follows the ranks, and there is no ring. -/
theorem ringless_of_captures (h : ∀ l lp, p.loop? l = some lp → lp.captures = [])
    (scope : ScopeId) (n : NodeId) : ¬ TransGen (p.Supplies scope) n n := by
  intro hring
  have hrank : ∀ k, p.scopeOf n = scope → TransGen (p.Supplies scope) n k →
      p.rank n < p.rank k := by
    intro k hscope hchain
    have hstep : ∀ a b, p.scopeOf a = scope → p.Supplies scope a b → p.rank a < p.rank b := by
      intro a b ha hsupplies
      have hb := hp.scopeOf_of_supplies hu hsupplies
      obtain ⟨t, ⟨c, hc, rfl⟩, hroute | hroute⟩ := hsupplies
      · obtain ⟨rfl, -⟩ := (hp.route_eq_member_iff hu).mp hroute
        exact hp.rank_lt_of_carried hc ha hb
      · have hmem : a ∈ p.membersIn scope :=
          hp.mem_membersIn.mpr ⟨hp.graph.source_mem (Graph.mem_carried.mp hc).1, ha⟩
        obtain ⟨lp, hlp, hcapture⟩ :=
          hp.capture_of_nested hu (Or.inl ⟨a, hmem, c, hc, rfl⟩) hroute
        rw [h b lp hlp] at hcapture
        simp at hcapture
    induction hchain with
    | single hsupplies => exact hstep _ _ hscope hsupplies
    | tail hbefore hsupplies ih =>
      obtain ⟨d, -, hlast⟩ := TransGen.tail'_iff.mp hbefore
      exact ih.trans (hstep _ _ (hp.scopeOf_of_supplies hu hlast) hsupplies)
  obtain ⟨m, -, hlast⟩ := TransGen.tail'_iff.mp hring
  exact lt_irrefl _ (hrank n (hp.scopeOf_of_supplies hu hlast) hring)

end Sound

end PortGraph.Plan
