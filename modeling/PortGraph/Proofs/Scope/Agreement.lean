import PortGraph.Proofs.Plan.Reached
import PortGraph.Proofs.Scope.Contained
import PortGraph.Proofs.Scope.Contested

/-!
Scopes of the same nodes that do not contradict each other on what comes to an input. Their
conditions have the same values, and unless an end hangs on who was first, a node that may start in
one of them has no reason to end in the other without having run.
-/

namespace PortGraph.Scope

open Plan

/-- What one scope has sent to an input the other one has not sent otherwise, nor lost. -/
structure Agrees (p : Plan) (given given' : List (PortRef × Json)) (s t : Scope) : Prop where
  owner : t.owner = s.owner
  values : ∀ x v w, Offered p given s x v → Offered p given' t x w → v = w
  lost : ∀ x w, FeederLost p s x → ¬ Offered p given' t x w
  sent : ∀ x v, Offered p given s x v → ¬ FeederLost p t x

variable {p : Plan} {given given' : List (PortRef × Json)} {s t : Scope} {sigs sigs' : List Signal}
variable {c n : NodeId} {q : String} {v w : Json} {r r' : NodeRun}

theorem Agrees.symm (h : Agrees p given given' s t) : Agrees p given' given t s where
  owner := h.owner.symm
  values := fun x v w hv hw => (h.values x w v hw hv).symm
  lost := fun x w hlost hw => h.sent x w hw hlost
  sent := fun x v hv hlost => h.lost x v hlost hv

theorem Agrees.supplied (h : Agrees p given given' s t) (hv : Supplied p given s n q v)
    (hw : Supplied p given' t n q w) : v = w := by
  rcases hv with hv | ⟨-, -, hfalse, hlost⟩ <;> rcases hw with hw | ⟨-, -, hfalse', hlost'⟩
  · exact h.values _ v w hv hw
  · exact absurd hlost' (h.sent _ v hv)
  · exact absurd hw (h.lost _ w hlost)
  · exact hfalse.trans hfalse'.symm

/-- What one scope was supplied with and refuses, the other one has not taken. -/
theorem Agrees.not_converts (h : Agrees p given given' s t) {node : Node}
    (hsupplied : Supplied p given s n q v) (hrefuses : NodeRun.Refuses node q v)
    (hsupplied' : Supplied p given' t n q w) {w' : Json} :
    ¬ NodeRun.Converts node q w w' := by
  obtain rfl := h.supplied hsupplied hsupplied'
  obtain ⟨e, he⟩ := hrefuses
  rintro ⟨applied, hconverts⟩
  rw [he] at hconverts
  simp at hconverts

theorem fallback_unique {node : Node} (hv : (q, v) ∈ p.fallbacks node)
    (hw : (q, w) ∈ p.fallbacks node) : v = w := by
  have hfind : ∀ {v}, (q, v) ∈ p.fallbacks node → node.properties.find? q = some v := by
    intro v hv
    obtain ⟨port, -, hport⟩ := List.mem_filterMap.mp hv
    obtain ⟨v', hv', heq⟩ := Option.map_eq_some_iff.mp hport
    obtain ⟨rfl, rfl⟩ := Prod.mk.inj heq
    exact hv'
  exact Option.some.inj ((hfind hv).symm.trans (hfind hw))

/-- The values of a condition other than its condition are taken as they are. -/
theorem not_refuses_of_condition (hp : p.Sound) {node : Node} (hnode : p.node? n = some node)
    (hkind : p.kind? n = some .condition) (hport : q ≠ PortName.condition) :
    ¬ NodeRun.Refuses node q v := by
  obtain ⟨node', settings, hnode', hsettings⟩ := condition_of_kind hkind
  obtain rfl : node = node' := Option.some.inj (hnode.symm.trans hnode')
  have hthree : node.inputs = [⟨PortName.condition, .boolean⟩, ⟨PortName.trueValue, .any⟩,
      ⟨PortName.falseValue, .any⟩] := by
    rw [(hp.graph.ports node (Graph.node?_eq_some hnode).1).1, hsettings]
    rfl
  have hany : ((node.input? q).map Port.type).getD .any = .any := by
    unfold Node.input?
    rw [hthree, List.find?_cons_of_neg (by simpa using Ne.symm hport)]
    by_cases htrue : PortName.trueValue = q
    · rw [List.find?_cons_of_pos (by simpa using htrue)]
      rfl
    · rw [List.find?_cons_of_neg (by simpa using htrue)]
      by_cases hfalse : PortName.falseValue = q
      · rw [List.find?_cons_of_pos (by simpa using hfalse)]
        rfl
      · rw [List.find?_cons_of_neg (by simpa using hfalse)]
        rfl
  rintro ⟨e, he⟩
  rw [hany, Conversion.convert_of_conforms (Conversion.conforms_any v)] at he
  simp at he

section Coherent

variable (hp : p.Sound) (hs : Coherent p given s sigs) (ht : Coherent p given' t sigs')
  (h : Agrees p given given' s t)
include hp hs

/-- A value that is supplied comes to an input that the member waits for. -/
theorem connected_of_supplied (hu : p.Untangled) {node : Node} (hn : n ∈ p.membersIn s.owner)
    (hnode : p.node? n = some node) (hv : Supplied p given s n q v) :
    q ∈ p.connectedInputs node := by
  refine hp.connected_of_fed hu hn hnode ?_
  rcases hv with hoffered | ⟨-, -, -, m, hm, hfeeds⟩
  · exact fed_of_offered hs.shape hs.proper hoffered
  · exact Or.inl ⟨m, mem_of_lost hs.shape hm, hfeeds⟩

omit hp in
/-- A condition with a feeder has the value that was supplied for it. -/
theorem supplied_of_resolved {b : Bool} (hres : s.resolved.find? c = some b)
    (hin : p.graph.inbound? c PortName.condition ≠ none) :
    ∃ node v w, p.node? c = some node ∧ Supplied p given s c PortName.condition v ∧
      NodeRun.Converts node PortName.condition v w := by
  obtain ⟨-, r, hr, -, hfree | hfilled⟩ := hs.sourced.decided c b hres
  · exact absurd hfree hin
  obtain ⟨w, hw⟩ := Option.isSome_iff_exists.mp hfilled
  obtain ⟨node, v, hnode, hconverts, hsupplied | hfallback⟩ := hs.sourced.inputs c r _ w hr hw
  · exact ⟨node, v, w, hnode, hsupplied, hconverts⟩
  · have hfree := inbound?_of_fallback hfallback
    rw [(Graph.node?_eq_some hnode).2] at hfree
    exact absurd hfree hin

/-- A strict condition has no value if the member that feeds it ended without one. -/
theorem offered_of_resolved {b : Bool} (hres : s.resolved.find? c = some b) (hstrict : Strict p c)
    {m : NodeId} (hfeeds : p.Feeds m ⟨c, PortName.condition⟩) :
    ∃ v, Offered p given s ⟨c, PortName.condition⟩ v := by
  have hin : p.graph.inbound? c PortName.condition ≠ none := by
    obtain ⟨conn, hconn, hinput⟩ := hfeeds
    have hinbound := hp.inbound?_of_forwardOut hconn
    rw [hinput] at hinbound
    simp [hinbound]
  obtain ⟨-, v, -, -, hoffered | ⟨htolerant, -⟩, -⟩ := supplied_of_resolved hs hres hin
  · exact ⟨v, hoffered⟩
  · exact absurd htolerant hstrict.not_tolerant

include ht h

theorem Agrees.filled (hv : Filled p given s n q v) (hw : Filled p given' t n q w) : v = w := by
  obtain ⟨node, v₀, hnode, hconverts, hv₀⟩ := hv
  obtain ⟨node', w₀, hnode', hconverts', hw₀⟩ := hw
  obtain rfl : node = node' := Option.some.inj (hnode.symm.trans hnode')
  have hid := (Graph.node?_eq_some hnode).2
  have hsame : v₀ = w₀ := by
    rcases hv₀ with hv₀ | hv₀ <;> rcases hw₀ with hw₀ | hw₀
    · exact h.supplied hv₀ hw₀
    · exact absurd (hid ▸ inbound?_of_fallback hw₀) (inbound?_of_supplied hp hs.proper hv₀)
    · exact absurd (hid ▸ inbound?_of_fallback hv₀) (inbound?_of_supplied hp ht.proper hw₀)
    · exact fallback_unique hv₀ hw₀
  subst hsame
  exact converts_unique hconverts hconverts'

/-- An input without a feeder holds the same in both. -/
theorem Agrees.free (hr : s.run? n = some r) (hr' : t.run? n = some r')
    (hfree : p.graph.inbound? n q = none) (hw : r'.inputs.find? q = some w) :
    r.inputs.find? q = some w := by
  have hfilled := ht.sourced.inputs n r' q w hr' hw
  obtain ⟨node, w₀, hnode, -, hsupplied | hfallback⟩ := id hfilled
  · exact absurd hfree (inbound?_of_supplied hp ht.proper hsupplied)
  · obtain ⟨v, hv⟩ := Option.isSome_iff_exists.mp
      (hs.accounted.fallbacks n r node q w₀ hr hnode hfallback)
    rw [hv, h.filled hp hs ht (hs.sourced.inputs n r q v hr hv) hfilled]

/-- A condition with a value in both has the same one. -/
theorem Agrees.resolved {b b' : Bool} (hb : s.resolved.find? c = some b)
    (hb' : t.resolved.find? c = some b') : b = b' := by
  obtain ⟨-, r, hr, htruth, hin⟩ := hs.sourced.decided c b hb
  obtain ⟨-, r', hr', htruth', hin'⟩ := ht.sourced.decided c b' hb'
  have hsame : r.inputs.find? PortName.condition = r'.inputs.find? PortName.condition := by
    cases hv : r.inputs.find? PortName.condition with
    | none =>
      cases hw : r'.inputs.find? PortName.condition with
      | none => rfl
      | some w =>
        have hfree : p.graph.inbound? c PortName.condition = none := by simpa [hv] using hin
        rw [← hv, h.free hp hs ht hr hr' hfree hw]
    | some v =>
      cases hw : r'.inputs.find? PortName.condition with
      | none =>
        have hfree : p.graph.inbound? c PortName.condition = none := by simpa [hw] using hin'
        rw [← hw, h.symm.free hp ht hs hr' hr hfree hv]
      | some w =>
        rw [h.filled hp hs ht (hs.sourced.inputs c r _ v hr hv) (ht.sourced.inputs c r' _ w hr' hw)]
  unfold PortValues.truth PortValues.value at htruth htruth'
  rw [hsame, htruth'] at htruth
  exact (Except.ok.inj htruth).symm

end Coherent

/-! ### Ends without a run -/

section Ends

variable (hp : p.Sound) (hu : p.Untangled) (hs : Coherent p given s sigs) (hdecided : Decided p s)
  (hclear : Uncontested p s) (ht : Coherent p given' t sigs') (h : Agrees p given given' s t)
include hp hu hs

omit hu in
theorem deprived_of_feederLost (hr : s.run? n = some r) (hlost : FeederLost p s ⟨n, q⟩) :
    Deprived p s n := by
  obtain ⟨m, hm, hfeeds⟩ := hlost
  obtain ⟨hids, hscope⟩ := hp.mem_membersIn.mp ((hs.shape.member n).mp (by rw [hr]; rfl))
  exact ⟨m, hm, ⟨n, q⟩, hfeeds, Or.inl (hp.route_member hids hscope q)⟩

include hdecided hclear ht h

/-- A condition that ended without a value in one scope and has one in the other was itself behind a
branch that is closed, or out of reach. -/
theorem closed_of_undecided {branch : Branch} {b : Bool} (hended : s.Ended c)
    (hnone : s.resolved.find? c = none) (hres : t.resolved.find? c = some b)
    (hmem : n ∈ p.exclusive ⟨c, branch⟩) :
    (∃ gate, c ∈ p.exclusive gate ∧ Closed s gate) ∨ (s.owner = none ∧ c ∈ p.unreachable) := by
  obtain ⟨r, hr, hterm⟩ := hended
  have hkind : p.kind? c = some .condition := hp.kind?_of_mem_exclusive hmem
  have hstart : r.startedAt = none := by
    by_contra hne
    refine hdecided c hkind ?_ hnone
    unfold startOf?
    rw [hr]
    exact Option.isSome_iff_ne_none.mpr hne
  rcases hs.sourced.ended c r hr hterm hstart with ⟨-, reason, -, hcause⟩ | ⟨hfailed, hcause⟩
  · cases reason with
    | feederFailed o =>
      rcases hcause with ⟨hother, -⟩ | ⟨x, -, hroute⟩ | ⟨-, b', hb', -⟩
      · obtain ⟨node, settings, hnode, hsettings⟩ := condition_of_kind hkind
        exact absurd hsettings (hother node settings hnode)
      · -- nothing is nested in a condition
        have hloop := ((hp.encloses_iff hu).mp ((hp.route_eq_nested_iff hu).mp hroute).2).1
        rw [show p.graph.kind? c = some .condition from hkind] at hloop
        simp at hloop
      · rw [hnone] at hb'
        simp at hb'
    | branchNotTaken c' =>
      obtain ⟨branch', hnot, hgate⟩ := hcause
      exact Or.inl ⟨⟨c', branch'⟩, hgate, Or.inl hnot⟩
    | conditionUnresolved c' =>
      obtain ⟨hended', hnone', branch', hgate⟩ := hcause
      exact Or.inl ⟨⟨c', branch'⟩, hgate, Or.inr ⟨hended', hnone'⟩⟩
    | unreachable => exact Or.inr hcause
    | aborted => exact hcause.elim
  · exfalso
    rcases hcause with ⟨hstrict, q, hlost⟩ | ⟨node, q, v, hnode, hsupplied, hrefuses⟩
    · -- it failed for a feeder, so no value could come for its condition any more
      have hvalueless : Valueless p s c := by
        by_contra hnot
        refine hclear c ⟨⟨r, hr, hfailed, hstart⟩, Or.inr
          ⟨deprived_of_feederLost hp hs hr hlost, Or.inr ⟨⟨branch, ?_⟩, hnot⟩⟩⟩
        exact List.ne_nil_of_mem hmem
      obtain ⟨m, -, hm, hfeeds⟩ := hvalueless
      obtain ⟨v, hv⟩ := offered_of_resolved hp ht hres hstrict hfeeds
      exact h.lost _ v ⟨m, hm, hfeeds⟩ hv
    · -- its condition was refused, and would have been refused in the other scope
      have hport : q = PortName.condition := by
        by_contra hne
        exact not_refuses_of_condition hp hnode hkind hne hrefuses
      subst hport
      obtain ⟨node', v', w, hnode', hsupplied', hconverts⟩ :=
        supplied_of_resolved ht hres (inbound?_of_supplied hp hs.proper hsupplied)
      obtain rfl : node = node' := Option.some.inj (hnode.symm.trans hnode')
      exact h.not_converts hsupplied hrefuses hsupplied' hconverts

/-- Who is behind a closed branch in one scope is behind one that is not open in the other. -/
theorem exists_shut (hreach : ¬ (s.owner = none ∧ n ∈ p.unreachable)) {gate : Gate}
    (hgate : n ∈ p.exclusive gate) (hclosed : Closed s gate) :
    ∃ gate', n ∈ p.exclusive gate' ∧ t.isOpen gate' = false := by
  -- each step leads to a condition further on in the order
  induction hk : p.graph.order.length - p.graph.place gate.condition
    using Nat.strong_induction_on generalizing gate with
  | _ k ih =>
    subst hk
    rcases hclosed with ⟨b, hb, hbranch⟩ | ⟨hended, hnone⟩
    · refine ⟨gate, hgate, ?_⟩
      rw [← Bool.not_eq_true, isOpen_iff]
      rintro ⟨b', hb', hbranch'⟩
      obtain rfl := h.resolved hp hs ht hb hb'
      rw [hbranch] at hbranch'
      cases b <;> simp [Branch.taken, Branch.other] at hbranch'
    · cases hres : t.resolved.find? gate.condition with
      | none =>
        refine ⟨gate, hgate, ?_⟩
        rw [← Bool.not_eq_true, isOpen_iff]
        rintro ⟨b', hb', -⟩
        rw [hres] at hb'
        simp at hb'
      | some b =>
        rcases closed_of_undecided hp hu hs hdecided hclear ht h hended hnone hres hgate with
          ⟨gate', hgate', hclosed'⟩ | ⟨howner, hdead⟩
        · have hlt := hp.exclusive_place_lt hu hgate'
          have hids := (hp.mem_membersIn.mp ((hp.mem_exclusive_iff hu).mp hgate').2.1).1
          have hplace : p.graph.place gate.condition < p.graph.order.length :=
            List.idxOf_lt_length_of_mem ((hp.graph.mem_order_iff _).mpr hids)
          exact ih _ (by omega) (hp.exclusive_trans hu hgate hgate') hclosed' rfl
        · exact absurd ⟨howner, hp.unreachable_of_exclusive hu hgate hdead⟩ hreach

end Ends

/-! ### Nodes that may start -/

theorem port_ne_of_notTaken {b : Bool} {branch : Branch} (hb : s.resolved.find? c = some b)
    (hnot : NotTaken s c branch) : (Branch.taken b).port ≠ branch.port := by
  obtain ⟨b', hb', rfl⟩ := hnot
  obtain rfl := Option.some.inj (hb.symm.trans hb')
  cases b <;> decide

section Due

variable (hp : p.Sound) (hu : p.Untangled) (hs : Coherent p given s sigs)
  (ht : Coherent p given' t []) (h : Agrees p given given' s t) (hr' : t.run? n = some r')
  (hdue : r'.Due)
include hp hu hs ht h hr' hdue

omit hu hs h in
theorem isOpen_of_due {gate : Gate} (hgate : n ∈ p.exclusive gate) : t.isOpen gate = true :=
  (ht.counted.gates_zero_iff hr').mp (free_of_due ht hr' hdue).2.2 gate (hp.mem_gates_iff.mpr hgate)

/-- A node that may start in one scope is not skipped in the other, unless nothing reaches it. -/
theorem not_skipCause_of_due (hdecided : Decided p s) (hclear : Uncontested p s)
    (hchosen : Chosen p t) (hreach : ¬ (s.owner = none ∧ n ∈ p.unreachable)) (reason : SkipReason) :
    ¬ SkipCause p s n reason := by
  have hshut : ∀ {gate}, n ∈ p.exclusive gate → ¬ Closed s gate := by
    intro gate hgate hclosed
    obtain ⟨gate', hgate', hshut⟩ :=
      exists_shut hp hu hs hdecided hclear ht h hreach hgate hclosed
    rw [isOpen_of_due hp ht hr' hdue hgate'] at hshut
    simp at hshut
  have hmember : ∀ {m}, s.Lost m → m ∈ p.membersIn t.owner := fun hm => by
    rw [h.owner]
    exact mem_of_lost hs.shape hm
  intro hcause
  cases reason with
  | feederFailed o =>
    rcases hcause with ⟨hother, q, m, hm, hfeeds⟩ | ⟨x, ⟨m, hm, hfeeds⟩, hroute⟩ |
      ⟨htolerant, b, hb, m, hm, hfeeds⟩
    · have hkind : p.kind? n ≠ some .condition := by
        intro hkind
        obtain ⟨node, settings, hnode, hsettings⟩ := condition_of_kind hkind
        exact hother node settings hnode hsettings
      rcases feeder_of_due hp hu ht hr' hdue (fun htol => hkind htol.kind) hfeeds (hmember hm) with
        ⟨v, hv⟩ | ⟨branch, ⟨b, hb, -⟩, -⟩
      · exact h.lost _ v ⟨m, hm, hfeeds⟩ hv
      · exact hkind (ht.sourced.decided n b hb).1
    · rw [← h.owner] at hroute
      obtain ⟨v, hv⟩ := capture_of_due hp hu ht hr' hdue hfeeds (hmember hm) hroute
      exact h.lost _ v ⟨m, hm, hfeeds⟩ hv
    · -- the branch that the condition takes calls for the value
      obtain ⟨b', hb', hport⟩ := hchosen n r' hr' htolerant.kind hdue
      obtain rfl := h.resolved hp hs ht hb hb'
      have hn := (ht.shape.member n).mp (by rw [hr']; rfl)
      obtain ⟨node, hnode, -, -⟩ := hp.node?_of_mem_membersIn hn
      rcases input_of_due hp ht hr' hdue hnode
        (hp.connected_of_feeds hu (hmember hm) hn hnode hfeeds) with
        ⟨v, w, hv | ⟨-, hcond, -⟩, -⟩ | ⟨o', ho'⟩ | ⟨branch, hnot, -, heq⟩
      · exact h.lost _ v ⟨m, hm, hfeeds⟩ hv
      · exact Branch.port_ne_condition _ hcond
      · rw [hport] at ho'
        simp at ho'
      · exact port_ne_of_notTaken hb' hnot heq
  | branchNotTaken c =>
    obtain ⟨branch, hnot, hgate⟩ := hcause
    exact hshut hgate (Or.inl hnot)
  | conditionUnresolved c =>
    obtain ⟨hended, hnone, branch, hgate⟩ := hcause
    exact hshut hgate (Or.inr ⟨hended, hnone⟩)
  | unreachable => exact hreach hcause
  | aborted => exact hcause

/-- A node that may start in one scope does not fail in the other without having run. If it is a
condition, this takes that no value could come for it any more or that nothing is behind it. -/
theorem not_failCause_of_due (hcalm : p.kind? n = some .condition → Deprived p s n →
      (∀ branch, p.exclusive ⟨n, branch⟩ = []) ∨
        ∃ m, s.Lost m ∧ p.Feeds m ⟨n, PortName.condition⟩) : ¬ FailCause p given s n := by
  have hn := (ht.shape.member n).mp (by rw [hr']; rfl)
  obtain ⟨r, hr⟩ := Option.isSome_iff_exists.mp
    ((hs.shape.member n).mpr (by rw [← h.owner]; exact hn))
  have hmember : ∀ {m}, s.Lost m → m ∈ p.membersIn t.owner := fun hm => by
    rw [h.owner]
    exact mem_of_lost hs.shape hm
  rintro (⟨hstrict, q, hlost⟩ | ⟨node, q, v, hnode, hsupplied, hrefuses⟩)
  · obtain ⟨m, hm, hfeeds⟩ := id hlost
    rcases feeder_of_due hp hu ht hr' hdue hstrict.not_tolerant hfeeds (hmember hm) with
      ⟨v, hv⟩ | ⟨branch, -, hgate, -⟩
    · exact h.lost _ v hlost hv
    rcases hcalm hstrict.kind (deprived_of_feederLost hp hs hr hlost) with hnone | ⟨m', hm', hfeeds'⟩
    · rw [hnone branch] at hgate
      simp at hgate
    rcases feeder_of_due hp hu ht hr' hdue hstrict.not_tolerant hfeeds' (hmember hm') with
      ⟨v, hv⟩ | ⟨branch', -, -, hport⟩
    · exact h.lost _ v ⟨m', hm', hfeeds'⟩ hv
    · exact Branch.port_ne_condition branch' hport.symm
  · have hconnected := connected_of_supplied hp hs hu (by rw [← h.owner]; exact hn) hnode hsupplied
    rcases input_of_due hp ht hr' hdue hnode hconnected with
      ⟨w, w', hw, hconverts, -⟩ | ⟨o, ho⟩ | ⟨branch, ⟨b, hb, -⟩, -, rfl⟩
    · exact h.not_converts hsupplied hrefuses hw hconverts
    · obtain ⟨htolerant, hport, -⟩ := ht.sourced.failedPorts n r' q o hr' ho
      exact not_refuses_of_condition hp hnode htolerant.kind hport hrefuses
    · exact not_refuses_of_condition hp hnode (ht.sourced.decided n b hb).1
        (Branch.port_ne_condition branch) hrefuses

end Due

/-! ### Inputs -/

section Inputs

variable (hp : p.Sound) (hu : p.Untangled) (hs : Coherent p given s []) (hchosen : Chosen p s)
  (ht : Coherent p given' t []) (h : Agrees p given given' s t) (hr : s.run? n = some r)
  (hr' : t.run? n = some r') (hdue : r.Due) (hdue' : r'.Due)
include hp hu hs hchosen ht h hr hr' hdue hdue'

/-- What one scope has at an input of a node that may start in both, the other one has too. -/
theorem isSome_input_of_due (hw : r.inputs.find? q = some w) :
    (r'.inputs.find? q).isSome = true := by
  have hn := (hs.shape.member n).mp (by rw [hr]; rfl)
  obtain ⟨node, v, hnode, -, hv | hfallback⟩ := hs.sourced.inputs n r q w hr hw
  · rcases input_of_due hp ht hr' hdue' hnode (connected_of_supplied hp hs hu hn hnode hv) with
      ⟨-, w', -, -, hw'⟩ | ⟨o, ho⟩ | ⟨branch, hnot, ⟨feeder, hfeeder, hgate⟩, rfl⟩
    · rw [hw']
      rfl
    · obtain ⟨-, hport, hlost⟩ := ht.sourced.failedPorts n r' q o hr' ho
      rcases hv with hoffered | ⟨-, hcond, -⟩
      · exact absurd hlost (h.sent _ v hoffered)
      · exact absurd hcond hport
    · -- a node behind the branch sent the value, so the branch is taken
      exfalso
      obtain ⟨b', hb', rfl⟩ := hnot
      have hkind := (ht.sourced.decided n b' hb').1
      obtain ⟨b, hb, -⟩ := hchosen n r hr hkind hdue
      obtain rfl := h.resolved hp hs ht hb hb'
      rcases hv with hoffered | ⟨-, hcond, -⟩
      · have hscope := hp.exclusive_scope hu hgate
        have hm : feeder.node ∈ p.membersIn s.owner := by
          rw [← (hp.mem_membersIn.mp hn).2, ← hscope]
          exact hp.mem_membersIn.mpr ⟨(hp.mem_membersIn.mp ((hp.mem_exclusive_iff hu).mp hgate).2.1).1, rfl⟩
        obtain ⟨rm, hrm, hstate⟩ := succeeded_of_offered hp hs.proper hoffered hm
          (hp.feeds_of_inbound? hu hfeeder hscope)
        obtain ⟨b', hb'', hopen⟩ := isOpen_iff.mp (hs.gates_open hp hrm
          (Or.inr (started_of_succeeded hs.shape hs.sourced hrm hstate)) hgate)
        obtain rfl := Option.some.inj (hb.symm.trans hb'')
        cases b <;> simp [Branch.taken, Branch.other] at hopen
      · exact Branch.port_ne_condition _ hcond
  · exact ht.accounted.fallbacks n r' node q v hr' hnode hfallback

/-- A node that may start in both scopes has the same inputs in both. -/
theorem inputs_of_due (hchosen' : Chosen p t) (q : String) :
    r.inputs.find? q = r'.inputs.find? q := by
  cases hw : r.inputs.find? q with
  | none =>
    cases hw' : r'.inputs.find? q with
    | none => rfl
    | some w' =>
      have hsome := isSome_input_of_due hp hu ht hchosen' hs h.symm hr' hr hdue' hdue hw'
      rw [hw] at hsome
      simp at hsome
  | some w =>
    have hsome := isSome_input_of_due hp hu hs hchosen ht h hr hr' hdue hdue' hw
    obtain ⟨w', hw'⟩ := Option.isSome_iff_exists.mp hsome
    rw [hw', h.filled hp hs ht (hs.sourced.inputs n r q w hr hw) (ht.sourced.inputs n r' q w' hr' hw')]

end Inputs

end PortGraph.Scope
