import PortGraph.Proofs.Scope.Closing
import PortGraph.Proofs.Scope.Seeded
import PortGraph.Proofs.Work.Typed

/-!
Values on their way through a scope. Every value that comes to a scope is meant for an input that
exists, and it is converted before it is kept there. So the inputs of every run are well typed, however
the loops of the plan lie.
-/

namespace PortGraph

/-- The node of the target has such an input. -/
def Plan.HasInput (p : Plan) (t : PortRef) : Prop :=
  ∃ node port, p.node? t.node = some node ∧ node.input? t.port = some port

/-- A signal that brings a value brings it to an input, and one that reads a condition reads it of a
condition. -/
def Signal.Aims (p : Plan) : Signal → Prop
  | .route t _ => p.HasInput t
  | .write id port _ => p.HasInput ⟨id, port⟩
  | .resolve id => p.kind? id = some .condition
  | _ => True

namespace Plan

variable {p : Plan}

theorem route_member {s : ScopeId} {t : PortRef} {id : NodeId}
    (h : p.route s t = some (.member id)) : id = t.node := by
  unfold route at h
  split at h
  · simp at h
  · split_ifs at h
    · exact (Route.member.inj (Option.some.inj h)).symm
    · simp at h
    · simp at h

namespace Sound

variable (hp : p.Sound)
include hp

theorem hasInput_of_edge {e : Edge} (he : e ∈ p.graph.edges) :
    p.HasInput ⟨e.target, e.label.targetPort⟩ := by
  obtain ⟨node, hnode, hport, -⟩ := hp.graph.target e he
  obtain ⟨port, hport⟩ := Option.isSome_iff_exists.mp hport
  exact ⟨node, port, hnode, hport⟩

theorem hasInput_outbound {m : NodeId} {outputs : PortValues} {x : PortRef × Json}
    (hx : x ∈ p.outboundValues m outputs) : p.HasInput x.1 := by
  obtain ⟨c, hc, htarget, -⟩ := mem_outboundValues.mp hx
  rw [← htarget]
  exact hp.hasInput_of_edge (Graph.mem_carried.mp hc).1

theorem hasInput_iteration {l : NodeId} {item : Json} {i : ℕ} {x : PortRef × Json}
    (hx : x ∈ p.iterationValues l item i) : p.HasInput x.1 := by
  obtain ⟨c, hc, htarget, -⟩ := mem_iterationValues.mp hx
  rw [← htarget]
  exact hp.hasInput_of_edge (Graph.mem_seeds.mp hc).1

theorem inputs_eq {n : NodeId} {node : Node} (hnode : p.node? n = some node) :
    node.inputs = node.settings.inputs :=
  (hp.graph.ports node (Graph.node?_eq_some hnode).1).1

end Sound

end Plan

open Plan

namespace Scope

/-- The run is that of a node whose inputs are well typed. -/
def Fits (p : Plan) (n : NodeId) (r : NodeRun) : Prop :=
  r.node = n ∧ ∃ node, p.node? n = some node ∧ node.WellTyped r.inputs

/-- A scope whose inputs are well typed and stay so. -/
structure Typed (p : Plan) (s : Scope) (sigs : List Signal) : Prop where
  runs : ∀ n r, s.run? n = some r → Fits p n r
  aims : ∀ sig ∈ sigs, Signal.Aims p sig
  handed : ∀ l, ∀ x ∈ s.handedTo l, p.HasInput x.1

variable {p : Plan} {now : Timestamp} {s s' t : Scope} {sig : Signal} {rest more : List Signal}
variable {sigs left : List Signal} {n : NodeId} {r r' : NodeRun}

theorem Fits.of_same (h : Fits p n r) (hnode : r'.node = r.node) (hinputs : r'.inputs = r.inputs) :
    Fits p n r' :=
  ⟨hnode.trans h.1, hinputs ▸ h.2⟩

/-- A value that is written is converted first; one that does not fit is left out. -/
theorem Fits.deliver (h : Fits p n r) {node : Node} (hnode : p.node? n = some node) {q : String}
    (hq : p.HasInput ⟨n, q⟩) {v : Json} {result : Except NodeError Unit}
    (hdeliver : NodeRun.deliver node r q v = (r', result)) : Fits p n r' := by
  obtain ⟨hid, node₁, hnode₁, htyped⟩ := h
  obtain rfl := Option.some.inj (hnode.symm.trans hnode₁)
  obtain ⟨node₂, port, hnode₂, hport⟩ := hq
  obtain rfl := Option.some.inj (hnode.symm.trans hnode₂)
  refine ⟨(NodeRun.deliver_kept hdeliver).1.trans hid, node, hnode, ?_⟩
  cases result with
  | error e =>
    rw [(NodeRun.deliver_error hdeliver).2]
    exact htyped
  | ok u =>
    obtain ⟨w, ⟨applied, hconvert⟩, hinputs⟩ := NodeRun.deliver_ok hdeliver
    rw [hport] at hconvert
    rw [hinputs]
    exact htyped.insert hport hconvert

theorem Fits.put (hruns : ∀ n r, s.run? n = some r → Fits p n r) (h : Fits p r.node r) :
    ∀ n r', (s.put r).run? n = some r' → Fits p n r' := by
  intro n r' hr'
  rw [run?_put] at hr'
  split_ifs at hr' with heq
  · obtain rfl := Option.some.inj hr'
    exact heq ▸ h
  · exact hruns n r' hr'

theorem Fits.map {f : NodeRun → NodeRun} (hf : ∀ r, (f r).node = r.node ∧ (f r).inputs = r.inputs)
    {c : Prop} [Decidable c] (hruns : ∀ n r, s.run? n = some r → Fits p n r)
    (hr' : (if c then (s.run? n).map f else s.run? n) = some r') : Fits p n r' := by
  split_ifs at hr'
  · obtain ⟨r, hr, rfl⟩ := Option.map_eq_some_iff.mp hr'
    exact (hruns n r hr).of_same (hf r).1 (hf r).2
  · exact hruns n r' hr'

section Step

variable (hp : p.Sound)
include hp

/-- What a signal leaves in the inputs of a run is well typed. -/
theorem Reacts.fits (h : Reacts p now s sig s' more) (haims : Signal.Aims p sig)
    (hruns : ∀ n r, s.run? n = some r → Fits p n r) :
    ∀ n r, s'.run? n = some r → Fits p n r := by
  have hput : ∀ {id : NodeId} {r r' : NodeRun}, s.run? id = some r → r'.node = r.node →
      r'.inputs = r.inputs → Fits p r'.node r' := by
    intro id r r' hr hnode hinputs
    have hfits := hruns id r hr
    rw [hnode, hfits.1]
    exact hfits.of_same hnode hinputs
  cases h with
  | routeNested =>
    intro n r hr
    rw [run?_hand] at hr
    exact Fits.map (f := NodeRun.takeCapture) (fun _ => ⟨rfl, rfl⟩) hruns hr
  | writeTaken hnode hr _ hdeliver | writeRejected hnode hr _ hdeliver =>
    have hfits := (hruns _ _ hr).deliver hnode haims hdeliver
    exact Fits.put hruns (hfits.1.symm ▸ hfits)
  | resolveDecides =>
    intro n r hr
    rw [run?_decide s _ _ p _ (hp.nodup_exclusive _)] at hr
    exact Fits.map (f := NodeRun.openGate) (fun _ => ⟨rfl, rfl⟩) hruns hr
  | @forgoDrops id branch =>
    intro n r hr
    rw [run?_change] at hr
    exact Fits.map (f := fun r => r.dropInput branch.port) (fun _ => ⟨rfl, rfl⟩) hruns hr
  | promoteAgain hr | promoteQueues hr | feederDrops _ _ hr =>
    exact Fits.put hruns (hput hr rfl rfl)
  | skips hr | fails hr => exact Fits.put (s := s.dequeue _) hruns (hput hr rfl rfl)
  | _ => exact hruns

/-- What follows from a signal aims at inputs and conditions too. -/
theorem Reacts.aims (h : Reacts p now s sig s' more) (haims : Signal.Aims p sig) :
    ∀ sig' ∈ more, Signal.Aims p sig' := by
  cases h with
  | @routeMember t v id hroute =>
    intro sig' hsig'
    rw [List.mem_singleton.mp hsig', route_member hroute]
    exact haims
  | @writeTaken id port v node r r' hnode =>
    split_ifs with hdecides
    · have hkind : node.kind = .condition := by
        simp only [Bool.and_eq_true, beq_iff_eq] at hdecides
        exact hdecides.1
      have hresolve : p.kind? id = some .condition :=
        Option.map_eq_some_iff.mpr ⟨node, hnode, hkind⟩
      simp [hresolve, Signal.Aims]
    · simp [Signal.Aims]
  | resolveDecides =>
    intro sig' hsig'
    rcases mem_decided.mp hsig' with ⟨k, -, rfl⟩ | ⟨k, -, rfl⟩ | rfl <;> trivial
  | cascade =>
    intro sig' hsig'
    obtain ⟨c, -, ⟨k, -, rfl⟩ | ⟨l, -, rfl⟩⟩ := mem_reactCascade.mp hsig' <;> trivial
  | @feederCounts id _ htolerant =>
    intro sig' hsig'
    obtain ⟨node, settings, hnode, hsettings, -⟩ := htolerant
    rw [List.mem_singleton.mp hsig']
    refine ⟨node, ⟨PortName.condition, .boolean⟩, hnode, ?_⟩
    unfold Node.input?
    rw [hp.inputs_eq hnode, hsettings]
    rfl
  | @skips id reason r =>
    intro sig' hsig'
    rcases mem_skipped.mp hsig' with ⟨origin, -, rfl⟩ | rfl <;> trivial
  | settles =>
    intro sig' hsig'
    obtain ⟨k, -, rfl⟩ := List.mem_map.mp hsig'
    trivial
  | _ => simp [Signal.Aims]

/-- A signal keeps the inputs of a scope well typed. -/
theorem Typed.react (h : Typed p s (sig :: rest)) (hreact : Reacts p now s sig s' more) :
    Typed p s' (more ++ rest) := by
  have haims := h.aims sig List.mem_cons_self
  refine ⟨hreact.fits hp haims h.runs, ?_, ?_⟩
  · intro sig' hsig'
    rcases List.mem_append.mp hsig' with hmore | hrest
    · exact hreact.aims hp haims sig' hmore
    · exact h.aims sig' (List.mem_cons_of_mem _ hrest)
  · intro l x hx
    cases hreact with
    | @routeNested t v k hroute =>
      rw [handedTo_hand] at hx
      split_ifs at hx
      · rcases List.mem_append.mp hx with hold | hnew
        · exact h.handed l x hold
        · rw [List.mem_singleton.mp hnew]
          exact haims
      · exact h.handed l x hx
    | resolveDecides => exact h.handed l x (by simpa [handedTo] using hx)
    | _ => exact h.handed l x hx

theorem Typed.drains (h : Typed p s sigs) (hdrains : Drains p now s sigs t left) :
    Typed p t left :=
  hdrains.keeps (fun _ _ _ _ _ h hreact => h.react hp hreact) h

/-- Signals that are left over may go. -/
theorem Typed.drain (h : Typed p s sigs) (now : Timestamp) (k : ℕ) :
    Typed p (s.drain p now k sigs).1 [] :=
  let hdrained := h.drains hp (drains_drain p now k s sigs)
  ⟨hdrained.runs, by simp, hdrained.handed⟩

theorem Typed.handle (h : Typed p s sigs) (now : Timestamp) : Typed p (s.handle p now sigs) [] :=
  h.drain hp now (budget p sigs)

/-! ### Stages -/

omit hp in
/-- The properties that stand in for inputs are converted like any other value. -/
theorem fits_fresh {node : Node} (hnode : p.node? n = some node) (hfresh : IsFresh p node r) :
    Fits p n r := by
  refine ⟨hfresh.id.trans (Graph.node?_eq_some hnode).2, node, hnode, ?_⟩
  intro q w hw
  obtain ⟨v, hv, applied, hconvert⟩ := hfresh.values q w hw
  obtain ⟨port, hport⟩ := input?_of_fallback hv
  rw [hport] at hconvert
  exact ⟨port, hport, Conversion.conforms_of_convert hconvert⟩

/-- A scope begins well typed if the values that it is given are meant for inputs. -/
theorem typed_opening (now : Timestamp) (owner : ScopeId) {given : List (PortRef × Json)}
    (hgiven : ∀ x ∈ given, p.HasInput x.1) :
    Typed p (opening p now owner) (openingSignals p owner given) := by
  obtain ⟨-, -, -, -, hhanded, -⟩ := opening_spec now owner hp
  refine ⟨?_, ?_, ?_⟩
  · intro n r hr
    obtain ⟨-, node, r₀, hnode, -, hfresh, ⟨-, rfl⟩ | ⟨-, rfl⟩⟩ := opening_run now owner hp hr
    · exact fits_fresh hnode hfresh
    · exact (fits_fresh hnode hfresh).of_same rfl rfl
  · intro sig hsig
    unfold openingSignals at hsig
    simp only [List.mem_append, List.mem_map, List.mem_filter] at hsig
    rcases hsig with ((⟨n, -, rfl⟩ | ⟨n, ⟨-, hdecided⟩, rfl⟩) | ⟨x, hx, rfl⟩) | ⟨n, -, rfl⟩
    · trivial
    · simp only [isSelfDecided, Bool.and_eq_true, beq_iff_eq] at hdecided
      exact hdecided.1
    · exact hgiven x hx
    · trivial
  · intro l x hx
    simp [handedTo, hhanded] at hx

theorem typed_seed (now : Timestamp) (owner : ScopeId) {given : List (PortRef × Json)}
    (hgiven : ∀ x ∈ given, p.HasInput x.1) : Typed p (seed p now owner given) [] := by
  rw [seed_eq now owner hp]
  exact (typed_opening hp now owner hgiven).handle hp now

omit hp in
theorem Typed.putEnded (h : Typed p s []) (hr : s.run? n = some r) (hnode : r'.node = r.node)
    (hinputs : r'.inputs = r.inputs) : Typed p (s.putEnded r') [] := by
  have hfits := h.runs n r hr
  refine ⟨Fits.put h.runs ?_, by simp, h.handed⟩
  rw [hnode, hfits.1]
  exact hfits.of_same hnode hinputs

omit hp in
theorem Typed.violate (h : Typed p s []) (f : Fault) : Typed p (s.violate f) [] :=
  ⟨h.runs, by simp, h.handed⟩

omit hp in
theorem Typed.startNext (h : Typed p s []) (hstart : s.startNext? now = some (s', r)) :
    Typed p s' [] ∧ ∃ node, p.node? r.node = some node ∧ node.WellTyped r.inputs := by
  unfold startNext? at hstart
  split at hstart
  · simp at hstart
  · rename_i k n rest hready
    obtain ⟨r₀, hr₀, hstart⟩ := Option.bind_eq_some_iff.mp hstart
    obtain ⟨rfl, rfl⟩ := Prod.mk.inj (Option.some.inj hstart)
    have hfits : Fits p n (r₀.start now) := (h.runs n r₀ hr₀).of_same rfl rfl
    refine ⟨⟨Fits.put h.runs (hfits.1.symm ▸ hfits), by simp, h.handed⟩, ?_⟩
    rw [hfits.1]
    exact hfits.2

/-- What a node has made is sent on to inputs. -/
theorem Typed.conclude (h : Typed p s []) {c : Completion} (hr : s.run? c.node = some r)
    (now : Timestamp) :
    Typed p (s.putEnded (concluded now { r with attempts := c.attempts } c.outcome))
      (announced p c.node c.outcome) := by
  have hconcludes := concludes_concluded now r c.attempts c.outcome
  have hended := h.putEnded hr hconcludes.node hconcludes.inputs
  refine ⟨hended.runs, ?_, hended.handed⟩
  intro sig hsig
  cases hout : c.outcome with
  | succeeded outputs =>
    rw [hout] at hsig
    obtain ⟨x, hx, rfl⟩ := List.mem_map.mp hsig
    exact hp.hasInput_outbound hx
  | failed e =>
    rw [hout] at hsig
    simp only [announced, List.mem_cons, List.not_mem_nil, or_false] at hsig
    rcases hsig with rfl | rfl <;> trivial
  | cancelled | fatal f =>
    rw [hout] at hsig
    simp [announced] at hsig

theorem Typed.hear (h : Typed p s []) (now : Timestamp) (report : Report) :
    Typed p (s.hear p now report) [] := by
  rcases hear_eq p now s report with ⟨f, heq⟩ | ⟨c, r, -, hr, -, heq | ⟨f, heq⟩⟩
  · rw [heq]
    exact h.violate f
  · rw [heq]
    exact (h.conclude hp hr now).handle hp now
  · rw [heq]
    exact ((h.conclude hp hr now).handle hp now).violate f

omit hp in
theorem Typed.close (h : Typed p s []) (now : Timestamp) (aborted : Bool) :
    Typed p (s.close now aborted) [] := by
  have hfold : ∀ (ids : List NodeId) (u : Scope), Typed p u [] →
      Typed p (ids.foldl (closeOne now) u) [] := by
    intro ids
    induction ids with
    | nil => exact fun _ hu => hu
    | cons a rest ih =>
      intro u hu
      refine ih _ ?_
      unfold closeOne
      cases hr : u.run? a with
      | none => exact hu
      | some r =>
        obtain ⟨hnode, hinputs, -⟩ := leftOver_kept now r
        exact hu.putEnded hr hnode hinputs
  rw [close_eq]
  refine hfold _ _ ?_
  split_ifs
  · exact h
  · exact h.violate _

end Step

end Scope

end PortGraph
