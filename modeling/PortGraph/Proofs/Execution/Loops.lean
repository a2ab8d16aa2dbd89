import PortGraph.Proofs.Execution.Branches
import PortGraph.Proofs.Execution.LoopEnds

/-!
Loops of executions that are over. Each iteration has begun in a fresh scope that was given its item,
its position and the values from outside, and has run to its end; the loop has run those iterations
that it should and has ended as they say. So a parallel loop and a sequential one whose iterations come
to the same end in the same way.
-/

namespace PortGraph

open Plan Relation

namespace Execution

variable {p : Plan} {verbose : Bool} {now : Timestamp} {e e' : Execution} {a : Address}
variable {t : Site} {n : NodeId} {l : Looping} {xs : List (ℕ × Site)} {inputs : PortValues}
variable {settings : LoopSettings} {items : List Json} {fails : ℕ → Bool} {value : ℕ → Json}

/-! ### What iterations are given -/

/-- What an iteration is given: the item on the edges from `item`, its position on those from `index`,
each value that the body takes from outside, and nothing else. -/
structure Given (p : Plan) (e : Execution) (a : Address) (n : NodeId) (items : List Json) (i : ℕ)
    (given : List (PortRef × Json)) : Prop where
  single : (given.map (·.1)).Nodup
  item : ∀ edge ∈ p.graph.edges, edge.source = n → edge.label.sourcePort = PortName.item →
    ∃ v, items[i]? = some v ∧ (edge.targetRef, v) ∈ given
  index : ∀ edge ∈ p.graph.edges, edge.source = n → edge.label.sourcePort = PortName.index →
    (edge.targetRef, .ofNat i) ∈ given
  captured : ∀ lp, p.loop? n = some lp → ∀ link ∈ lp.captures,
    ∃ v, e.valueAt? p a link.source = some v ∧ (link.target, v) ∈ given
  only : ∀ x ∈ given,
    (∃ edge ∈ p.graph.edges, edge.source = n ∧
      Nesting.isIterationPort edge.label.sourcePort = true ∧ edge.targetRef = x.1) ∨
    ∃ lp, p.loop? n = some lp ∧ ∃ link ∈ lp.captures, link.target = x.1

/-- An iteration has begun in a fresh scope with what it is to be given. -/
def Begun (p : Plan) (verbose : Bool) (e : Execution) (a : Address) (n : NodeId)
    (items : List Json) (i : ℕ) : Prop :=
  ∃ now given e₁, Leads p verbose e₁ e ∧
    e₁.site? ((n, i) :: a) = some ⟨Scope.seed p now (some n) given, .running, [], [], []⟩ ∧
      Given p e a n items i given

theorem Stems.mem_deliveries {s : Scope} {i : ℕ} (h : Stems p e a s n l) {edge : Edge}
    (hedge : edge ∈ p.graph.edges) (hsource : edge.source = n)
    (hport : Nesting.isIterationPort edge.label.sourcePort = true) :
    (edge.targetRef, if edge.label.sourcePort = PortName.index then .ofNat i
      else (l.itemList[i]?).getD .null) ∈ l.deliveries p i := by
  subst hsource
  refine List.mem_append_left _ (mem_iterationValues.mpr ⟨⟨edge.target, edge.label⟩, ?_, rfl, rfl⟩)
  rw [h.node]
  exact Graph.mem_seeds.mpr ⟨hedge, hport⟩

theorem Stems.given (hp : p.Sound) {s : Scope} {i : ℕ} (h : Stems p e a s n l)
    (hitems : l.items = .ok items) (hi : i < l.count) (hlater : Later e e') :
    Given p e' a n items i (l.deliveries p i) where
  single := (h.proper hp i).nodup
  item := by
    intro edge hedge hsource hport
    have hlist := Looping.itemList_of_ok hitems
    have hlt : i < items.length := hlist ▸ lt_of_lt_of_le hi (min_le_left _ _)
    have hmem := h.mem_deliveries (i := i) hedge hsource (by rw [hport]; rfl)
    rw [if_neg (by rw [hport]; decide), hlist, List.getElem?_eq_getElem hlt] at hmem
    exact ⟨items[i], List.getElem?_eq_getElem hlt, hmem⟩
  index := by
    intro edge hedge hsource hport
    have hmem := h.mem_deliveries (i := i) hedge hsource (by rw [hport]; rfl)
    rwa [if_pos hport] at hmem
  captured := by
    intro lp hlp link hlink
    obtain ⟨⟨target, v⟩, hmem, htarget⟩ := List.mem_map.mp
      ((h.captures _).mpr ⟨lp, hlp, List.mem_map.mpr ⟨link, hlink, rfl⟩⟩)
    obtain ⟨source, hin, hv⟩ := h.bears _ hmem
    rw [(hp.loop?_eq_some hlp).2.1] at hlink
    obtain ⟨edge, hedge, rfl, -⟩ := Graph.mem_captures.mp hlink
    obtain rfl : target = edge.targetRef := htarget
    have hsource : p.graph.inbound? edge.targetRef.node edge.targetRef.port = some edge.sourceRef :=
      hp.graph.inbound?_eq_some.mpr ⟨edge.label, hedge, rfl, rfl⟩
    obtain rfl := Option.some.inj (hin.symm.trans hsource)
    exact ⟨v, hlater.valueAt? hv, List.mem_append_right _ hmem⟩
  only := by
    rintro ⟨target, v⟩ hx
    rcases List.mem_append.mp hx with hseed | hhanded
    · obtain ⟨c, hc, hinput, -⟩ := mem_iterationValues.mp hseed
      rw [h.node] at hc
      obtain ⟨hedge, hport⟩ := Graph.mem_seeds.mp hc
      exact Or.inl ⟨_, hedge, rfl, hport, hinput⟩
    · obtain ⟨lp, hlp, htarget⟩ := (h.captures _).mp (List.mem_map.mpr ⟨_, hhanded, rfl⟩)
      obtain ⟨link, hlink, heq⟩ := List.mem_map.mp htarget
      exact Or.inr ⟨lp, hlp, link, hlink, heq⟩

/-- An iteration has been opened for a loop under way. -/
def Opened (p : Plan) (verbose : Bool) (e : Execution) (a : Address) (n : NodeId) (i : ℕ) : Prop :=
  ∃ now u l e₁, Reachable p verbose e₁ ∧ Leads p verbose e₁ e ∧ e₁.site? a = some u ∧
    Stems p e₁ a u.scope n l ∧ i < l.count ∧ e₁.site? ((n, i) :: a) =
      some ⟨Scope.seed p now (some n) (l.deliveries p i), .running, [], [], []⟩

/-- Every iteration has been opened once. -/
theorem Reachable.opened (hp : p.Sound) (hu : p.Untangled) (h : Reachable p verbose e) {i : ℕ}
    (ht : e.site? ((n, i) :: a) = some t) : Opened p verbose e a n i := by
  induction h generalizing t with
  | begin now permits aborted =>
    rw [site?_begin] at ht
    simp at ht
  | @step now e e' event h hevent ih =>
    have hold : ∀ u, e.site? ((n, i) :: a) = some u → Opened p verbose e' a n i := by
      intro u hsite
      obtain ⟨now₁, u₁, l₁, e₁, hreach, hleads, hrest⟩ := ih hsite
      exact ⟨now₁, u₁, l₁, e₁, hreach, hleads.tail ⟨now, event, hevent⟩, hrest⟩
    have hg := h.grounded hp hu
    obtain ⟨-, rfl⟩ | ⟨b, u, u', hb, -, hcases⟩ := perform?_eq_some hevent
    · exact hold t ht
    have hput : (e.putSite p verbose b u').site? ((n, i) :: a) = some t →
        Opened p verbose e' a n i := by
      intro hsite
      rw [site?_putSite] at hsite
      split_ifs at hsite with heq
      · subst heq
        exact hold u hb
      · exact hold t hsite
    rcases hcases with ⟨-, rfl⟩ | ⟨loop, l, rfl, hl, hmay, hu', rfl⟩
    · exact hput ht
    · have hlater := (hg.perform hp hu hevent).2
      have hsite := ht
      rw [site?_openSite] at ht
      split_ifs at ht with heq
      · obtain ⟨hhead, rfl⟩ := List.cons.inj heq
        obtain ⟨rfl, rfl⟩ := Prod.mk.inj hhead
        obtain ⟨given, hroot⟩ := hg.sites _ u hb
        have hscope : u'.scope = u.scope := by rw [hu']
        refine ⟨now, u', l, _, .step h hevent, .refl, ?_, ?_,
          of_decide_eq_true ((Bool.and_eq_true _ _).mp hmay).1, ?_⟩
        · rw [site?_openSite, if_neg fun heq => by simpa using congrArg List.length heq,
            site?_putSite, if_pos rfl]
        · rw [hscope]
          exact (hroot.loops _ l hl).later (.refl _) hlater
        · rw [hsite, ← ht]
          rfl
      · exact hput ht

/-! ### What loops come to -/

/-- A loop with these settings that has started with these items, in an execution that nobody called
off and that is over without a fault. -/
structure LoopRun (p : Plan) (verbose : Bool) (e : Execution) (a : Address) (n : NodeId)
    (settings : LoopSettings) (items : List Json) (r : NodeRun) : Prop where
  accepted : p.Accepted
  untangled : p.Untangled
  orderly : Orderly p verbose e
  clean : e.Clean
  complete : e.isOver = true
  run : ∃ t, e.site? a = some t ∧ t.scope.run? n = some r
  started : r.startedAt.isSome = true
  settings : ∃ node, p.node? n = some node ∧ node.settings = .loop settings
  items : r.inputs.find? PortName.collection = some (.array items)

/-- What an iteration contributes to the results: the value that has reached the result of the loop,
or the item if nothing feeds the result. -/
def Contributes (p : Plan) (n : NodeId) (items : List Json) (x : ℕ × Site) (v : Json) : Prop :=
  if (p.graph.inbound? n PortName.result).isSome then x.2.scope.result = some v
  else items[x.1]? = some v

/-- The iterations that were run come to what has been assigned to them. -/
structure Assigned (p : Plan) (e : Execution) (a : Address) (n : NodeId) (items : List Json)
    (fails : ℕ → Bool) (value : ℕ → Json) : Prop where
  fails : ∀ x ∈ e.iterations a n, fails x.1 = true ↔ x.2.scope.Fails
  value : ∀ x ∈ e.iterations a n, ∀ v, Contributes p n items x v → value x.1 = v

/-- A loop has run the iterations that it should, each in a fresh scope and to its end, and has ended
as they say. -/
structure Iterated (p : Plan) (verbose : Bool) (e : Execution) (a : Address) (n : NodeId)
    (settings : LoopSettings) (items : List Json) (fails : ℕ → Bool) (value : ℕ → Json)
    (r : NodeRun) : Prop where
  executed : (e.iterations a n).map (·.1) = List.range (settings.executed items.length fails)
  begun : ∀ x ∈ e.iterations a n, Begun p verbose e a n items x.1
  ended : ∀ x ∈ e.iterations a n, x.2.phase = .ended
  contributes : ∀ x ∈ e.iterations a n, ¬ x.2.scope.Fails → ∃ v, Contributes p n items x v
  /-- What has reached the result is what the node that feeds it has sent. -/
  reached : ∀ x ∈ e.iterations a n, ∀ source v, p.graph.inbound? n PortName.result = some source →
    x.2.scope.result = some v → e.outputAt? ((n, x.1) :: a) source = some v
  ends : r.EndsAs (.of settings.maxIterations items fails value)

section Contract

variable {r : NodeRun} (h : LoopRun p verbose e a n settings items r)
include h

theorem LoopRun.sound : p.Sound := Plan.sound_of_accepted h.accepted

theorem LoopRun.aborted : e.aborted = false :=
  h.orderly.aborted_of_clean h.sound h.untangled h.clean

theorem LoopRun.grounded : Grounded p e := h.orderly.reachable.grounded h.sound h.untangled

theorem LoopRun.kind : p.graph.kind? n = some .loop := by
  obtain ⟨node, hnode, hsettings⟩ := h.settings
  exact Graph.kind?_of_settings hnode hsettings

theorem LoopRun.itemsOf : Looping.itemsOf r.inputs = .ok items := by
  unfold Looping.itemsOf PortValues.value
  rw [h.items]
  rfl

/-- The loop has ended as the list of its iterations says. -/
theorem LoopRun.concluded : ∃ l, Concluded p (e.iterations a n) n r.inputs l ∧
    l.items = .ok items ∧ l.settings = settings ∧
      r.EndedBy (l.outcome ((e.iterations a n).map fun x => (x.1, x.2.scope)) false) := by
  obtain ⟨t, ht, hr⟩ := h.run
  obtain ⟨node, hnode, hsettings⟩ := h.settings
  have hended := (h.orderly.reachable.booked h.sound h.untangled).hosted.over h.complete ht
  have hterm := ((h.orderly.calm h.sound h.untangled h.aborted a t ht).done hended hr).1
  obtain ⟨o, ⟨hleaf, -⟩ | ⟨l, hl, rfl⟩, hends⟩ :=
    (h.orderly.faithful h.sound h.untangled h.aborted a t ht).ended n r hr h.started hterm
  · exact absurd hsettings (hleaf node _ hnode)
  · exact ⟨l, hl, hl.items.trans h.itemsOf, (hl.settings_eq hnode hsettings).symm, hends⟩

variable {x : ℕ × Site} (hx : x ∈ e.iterations a n)
include hx

theorem LoopRun.site : e.site? ((n, x.1) :: a) = some x.2 := (mem_iterations h.grounded.keys).mp hx

theorem LoopRun.begun : Begun p verbose e a n items x.1 := by
  obtain ⟨now, u, l, e₁, hreach, hleads, hu, hstems, hlt, hsite⟩ :=
    h.orderly.reachable.opened h.sound h.untangled (h.site hx)
  have hlater := (Leads.grounded h.sound h.untangled (hreach.grounded h.sound h.untangled) hleads).2
  refine ⟨now, _, e₁, hleads, hsite, hstems.given h.sound ?_ hlt hlater⟩
  -- the loop has kept the inputs that it started with
  obtain ⟨r₁, hr₁, hstart₁, hitems⟩ := hstems.run
  obtain ⟨t, ht, hr⟩ := h.run
  obtain ⟨t', ht', hscope⟩ := hlater a u hu
  obtain rfl := Option.some.inj (ht.symm.trans ht')
  obtain ⟨r', hr', -, hinputs, -⟩ := hscope.started n r₁ hr₁ hstart₁
  obtain rfl := Option.some.inj (hr.symm.trans hr')
  rw [hitems, ← hinputs, h.itemsOf]

theorem LoopRun.ended : x.2.phase = .ended :=
  (h.orderly.reachable.booked h.sound h.untangled).hosted.over h.complete (h.site hx)

/-- The scope of an iteration is as it was before it closed. -/
theorem LoopRun.coherent : ∃ given, Scope.Coherent p given x.2.scope [] ∧
    x.2.scope.owner = some n := by
  obtain ⟨given, -, hcoherent, howner, -⟩ :=
    h.orderly.unclosed h.sound h.untangled h.aborted (h.site hx) (h.ended hx)
  exact ⟨given, hcoherent, howner⟩

theorem LoopRun.fails_iff : x.2.scope.firstFailure?.isSome = true ↔ x.2.scope.Fails := by
  obtain ⟨given, hcoherent, -⟩ := h.coherent hx
  exact hcoherent.listed.isSome_firstFailure?_iff

theorem LoopRun.reached {source : PortRef} {v : Json}
    (hin : p.graph.inbound? n PortName.result = some source) (hv : x.2.scope.result = some v) :
    e.outputAt? ((n, x.1) :: a) source = some v := by
  obtain ⟨given, hcoherent, howner⟩ := h.coherent hx
  obtain ⟨k, hk, ⟨m, rm, o, hrm, hstate, ho, hsent⟩ | hnil⟩ :=
    Scope.sent_of_result h.sound hcoherent hv
  · obtain rfl := Option.some.inj (howner.symm.trans hk)
    obtain ⟨c, hc, htarget, hvalue⟩ := mem_outboundValues.mp hsent
    have hsource := h.sound.inbound?_of_forwardOut hc
    rw [htarget, hin] at hsource
    obtain rfl := Option.some.inj hsource
    exact outputAt?_eq_some.mpr ⟨x.2, rm, o, h.site hx, hrm, hstate, ho, hvalue⟩
  · simp at hnil

theorem LoopRun.contributes (hwell : ¬ x.2.scope.Fails) : ∃ v, Contributes p n items x v := by
  unfold Contributes
  cases hin : p.graph.inbound? n PortName.result with
  | some source =>
    simp only [Option.isSome_some, if_true]
    obtain ⟨given, hcoherent, howner⟩ := h.coherent hx
    have hreach := h.orderly.reachable
    have hcalm := h.orderly.calm h.sound h.untangled h.aborted _ _ (h.site hx)
    have hfaithful := h.orderly.faithful h.sound h.untangled h.aborted _ _ (h.site hx)
    refine hcoherent.result_of_returns h.sound h.untangled
      (hreach.invariant h.sound h.untangled (Scope.invariant_attributed h.sound) _ _ (h.site hx))
      (hreach.invariant h.sound h.untangled (Scope.invariant_returned h.sound h.untangled) _ _
        (h.site hx)) howner hin (fun m rm hrm => hcalm.done (h.ended hx) hrm) ?_ hwell
    intro m rm hrm hstate
    obtain ⟨o, -, hends⟩ := hfaithful.ended m rm hrm
      (Scope.started_of_succeeded hcoherent.shape hcoherent.sourced hrm hstate)
      (by rw [hstate]; rfl)
    exact hends.isSome_outputs hstate
  | none =>
    simp only [Option.isSome_none, Bool.false_eq_true, if_false]
    obtain ⟨l, hl, hitems, -⟩ := h.concluded
    have hindex : x.1 ∈ (e.iterations a n).map (·.1) := List.mem_map.mpr ⟨x, hx, rfl⟩
    rw [hl.indices, List.mem_range] at hindex
    have hlt : x.1 < items.length :=
      Looping.itemList_of_ok hitems ▸ (hindex.trans_le hl.opened).trans_le (min_le_left _ _)
    exact ⟨items[x.1], List.getElem?_eq_getElem hlt⟩

omit h hx in
/-- What a loop collects of an iteration is what the iteration contributes. -/
theorem Concluded.contribution_eq (hp : p.Sound) (hl : Concluded p xs n inputs l)
    (hkind : p.graph.kind? n = some .loop) (hitems : l.items = .ok items) {v : Json}
    (hv : Contributes p n items x v) : l.contribution (x.1, x.2.scope) = v := by
  obtain ⟨lp, hlp⟩ := Option.isSome_iff_exists.mp (hp.isSome_loop?_iff.mpr hkind)
  have hresult : l.hasResult = (p.graph.inbound? n PortName.result).isSome := by
    rw [hl.hasResult, hlp, Option.map_some, Option.getD_some]
    exact (hp.loop?_eq_some hlp).2.2.1
  unfold Contributes at hv
  unfold Looping.contribution
  rw [hresult, Looping.itemList_of_ok hitems]
  split_ifs at hv ⊢
  · rw [hv]
    rfl
  · rw [hv]
    rfl

omit hx in
theorem LoopRun.iterated (hassigned : Assigned p e a n items fails value) :
    Iterated p verbose e a n settings items fails value r := by
  obtain ⟨l, hl, hitems, rfl, hends⟩ := h.concluded
  have hfails : ∀ x ∈ e.iterations a n, fails x.1 = x.2.scope.firstFailure?.isSome := fun x hx =>
    Bool.eq_iff_iff.mpr ((hassigned.fails x hx).trans (h.fails_iff hx).symm)
  have hexecuted := hl.opened_eq hitems hfails
  have hindices : (e.iterations a n).map (·.1) =
      List.range (l.settings.executed items.length fails) := hexecuted ▸ hl.indices
  refine ⟨hindices, fun x hx => h.begun hx, fun x hx => h.ended hx,
    fun x hx hwell => h.contributes hx hwell, fun x hx _ _ hin hv => h.reached hx hin hv, ?_⟩
  refine Looping.endsAs_of_outcome hitems ((List.map_map ..).trans hindices)
    LoopSettings.find?_executed LoopSettings.executed_of_well ?_ ?_ ?_ hends
  · exact List.forall_mem_map.mpr fun x hx => h.clean _ _ (h.site hx)
  · exact List.forall_mem_map.mpr hfails
  · refine List.forall_mem_map.mpr fun x hx hnone => ?_
    obtain ⟨v, hv⟩ := h.contributes hx fun hfailed => by
      rw [← h.fails_iff hx, hnone] at hfailed
      simp at hfailed
    exact (hl.contribution_eq h.sound h.kind hitems hv).trans (hassigned.value x hx v hv).symm

end Contract

/-- How a loop ends is settled by its items, its limit and what its iterations come to, whatever the
order in which they run. It runs the iterations up to the limit, a sequential loop those up to the
first that fails, each in a fresh scope with its item, its position and the values from outside. It
fails with the first iteration that fails; else for its bound if there are more items; else it
succeeds with one result for each item, in the order of the items. So a parallel loop and a sequential
one whose iterations come to the same end in the same way. -/
theorem loopSettled {settings : LoopSettings} {items : List Json} {fails : ℕ → Bool}
    {value : ℕ → Json} {r : NodeRun} (h : LoopRun p verbose e a n settings items r)
    (hassigned : Assigned p e a n items fails value) :
    Iterated p verbose e a n settings items fails value r ∧
      ∀ {p₂ verbose₂ e₂ a₂ n₂ settings₂ r₂}, LoopRun p₂ verbose₂ e₂ a₂ n₂ settings₂ items r₂ →
        settings₂.maxIterations = settings.maxIterations →
          Assigned p₂ e₂ a₂ n₂ items fails value → r.EndsLike r₂ := by
  have hiterated := h.iterated hassigned
  refine ⟨hiterated, ?_⟩
  intro p₂ verbose₂ e₂ a₂ n₂ settings₂ r₂ h₂ hmost hassigned₂
  exact hiterated.ends.alike (hmost ▸ (h₂.iterated hassigned₂).ends)

/-- A loop over rows, each of which is returned as it is worked on. -/
def rowsLoop (parallel : Bool) : Definition :=
  ⟨[⟨"in", "data-input", []⟩, ⟨"rows", "logic-loop", [("parallel", .bool parallel)]⟩,
    ⟨"row", "data-transform", []⟩],
   [⟨⟨"in", "value"⟩, ⟨"rows", "collection"⟩⟩, ⟨⟨"rows", "item"⟩, ⟨"row", "input"⟩⟩,
    ⟨⟨"row", "output"⟩, ⟨"rows", "result"⟩⟩]⟩

def rowItems : List Json := [.string "first", .bool false, .string "last"]

/-- The second row is refused. -/
def rowsWork : Work := fun n inputs =>
  if n = "in" then .succeeded [("value", .array rowItems)]
  else if inputs "input" == some (.bool false) then .failed (.failed "no text")
  else .succeeded [("output", .ofOption (inputs "input"))]

def rowFails (i : ℕ) : Bool := i == 1

def rowValue (i : ℕ) : Json := (rowItems[i]?).getD .null

/-- The only member of a scope starts, ends, and closes the scope. -/
def soleTurn (a : Address) (n : NodeId) (o : Outcome) : List Event :=
  [.dispatch a, .report a (.ended ⟨n, [], o⟩), .hear a n, .leave a, .close a]

def rowTurn (i : ℕ) : List Event :=
  soleTurn [("rows", i)] "row"
    (if rowFails i then .failed (.failed "no text") else .succeeded [("output", rowValue i)])

def rowsEvents (iterations : List Event) : List (Timestamp × Event) :=
  let before : List Event :=
    [.dispatch [], .report [] (.ended ⟨"in", [], .succeeded [("value", .array rowItems)]⟩),
      .hear [] "in", .dispatch []]
  let after : List Event := [.conclude [] "rows", .hear [] "rows", .leave [], .close []]
  (before ++ iterations ++ after).map fun event => (.epoch, event)

/-- One row after the other, up to the one that is refused. -/
def rowByRow : List (Timestamp × Event) :=
  rowsEvents ([.iterate [] "rows"] ++ rowTurn 0 ++ [.iterate [] "rows"] ++ rowTurn 1)

/-- All rows at once; the last one ends first. -/
def rowsAtOnce : List (Timestamp × Event) :=
  rowsEvents (List.replicate 3 (.iterate [] "rows") ++ rowTurn 2 ++ rowTurn 1 ++ rowTurn 0)

/-- Whether an execution of the loop comes to what is expected of it. -/
def rowsChecked (p : Plan) (parallel : Bool) (events : List (Timestamp × Event)) (count : ℕ) : Prop :=
  (∀ a ∈ p.nesting.loops, ∀ b ∈ p.nesting.loops, ¬ (a.1 ∈ b.2.body ∧ b.1 ∈ a.2.body)) ∧
  (p.node? "rows").map Node.settings = some (.loop ⟨100, parallel⟩) ∧
  (p.graph.inbound? "rows" PortName.result).isSome = true ∧
  ((begin p false .epoch 1 false).afterBy? p false rowsWork events).any fun e =>
    (e.isOver && (e.sites.all fun x => x.2.scope.fault.isNone) &&
      (e.iterations [] "rows").length == count) &&
    ((e.iterations [] "rows").all fun x => x.2.scope.firstFailure?.isSome == rowFails x.1 &&
      x.2.scope.result.all fun v => v == rowValue x.1) &&
    ((e.site? []).bind fun t => t.scope.run? "rows").any fun r =>
      r.startedAt.isSome && r.inputs.find? PortName.collection == some (.array rowItems)

instance (p : Plan) (parallel : Bool) (events : List (Timestamp × Event)) (count : ℕ) :
    Decidable (rowsChecked p parallel events count) :=
  inferInstanceAs (Decidable (_ ∧ _ ∧ _ ∧ _))

theorem loopRun_of_checked {parallel : Bool} {events : List (Timestamp × Event)} {count : ℕ}
    (haccepted : p.Accepted) (hchecked : rowsChecked p parallel events count) :
    ∃ e r, LoopRun p false e [] "rows" ⟨100, parallel⟩ rowItems r ∧
      Assigned p e [] "rows" rowItems rowFails rowValue ∧
        (e.iterations [] "rows").length = count := by
  obtain ⟨hloops, hsettings, hin, hall⟩ := hchecked
  obtain ⟨e, hafter, hchecks⟩ := (Option.any_eq_true _ _).mp hall
  obtain ⟨hrest, hrun⟩ := (Bool.and_eq_true _ _).mp hchecks
  obtain ⟨hrest, hassigned⟩ := (Bool.and_eq_true _ _).mp hrest
  obtain ⟨hrest, hcount⟩ := (Bool.and_eq_true _ _).mp hrest
  obtain ⟨hover, hsites⟩ := (Bool.and_eq_true _ _).mp hrest
  obtain ⟨r, hsite, hr⟩ := (Option.any_eq_true _ _).mp hrun
  obtain ⟨t, ht, hr'⟩ := Option.bind_eq_some_iff.mp hsite
  obtain ⟨hstart, hitems⟩ := (Bool.and_eq_true _ _).mp hr
  obtain ⟨node, hnode, hloop⟩ := Option.map_eq_some_iff.mp hsettings
  have h : LoopRun p false e [] "rows" ⟨100, parallel⟩ rowItems r :=
    ⟨haccepted, Plan.untangled_of_loops hloops, (runBy_of_afterBy? (.begin .epoch 1) hafter).orderly,
      clean_of_check hsites, hover, ⟨t, ht, hr'⟩, hstart, ⟨node, hnode, hloop⟩, by simpa using hitems⟩
  refine ⟨e, r, h, ⟨fun x hx => ?_, fun x hx v hv => ?_⟩, by simpa using hcount⟩
  · obtain ⟨hfails, -⟩ := (Bool.and_eq_true _ _).mp (List.all_eq_true.mp hassigned x hx)
    rw [← h.fails_iff hx, beq_iff_eq.mp hfails]
  · obtain ⟨-, hvalue⟩ := (Bool.and_eq_true _ _).mp (List.all_eq_true.mp hassigned x hx)
    rw [Contributes, if_pos hin] at hv
    rw [hv] at hvalue
    exact (beq_iff_eq.mp hvalue).symm

theorem rowsLoop_loopSettled : ∃ p e r p₂ e₂ r₂, Plan.ofDefinition (rowsLoop false) = .ok p ∧
    Plan.ofDefinition (rowsLoop true) = .ok p₂ ∧
    (e.iterations [] "rows").length = 2 ∧ (e₂.iterations [] "rows").length = 3 ∧
    Iterated p false e [] "rows" ⟨100, false⟩ rowItems rowFails rowValue r ∧
    Iterated p₂ false e₂ [] "rows" ⟨100, true⟩ rowItems rowFails rowValue r₂ ∧ r.EndsLike r₂ := by
  obtain ⟨p, hp, hchecked⟩ := Plan.exists_of_check (d := rowsLoop false)
    (P := fun p => rowsChecked p false rowByRow 2) (by decide +kernel)
  obtain ⟨p₂, hp₂, hchecked₂⟩ := Plan.exists_of_check (d := rowsLoop true)
    (P := fun p => rowsChecked p true rowsAtOnce 3) (by decide +kernel)
  obtain ⟨e, r, h, hassigned, hcount⟩ := loopRun_of_checked ⟨_, hp⟩ hchecked
  obtain ⟨e₂, r₂, h₂, hassigned₂, hcount₂⟩ := loopRun_of_checked ⟨_, hp₂⟩ hchecked₂
  obtain ⟨hiterated, halike⟩ := loopSettled h hassigned
  exact ⟨p, e, r, p₂, e₂, r₂, hp, hp₂, hcount, hcount₂, hiterated, (loopSettled h₂ hassigned₂).1,
    halike h₂ rfl hassigned₂⟩

end Execution

end PortGraph
