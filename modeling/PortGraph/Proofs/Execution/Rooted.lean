import PortGraph.Proofs.Execution.Values

/-!
Where the values of a scope come from. A loop under way keeps what was handed to it in its scope,
and with that its iterations are given exactly the values that their feeders have in the scopes
around them. So each scope of an execution stays coherent until it closes.
-/

namespace PortGraph

open Nesting Plan

/-- At the top level no node is queued at once although the value of its branch is lost. -/
def Plan.SeedsSighted (p : Plan) : Prop := ∀ now, Scope.Sighted (Scope.seed p now none [])

namespace Execution

/-- A value for an input is what the feeder of the input has sent. -/
def Bears (p : Plan) (e : Execution) (a : Address) (x : PortRef × Json) : Prop :=
  ∃ source, p.graph.inbound? x.1.node x.1.port = some source ∧ e.valueAt? p a source = some x.2

/-- A loop under way stems from a node that has started in its scope. -/
structure Stems (p : Plan) (e : Execution) (a : Address) (s : Scope) (n : NodeId) (l : Looping) :
    Prop where
  node : l.node = n
  run : ∃ r, s.run? n = some r ∧ r.startedAt.isSome = true ∧ l.items = Looping.itemsOf r.inputs
  settings : ∃ node, p.node? n = some node ∧ node.settings = .loop l.settings
  hasResult : l.hasResult = ((p.loop? n).map LoopPlan.hasResult).getD false
  bears : ∀ x ∈ l.handed, e.Bears p a x
  keys : (l.handed.map (·.1)).Nodup
  captures : ∀ t, t ∈ l.handed.map (·.1) ↔
    ∃ lp, p.loop? n = some lp ∧ t ∈ lp.captures.map Link.target
  opened : l.opened ≤ l.count

/-- A scope at an address, which has been given values from outside. -/
structure Rooted (p : Plan) (e : Execution) (a : Address) (t : Site)
    (given : List (PortRef × Json)) : Prop where
  bears : ∀ x ∈ given, e.Bears p a x
  parent : ∀ l i outer, a = (l, i) :: outer → ∃ u r, e.site? outer = some u ∧
    u.scope.run? l = some r ∧ r.startedAt.isSome = true
  scope : ∃ s, Scope.Coherent p given s [] ∧ s.owner = a.owner ∧
    (p.SeedsSighted → Scope.Chosen p s) ∧
      ((t.phase ≠ .ended ∧ t.scope = s) ∨
        (t.phase = .ended ∧ ∃ now aborted, t.scope = s.close now aborted))
  loops : ∀ n l, t.loops.find? n = some l → Stems p e a t.scope n l

variable {p : Plan} {verbose : Bool} {now : Timestamp} {e e' : Execution} {a : Address}
variable {t t' : Site} {given : List (PortRef × Json)} {event : Event}

/-! ### Later executions -/

theorem Later.bears (h : Later e e') {x : PortRef × Json} (hx : e.Bears p a x) :
    e'.Bears p a x := by
  obtain ⟨source, hin, hv⟩ := hx
  exact ⟨source, hin, h.valueAt? hv⟩

theorem Stems.later {s s' : Scope} {n : NodeId} {l : Looping} (hl : Stems p e a s n l)
    (hs : Scope.Later s s') (h : Later e e') : Stems p e' a s' n l where
  node := hl.node
  run := by
    obtain ⟨r, hr, hstart, hitems⟩ := hl.run
    obtain ⟨r', hr', hstart', hinputs, -⟩ := hs.started n r hr hstart
    exact ⟨r', hr', by rw [hstart']; exact hstart, by rw [hinputs]; exact hitems⟩
  settings := hl.settings
  hasResult := hl.hasResult
  bears := fun x hx => h.bears (hl.bears x hx)
  keys := hl.keys
  captures := hl.captures
  opened := hl.opened

theorem Rooted.later (hroot : Rooted p e a t given) (h : Later e e') : Rooted p e' a t given where
  bears := fun x hx => h.bears (hroot.bears x hx)
  parent := by
    intro l i outer ha
    obtain ⟨u, r, hu, hr, hstart⟩ := hroot.parent l i outer ha
    obtain ⟨u', hu', hlater⟩ := h outer u hu
    obtain ⟨r', hr', hstart', -⟩ := hlater.started l r hr hstart
    exact ⟨u', r', hu', hr', by rw [hstart']; exact hstart⟩
  scope := hroot.scope
  loops := fun n l hl => (hroot.loops n l hl).later (.refl _) h

/-! ### Starting a loop -/

section Start

variable (hp : p.Sound) (hu : p.Untangled)
include hp hu

omit hu in
/-- Whatever is offered in a scope is what the feeder has sent. -/
theorem bears_of_offered (ht : e.site? a = some t) {s : Scope} (hlater : Scope.Later s t.scope)
    (hs : Scope.Shape p s) (howner : s.owner = a.owner) (hgiven : ∀ x ∈ given, e.Bears p a x)
    {x : PortRef} {v : Json} (h : Scope.Offered p given s x v) : e.Bears p a (x, v) := by
  rcases h with ⟨m, r, o, hr, hstate, ho, hout⟩ | hmem
  · obtain ⟨c, hc, rfl, hv⟩ := mem_outboundValues.mp hout
    obtain ⟨r', hr', hstate', ho', -⟩ :=
      hlater.ended m r hr (by simp [hstate, RunState.isTerminal])
    refine ⟨⟨m, c.label.sourcePort⟩, hp.inbound?_of_forwardOut hc, ?_⟩
    have hsent : e.outputAt? a ⟨m, c.label.sourcePort⟩ = some v :=
      outputAt?_eq_some.mpr ⟨t, r', o, ht, hr', hstate'.trans hstate, ho'.trans ho, hv⟩
    have hscope : p.scopeOf m = a.owner := by
      have hmem := (hs.member m).mp (by rw [hr]; rfl)
      rw [howner] at hmem
      exact (hp.mem_membersIn.mp hmem).2
    exact (valueAt?_member hscope).trans hsent
  · exact hgiven _ hmem

/-- A loop that may start has been handed a value for each capture of its body. -/
theorem handed_of_ready {s : Scope} (h : Scope.Coherent p given s []) {n : NodeId} {r : NodeRun}
    (hr : s.run? n = some r) (hstate : r.state = .ready) (hkind : p.kind? n = some .loop)
    (x : PortRef) :
    x ∈ s.handedKeys n ↔ ∃ lp, p.loop? n = some lp ∧ x ∈ lp.captures.map Link.target := by
  obtain ⟨lp, hlp⟩ := Option.isSome_iff_exists.mp (hp.isSome_loop?_iff.mpr hkind)
  have hzero := ((h.shape.clear n r hr).free (Or.inl hstate)).2.1
  have hall := (h.counted.captures_zero_iff hp hu h.shape h.sourced h.proper hr hlp).mp hzero
  constructor
  · intro hx
    exact ⟨lp, hlp, Scope.handedKeys_subset hp hu h.shape h.proper h.sourced hlp hx⟩
  · rintro ⟨lp', hlp', hx⟩
    obtain rfl := Option.some.inj (hlp.symm.trans hlp')
    exact hall x hx

theorem stems_start (ht : e.site? a = some t) (h : Scope.Coherent p given t.scope [])
    (howner : t.scope.owner = a.owner) (hgiven : ∀ x ∈ given, e.Bears p a x) {s : Scope}
    {r : NodeRun} (hstart : t.scope.startNext? now = some (s, r)) {node : Node}
    {settings : LoopSettings} (hnode : p.node? r.node = some node)
    (hsettings : node.settings = .loop settings) :
    Stems p e a s r.node (.start p settings t.scope r) := by
  obtain ⟨n, k, r₀, rest, hready, hr₀, hstate, rfl, rfl⟩ := Scope.startNext?_eq_some h hstart
  have hid : (r₀.start now).node = n := h.shape.node n r₀ hr₀
  have hkind : p.kind? n = some .loop := by
    rw [hid] at hnode
    exact Graph.kind?_of_settings hnode hsettings
  refine ⟨rfl, ?_, ⟨node, hnode, hsettings⟩, rfl, ?_, ?_, ?_, Nat.zero_le _⟩
  · exact ⟨r₀.start now, by rw [hid, Scope.run?_started h hr₀, if_pos rfl], rfl, rfl⟩
  · intro x hx
    exact bears_of_offered hp ht (.refl _) h.shape howner hgiven
      (h.sourced.handed (r₀.start now).node x.1 x.2 hx).1
  · exact (List.nodup_append.mp (h.counted.fresh (r₀.start now).node)).1
  · intro x
    have hkeys := handed_of_ready hp hu h hr₀ hstate hkind x
    rw [← hid] at hkeys
    exact hkeys

end Start

/-! ### One event -/

theorem Rooted.coherent (h : Rooted p e a t given) (hphase : t.phase ≠ .ended) :
    Scope.Coherent p given t.scope [] ∧ t.scope.owner = a.owner ∧
      (p.SeedsSighted → Scope.Chosen p t.scope) := by
  obtain ⟨s, hcoherent, howner, hchosen, ⟨-, rfl⟩ | ⟨hended, -⟩⟩ := h.scope
  · exact ⟨hcoherent, howner, hchosen⟩
  · exact absurd hended hphase

theorem Rooted.owner (h : Rooted p e a t given) : t.scope.owner = a.owner := by
  obtain ⟨s, -, howner, -, ⟨-, rfl⟩ | ⟨-, now, aborted, heq⟩⟩ := h.scope
  · exact howner
  · rw [heq, (Scope.close_kept aborted).1, howner]

/-- A step of a scope that has not closed. -/
theorem Rooted.step (h : Rooted p e a t given) (hphase : t.phase ≠ .ended)
    (hphase' : t'.phase ≠ .ended) (hcoherent : Scope.Coherent p given t'.scope [])
    (hlater : Scope.Later t.scope t'.scope)
    (hchosen : Scope.Chosen p t.scope → Scope.Chosen p t'.scope)
    (hloops : ∀ n l, t'.loops.find? n = some l →
      t.loops.find? n = some l ∨ Stems p e a t'.scope n l) : Rooted p e a t' given where
  bears := h.bears
  parent := h.parent
  scope := by
    obtain ⟨-, howner, hchosen₀⟩ := h.coherent hphase
    exact ⟨t'.scope, hcoherent, hlater.owner.trans howner, fun hs => hchosen (hchosen₀ hs),
      Or.inl ⟨hphase', rfl⟩⟩
  loops := by
    intro n l hl
    rcases hloops n l hl with hold | hstems
    · exact (h.loops n l hold).later hlater (.refl e)
    · exact hstems

theorem Moves.rooted (hp : p.Sound) (hu : p.Untangled) (ht : e.site? a = some t)
    (h : Rooted p e a t given) (hmoves : Moves p now e a t event t') :
    Rooted p e a t' given ∧ Scope.Later t.scope t'.scope := by
  cases hmoves with
  | @startLoop s r node settings hphase hfault hstart hnode hsettings =>
    have hlive : t.phase ≠ .ended := by simp [hphase]
    obtain ⟨hcoherent, howner, -⟩ := h.coherent hlive
    obtain ⟨hcoherent', hlater, hchosen⟩ := hcoherent.startNext hstart
    refine ⟨h.step hlive hlive hcoherent' hlater hchosen ?_, hlater⟩
    intro n l hl
    rw [Table.find?_insert] at hl
    split_ifs at hl with heq
    · obtain rfl := Option.some.inj hl
      subst heq
      exact Or.inr (stems_start hp hu ht hcoherent howner h.bears hstart hnode hsettings)
    · exact Or.inl hl
  | @startWork s r hphase hfault hstart hother hfree =>
    have hlive : t.phase ≠ .ended := by simp [hphase]
    obtain ⟨hcoherent, howner, -⟩ := h.coherent hlive
    obtain ⟨hcoherent', hlater, hchosen⟩ := hcoherent.startNext hstart
    exact ⟨h.step hlive hlive hcoherent' hlater hchosen fun n l hl => Or.inl hl, hlater⟩
  | report => exact ⟨⟨h.bears, h.parent, h.scope, h.loops⟩, Scope.Later.refl _⟩
  | @hear r id hlive hfault hr =>
    obtain ⟨hcoherent, -⟩ := h.coherent hlive
    obtain ⟨hcoherent', hlater, hchosen⟩ :
        Scope.Coherent p given (t.scope.hear p now r) [] ∧ _ := hcoherent.hear hp hu r
    exact ⟨h.step hlive hlive hcoherent' hlater hchosen fun n l hl => Or.inl hl, hlater⟩
  | @iterate loop l hl hmay =>
    refine ⟨⟨h.bears, h.parent, h.scope, ?_⟩, Scope.Later.refl _⟩
    intro n l' hl'
    rw [Table.find?_insert] at hl'
    split_ifs at hl' with heq
    · obtain rfl := Option.some.inj hl'
      subst heq
      have hstems := h.loops loop l hl
      have hopened : l.opened < l.count := by
        have hand := (Bool.and_eq_true _ _).mp hmay
        exact of_decide_eq_true hand.1
      exact ⟨hstems.node, hstems.run, hstems.settings, hstems.hasResult, hstems.bears, hstems.keys,
        hstems.captures, hopened⟩
    · exact h.loops n l' hl'
  | @conclude loop l hl hmay =>
    refine ⟨⟨h.bears, h.parent, h.scope, ?_⟩, Scope.Later.refl _⟩
    intro n l' hl'
    rw [Table.find?_erase] at hl'
    split_ifs at hl'
    exact h.loops n l' hl'
  | leave hphase =>
    have hlive : t.phase ≠ .ended := by simp [hphase]
    obtain ⟨hcoherent, -⟩ := h.coherent hlive
    exact ⟨h.step hlive (by simp) hcoherent (.refl _) id fun n l hl => Or.inl hl,
      Scope.Later.refl _⟩
  | @close aborted hphase hidle =>
    have hlive : t.phase ≠ .ended := by simp [hphase]
    obtain ⟨hcoherent, howner, hchosen⟩ := h.coherent hlive
    have hlater : Scope.Later t.scope (t.scope.close now aborted) :=
      Scope.later_close hcoherent.shape aborted
    refine ⟨⟨h.bears, h.parent, ?_, ?_⟩, hlater⟩
    · exact ⟨t.scope, hcoherent, howner, hchosen, Or.inr ⟨rfl, now, aborted, rfl⟩⟩
    · intro n l hl
      exact (h.loops n l hl).later hlater (.refl e)

end Execution

end PortGraph
