import PortGraph.Proofs.Execution.Completed
import PortGraph.Proofs.Execution.Logged

/-!
How the runs of an execution that nobody calls off end. A loop has ended as its iterations say, each
of which has run to its end. Any other node has ended as its worker told; where what a worker makes of
a node depends on nothing but the node and the values of its inputs, that is what its work says.
-/

namespace PortGraph

open Plan

/-- What workers make of nodes, from the values of the inputs. -/
abbrev Work := NodeId → (String → Option Json) → Outcome

/-- What may come of a node that is no loop, from its inputs. -/
abbrev Rule := NodeId → PortValues → Outcome → Prop

/-- Only what the work says. -/
def Work.rule (work : Work) : Rule := fun n inputs o => o = work n inputs.find?

/-- Whatever a worker makes of it. -/
def Rule.free : Rule := fun _ _ _ => True

/-- The state and the outputs that an outcome leaves. -/
def Outcome.yield : Outcome → RunState × Option PortValues
  | .succeeded outputs => (.succeeded, some outputs)
  | .failed _ => (.failed, none)
  | .cancelled | .fatal _ => (.cancelled, none)

def NodeRun.yield (r : NodeRun) : RunState × Option PortValues := (r.state, r.outputs)

/-- A run has ended by an outcome. -/
structure NodeRun.EndedBy (r : NodeRun) (o : Outcome) : Prop where
  yield : r.yield = o.yield
  error : ∀ err, o = .failed err → r.error = some err

theorem NodeRun.EndedBy.of_record {r r' : NodeRun} {o : Outcome} (h : r.EndedBy o)
    (hrecord : r'.record = r.record) : r'.EndedBy o where
  yield := by
    rw [← h.yield]
    exact Prod.ext (state_of_record hrecord) (kept_of_record hrecord).2.1
  error := fun err herr => (congrArg NodeRun.error hrecord :).trans (h.error err herr)

theorem NodeRun.EndedBy.isSome_outputs {r : NodeRun} {o : Outcome} (h : r.EndedBy o)
    (hstate : r.state = .succeeded) : r.outputs.isSome = true := by
  obtain ⟨hstate', houtputs⟩ := Prod.mk.inj h.yield
  rw [hstate] at hstate'
  cases o with
  | succeeded outputs =>
    rw [houtputs]
    rfl
  | _ => simp at hstate'

theorem Scope.endedBy_concluded {r : NodeRun} (h : r.outputs = none) (now : Timestamp)
    (attempts : List Attempt) (o : Outcome) :
    (concluded now { r with attempts } o).EndedBy o := by
  cases o with
  | succeeded outputs => exact ⟨rfl, by simp⟩
  | failed err => exact ⟨congrArg (Prod.mk _) h, fun _ heq => congrArg some (Outcome.failed.inj heq)⟩
  | _ => exact ⟨congrArg (Prod.mk _) h, by simp⟩

/-- A worker that ends a node makes of it what its work says. -/
def Event.Follows (work : Work) (e : Execution) : Event → Prop
  | .report a r => ∃ c t run, r = .ended c ∧ e.site? a = some t ∧ t.scope.run? c.node = some run ∧
      c.outcome = work c.node run.inputs.find?
  | _ => True

/-- What a worker makes of a node is what may come of it. -/
def Event.Obeys (rule : Rule) (e : Execution) (event : Event) : Prop :=
  ∀ a c t run, event = .report a (.ended c) → e.site? a = some t →
    t.scope.run? c.node = some run → rule c.node run.inputs c.outcome

theorem Event.Follows.obeys {work : Work} {e : Execution} {event : Event}
    (h : event.Follows work e) : event.Obeys work.rule e := by
  rintro a c t run rfl ht hrun
  obtain ⟨c', u, run', hreport, hu, hrun', houtcome⟩ := h
  obtain rfl := Report.ended.inj hreport
  obtain rfl := Option.some.inj (ht.symm.trans hu)
  obtain rfl := Option.some.inj (hrun.symm.trans hrun')
  exact houtcome

namespace Execution

variable {p : Plan} {verbose : Bool} {now : Timestamp} {e e' : Execution} {a b : Address}
variable {t t' : Site} {given : List (PortRef × Json)} {event : Event} {n loop : NodeId}
variable {work : Work} {rule : Rule} {l : Looping} {xs : List (ℕ × Site)} {inputs : PortValues}
variable {o : Outcome}

/-! ### The iterations of a loop -/

theorem iterations_putSite (ht : e.site? b = some t) :
    (e.putSite p verbose b t').iterations a n =
      (e.iterations a n).map fun x => if (n, x.1) :: a = b then (x.1, t') else x := by
  unfold iterations putSite
  simp only [ht, Option.isSome_some, if_true]
  rw [List.filterMap_map, List.map_filterMap]
  refine List.filterMap_congr fun x _ => ?_
  obtain ⟨_ | ⟨⟨l, i⟩, outer⟩, u⟩ := x
  · by_cases hb : [] = b
    · subst hb
      simp
    · simp [hb]
  · by_cases hb : (l, i) :: outer = b
    · subst hb
      by_cases hown : l = n ∧ outer = a
      · obtain ⟨rfl, rfl⟩ := hown
        simp
      · simp [hown]
    · by_cases hown : l = n ∧ outer = a
      · obtain ⟨rfl, rfl⟩ := hown
        simp [hb]
      · simp [hb, hown]

variable (p verbose now) in
theorem iterations_openSite {i : ℕ} (hfresh : e.site? ((loop, i) :: b) = none)
    (deliveries : List (PortRef × Json)) :
    (e.openSite p verbose now ((loop, i) :: b) deliveries).iterations a n =
      e.iterations a n ++ if loop = n ∧ b = a then
        [(i, ⟨Scope.seed p now (some loop) deliveries, .running, [], [], []⟩)] else [] := by
  unfold iterations openSite putSite
  simp only [hfresh, Option.isSome_none, Bool.false_eq_true, if_false]
  rw [List.filterMap_append]
  congr 1
  by_cases hown : loop = n ∧ b = a
  · simp [hown, Address.owner]
  · simp [hown]

/-- A scope is none of its own iterations. -/
theorem iterations_putSite_self (ht : e.site? a = some t) :
    (e.putSite p verbose a t').iterations a n = e.iterations a n := by
  rw [iterations_putSite ht]
  refine (List.map_congr_left fun x _ => if_neg ?_).trans (List.map_id _)
  exact fun heq => by simpa using congrArg List.length heq

theorem mem_of_indices {k i : ℕ} (h : xs.map (·.1) = List.range k) (hi : i < k) :
    ∃ x ∈ xs, x.1 = i := by
  have hmem : i ∈ xs.map (·.1) := h ▸ List.mem_range.mpr hi
  obtain ⟨x, hx, rfl⟩ := List.mem_map.mp hmem
  exact ⟨x, hx, rfl⟩

/-! ### What nodes came to -/

/-- The iterations that a loop under way has begun. In a sequential loop all but the latest have
ended well. -/
structure Underway (xs : List (ℕ × Site)) (l : Looping) : Prop where
  indices : xs.map (·.1) = List.range l.opened
  well : l.settings.parallel = false → ∀ x ∈ xs, x.1 + 1 < l.opened →
    x.2.phase = .ended ∧ x.2.scope.firstFailure? = none

/-- The iterations of a loop of which no other one will begin. -/
structure Concluded (p : Plan) (xs : List (ℕ × Site)) (n : NodeId) (inputs : PortValues)
    (l : Looping) : Prop extends Underway xs l where
  settings : ∃ node, p.node? n = some node ∧ node.settings = .loop l.settings
  hasResult : l.hasResult = ((p.loop? n).map LoopPlan.hasResult).getD false
  items : l.items = Looping.itemsOf inputs
  opened : l.opened ≤ l.count
  ended : ∀ x ∈ xs, x.2.phase = .ended
  last : l.opened = l.count ∨ (l.settings.parallel = false ∧
    ∃ x ∈ xs, l.opened = x.1 + 1 ∧ x.2.scope.firstFailure? ≠ none)

theorem Concluded.settings_eq (h : Concluded p xs n inputs l) {node : Node}
    {settings : LoopSettings} (hnode : p.node? n = some node)
    (hsettings : node.settings = .loop settings) : settings = l.settings := by
  obtain ⟨node', hnode', hsettings'⟩ := h.settings
  obtain rfl := Option.some.inj (hnode.symm.trans hnode')
  exact NodeSettings.loop.inj (hsettings.symm.trans hsettings')

def IsLeaf (p : Plan) (n : NodeId) : Prop :=
  ∀ node settings, p.node? n = some node → node.settings ≠ .loop settings

/-- What a node came to is what may come of its inputs, or follows from the iterations of the loop. -/
def Came (p : Plan) (rule : Rule) (xs : List (ℕ × Site)) (n : NodeId) (inputs : PortValues)
    (o : Outcome) : Prop :=
  (IsLeaf p n ∧ rule n inputs o) ∨
    ∃ l, Concluded p xs n inputs l ∧ o = l.outcome (xs.map fun x => (x.1, x.2.scope)) false

section Map

variable {f : ℕ × Site → ℕ × Site} (hended : ∀ x ∈ xs, x.2.phase = .ended → f x = x)
include hended

theorem Underway.map (hindex : ∀ x ∈ xs, (f x).1 = x.1) (h : Underway xs l) :
    Underway (xs.map f) l where
  indices := by
    rw [← h.indices, List.map_map]
    exact List.map_congr_left hindex
  well := by
    intro hsequential y hy hlt
    obtain ⟨x, hx, rfl⟩ := List.mem_map.mp hy
    rw [hindex x hx] at hlt
    obtain ⟨hphase, hwell⟩ := h.well hsequential x hx hlt
    rw [hended x hx hphase]
    exact ⟨hphase, hwell⟩

theorem Came.map (h : Came p rule xs n inputs o) : Came p rule (xs.map f) n inputs o := by
  rcases h with hleaf | ⟨l, hl, ho⟩
  · exact Or.inl hleaf
  · have hsame : xs.map f = xs :=
      (List.map_congr_left fun x hx => hended x hx (hl.ended x hx)).trans (List.map_id xs)
    rw [hsame]
    exact Or.inr ⟨l, hl, ho⟩

end Map

/-- A scope in which whatever has ended came to what it should. -/
structure Faithful (p : Plan) (rule : Rule) (its : NodeId → List (ℕ × Site)) (t : Site) : Prop where
  busy : ∀ n ∈ t.busy, IsLeaf p n
  loops : ∀ n l, t.loops.find? n = some l → Underway (its n) l
  told : ∀ c, .ended c ∈ t.reports → ∃ r, t.scope.run? c.node = some r ∧
    r.startedAt.isSome = true ∧ Came p rule (its c.node) c.node r.inputs c.outcome
  ended : ∀ n r, t.scope.run? n = some r → r.startedAt.isSome = true →
    r.state.isTerminal = true → ∃ o, Came p rule (its n) n r.inputs o ∧ r.EndedBy o

variable {its its' : NodeId → List (ℕ × Site)}

theorem Faithful.map {f : NodeId → ℕ × Site → ℕ × Site} (h : Faithful p rule its t)
    (hindex : ∀ n, ∀ x ∈ its n, (f n x).1 = x.1)
    (hended : ∀ n, ∀ x ∈ its n, x.2.phase = .ended → f n x = x) :
    Faithful p rule (fun n => (its n).map (f n)) t where
  busy := h.busy
  loops := fun n l hl => (h.loops n l hl).map (hended n) (hindex n)
  told := by
    intro c hc
    obtain ⟨r, hr, hstart, hcame⟩ := h.told c hc
    exact ⟨r, hr, hstart, hcame.map (hended _)⟩
  ended := fun n r hr hstart hterm =>
    (h.ended n r hr hstart hterm).imp fun _ ho => ⟨ho.1.map (hended n), ho.2⟩

/-- What is new in a scope that goes on is all there is to check. -/
theorem Faithful.goOn (h : Faithful p rule its t) (hlater : Scope.Later t.scope t'.scope)
    (hbusy : ∀ n ∈ t'.busy, n ∈ t.busy ∨ IsLeaf p n)
    (hloops : ∀ n l, t'.loops.find? n = some l → t.loops.find? n = some l ∨ Underway (its n) l)
    (htold : ∀ c, .ended c ∈ t'.reports → .ended c ∈ t.reports ∨ ∃ r,
      t.scope.run? c.node = some r ∧ r.startedAt.isSome = true ∧
        Came p rule (its c.node) c.node r.inputs c.outcome)
    (hended : ∀ n r', t'.scope.run? n = some r' → r'.startedAt.isSome = true →
      r'.state.isTerminal = true → (∃ r, t.scope.run? n = some r ∧ r.startedAt.isSome = true ∧
        r.state.isTerminal = true ∧ r'.record = r.record) ∨
          ∃ o, Came p rule (its n) n r'.inputs o ∧ r'.EndedBy o) : Faithful p rule its t' where
  busy := fun n hn => (hbusy n hn).elim (h.busy n) id
  loops := fun n l hl => (hloops n l hl).elim (h.loops n l) id
  told := by
    intro c hc
    obtain ⟨r, hr, hstart, hcame⟩ := (htold c hc).elim (h.told c) id
    obtain ⟨r', hr', hstart', hinputs, -⟩ := hlater.started c.node r hr hstart
    exact ⟨r', hr', by rw [hstart']; exact hstart, by rw [hinputs]; exact hcame⟩
  ended := by
    intro n r' hr' hstart hterm
    rcases hended n r' hr' hstart hterm with ⟨r, hr, hstart₀, hterm₀, hrecord⟩ | hcame
    · obtain ⟨o, hcame, ho⟩ := h.ended n r hr hstart₀ hterm₀
      exact ⟨o, by rwa [(NodeRun.kept_of_record hrecord).1], ho.of_record hrecord⟩
    · exact hcame

/-! ### One move -/

/-- A scope that starts a node ends none. -/
theorem ended_of_startNext {s s' : Scope} {r' : NodeRun} (hs : Scope.Coherent p given s [])
    (hstart : s.startNext? now = some (s', r')) {r₁ : NodeRun} (hr₁ : s'.run? n = some r₁)
    (hterm : r₁.state.isTerminal = true) : s.run? n = some r₁ := by
  obtain ⟨m, k, r, rest, -, hr, -, -, rfl⟩ := Scope.startNext?_eq_some hs hstart
  rcases Scope.run?_started_cases hs hr hr₁ with ⟨rfl, rfl⟩ | ⟨-, hold⟩
  · simp [NodeRun.start, RunState.isTerminal] at hterm
  · exact hold

/-- A loop that starts has begun no iteration. -/
theorem underway_start (hg : Grounded p e) (ht : e.site? a = some t)
    (hmoves : Moves p now e a t (.dispatch a) t') {n : NodeId} {l : Looping}
    (hl : t'.loops.find? n = some l) (hopened : l.opened = 0) : Underway (e.iterations a n) l := by
  have hnone : e.iterations a n = [] := by
    refine List.eq_nil_iff_forall_not_mem.mpr fun x hx => ?_
    have hsite := (mem_iterations hg.keys).mp hx
    have hlt := (hmoves.begun hg ht hl x.1).mpr (Or.inl (by rw [hsite]; rfl))
    omega
  rw [hnone]
  exact ⟨by rw [hopened]; rfl, by simp⟩

/-- A loop that has its outcome has run its iterations. -/
theorem concluded_of_mayConclude (hg : Grounded p e)
    (hfault : ∀ b u, e.site? b = some u → u.scope.fault = none) (haborted : e.aborted = false)
    {s : Scope} (hstems : Stems p e a s n l) {r : NodeRun} (hr : s.run? n = some r)
    (h : Underway (e.iterations a n) l) (hmay : e.mayConclude a l = true) :
    Concluded p (e.iterations a n) n r.inputs l := by
  obtain ⟨hlast, hidle⟩ := (Bool.and_eq_true _ _).mp hmay
  unfold isIdle at hidle
  rw [hstems.node, List.all_eq_true] at hidle
  obtain ⟨r', hr', -, hitems⟩ := hstems.run
  obtain rfl := Option.some.inj (hr.symm.trans hr')
  refine ⟨h, hstems.settings, hstems.hasResult, hitems, hstems.opened,
    fun x hx => by simpa using hidle x hx, ?_⟩
  rcases (Bool.or_eq_true _ _).mp hlast with hcount | hearly
  · exact Or.inl (by simpa using hcount)
  · right
    unfold stopsEarly latest? at hearly
    split at hearly
    · simp at hearly
    · rename_i u hlatest
      split_ifs at hlatest with hzero
      rw [hstems.node] at hlatest
      obtain ⟨⟨hsequential, -⟩, hgoes⟩ : (l.settings.parallel = false ∧ u.phase = .ended) ∧
          Looping.goesOn u.scope e.aborted = false := by simpa using hearly
      refine ⟨hsequential, (l.opened - 1, u), (mem_iterations hg.keys).mpr hlatest, ?_, ?_⟩
      · dsimp only
        omega
      · intro hnone
        simp [Looping.goesOn, hfault _ u hlatest, hnone, haborted] at hgoes

section Move

variable (hp : p.Sound) (hu : p.Untangled) (hg : Grounded p e)
  (hcalm : ∀ b u, e.site? b = some u → Calm u) (haborted : e.aborted = false)
  (ht : e.site? a = some t) (htidy : Tidy t)
include hp hu hg hcalm haborted ht htidy

/-- A move keeps a scope faithful; the start of an iteration comes apart. -/
theorem Faithful.move (hrecorded : t.scope.Recorded) (hsilent : Scope.Silent t.scope)
    (hcalm' : Calm t') (hrule : event.Obeys rule e) (hother : ∀ loop, event ≠ .iterate a loop)
    (h : Faithful p rule (e.iterations a) t) (hmoves : Moves p now e a t event t') :
    Faithful p rule (e.iterations a) t' := by
  obtain ⟨given, hroot⟩ := hg.sites a t ht
  have hlater := (hmoves.rooted hp hu ht hroot).2
  obtain ⟨hcoherent, -⟩ := hroot.coherent (hmoves.live htidy.ended)
  have hsame : ∀ n r, t.scope.run? n = some r → r.startedAt.isSome = true →
      r.state.isTerminal = true → (∃ r₀, t.scope.run? n = some r₀ ∧ r₀.startedAt.isSome = true ∧
        r₀.state.isTerminal = true ∧ r.record = r₀.record) ∨
          ∃ o, Came p rule (e.iterations a n) n r.inputs o ∧ r.EndedBy o :=
    fun n r hr hstart hterm => Or.inl ⟨r, hr, hstart, hterm, rfl⟩
  cases hmoves with
  | @startLoop s r node settings hphase hfault hstart hnode hsettings =>
    refine h.goOn hlater (fun _ => Or.inl) ?_ (fun _ => Or.inl) fun n r' hr' hstart' hterm =>
      hsame n r' (ended_of_startNext hcoherent hstart hr' hterm) hstart' hterm
    intro n l hl
    by_cases hnew : r.node = n
    · subst hnew
      refine Or.inr (underway_start hg ht
        (.startLoop hphase hfault hstart hnode hsettings) hl ?_)
      rw [Table.find?_insert, if_pos rfl] at hl
      rw [← Option.some.inj hl]
      rfl
    · rw [Table.find?_insert, if_neg hnew] at hl
      exact Or.inl hl
  | @startWork s r hphase _ hstart hleaf =>
    refine h.goOn hlater ?_ (fun _ _ => Or.inl) (fun _ => Or.inl) fun n r' hr' hstart' hterm =>
      hsame n r' (ended_of_startNext hcoherent hstart hr' hterm) hstart' hterm
    intro n hn
    rcases List.mem_append.mp hn with hold | hnew
    · exact Or.inl hold
    · rw [List.mem_singleton.mp hnew]
      exact Or.inr hleaf
  | @report r hbusy =>
    refine h.goOn hlater (fun _ hn => Or.inl (List.erase_subset hn)) (fun _ _ => Or.inl) ?_ hsame
    intro c hc
    rcases List.mem_append.mp hc with hold | hnew
    · exact Or.inl hold
    · obtain rfl := (List.mem_singleton.mp hnew).symm
      have hin : c.node ∈ t.busy := hbusy
      obtain ⟨run, hrun, hrunning⟩ :=
        Scope.isIn_iff.mp (htidy.running (Site.mem_flying_of_busy hin))
      exact Or.inr ⟨run, hrun, (hcoherent.shape.clear _ run hrun).running hrunning,
        Or.inl ⟨h.busy _ hin, hrule a c t run rfl ht hrun⟩⟩
  | @hear r id _ _ hfind =>
    refine h.goOn hlater (fun _ => Or.inl) (fun _ _ => Or.inl)
      (fun c hc => Or.inl (List.mem_of_mem_filter hc)) ?_
    intro n r' hr' hstart hterm
    rcases Scope.ended_of_hear hp hu hcoherent hrecorded hr' hterm hstart with
      ⟨r₀, hr₀, hterm₀, hrecord⟩ | ⟨c, r₀, rfl, rfl, hr₀, hrunning, hrecord⟩
    · obtain ⟨-, -, hstart₀⟩ := NodeRun.kept_of_record hrecord
      exact Or.inl ⟨r₀, hr₀, by rw [← hstart₀]; exact hstart, hterm₀, hrecord⟩
    · obtain ⟨r₁, hr₁, -, hcame⟩ := h.told c (List.mem_of_find?_eq_some hfind)
      obtain rfl := Option.some.inj (hr₀.symm.trans hr₁)
      obtain ⟨hinputs, -⟩ := NodeRun.kept_of_record hrecord
      rw [(Scope.concludes_concluded now r₀ c.attempts c.outcome).inputs] at hinputs
      have hsends : r₀.outputs = none := hsilent _ r₀ hr₀ (by rw [hrunning]; simp)
      refine Or.inr ⟨c.outcome, by rwa [hinputs], ?_⟩
      exact (Scope.endedBy_concluded hsends now c.attempts c.outcome).of_record hrecord
  | iterate => exact absurd rfl (hother _)
  | @conclude loop l hl hmay =>
    refine h.goOn hlater (fun _ => Or.inl) ?_ ?_ hsame
    · intro n l' hl'
      rw [Table.find?_erase] at hl'
      split_ifs at hl'
      exact Or.inl hl'
    · intro c hc
      rcases List.mem_append.mp hc with hold | hnew
      · exact Or.inl hold
      · obtain rfl := Report.ended.inj (List.mem_singleton.mp hnew)
        have hstems := hroot.loops loop l hl
        obtain ⟨r, hr, hstart, -⟩ := hstems.run
        refine Or.inr ⟨r, hr, hstart, Or.inr ⟨l, ?_, by rw [haborted]⟩⟩
        exact concluded_of_mayConclude hg (fun b u hb => (hcalm b u hb).fault) haborted hstems hr
          (h.loops loop l hl) hmay
  | leave => exact h.goOn hlater (fun _ => Or.inl) (fun _ _ => Or.inl) (fun _ => Or.inl) hsame
  | @close aborted hphase =>
    refine h.goOn hlater (fun _ => Or.inl) (fun _ _ => Or.inl) (fun _ => Or.inl) ?_
    have hscope : t.scope.close now aborted = t.scope :=
      Scope.close_of_finished aborted (hcalm'.unfinished rfl hcoherent.shape rfl)
    intro n r hr
    exact hsame n r (by rwa [hscope] at hr)

end Move

/-- An iteration begins when those before it, in a sequential loop, have ended well. -/
theorem Underway.iterate (hg : Grounded p e) (hnode : l.node = n)
    (hmay : e.mayIterate a l = true) (h : Underway (e.iterations a n) l) (u : Site) :
    Underway (e.iterations a n ++ [(l.opened, u)]) { l with opened := l.opened + 1 } where
  indices := by
    rw [List.map_append, h.indices, List.range_succ]
    rfl
  well := by
    intro hsequential x hx hlt
    rcases List.mem_append.mp hx with hold | hnew
    · by_cases hbefore : x.1 + 1 < l.opened
      · exact h.well hsequential x hold hbefore
      · -- the latest of those that have begun
        have hrange : x.1 ∈ List.range l.opened := h.indices ▸ List.mem_map.mpr ⟨x, hold, rfl⟩
        have hlt := List.mem_range.mp hrange
        have hlatest : e.latest? a l = some x.2 := by
          unfold latest?
          rw [if_neg (by omega), hnode, show l.opened - 1 = x.1 by omega]
          exact (mem_iterations hg.keys).mp hold
        have hgoes := ((Bool.and_eq_true _ _).mp hmay).2
        rw [hlatest, show l.settings.parallel = false from hsequential, Bool.false_or] at hgoes
        obtain ⟨hphase, hwell⟩ := (Bool.and_eq_true _ _).mp hgoes
        simp only [Looping.goesOn, Bool.and_eq_true, Option.isNone_iff_eq_none] at hwell
        exact ⟨by simpa using hphase, hwell.1.2⟩
    · obtain rfl := List.mem_singleton.mp hnew
      exact absurd hlt (lt_irrefl _)

theorem Tidy.not_told (h : Tidy t) (hl : t.loops.find? n = some l) {r : Report}
    (hr : r ∈ t.reports) : r.node ≠ n := by
  rintro rfl
  have hcount := h.flight r.node
  have hkey : t.loops.keys.count r.node = 1 := by
    rw [Table.count_keys h.loops, hl]
    rfl
  have hpos : 0 < (t.reports.map Report.node).count r.node :=
    List.count_pos_iff.mpr (List.mem_map.mpr ⟨r, hr, rfl⟩)
  simp only [Site.flying, List.count_append] at hcount
  split_ifs at hcount <;> omega

theorem Faithful.iterate (hg : Grounded p e) (htidy : Tidy t)
    (h : Faithful p rule (e.iterations a) t) (hl : t.loops.find? loop = some l)
    (hnode : l.node = loop) (hmay : e.mayIterate a l = true) (u : Site) :
    Faithful p rule
      (fun n => e.iterations a n ++ if loop = n then [(l.opened, u)] else [])
      { t with loops := t.loops.insert loop { l with opened := l.opened + 1 } } where
  busy := h.busy
  loops := by
    intro n l' hl'
    rw [Table.find?_insert] at hl'
    split_ifs at hl' with heq
    · subst heq
      rw [← Option.some.inj hl', if_pos rfl]
      exact (h.loops _ l hl).iterate hg hnode hmay u
    · rw [if_neg heq, List.append_nil]
      exact h.loops n l' hl'
  told := by
    intro c hc
    obtain ⟨r, hr, hstart, hcame⟩ := h.told c hc
    have hne : c.node ≠ loop := htidy.not_told hl hc
    rw [if_neg hne.symm, List.append_nil]
    exact ⟨r, hr, hstart, hcame⟩
  ended := by
    intro n r hr hstart hterm
    rw [if_neg, List.append_nil]
    · exact h.ended n r hr hstart hterm
    · rintro rfl
      obtain ⟨r', hr', hrunning⟩ :=
        Scope.isIn_iff.mp (htidy.running (Site.mem_flying_of_loop hl))
      rw [Option.some.inj (hr.symm.trans hr'), hrunning] at hterm
      simp [RunState.isTerminal] at hterm

theorem faithful_seed (hp : p.Sound) (hu : p.Untangled) {owner : ScopeId}
    {deliveries : List (PortRef × Json)} (hproper : p.Proper owner deliveries)
    (hloop : ∀ l, owner = some l → p.graph.kind? l = some .loop) :
    Faithful p rule its ⟨Scope.seed p now owner deliveries, .running, [], [], []⟩ := by
  refine ⟨by simp, by simp, by simp, fun n r hr hstart => ?_⟩
  rw [Scope.idle_seed hp hu now hproper hloop hr] at hstart
  simp at hstart

/-! ### All events -/

/-- An execution that nobody calls off, with workers that do as the work says. -/
inductive RunBy (p : Plan) (verbose : Bool) (work : Work) : Execution → Prop
  | begin (now : Timestamp) (permits : ℕ) :
      RunBy p verbose work (begin p verbose now permits false)
  | step {now : Timestamp} {e e' : Execution} {event : Event} :
      RunBy p verbose work e → event.Regular → event.Follows work e →
      e.perform? p verbose now event = some e' → RunBy p verbose work e'

theorem RunBy.orderly (h : RunBy p verbose work e) : Orderly p verbose e := by
  induction h with
  | begin now permits => exact .begin now permits
  | step _ hregular _ hevent ih => exact .step ih hregular hevent

/-- Whether an event may happen in an execution by a work. -/
def isBy (work : Work) (e : Execution) : Event → Bool
  | .report a (.ended c) =>
      ((e.site? a).bind fun t => t.scope.run? c.node).any fun r =>
        c.outcome == work c.node r.inputs.find? && c.outcome.yield.1 != .cancelled
  | .report _ (.lost _) | .abort => false
  | _ => true

theorem regular_of_isBy (h : isBy work e event = true) :
    event.Regular ∧ event.Follows work e := by
  cases event with
  | report a report =>
    cases report with
    | ended c =>
      obtain ⟨r, hr, hcheck⟩ := (Option.any_eq_true _ _).mp h
      obtain ⟨t, ht, hr⟩ := Option.bind_eq_some_iff.mp hr
      obtain ⟨houtcome, hstate⟩ := (Bool.and_eq_true _ _).mp hcheck
      refine ⟨⟨c, rfl, ?_⟩, c, t, r, rfl, ht, hr, by simpa using houtcome⟩
      cases hout : c.outcome with
      | succeeded outputs => exact Or.inl ⟨outputs, rfl⟩
      | failed err => exact Or.inr ⟨err, rfl⟩
      | _ => simp [hout, Outcome.yield] at hstate
    | lost n => simp [isBy] at h
  | abort => simp [isBy] at h
  | _ => exact ⟨trivial, trivial⟩

/-- The execution after some events at given times; none if one of them cannot happen, or not in an
execution by the work. -/
def afterBy? (p : Plan) (verbose : Bool) (work : Work) (e : Execution)
    (events : List (Timestamp × Event)) : Option Execution :=
  events.foldlM (fun e x => if isBy work e x.2 then e.perform? p verbose x.1 x.2 else none) e

theorem runBy_of_afterBy? {events : List (Timestamp × Event)} (h : RunBy p verbose work e)
    (hafter : e.afterBy? p verbose work events = some e') : RunBy p verbose work e' := by
  induction events generalizing e with
  | nil =>
    obtain rfl := Option.some.inj hafter
    exact h
  | cons x rest ih =>
    obtain ⟨e₁, hevent, hrest⟩ := Option.bind_eq_some_iff.mp hafter
    dsimp only at hevent
    split_ifs at hevent with hby
    obtain ⟨hregular, hfollows⟩ := regular_of_isBy hby
    exact ih (.step h hregular hfollows hevent) hrest

/-- A scope that moves has not ended, so it is no iteration of a loop that has its outcome. -/
theorem Faithful.putSite (hg : Grounded p e) (ht : e.site? a = some t) (hlive : t.phase ≠ .ended)
    {u : Site} (h : Faithful p rule (e.iterations b) u) :
    Faithful p rule ((e.putSite p verbose a t').iterations b) u := by
  have hits : (e.putSite p verbose a t').iterations b = fun n =>
      (e.iterations b n).map fun x => if (n, x.1) :: b = a then (x.1, t') else x :=
    funext fun n => iterations_putSite ht
  rw [hits]
  refine h.map (fun n x _ => ?_) fun n x hx hended => if_neg ?_
  · split_ifs <;> rfl
  · rintro rfl
    obtain rfl := Option.some.inj (ht.symm.trans ((mem_iterations hg.keys).mp hx))
    exact hlive hended

/-- An event keeps all scopes faithful. -/
theorem Orderly.faithful_step (hp : p.Sound) (hu : p.Untangled) (h : Orderly p verbose e)
    (hregular : event.Regular) (hrule : event.Obeys rule e)
    (hevent : e.perform? p verbose now event = some e') (haborted : e'.aborted = false)
    (ih : ∀ a t, e.site? a = some t → Faithful p rule (e.iterations a) t) :
    ∀ a t, e'.site? a = some t → Faithful p rule (e'.iterations a) t := by
  have hbefore := aborted_of_perform? hevent haborted
  have hreach := h.reachable
  have hg := hreach.grounded hp hu
  have htidy := (h.judged hp hu).tidy
  have hcalm := h.calm hp hu hbefore
  have hcalm' := (Orderly.step h hregular hevent).calm hp hu haborted
  obtain ⟨rfl, -⟩ | ⟨a, t, t', ht, hmoves, hcases⟩ := perform?_eq_some hevent
  · exact hregular.elim
  have hlive := hmoves.live (htidy a t ht).ended
  rcases hcases with ⟨hother, rfl⟩ | ⟨loop, l, rfl, hl, hmay, rfl, rfl⟩
  · intro b u hb
    rw [site?_putSite] at hb
    split_ifs at hb with heq
    · obtain rfl := Option.some.inj hb
      subst heq
      exact ((ih a t ht).move hp hu hg hcalm hbefore ht (htidy a t ht)
        ((hreach.booked hp hu).logged.recorded a t ht)
        (hreach.invariant hp hu (Scope.invariant_silent hp) a t ht)
        (hcalm' a t' (by rw [site?_putSite, if_pos rfl])) hrule (hother · ) hmoves).putSite
          hg ht hlive
    · exact (ih b u hb).putSite hg ht hlive
  · obtain ⟨given, hroot⟩ := hg.sites a t ht
    have hstems := hroot.loops loop l hl
    have hfresh : (e.putSite p verbose a { t with
        loops := t.loops.insert loop { l with opened := l.opened + 1 } }).site?
          ((loop, l.opened) :: a) = none := hg.fresh_putSite ht hl
    intro b u hb
    have hits := funext fun n =>
      iterations_openSite p verbose now (a := b) (n := n) hfresh (l.deliveries p l.opened)
    rw [site?_openSite] at hb
    split_ifs at hb with hnew
    · rw [← Option.some.inj hb]
      refine faithful_seed hp hu (hstems.proper hp l.opened) fun k hk => ?_
      rw [← Option.some.inj hk]
      exact hstems.kind
    · rw [hits]
      rw [site?_putSite] at hb
      split_ifs at hb with heq
      · obtain rfl := Option.some.inj hb
        subst heq
        simp only [iterations_putSite_self ht, and_true]
        exact (ih a t ht).iterate hg (htidy a t ht) hl hstems.node hmay _
      · simp only [heq, and_false, if_false, List.append_nil]
        exact (ih b u hb).putSite hg ht hlive

theorem faithful_begin (hp : p.Sound) (hu : p.Untangled) (now : Timestamp) (permits : ℕ) :
    ∀ a t, (begin p verbose now permits false).site? a = some t → Faithful p rule its t := by
  intro a t ht
  obtain ⟨rfl, rfl⟩ := site?_begin_eq_some ht
  exact faithful_seed hp hu (proper_top p) (by simp)

/-- In an execution by a work, everything that has ended has come to what it should. -/
theorem RunBy.faithful (hp : p.Sound) (hu : p.Untangled) (h : RunBy p verbose work e)
    (haborted : e.aborted = false) :
    ∀ a t, e.site? a = some t → Faithful p work.rule (e.iterations a) t := by
  induction h with
  | begin now permits => exact fun a => faithful_begin hp hu now permits a
  | step h hregular hfollows hevent ih =>
    exact h.orderly.faithful_step hp hu hregular hfollows.obeys hevent haborted
      (ih (aborted_of_perform? hevent haborted))

/-- In every execution, the loops that have ended have come to what their iterations say. -/
theorem Orderly.faithful (hp : p.Sound) (hu : p.Untangled) (h : Orderly p verbose e)
    (haborted : e.aborted = false) :
    ∀ a t, e.site? a = some t → Faithful p .free (e.iterations a) t := by
  induction h with
  | begin now permits => exact fun a => faithful_begin hp hu now permits a
  | step h hregular hevent ih =>
    exact h.faithful_step hp hu hregular (fun _ _ _ _ _ _ _ => trivial) hevent haborted
      (ih (aborted_of_perform? hevent haborted))

end Execution

end PortGraph
