import PortGraph.Proofs.Execution.Faults
import PortGraph.Proofs.Scope.Recorded

/-!
The log of an execution. The address of a scope can be told from the loop around it and the numbers
of its iterations, so an entry belongs to one run of one scope; each run is logged when it ends and
at no other time, and what the log says of it stays true. An execution that is over has left no
run without an entry.
-/

namespace PortGraph

/-- How many loops are around the nodes of a scope. -/
def Plan.depthOf (p : Plan) : ScopeId → ℕ
  | none => 0
  | some l => ((p.loop? l).map LoopPlan.depth).getD 0

/-- What comes of a scope when events happen: what is on record stays, and nobody is started once
the scope has left its loop. -/
structure Site.Follows (t t' : Site) : Prop where
  retains : t.scope.Retains t'.scope
  halted : t.phase ≠ .running →
    t'.phase ≠ .running ∧ t'.busy ⊆ t.busy ∧ ∀ n, t'.scope.startOf? n = t.scope.startOf? n

namespace Execution

open Plan Relation

/-! ### Addresses -/

/-- Each loop of the address runs in the scope that the rest of the address names. -/
def Placed (p : Plan) : Address → Prop
  | [] => True
  | (l, _) :: outer =>
      p.graph.kind? l = some .loop ∧ p.scopeOf l = Address.owner outer ∧ Placed p outer

variable {p : Plan} {verbose : Bool} {now : Timestamp} {e e' e'' : Execution} {a b : Address}
variable {t t' t'' : Site} {given : List (PortRef × Json)} {event : Event}

theorem iteration_cons (l : NodeId) (i : ℕ) (outer : Address) :
    Address.iteration ((l, i) :: outer) = Address.iteration outer ++ [i] := by
  simp [Address.iteration]

/-- The innermost loop and the iterations tell the address. -/
theorem Placed.unique (ha : Placed p a) (hb : Placed p b) (howner : a.owner = b.owner)
    (hiteration : a.iteration = b.iteration) : a = b := by
  induction a generalizing b with
  | nil =>
    cases b with
    | nil => rfl
    | cons y outer => simp [Address.owner] at howner
  | cons x outer ih =>
    obtain ⟨l, i⟩ := x
    cases b with
    | nil => simp [Address.owner] at howner
    | cons y outer' =>
      obtain ⟨l', i'⟩ := y
      obtain rfl : l = l' := Option.some.inj howner
      rw [iteration_cons, iteration_cons] at hiteration
      obtain ⟨hrest, hlast⟩ := List.append_inj' hiteration rfl
      rw [ih ha.2.2 hb.2.2 (ha.2.1.symm.trans hb.2.1) hrest, List.singleton_inj.mp hlast]

theorem Placed.length (hp : p.Sound) (hu : p.Untangled) (ha : Placed p a) :
    a.length = p.depthOf a.owner := by
  induction a with
  | nil => rfl
  | cons x outer ih =>
    obtain ⟨l, i⟩ := x
    obtain ⟨hkind, hscope, houter⟩ := ha
    obtain ⟨lp, hlp⟩ := Option.isSome_iff_exists.mp (hp.isSome_loop?_iff.mpr hkind)
    have hdepth : p.depthOf (Address.owner ((l, i) :: outer)) = lp.depth := by
      change ((p.loop? l).map LoopPlan.depth).getD 0 = _
      rw [hlp]
      rfl
    rw [hdepth, List.length_cons, ih houter]
    cases hs : Address.owner outer with
    | none => rw [hp.nesting.top l lp hlp (hscope.trans hs), depthOf]
    | some s =>
      obtain ⟨sp, hsp⟩ := hp.loop?_of_scopeOf (hscope.trans hs)
      rw [hp.depth_below hu hlp hsp (hscope.trans hs), depthOf, hsp]
      rfl

/-! ### Scopes of an execution -/

theorem Rooted.member (h : Rooted p e a t given) (n : NodeId) :
    (t.scope.run? n).isSome = true ↔ n ∈ p.membersIn a.owner := by
  obtain ⟨s, hcoherent, howner, -, ⟨-, rfl⟩ | ⟨-, now, aborted, heq⟩⟩ := h.scope
  · rw [← howner]
    exact hcoherent.shape.member n
  · rw [heq, Scope.run?_close hcoherent.shape, Option.isSome_map, ← howner]
    exact hcoherent.shape.member n

theorem Rooted.node (h : Rooted p e a t given) {n : NodeId} {r : NodeRun}
    (hr : t.scope.run? n = some r) : r.node = n := by
  obtain ⟨s, hcoherent, -, -, ⟨-, rfl⟩ | ⟨-, now, aborted, heq⟩⟩ := h.scope
  · exact hcoherent.shape.node n r hr
  · rw [heq, Scope.run?_close hcoherent.shape] at hr
    obtain ⟨r₀, hr₀, rfl⟩ := Option.map_eq_some_iff.mp hr
    rw [← hcoherent.shape.node n r₀ hr₀]
    split_ifs
    · rfl
    · exact (Scope.leftOver_kept now r₀).1

theorem Grounded.placed (hp : p.Sound) (hg : Grounded p e) (ht : e.site? a = some t) :
    Placed p a := by
  induction a generalizing t with
  | nil => trivial
  | cons x outer ih =>
    obtain ⟨l, i⟩ := x
    obtain ⟨given, hroot⟩ := hg.sites _ t ht
    obtain ⟨u, r, hu, hr, -⟩ := hroot.parent l i outer rfl
    obtain ⟨given', hroot'⟩ := hg.sites outer u hu
    obtain ⟨s, hcoherent, howner, -⟩ := hroot.scope
    have hmem := (hroot'.member l).mp (by rw [hr]; rfl)
    exact ⟨hcoherent.isLoop l howner, (hp.mem_membersIn.mp hmem).2, ih hu⟩

/-! ### Entries -/

/-- The entry of a run that has ended. -/
def entryOf (p : Plan) (verbose : Bool) (a : Address) (r : NodeRun) : Option LogEntry :=
  (p.node? r.node).map fun node => LogEntry.ofRun node r a.iteration verbose

/-- Whether an entry belongs to the scope at an address. -/
def isAbout (p : Plan) (a : Address) (x : LogEntry) : Bool :=
  p.scopeOf x.node == a.owner && x.iteration == a.iteration

theorem isAbout_iff {x : LogEntry} :
    isAbout p a x = true ↔ p.scopeOf x.node = a.owner ∧ x.iteration = a.iteration := by
  simp [isAbout]

theorem entryOf_kept {r : NodeRun} {x : LogEntry} (h : entryOf p verbose a r = some x) :
    x.node = r.node ∧ x.iteration = a.iteration := by
  obtain ⟨node, -, rfl⟩ := Option.map_eq_some_iff.mp h
  exact ⟨rfl, rfl⟩

/-- The entries of one scope are about no other one. -/
theorem filter_entries (hp : p.Sound) (ha : Placed p a) (hb : Placed p b) {rs : List NodeRun}
    (hrs : ∀ r ∈ rs, r.node ∈ p.membersIn a.owner) :
    (rs.filterMap (entryOf p verbose a)).filter (isAbout p b) =
      if a = b then rs.filterMap (entryOf p verbose a) else [] := by
  have hscope : ∀ x ∈ rs.filterMap (entryOf p verbose a),
      p.scopeOf x.node = a.owner ∧ x.iteration = a.iteration := by
    intro x hx
    obtain ⟨r, hr, hentry⟩ := List.mem_filterMap.mp hx
    obtain ⟨hnode, hiteration⟩ := entryOf_kept hentry
    exact ⟨by rw [hnode]; exact (hp.mem_membersIn.mp (hrs r hr)).2, hiteration⟩
  split_ifs with heq
  · subst heq
    exact List.filter_eq_self.mpr fun x hx => isAbout_iff.mpr (hscope x hx)
  · refine List.filter_eq_nil_iff.mpr ?_
    intro x hx habout
    obtain ⟨howner, hiteration⟩ := isAbout_iff.mp habout
    obtain ⟨howner', hiteration'⟩ := hscope x hx
    exact heq (ha.unique hb (howner'.symm.trans howner) (hiteration'.symm.trans hiteration))

/-- The log holds an entry for each run that has ended, and no other one. -/
structure Logged (p : Plan) (verbose : Bool) (e : Execution) : Prop where
  recorded : ∀ a t, e.site? a = some t → t.scope.Recorded
  entries : ∀ a t, e.site? a = some t →
    e.log.filter (isAbout p a) = t.scope.ended.filterMap (entryOf p verbose a)
  covered : ∀ x ∈ e.log, ∃ a t, e.site? a = some t ∧ isAbout p a x = true

variable (p verbose) in
theorem log_putSite (ht : e.site? a = some t) {rs : List NodeRun}
    (hended : t'.scope.ended = t.scope.ended ++ rs) :
    (e.putSite p verbose a t').log = e.log ++ rs.filterMap (entryOf p verbose a) := by
  unfold putSite
  dsimp only
  rw [ht, hended]
  simp only [Option.map_some, Option.getD_some, List.drop_left]
  rfl

variable (p verbose now) in
theorem log_openSite (hfresh : e.site? a = none) (deliveries : List (PortRef × Json)) :
    (e.openSite p verbose now a deliveries).log =
      e.log ++ (Scope.seed p now a.owner deliveries).ended.filterMap (entryOf p verbose a) := by
  unfold openSite putSite
  dsimp only
  rw [hfresh]
  rfl

/-- No entry is about a scope that has not begun. -/
theorem Logged.fresh (h : Logged p verbose e)
    (hplaced : ∀ b u, e.site? b = some u → Placed p b) (ha : Placed p a)
    (hfresh : e.site? a = none) : e.log.filter (isAbout p a) = [] := by
  refine List.filter_eq_nil_iff.mpr ?_
  intro x hx habout
  obtain ⟨b, u, hb, habout'⟩ := h.covered x hx
  obtain ⟨howner, hiteration⟩ := isAbout_iff.mp habout
  obtain ⟨howner', hiteration'⟩ := isAbout_iff.mp habout'
  obtain rfl := ha.unique (hplaced b u hb) (howner.symm.trans howner')
    (hiteration.symm.trans hiteration')
  rw [hfresh] at hb
  simp at hb

/-- One scope is put, and the runs that have ended in it since are logged. -/
theorem Logged.extend (hp : p.Sound) (h : Logged p verbose e)
    (hsites : ∀ b, e'.site? b = if a = b then some t' else e.site? b)
    (hplaced : ∀ b u, e'.site? b = some u → Placed p b)
    (hmember : ∀ n, (t'.scope.run? n).isSome = true → n ∈ p.membersIn a.owner)
    {old rs : List NodeRun}
    (hold : e.log.filter (isAbout p a) = old.filterMap (entryOf p verbose a))
    (hended : t'.scope.ended = old ++ rs)
    (hlog : e'.log = e.log ++ rs.filterMap (entryOf p verbose a))
    (hrecorded : t'.scope.Recorded) : Logged p verbose e' := by
  have ha : e'.site? a = some t' := by rw [hsites, if_pos rfl]
  have hmember : ∀ r ∈ rs, r.node ∈ p.membersIn a.owner := by
    intro r hr
    obtain ⟨r', hr', -⟩ := hrecorded.known r (by rw [hended]; exact List.mem_append_right _ hr)
    exact hmember r.node (by rw [hr']; rfl)
  refine ⟨?_, ?_, ?_⟩
  · intro b u hu
    rw [hsites] at hu
    split_ifs at hu with heq
    · rw [← Option.some.inj hu]
      exact hrecorded
    · exact h.recorded b u hu
  · intro b u hu
    rw [hlog, List.filter_append, filter_entries hp (hplaced a t' ha) (hplaced b u hu) hmember]
    rw [hsites] at hu
    split_ifs at hu ⊢ with heq
    · rw [← heq, hold, ← Option.some.inj hu, hended, List.filterMap_append]
    · rw [List.append_nil]
      exact h.entries b u hu
  · intro x hx
    rw [hlog] at hx
    rcases List.mem_append.mp hx with hx | hx
    · obtain ⟨b, u, hu, habout⟩ := h.covered x hx
      by_cases heq : a = b
      · exact ⟨a, t', ha, by rw [heq]; exact habout⟩
      · exact ⟨b, u, by rw [hsites, if_neg heq]; exact hu, habout⟩
    · refine ⟨a, t', ha, ?_⟩
      obtain ⟨r, hr, hentry⟩ := List.mem_filterMap.mp hx
      obtain ⟨hnode, hiteration⟩ := entryOf_kept hentry
      exact isAbout_iff.mpr ⟨by rw [hnode]; exact (hp.mem_membersIn.mp (hmember r hr)).2,
        hiteration⟩

/-! ### One event -/

theorem follows_refl (t : Site) : t.Follows t :=
  ⟨.refl _, fun hphase => ⟨hphase, List.Subset.refl _, fun _ => rfl⟩⟩

theorem follows_trans (h : t.Follows t') (h' : t'.Follows t'') : t.Follows t'' := by
  refine ⟨h.retains.trans h'.retains, ?_⟩
  intro hphase
  obtain ⟨hphase', hbusy, hstart⟩ := h.halted hphase
  obtain ⟨hphase'', hbusy', hstart'⟩ := h'.halted hphase'
  exact ⟨hphase'', fun m hm => hbusy (hbusy' hm), fun n => (hstart' n).trans (hstart n)⟩

/-- A move takes nothing off the record, and starts nobody where the scope has left its loop. -/
theorem Moves.follows (hp : p.Sound) (hu : p.Untangled) (hroot : Rooted p e a t given)
    (h : t.scope.Recorded) (hmoves : Moves p now e a t event t') :
    t'.scope.Recorded ∧ t.Follows t' := by
  cases hmoves with
  | startLoop hphase _ hstart | startWork hphase _ hstart =>
    obtain ⟨hcoherent, -⟩ := hroot.coherent (by simp [hphase])
    obtain ⟨hrecorded, hretains⟩ := h.startNext hcoherent hstart
    exact ⟨hrecorded, hretains, fun hnot => absurd hphase hnot⟩
  | report =>
    exact ⟨h, .refl _, fun hphase => ⟨hphase, List.erase_subset, fun _ => rfl⟩⟩
  | @hear r id hlive =>
    obtain ⟨hcoherent, -⟩ := hroot.coherent hlive
    obtain ⟨hrecorded, hretains, hstart⟩ := h.hear now hp hu hcoherent r
    exact ⟨hrecorded, hretains, fun hphase => ⟨hphase, List.Subset.refl _, hstart⟩⟩
  | iterate | conclude =>
    exact ⟨h, .refl _, fun hphase => ⟨hphase, List.Subset.refl _, fun _ => rfl⟩⟩
  | leave => exact ⟨h, .refl _, fun _ => ⟨by simp, List.Subset.refl _, fun _ => rfl⟩⟩
  | @close aborted hphase =>
    obtain ⟨hcoherent, -⟩ := hroot.coherent (by simp [hphase])
    obtain ⟨hrecorded, hretains, hstart⟩ := h.close now hcoherent.shape aborted
    exact ⟨hrecorded, hretains, fun _ => ⟨by simp, List.Subset.refl _, hstart⟩⟩

/-- A scope that has ended has nobody under way, and an iteration that goes on belongs to a loop
that is under way. -/
structure Hosted (e : Execution) : Prop where
  idle : ∀ a t, e.site? a = some t → t.phase = .ended → t.flying = []
  host : ∀ l i a t, e.site? ((l, i) :: a) = some t → t.phase ≠ .ended →
    ∃ u, e.site? a = some u ∧ (u.loops.find? l).isSome = true

/-- What is under way ends only when nothing of it goes on. -/
theorem Moves.hosted (hg : Grounded p e) (ht : e.site? a = some t)
    (hmoves : Moves p now e a t event t') :
    (t'.phase = .ended → t.phase ≠ .ended → t'.flying = []) ∧
      ∀ l i u, (t.loops.find? l).isSome = true → e.site? ((l, i) :: a) = some u →
        u.phase ≠ .ended → (t'.loops.find? l).isSome = true := by
  obtain ⟨given, hroot⟩ := hg.sites a t ht
  cases hmoves with
  | @conclude loop lo hlo hmay =>
    refine ⟨fun hended hlive => absurd hended hlive, ?_⟩
    intro l i u hl hsite hlive
    rw [Table.find?_erase]
    split_ifs with heq
    · -- the loop ends, so all its iterations have ended
      subst heq
      have hidle : e.isIdle a lo.node = true := ((Bool.and_eq_true _ _).mp hmay).2
      rw [(hroot.loops _ lo hlo).node] at hidle
      have hended := List.all_eq_true.mp hidle _ ((mem_iterations hg.keys).mpr hsite)
      exact absurd (by simpa using hended) hlive
    · exact hl
  | startLoop | iterate =>
    refine ⟨fun hended hlive => absurd hended hlive, ?_⟩
    intro l i u hl _ _
    rw [Table.find?_insert]
    split_ifs
    · rfl
    · exact hl
  | close _ hidle =>
    exact ⟨fun _ _ => Site.inFlight_eq_false_iff.mp hidle, fun _ _ _ hl _ _ => hl⟩
  | leave => exact ⟨by simp, fun _ _ _ hl _ _ => hl⟩
  | _ => exact ⟨fun hended hlive => absurd hended hlive, fun _ _ _ hl _ _ => hl⟩

theorem Hosted.putSite (h : Hosted e) (hg : Grounded p e) (ht : e.site? a = some t)
    (hmoves : Moves p now e a t event t') : Hosted (e.putSite p verbose a t') := by
  have hlive : t.phase ≠ .ended := hmoves.live (h.idle a t ht)
  obtain ⟨hidle, hkeeps⟩ := hmoves.hosted hg ht
  refine ⟨?_, ?_⟩
  · intro b u hu hended
    rw [site?_putSite] at hu
    split_ifs at hu with heq
    · obtain rfl := Option.some.inj hu
      exact hidle hended hlive
    · exact h.idle b u hu hended
  · intro l i b u hsite hgoes
    -- the iteration went on before as well
    obtain ⟨u₀, hsite₀, hgoes₀⟩ : ∃ u₀, e.site? ((l, i) :: b) = some u₀ ∧ u₀.phase ≠ .ended := by
      rw [site?_putSite] at hsite
      split_ifs at hsite with heq
      · exact ⟨t, heq ▸ ht, hlive⟩
      · exact ⟨u, hsite, hgoes⟩
    obtain ⟨v, hv, hloop⟩ := h.host l i b u₀ hsite₀ hgoes₀
    by_cases heq : a = b
    · subst heq
      obtain rfl := Option.some.inj (ht.symm.trans hv)
      exact ⟨t', by rw [site?_putSite, if_pos rfl], hkeeps l i u₀ hloop hsite₀ hgoes₀⟩
    · exact ⟨v, by rw [site?_putSite, if_neg heq]; exact hv, hloop⟩

theorem Hosted.openSite (h : Hosted e) {l : NodeId} {i : ℕ}
    (hhost : ∃ u, e.site? a = some u ∧ (u.loops.find? l).isSome = true)
    (hfresh : e.site? ((l, i) :: a) = none) (deliveries : List (PortRef × Json)) :
    Hosted (e.openSite p verbose now ((l, i) :: a) deliveries) := by
  have hkept : ∀ {b u}, e.site? b = some u →
      (e.openSite p verbose now ((l, i) :: a) deliveries).site? b = some u :=
    site?_openSite_of_known hfresh
  refine ⟨?_, ?_⟩
  · intro b u hu hended
    rw [site?_openSite] at hu
    split_ifs at hu
    · obtain rfl := Option.some.inj hu
      rfl
    · exact h.idle b u hu hended
  · intro l' i' b u hsite hgoes
    rw [site?_openSite] at hsite
    split_ifs at hsite with heq
    · obtain ⟨hhead, rfl⟩ := List.cons.inj heq
      obtain ⟨rfl, rfl⟩ := Prod.mk.inj hhead
      obtain ⟨v, hv, hloop⟩ := hhost
      exact ⟨v, hkept hv, hloop⟩
    · obtain ⟨v, hv, hloop⟩ := h.host l' i' b u hsite hgoes
      exact ⟨v, hkept hv, hloop⟩

/-- Where the top level has ended, every scope has. -/
theorem Hosted.over (h : Hosted e) (hover : e.isOver = true)
    (ht : e.site? a = some t) : t.phase = .ended := by
  induction a generalizing t with
  | nil =>
    unfold isOver at hover
    rw [ht] at hover
    simpa using hover
  | cons x outer ih =>
    obtain ⟨l, i⟩ := x
    by_contra hlive
    obtain ⟨u, hu, hloop⟩ := h.host l i outer t ht hlive
    have hidle := h.idle outer u hu (ih hu)
    have hmem : l ∈ u.flying := by simp [Site.flying, (Table.isSome_find?_iff u.loops l).mp hloop]
    rw [hidle] at hmem
    simp at hmem

/-- Every scope goes on from where it was, and entries are only added to the log. -/
structure Continues (e e' : Execution) : Prop where
  log : e.log <+: e'.log
  sites : ∀ a t, e.site? a = some t → ∃ t', e'.site? a = some t' ∧ t.Follows t'

theorem Continues.refl (e : Execution) : Continues e e :=
  ⟨List.prefix_rfl, fun _ t ht => ⟨t, ht, follows_refl t⟩⟩

theorem Continues.trans (h : Continues e e') (h' : Continues e' e'') : Continues e e'' := by
  refine ⟨h.log.trans h'.log, ?_⟩
  intro a t ht
  obtain ⟨t', ht', hfollows⟩ := h.sites a t ht
  obtain ⟨t'', ht'', hfollows'⟩ := h'.sites a t' ht'
  exact ⟨t'', ht'', follows_trans hfollows hfollows'⟩

/-- What holds of the log while events happen. -/
structure Booked (p : Plan) (verbose : Bool) (e : Execution) : Prop where
  grounded : Grounded p e
  logged : Logged p verbose e
  hosted : Hosted e

theorem Booked.perform (hp : p.Sound) (hu : p.Untangled) (h : Booked p verbose e)
    (hevent : e.perform? p verbose now event = some e') : Booked p verbose e' ∧ Continues e e' := by
  have hg' := (h.grounded.perform hp hu hevent).1
  obtain ⟨rfl, rfl⟩ | ⟨a, t, t', ht, hmoves, hcases⟩ := perform?_eq_some hevent
  · exact ⟨⟨hg', ⟨h.logged.recorded, h.logged.entries, h.logged.covered⟩,
      ⟨h.hosted.idle, h.hosted.host⟩⟩, ⟨List.prefix_rfl, (Continues.refl e).sites⟩⟩
  obtain ⟨given, hroot⟩ := h.grounded.sites a t ht
  obtain ⟨hrecorded, hfollows⟩ := hmoves.follows hp hu hroot (h.logged.recorded a t ht)
  obtain ⟨rs, hrs⟩ := hfollows.retains.ended
  have hlog := log_putSite p verbose ht hrs.symm
  have hput : Continues e (e.putSite p verbose a t') := by
    refine ⟨⟨_, hlog.symm⟩, ?_⟩
    intro b u hu
    rw [site?_putSite]
    split_ifs with heq
    · subst heq
      obtain rfl := Option.some.inj (ht.symm.trans hu)
      exact ⟨t', rfl, hfollows⟩
    · exact ⟨u, hu, follows_refl u⟩
  have hhosted : Hosted (e.putSite p verbose a t') := h.hosted.putSite h.grounded ht hmoves
  have hplaced : ∀ b u, (e.putSite p verbose a t').site? b = some u → Placed p b := by
    intro b u hb
    rw [site?_putSite] at hb
    split_ifs at hb with heq
    · exact heq ▸ h.grounded.placed hp ht
    · exact h.grounded.placed hp hb
  have hlogged : Logged p verbose (e.putSite p verbose a t') :=
    h.logged.extend hp (fun b => site?_putSite p verbose e a b t') hplaced
      (fun n => ((hmoves.rooted hp hu ht hroot).1.member n).mp)
      (h.logged.entries a t ht) hrs.symm hlog hrecorded
  rcases hcases with ⟨hother, rfl⟩ | ⟨loop, l, rfl, hl, hmay, ht', rfl⟩
  · exact ⟨⟨hg', hlogged, hhosted⟩, hput⟩
  · have hfresh : (e.putSite p verbose a t').site? ((loop, l.opened) :: a) = none :=
      h.grounded.fresh_putSite ht hl
    have hlog' := log_openSite p verbose now hfresh
      (l.deliveries p l.opened)
    have hsites := fun b => site?_openSite p verbose now (e.putSite p verbose a t')
      ((loop, l.opened) :: a) b (l.deliveries p l.opened)
    obtain ⟨given', hroot'⟩ := hg'.sites _ _ (by rw [hsites, if_pos rfl])
    refine ⟨⟨hg', ?_, hhosted.openSite ⟨t', ?_, ?_⟩ hfresh _⟩, hput.trans ⟨⟨_, hlog'.symm⟩, ?_⟩⟩
    · refine hlogged.extend hp hsites (fun b u hb => hg'.placed hp hb)
        (fun n => (hroot'.member n).mp) ?_ (List.nil_append _).symm hlog'
        (Scope.recorded_seed now hp _ _)
      exact hlogged.fresh hplaced (hg'.placed hp (by rw [hsites, if_pos rfl])) hfresh
    · rw [site?_putSite, if_pos rfl]
    · rw [ht', Table.find?_insert, if_pos rfl]
      rfl
    · exact fun b u hb => ⟨u, site?_openSite_of_known hfresh hb, follows_refl u⟩

theorem booked_begin (hp : p.Sound) (hu : p.Untangled) (permits : ℕ) (aborted : Bool) :
    Booked p verbose (begin p verbose now permits aborted) := by
  have hg : Grounded p (begin p verbose now permits aborted) :=
    grounded_begin hp hu permits aborted
  obtain ⟨given, hroot⟩ := hg.sites [] _ (site?_begin permits aborted [])
  have hempty : Logged p verbose ⟨max 1 permits, [], aborted, []⟩ :=
    ⟨by simp [site?], by simp [site?], by simp⟩
  have hsites := fun b => site?_openSite p verbose now ⟨max 1 permits, [], aborted, []⟩ [] b []
  refine ⟨hg, ?_, ?_⟩
  · refine hempty.extend hp hsites (fun b u hb => hg.placed hp hb)
      (fun n => (hroot.member n).mp) rfl (List.nil_append _).symm ?_ (Scope.recorded_seed now hp none [])
    exact log_openSite p verbose now rfl []
  · refine ⟨?_, ?_⟩
    · intro a t ht hended
      obtain ⟨rfl, rfl⟩ := site?_begin_eq_some ht
      simp at hended
    · intro l i a t ht
      rw [site?_begin, if_neg (by simp)] at ht
      simp at ht

theorem Reachable.booked (hp : p.Sound) (hu : p.Untangled) (h : Reachable p verbose e) :
    Booked p verbose e := by
  induction h with
  | begin now permits aborted => exact booked_begin hp hu permits aborted
  | step _ hevent ih => exact (ih.perform hp hu hevent).1

/-! ### All events -/

/-- Some events lead from one execution to another. -/
def Leads (p : Plan) (verbose : Bool) : Execution → Execution → Prop :=
  ReflTransGen fun e e' => ∃ now event, e.perform? p verbose now event = some e'

theorem aborted_of_leads (hleads : Leads p verbose e e') (h : e'.aborted = false) :
    e.aborted = false := by
  induction hleads with
  | refl => exact h
  | tail _ hstep ih =>
    obtain ⟨now, event, hevent⟩ := hstep
    exact ih (aborted_of_perform? hevent h)

theorem Reachable.leads (h : Reachable p verbose e) (hleads : Leads p verbose e e') :
    Reachable p verbose e' := by
  induction hleads with
  | refl => exact h
  | tail _ hstep ih =>
    obtain ⟨now, event, hevent⟩ := hstep
    exact ih.step hevent

theorem Leads.grounded (hp : p.Sound) (hu : p.Untangled) (h : Grounded p e)
    (hleads : Leads p verbose e e') : Grounded p e' ∧ Later e e' := by
  induction hleads with
  | refl => exact ⟨h, .refl e⟩
  | tail _ hstep ih =>
    obtain ⟨now, event, hevent⟩ := hstep
    obtain ⟨hgrounded, hlater⟩ := ih.1.perform hp hu hevent
    exact ⟨hgrounded, ih.2.trans hlater⟩

theorem leads_of_after? {events : List (Timestamp × Event)}
    (hafter : e.after? p verbose events = some e') : Leads p verbose e e' := by
  induction events generalizing e with
  | nil =>
    obtain rfl := Option.some.inj hafter
    exact .refl
  | cons x rest ih =>
    obtain ⟨e₁, hevent, hrest⟩ := Option.bind_eq_some_iff.mp hafter
    exact .head ⟨x.1, x.2, hevent⟩ (ih hrest)

theorem Leads.continues (hp : p.Sound) (hu : p.Untangled) (h : Booked p verbose e)
    (hleads : Leads p verbose e e') : Continues e e' := by
  have hboth : Booked p verbose e' ∧ Continues e e' := by
    induction hleads with
    | refl => exact ⟨h, .refl e⟩
    | tail _ hstep ih =>
      obtain ⟨now, event, hevent⟩ := hstep
      obtain ⟨hbooked, hcontinues⟩ := ih
      obtain ⟨hbooked', hcontinues'⟩ := hbooked.perform hp hu hevent
      exact ⟨hbooked', hcontinues.trans hcontinues'⟩
  exact hboth.2

/-- The log says of each run that has ended how it ended, once, and nothing of the others. -/
structure EndsOnce (p : Plan) (verbose : Bool) (e : Execution) : Prop where
  entry : ∀ a t n r node, e.site? a = some t → t.scope.run? n = some r → p.node? n = some node →
    (e.log.filter fun x => x.node == n && x.iteration == a.iteration) =
      if r.state.isTerminal then [LogEntry.ofRun node r a.iteration verbose] else []
  covered : ∀ x ∈ e.log, ∃ a t, e.site? a = some t ∧ x.iteration = a.iteration ∧
    x.node ∈ p.membersIn a.owner
  distinct : (e.log.map fun x => (x.node, x.iteration)).Nodup
  depth : ∀ x ∈ e.log, x.iteration.length = p.depthOf (p.scopeOf x.node)
  /-- A scope that has ended has ended all its runs, and so has every scope when all is over. -/
  complete : ∀ a t n, e.site? a = some t → t.phase = .ended ∨ e.isOver = true →
    n ∈ p.membersIn a.owner → ∃ r, t.scope.run? n = some r ∧ r.state.isTerminal = true

theorem filter_of_nodup {α β : Type} [BEq β] [LawfulBEq β] {f : α → β} {l : List α}
    (h : (l.map f).Nodup) {x : α} (hx : x ∈ l) : (l.filter fun y => f y == f x) = [x] := by
  induction l with
  | nil => simp at hx
  | cons a rest ih =>
    obtain ⟨ha, hrest⟩ := List.nodup_cons.mp h
    rcases List.mem_cons.mp hx with rfl | hx
    · rw [List.filter_cons_of_pos (by simp), List.filter_eq_nil_iff.mpr]
      intro y hy heq
      exact ha (List.mem_map.mpr ⟨y, hy, beq_iff_eq.mp heq⟩)
    · rw [List.filter_cons_of_neg, ih hrest hx]
      intro heq
      exact ha (List.mem_map.mpr ⟨x, hx, (beq_iff_eq.mp heq).symm⟩)

theorem entries_of_node (rs : List NodeRun) (n : NodeId) :
    ((rs.filterMap (entryOf p verbose a)).filter fun x => x.node == n) =
      (rs.filter fun r => r.node == n).filterMap (entryOf p verbose a) := by
  rw [List.filter_filterMap, List.filterMap_filter]
  refine List.filterMap_congr ?_
  intro r _
  cases hentry : entryOf p verbose a r with
  | none => simp
  | some x => simp [Option.filter, (entryOf_kept hentry).1]

theorem Booked.entry (hp : p.Sound) (h : Booked p verbose e) (ht : e.site? a = some t) {n : NodeId}
    {r : NodeRun} {node : Node} (hr : t.scope.run? n = some r) (hnode : p.node? n = some node) :
    (e.log.filter fun x => x.node == n && x.iteration == a.iteration) =
      if r.state.isTerminal then [LogEntry.ofRun node r a.iteration verbose] else [] := by
  obtain ⟨given, hroot⟩ := h.grounded.sites a t ht
  have hrecorded := h.logged.recorded a t ht
  have hscope : p.scopeOf n = a.owner :=
    (hp.mem_membersIn.mp ((hroot.member n).mp (by rw [hr]; rfl))).2
  have hfilter : (e.log.filter fun x => x.node == n && x.iteration == a.iteration) =
      (e.log.filter (isAbout p a)).filter fun x => x.node == n := by
    rw [List.filter_filter]
    refine List.filter_congr ?_
    intro x _
    by_cases hx : x.node = n
    · simp [isAbout, hx, hscope]
    · have hbeq : (x.node == n) = false := beq_eq_false_iff_ne.mpr hx
      simp only [hbeq, Bool.false_and]
  rw [hfilter, h.logged.entries a t ht, entries_of_node]
  split_ifs with hterm
  · obtain ⟨r₀, hr₀, hid⟩ := List.mem_map.mp (hrecorded.all n r hr hterm)
    obtain ⟨r₁, hr₁, -, hrecord⟩ := hrecorded.known r₀ hr₀
    rw [hid, hr] at hr₁
    obtain rfl := Option.some.inj hr₁
    subst hid
    rw [filter_of_nodup hrecorded.once hr₀]
    have hentry : entryOf p verbose a r₀ = some (LogEntry.ofRun node r a.iteration verbose) := by
      unfold entryOf
      rw [hnode, Option.map_some, LogEntry.ofRun_record hrecord]
    simp [hentry]
  · rw [List.filter_eq_nil_iff.mpr, List.filterMap_nil]
    intro r₀ hr₀ heq
    obtain ⟨r₁, hr₁, hterm₁, -⟩ := hrecorded.known r₀ hr₀
    rw [beq_iff_eq.mp heq, hr] at hr₁
    rw [Option.some.inj hr₁] at hterm
    exact hterm hterm₁

theorem Booked.covered (h : Booked p verbose e) {x : LogEntry} (hx : x ∈ e.log) :
    ∃ a t r node, e.site? a = some t ∧ x.iteration = a.iteration ∧
      p.scopeOf x.node = a.owner ∧ t.scope.run? x.node = some r ∧ p.node? x.node = some node := by
  obtain ⟨a, t, ht, habout⟩ := h.logged.covered x hx
  obtain ⟨howner, hiteration⟩ := isAbout_iff.mp habout
  have hmem : x ∈ e.log.filter (isAbout p a) := List.mem_filter.mpr ⟨hx, habout⟩
  rw [h.logged.entries a t ht] at hmem
  obtain ⟨r₀, hr₀, hentry⟩ := List.mem_filterMap.mp hmem
  obtain ⟨node, hnode, -⟩ := Option.map_eq_some_iff.mp hentry
  obtain ⟨r, hr, -⟩ := (h.logged.recorded a t ht).known r₀ hr₀
  rw [← (entryOf_kept hentry).1] at hr hnode
  exact ⟨a, t, r, node, ht, hiteration, howner, hr, hnode⟩

theorem Booked.distinct (hp : p.Sound) (h : Booked p verbose e) :
    (e.log.map fun x => (x.node, x.iteration)).Nodup := by
  refine List.nodup_iff_count_le_one.mpr ?_
  intro key
  by_cases hkey : key ∈ e.log.map fun x => (x.node, x.iteration)
  · obtain ⟨x, hx, rfl⟩ := List.mem_map.mp hkey
    obtain ⟨a, t, r, node, ht, hiteration, -, hr, hnode⟩ := h.covered hx
    have hentry := h.entry hp ht hr hnode
    rw [List.count, List.countP_map, List.countP_eq_length_filter, hiteration]
    change (e.log.filter fun y => y.node == x.node && y.iteration == a.iteration).length ≤ 1
    rw [hentry]
    split_ifs <;> simp
  · rw [List.count_eq_zero.mpr hkey]
    exact Nat.zero_le 1

/-- Every node run ends once. Each run of each scope of an execution has one entry in the log if it
has ended and none before, and whatever happens next leaves the record of it as it is; no two
entries agree in node and iterations, and the iterations are as many as the loops around the node. A
scope that has ended, or that is left behind when the execution is over, has an entry for each
member, and a scope that has left its loop starts nobody. -/
theorem endsOnce {p : Plan} (h : p.Accepted) (hu : p.Untangled) {verbose : Bool} {e : Execution}
    (he : Reachable p verbose e) :
    EndsOnce p verbose e ∧ ∀ e', Leads p verbose e e' → Continues e e' := by
  have hp := Plan.sound_of_accepted h
  have hbooked := he.booked hp hu
  refine ⟨⟨?_, ?_, hbooked.distinct hp, ?_, ?_⟩, fun e' => Leads.continues hp hu hbooked⟩
  · exact fun a t n r node ht hr hnode => hbooked.entry hp ht hr hnode
  · intro x hx
    obtain ⟨a, t, r, node, ht, hiteration, -, hr, -⟩ := hbooked.covered hx
    obtain ⟨given, hroot⟩ := hbooked.grounded.sites a t ht
    exact ⟨a, t, ht, hiteration, (hroot.member _).mp (by rw [hr]; rfl)⟩
  · intro x hx
    obtain ⟨a, t, r, node, ht, hiteration, howner, -⟩ := hbooked.covered hx
    rw [hiteration, howner, ← (hbooked.grounded.placed hp ht).length hp hu]
    simp [Address.iteration]
  · intro a t n ht hover hn
    have hended : t.phase = .ended := by
      rcases hover with hended | hover
      · exact hended
      · exact hbooked.hosted.over hover ht
    obtain ⟨given, hroot⟩ := hbooked.grounded.sites a t ht
    obtain ⟨r, hr⟩ := Option.isSome_iff_exists.mp ((hroot.member n).mpr hn)
    obtain ⟨s, hcoherent, -, -, ⟨hlive, -⟩ | ⟨-, now, aborted, heq⟩⟩ := hroot.scope
    · exact absurd hended hlive
    · refine ⟨r, hr, ?_⟩
      rw [heq] at hr
      exact Scope.terminal_of_close hcoherent.shape aborted hr

/-- The input node gives a list. -/
def firstEvents : List (Timestamp × Event) :=
  [.dispatch [], .report [] (.ended ⟨"in", [], .succeeded [("value", .array [.null])]⟩),
    .hear [] "in"].map fun event => (.epoch, event)

theorem loopInLoop_endsOnce : ∃ p e, Plan.ofDefinition Plan.loopInLoop = .ok p ∧
    Reachable p false e ∧ e.log.map LogEntry.node = ["in"] ∧
      EndsOnce p false e ∧ ∀ e', Leads p false e e' → Continues e e' := by
  obtain ⟨p, hp, hloops, hlog⟩ := Plan.exists_of_check (d := Plan.loopInLoop)
    (P := fun p =>
      (∀ a ∈ p.nesting.loops, ∀ b ∈ p.nesting.loops, ¬ (a.1 ∈ b.2.body ∧ b.1 ∈ a.2.body)) ∧
      ((begin p false .epoch 1 false).after? p false firstEvents).any fun e =>
        e.log.map LogEntry.node == ["in"])
    (by decide +kernel)
  obtain ⟨e, hafter, hnodes⟩ := (Option.any_eq_true _ _).mp hlog
  have he : Reachable p false e := by
    refine (orderly_of_after? (.begin .epoch 1) ?_ hafter).reachable
    intro x hx
    simp only [firstEvents, List.map_cons, List.map_nil, List.mem_cons, List.not_mem_nil,
      or_false] at hx
    rcases hx with rfl | rfl | rfl
    · trivial
    · exact ⟨_, rfl, Or.inl ⟨_, rfl⟩⟩
    · trivial
  exact ⟨p, e, hp, he, by simpa using hnodes,
    endsOnce ⟨Plan.loopInLoop, hp⟩ (Plan.untangled_of_loops hloops) he⟩

end Execution

end PortGraph
