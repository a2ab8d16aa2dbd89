import PortGraph.Execution.Result
import PortGraph.Proofs.Execution.Dataflow
import PortGraph.Proofs.Execution.Faithful

/-!
Executions of one plan by one work, in whatever order things happen in them. Where no end hangs on who
was first, whatever has happened in one of them happens in every other one that runs to its end; so
all that run to their end come to the same.
-/

namespace PortGraph

open Plan

/-! ### Loops that have gone through the same iterations -/

namespace Looping

theorem itemsOf_congr {inputs inputs' : PortValues}
    (h : ∀ q, inputs.find? q = inputs'.find? q) : itemsOf inputs = itemsOf inputs' := by
  unfold itemsOf PortValues.value
  rw [h]

/-- Two iterations that count the same in the outcome of a loop. -/
structure Alike (x y : ℕ × Scope) : Prop where
  index : x.1 = y.1
  failed : x.2.firstFailure?.isNone = y.2.firstFailure?.isNone
  result : x.2.result = y.2.result

variable {l l' : Looping} {xs ys : List (ℕ × Scope)}

theorem count_congr (hitems : l.items = l'.items) (hsettings : l.settings = l'.settings) :
    l.count = l'.count := by
  unfold count itemList
  rw [hitems, hsettings]

theorem isNone_firstFailure?_congr (h : List.Forall₂ Alike xs ys) :
    (firstFailure? xs).isNone = (firstFailure? ys).isNone := by
  induction h with
  | nil => rfl
  | @cons x y xs ys hxy _ ih =>
    obtain ⟨i, s⟩ := x
    obtain ⟨j, t⟩ := y
    have hfailed : s.firstFailure?.isNone = t.firstFailure?.isNone := hxy.failed
    unfold firstFailure?
    cases hs : s.firstFailure? <;> cases ht : t.firstFailure? <;> simp [hs, ht] at hfailed ⊢
    exact ih

theorem contributions_congr (hresult : l.hasResult = l'.hasResult) (hitems : l.items = l'.items)
    (h : List.Forall₂ Alike xs ys) : xs.map l.contribution = ys.map l'.contribution := by
  have hlist : l.itemList = l'.itemList := by
    unfold itemList
    rw [hitems]
  induction h with
  | nil => rfl
  | cons hxy _ ih =>
    rw [List.map_cons, List.map_cons, ih]
    unfold contribution
    rw [hresult, hlist, hxy.index, hxy.result]

/-- A loop leaves the same when its iterations count the same. -/
theorem yield_outcome_congr (hitems : l.items = l'.items) (hsettings : l.settings = l'.settings)
    (hresult : l.hasResult = l'.hasResult) (hxs : ∀ x ∈ xs, x.2.fault = none)
    (hys : ∀ y ∈ ys, y.2.fault = none) (h : List.Forall₂ Alike xs ys) :
    (l.outcome xs false).yield = (l'.outcome ys false).yield := by
  have hfailed := isNone_firstFailure?_congr h
  unfold outcome
  rw [hitems, hsettings, contributions_congr hresult hitems h,
    show (xs.findSome? fun x => x.2.fault) = none from List.findSome?_eq_none_iff.mpr hxs,
    show (ys.findSome? fun y => y.2.fault) = none from List.findSome?_eq_none_iff.mpr hys]
  cases l'.items with
  | error e => rfl
  | ok items =>
    cases hx : firstFailure? xs <;> cases hy : firstFailure? ys <;> simp [hx, hy] at hfailed ⊢
    rfl

end Looping

namespace Execution

variable {p : Plan} {verbose verbose' : Bool} {now : Timestamp} {e e' e₂ : Execution}
variable {a b : Address} {t t' t₂ : Site} {given given₂ : List (PortRef × Json)} {event : Event}
variable {work : Work} {n : NodeId} {l l₂ : Looping} {xs ys : List (ℕ × Site)}
variable {inputs inputs₂ : PortValues} {o o₂ : Outcome}

theorem forall₂_of_indices {R : ℕ × Site → ℕ × Site → Prop}
    (hindices : xs.map (·.1) = ys.map (·.1)) (h : ∀ x ∈ xs, ∀ y ∈ ys, x.1 = y.1 → R x y) :
    List.Forall₂ R xs ys := by
  induction xs generalizing ys with
  | nil =>
    rw [List.map_eq_nil_iff.mp hindices.symm]
    exact .nil
  | cons x xs ih =>
    obtain ⟨y, ys, rfl, hy, hrest⟩ := List.map_eq_cons_iff.mp hindices.symm
    exact .cons (h x List.mem_cons_self y List.mem_cons_self hy.symm) (ih hrest.symm
      fun x hx y hy => h x (List.mem_cons_of_mem _ hx) y (List.mem_cons_of_mem _ hy))

/-- A loop begins no more iterations than one that has gone through the same and has its outcome. -/
theorem Underway.opened_le (h : Underway xs l) (hle : l.opened ≤ l.count)
    (h₂ : Concluded p ys n inputs l₂) (hcount : l.count = l₂.count)
    (hsettings : l.settings = l₂.settings)
    (hwell : ∀ x ∈ xs, ∀ y ∈ ys, x.1 = y.1 → x.2.phase = .ended →
      x.2.scope.firstFailure? = none → y.2.scope.firstFailure? = none) : l.opened ≤ l₂.opened := by
  by_contra hlt
  rcases h₂.last with hall | ⟨hsequential, y, hy, hopened, hfails⟩
  · omega
  · -- the other loop has stopped early, after an iteration that ended well here
    obtain ⟨x, hx, hindex⟩ := mem_of_indices h.indices (show y.1 < l.opened by omega)
    obtain ⟨hphase, hnone⟩ := h.well (hsettings ▸ hsequential) x hx (by omega)
    exact hfails (hwell x hx y hy hindex hphase hnone)

/-- What a node came to depends on nothing but its inputs, and for a loop on its iterations. -/
theorem Came.same (h : Came p work.rule xs n inputs o) (h₂ : Came p work.rule ys n inputs₂ o₂)
    (hinputs : ∀ q, inputs.find? q = inputs₂.find? q)
    (hxs : ∀ x ∈ xs, x.2.scope.fault = none) (hys : ∀ y ∈ ys, y.2.scope.fault = none)
    (halike : ∀ x ∈ xs, ∀ y ∈ ys, x.1 = y.1 → x.2.phase = .ended →
      Looping.Alike (x.1, x.2.scope) (y.1, y.2.scope)) : o.yield = o₂.yield := by
  rcases h with ⟨hleaf, ho⟩ | ⟨l, hl, rfl⟩
  · rcases h₂ with ⟨-, ho₂⟩ | ⟨l₂, hl₂, -⟩
    · rw [ho, ho₂, funext hinputs]
    · obtain ⟨node, hnode, hsettings⟩ := hl₂.settings
      exact absurd hsettings (hleaf node _ hnode)
  · obtain ⟨node, hnode, hsettings⟩ := hl.settings
    rcases h₂ with ⟨hleaf, -⟩ | ⟨l₂, hl₂, rfl⟩
    · exact absurd hsettings (hleaf node _ hnode)
    have hsame := hl₂.settings_eq hnode hsettings
    have hitems : l.items = l₂.items := by
      rw [hl.items, hl₂.items, Looping.itemsOf_congr hinputs]
    have hcount := Looping.count_congr hitems hsame
    have hopened : l.opened = l₂.opened := by
      refine le_antisymm (hl.opened_le hl.opened hl₂ hcount hsame ?_)
        (hl₂.opened_le hl₂.opened hl hcount.symm hsame.symm ?_)
      · intro x hx y hy hindex hphase hnone
        have hfailed := (halike x hx y hy hindex hphase).failed
        simpa [hnone] using hfailed.symm
      · intro y hy x hx hindex _ hnone
        have hfailed := (halike x hx y hy hindex.symm (hl.ended x hx)).failed
        simpa [hnone] using hfailed
    refine Looping.yield_outcome_congr hitems hsame (hl.hasResult.trans hl₂.hasResult.symm)
      ?_ ?_ ?_
    · exact List.forall_mem_map.mpr hxs
    · exact List.forall_mem_map.mpr hys
    · rw [List.forall₂_map_left_iff, List.forall₂_map_right_iff]
      refine forall₂_of_indices (hl.indices.trans (hopened ▸ hl₂.indices.symm)) ?_
      exact fun x hx y hy hindex => halike x hx y hy hindex (hl.ended x hx)

/-! ### What has happened in another execution -/

/-- An execution by a work that is not called off, and in which no end hangs on who was first. -/
structure Smooth (p : Plan) (verbose : Bool) (work : Work) (e : Execution) : Prop where
  run : RunBy p verbose work e
  aborted : e.aborted = false
  clear : ∀ a t, e.site? a = some t → Scope.Uncontested p t.scope

/-- Whatever has happened in the first execution has happened in the second one. -/
def Tracks (e e₂ : Execution) : Prop :=
  ∀ a t, e.site? a = some t → ∃ t₂, e₂.site? a = some t₂ ∧ Scope.Matches t.scope t₂.scope

theorem Rooted.proper (h : Rooted p e a t given) : p.Proper a.owner given := by
  obtain ⟨s, hcoherent, howner, -⟩ := h.scope
  rw [← howner]
  exact hcoherent.proper

theorem Rooted.started_of_succeeded (h : Rooted p e a t given) {r : NodeRun}
    (hr : t.scope.run? n = some r) (hstate : r.state = .succeeded) : r.startedAt.isSome = true := by
  obtain ⟨s, hcoherent, -, -, ⟨-, rfl⟩ | ⟨-, now, aborted, heq⟩⟩ := h.scope
  · exact Scope.started_of_succeeded hcoherent.shape hcoherent.sourced hr hstate
  · rw [heq, Scope.run?_close hcoherent.shape] at hr
    obtain ⟨r₀, hr₀, rfl⟩ := Option.map_eq_some_iff.mp hr
    split_ifs at hstate ⊢ with hterm
    · exact Scope.started_of_succeeded hcoherent.shape hcoherent.sourced hr₀ hstate
    · rw [Scope.leftOver_state] at hstate
      split_ifs at hstate

section Values

variable (hg : Grounded p e) (h : Tracks e e₂)
include hg h

/-- What a feeder has sent it sends in the other execution. -/
theorem Tracks.valueAt? {source : PortRef} {v : Json} (hv : e.valueAt? p a source = some v) :
    e₂.valueAt? p a source = some v := by
  have houtput : ∀ b, e.outputAt? b source = some v → e₂.outputAt? b source = some v := by
    intro b hb
    obtain ⟨t, r, o, ht, hr, hstate, ho, hport⟩ := outputAt?_eq_some.mp hb
    obtain ⟨given, hroot⟩ := hg.sites b t ht
    obtain ⟨t₂, ht₂, hmatches⟩ := h b t ht
    obtain ⟨r₂, hr₂, -, -, hsame⟩ :=
      hmatches.started _ r hr (hroot.started_of_succeeded hr hstate)
    obtain ⟨hstate₂, ho₂⟩ := hsame (by rw [hstate]; rfl)
    exact outputAt?_eq_some.mpr ⟨t₂, r₂, o, ht₂, hr₂, hstate₂.trans hstate, ho₂.trans ho, hport⟩
  induction a with
  | nil => exact houtput [] hv
  | cons x outer ih =>
    obtain ⟨loop, index⟩ := x
    unfold Execution.valueAt? at hv ⊢
    split_ifs at hv ⊢ with hmember helement
    · exact houtput _ hv
    · unfold elementAt? at hv ⊢
      simp only [Option.bind_eq_bind, Option.bind_eq_some_iff] at hv ⊢
      obtain ⟨t, ht, r, hr, hv⟩ := hv
      obtain ⟨t₂, ht₂, hmatches⟩ := h outer t ht
      split_ifs at hv with hstart hindex
      · obtain ⟨r₂, hr₂, hstart₂, -⟩ := hmatches.started loop r hr hstart
        exact ⟨t₂, ht₂, r₂, hr₂, by rw [if_pos hstart₂, if_pos hindex]; exact hv⟩
      · obtain ⟨r₂, hr₂, hstart₂, hinputs, -⟩ := hmatches.started loop r hr hstart
        refine ⟨t₂, ht₂, r₂, hr₂, ?_⟩
        rw [if_pos hstart₂, if_neg hindex, ← Looping.itemsOf_congr hinputs]
        exact hv
    · exact ih hv

/-- What a scope is given it is given in the other execution. -/
theorem Tracks.mem_given (hbears : ∀ x ∈ given, e.Bears p a x) (hproper : p.Proper a.owner given)
    (hroot₂ : Rooted p e₂ a t₂ given₂) : ∀ x ∈ given, x ∈ given₂ := by
  intro x hx
  obtain ⟨source, hin, hv⟩ := hbears x hx
  have hkey : x.1 ∈ given₂.map (·.1) :=
    (hroot₂.proper.complete x.1).mpr ((hproper.complete x.1).mp (List.mem_map.mpr ⟨x, hx, rfl⟩))
  obtain ⟨⟨port, v₂⟩, hmem, rfl⟩ := List.mem_map.mp hkey
  obtain ⟨source₂, hin₂, hv₂⟩ := hroot₂.bears _ hmem
  obtain rfl := Option.some.inj (hin.symm.trans hin₂)
  obtain rfl := Option.some.inj ((h.valueAt? hg hv).symm.trans hv₂)
  exact hmem

end Values

section Other

variable (hp : p.Sound) (hu : p.Untangled) (hsighted : p.SeedsSighted)
include hp hu hsighted

theorem Smooth.complete (h : Smooth p verbose work e) (ht : e.site? a = some t)
    (hended : t.phase = .ended) :
    ∃ given, Rooted p e a t given ∧ Scope.Complete p given t.scope :=
  h.run.orderly.complete hp hu hsighted h.aborted ht hended (h.clear a t ht)

/-- When an execution is over, all its scopes have run to their end. -/
theorem Smooth.complete_of_over (h : Smooth p verbose work e) (hover : e.isOver = true)
    (ht : e.site? a = some t) : ∃ given, Rooted p e a t given ∧ Scope.Complete p given t.scope :=
  h.complete hp hu hsighted ht
    ((h.run.orderly.reachable.booked hp hu).hosted.over hover ht)

variable (h₂ : Smooth p verbose' work e₂) (hover : e₂.isOver = true)
  (h : Smooth p verbose work e) (htracks : Tracks e e₂)
include h₂ hover h htracks

/-- An iteration that has ended counts the same in the other execution. -/
theorem Tracks.alike {x y : ℕ × Site} (hx : x ∈ e.iterations a n) (hy : y ∈ e₂.iterations a n)
    (hindex : x.1 = y.1) (hended : x.2.phase = .ended) :
    Looping.Alike (x.1, x.2.scope) (y.1, y.2.scope) := by
  have hg := h.run.orderly.reachable.grounded hp hu
  have hg₂ := h₂.run.orderly.reachable.grounded hp hu
  have hsite := (mem_iterations hg.keys).mp hx
  have hsite₂ := (mem_iterations hg₂.keys).mp hy
  rw [← hindex] at hsite₂
  obtain ⟨t₂, ht₂, hmatches⟩ := htracks _ _ hsite
  obtain rfl := Option.some.inj (hsite₂.symm.trans ht₂)
  obtain ⟨given, hroot, hcomplete⟩ := h.complete hp hu hsighted hsite hended
  obtain ⟨given₂, hroot₂, hcomplete₂⟩ := h₂.complete_of_over hp hu hsighted hover hsite₂
  have hgiven := htracks.mem_given hg hroot.bears hroot.proper hroot₂
  exact ⟨hindex, (hmatches.firstFailure?_isNone hp hu hcomplete hcomplete₂ hgiven).symm,
    (hmatches.result hp hu hcomplete hcomplete₂ hgiven).symm⟩

/-- A node comes to the same in both executions. -/
theorem Tracks.came (hcame : Came p work.rule (e.iterations a n) n inputs o)
    (hcame₂ : Came p work.rule (e₂.iterations a n) n inputs₂ o₂)
    (hinputs : ∀ q, inputs.find? q = inputs₂.find? q) : o.yield = o₂.yield := by
  have hfault : ∀ {v e}, Smooth p v work e → ∀ x ∈ e.iterations a n, x.2.scope.fault = none := by
    intro v e he x hx
    have hsite := (mem_iterations (he.run.orderly.reachable.grounded hp hu).keys).mp hx
    exact (he.run.orderly.calm hp hu he.aborted _ _ hsite).fault
  exact hcame.same hcame₂ hinputs (hfault h) (hfault h₂) fun x hx y hy =>
    htracks.alike hp hu hsighted h₂ hover h hx hy

/-- A move of a scope keeps it matched. -/
theorem Tracks.move (ht : e.site? a = some t) (ht₂ : e₂.site? a = some t₂)
    (hmatches : Scope.Matches t.scope t₂.scope) (hmoves : Moves p now e a t event t')
    (hcalm' : Calm t') (hclear' : Scope.Uncontested p t'.scope) :
    Scope.Matches t'.scope t₂.scope := by
  have hreach := h.run.orderly.reachable
  have hg := hreach.grounded hp hu
  obtain ⟨given, hroot⟩ := hg.sites a t ht
  obtain ⟨given₂, hroot₂, hcomplete₂⟩ := h₂.complete_of_over hp hu hsighted hover ht₂
  have hgiven := htracks.mem_given hg hroot.bears hroot.proper hroot₂
  have htidy := (h.run.orderly.judged hp hu).tidy a t ht
  obtain ⟨hcoherent, -, hchosen⟩ := hroot.coherent (hmoves.live htidy.ended)
  cases hmoves with
  | startLoop _ _ hstart | startWork _ _ hstart =>
    exact hmatches.start hp hu hcomplete₂ hgiven hcoherent (hchosen hsighted)
      (hreach.invariant hp hu (Scope.invariant_dead hp) a t ht) hstart
  | @hear r id _ _ hfind =>
    refine hmatches.hear hp hu hcomplete₂ hgiven hcoherent
      ((hreach.booked hp hu).logged.recorded a t ht) (hchosen hsighted).decided r ?_ hclear'
      hcalm'.fault
    rintro c r₀ r' rfl hr₀ hr'
    obtain ⟨r₁, hr₁, hstart, hcame⟩ :=
      (h.run.faithful hp hu h.aborted a t ht).told c (List.mem_of_find?_eq_some hfind)
    obtain rfl := Option.some.inj (hr₀.symm.trans hr₁)
    obtain ⟨r₂, hr₂, hstart₂, hinputs, -⟩ := hmatches.started _ r₀ hr₀ hstart
    obtain rfl := Option.some.inj (hr'.symm.trans hr₂)
    obtain ⟨o₂, hcame₂, hended⟩ :=
      (h₂.run.faithful hp hu h₂.aborted a t₂ ht₂).ended _ r' hr' hstart₂ (hcomplete₂.done _ r' hr').1
    have hyield := htracks.came hp hu hsighted h₂ hover h hcame hcame₂ hinputs
    have hnone : r₀.outputs = none := by
      obtain ⟨c₁, r₁, hc₁, -, -, hr₁, hrunning⟩ := htidy.heard hfind
      obtain rfl := Report.ended.inj hc₁
      obtain rfl := Option.some.inj (hr₀.symm.trans hr₁)
      exact hreach.invariant hp hu (Scope.invariant_silent hp) a t ht _ r₀ hr₀
        (by rw [hrunning]; simp)
    exact Prod.ext_iff.mp (hended.yield.trans (hyield.symm.trans
      (Scope.endedBy_concluded hnone now c.attempts c.outcome).yield.symm))
  | @close aborted _ =>
    have hscope : t.scope.close now aborted = t.scope :=
      Scope.close_of_finished aborted (hcalm'.unfinished rfl hcoherent.shape rfl)
    change Scope.Matches (t.scope.close now aborted) t₂.scope
    rwa [hscope]
  | _ => exact hmatches

/-- An iteration that begins has begun in the other execution. -/
theorem Tracks.iterate (ht : e.site? a = some t) {loop : NodeId}
    (hl : t.loops.find? loop = some l) (hmay : e.mayIterate a l = true) :
    ∃ u, e₂.site? ((loop, l.opened) :: a) = some u := by
  have hg := h.run.orderly.reachable.grounded hp hu
  have hg₂ := h₂.run.orderly.reachable.grounded hp hu
  obtain ⟨given, hroot⟩ := hg.sites a t ht
  have hstems := hroot.loops loop l hl
  obtain ⟨r, hr, hstart, hitems⟩ := hstems.run
  obtain ⟨node, hnode, hsettings⟩ := hstems.settings
  obtain ⟨t₂, ht₂, hmatches⟩ := htracks a t ht
  obtain ⟨given₂, -, hcomplete₂⟩ := h₂.complete_of_over hp hu hsighted hover ht₂
  obtain ⟨r₂, hr₂, hstart₂, hinputs, -⟩ := hmatches.started loop r hr hstart
  rcases (h₂.run.faithful hp hu h₂.aborted a t₂ ht₂).ended loop r₂ hr₂ hstart₂
    (hcomplete₂.done loop r₂ hr₂).1 with ⟨-, ⟨hleaf, -⟩ | ⟨l₂, hl₂, -⟩, -⟩
  · exact absurd hsettings (hleaf node _ hnode)
  have hsame := hl₂.settings_eq hnode hsettings
  have hcount := Looping.count_congr
    (hitems.trans ((Looping.itemsOf_congr hinputs).trans hl₂.items.symm)) hsame
  have hunderway := (h.run.faithful hp hu h.aborted a t ht).loops loop l hl
  -- the new iteration has not ended, so only those before it count
  have hopened : l.opened + 1 ≤ l₂.opened := by
    refine (hunderway.iterate hg hstems.node hmay { t with phase := .running }).opened_le
      (of_decide_eq_true ((Bool.and_eq_true _ _).mp hmay).1) hl₂ hcount hsame ?_
    intro x hx y hy hindex hphase hnone
    rcases List.mem_append.mp hx with hold | hnew
    · have hfailed := (htracks.alike hp hu hsighted h₂ hover h hold hy hindex hphase).failed
      simpa [hnone] using hfailed.symm
    · rw [List.mem_singleton.mp hnew] at hphase
      simp at hphase
  obtain ⟨⟨i, u⟩, hmem, rfl⟩ := mem_of_indices hl₂.indices hopened
  exact ⟨u, (mem_iterations hg₂.keys).mp hmem⟩

end Other

section Runs

variable (hp : p.Sound) (hu : p.Untangled) (hsighted : p.SeedsSighted)
include hp hu

/-- No event undoes an end that hangs on who was first. -/
theorem Smooth.before (h : RunBy p verbose work e)
    (hevent : e.perform? p verbose now event = some e') (h' : Smooth p verbose work e') :
    Smooth p verbose work e := by
  have hbooked := h.orderly.reachable.booked hp hu
  refine ⟨h, aborted_of_perform? hevent h'.aborted, fun a t ht => ?_⟩
  obtain ⟨t', ht', hlater⟩ := (hbooked.grounded.perform hp hu hevent).2 a t ht
  obtain ⟨t₁, ht₁, hfollows⟩ := (hbooked.perform hp hu hevent).2.sites a t ht
  obtain rfl := Option.some.inj (ht'.symm.trans ht₁)
  exact (h'.clear a t' ht').before hlater (hbooked.logged.recorded a t ht) hfollows.retains.ended

include hsighted

/-- Whatever has happened in an execution happens in every one that runs to its end. -/
theorem Smooth.tracks (h : Smooth p verbose work e) (h₂ : Smooth p verbose' work e₂)
    (hover : e₂.isOver = true) : Tracks e e₂ := by
  obtain ⟨hrun, haborted, hclear⟩ := h
  induction hrun with
  | begin now permits =>
    intro a t ht
    have hfirst := hclear a t ht
    obtain ⟨rfl, rfl⟩ := site?_begin_eq_some ht
    obtain ⟨t₂, ht₂⟩ := h₂.run.orderly.reachable.top hp hu
    obtain ⟨given₂, hroot₂, hcomplete₂⟩ := h₂.complete_of_over hp hu hsighted hover ht₂
    have howner : t₂.scope.owner = none := hroot₂.owner
    refine ⟨t₂, ht₂, ?_⟩
    have hgiven : ∀ x ∈ ([] : List (PortRef × Json)), x ∈ given₂ := by simp
    have hseed := Scope.matches_seed hp hu hcomplete₂ hgiven now
    rw [howner] at hseed
    exact hseed (proper_top p) hfirst
  | @step now e e' event hrun hregular hfollows hevent ih =>
    have hnext := hrun.step hregular hfollows hevent
    have hbefore : Smooth p verbose work e := .before hp hu hrun hevent ⟨hnext, haborted, hclear⟩
    have htracks := ih hbefore.aborted hbefore.clear
    have hg := hrun.orderly.reachable.grounded hp hu
    obtain ⟨rfl, -⟩ | ⟨a, t, t', ht, hmoves, hcases⟩ := perform?_eq_some hevent
    · exact hregular.elim
    have hmove : e'.site? a = some t' → ∀ b u, (e.putSite p verbose a t').site? b = some u →
        ∃ u₂, e₂.site? b = some u₂ ∧ Scope.Matches u.scope u₂.scope := by
      intro ht' b u hb
      rw [site?_putSite] at hb
      split_ifs at hb with heq
      · obtain rfl := Option.some.inj hb
        subst heq
        obtain ⟨t₂, ht₂, hmatches⟩ := htracks a t ht
        exact ⟨t₂, ht₂, htracks.move hp hu hsighted h₂ hover hbefore ht ht₂ hmatches hmoves
          (hnext.orderly.calm hp hu haborted a t' ht') (hclear a t' ht')⟩
      · exact htracks b u hb
    rcases hcases with ⟨-, rfl⟩ | ⟨loop, l, rfl, hl, hmay, rfl, rfl⟩
    · exact hmove (by rw [site?_putSite, if_pos rfl])
    · intro b u hb
      have hfirst := hclear b u hb
      rw [site?_openSite] at hb
      split_ifs at hb with hnew
      · subst hnew
        obtain rfl := Option.some.inj hb
        obtain ⟨u₂, hu₂⟩ := htracks.iterate hp hu hsighted h₂ hover hbefore ht hl hmay
        obtain ⟨given₂, hroot₂, hcomplete₂⟩ := h₂.complete_of_over hp hu hsighted hover hu₂
        have howner : u₂.scope.owner = some loop := hroot₂.owner
        obtain ⟨given, hroot⟩ := hg.sites a t ht
        have hstems := hroot.loops loop l hl
        have hproper := hstems.proper hp l.opened
        have hgiven := htracks.mem_given hg (hstems.bears_deliveries hp hu ht
          (of_decide_eq_true ((Bool.and_eq_true _ _).mp hmay).1)) hproper hroot₂
        have hseed := Scope.matches_seed hp hu hcomplete₂ hgiven now
        rw [howner] at hseed
        exact ⟨u₂, hu₂, hseed hproper hfirst⟩
      · refine hmove ?_ b u hb
        rw [site?_openSite, if_neg fun heq => by simpa using congrArg List.length heq,
          site?_putSite, if_pos rfl]

end Runs

/-! ### What comes of an execution -/

/-- Two runs that have ended in the same way. -/
structure SameEnd (r r₂ : NodeRun) : Prop where
  state : r₂.state = r.state
  outputs : r₂.outputs = r.outputs
  inputs : r.state = .succeeded → ∀ q, r.inputs.find? q = r₂.inputs.find? q

theorem bind_congr_of_sameEnd {α : Type} {r r₂ : Option NodeRun} {f : NodeRun → Option α}
    (h : Option.Rel SameEnd r r₂) (hf : ∀ r r₂, SameEnd r r₂ → f r = f r₂) :
    r.bind f = r₂.bind f := by
  cases h with
  | some hsame => exact hf _ _ hsame
  | none => rfl

theorem output?_congr {s s₂ : Scope} (h : ∀ n, Option.Rel SameEnd (s.run? n) (s₂.run? n)) :
    Verdict.output? p s = Verdict.output? p s₂ := by
  have hsinks : Verdict.sinkValues? p s = Verdict.sinkValues? p s₂ := by
    refine funext fun ids => congrArg (fun f => ids.mapM f) (funext fun id => ?_)
    refine bind_congr_of_sameEnd (h id) fun r r₂ hsame => ?_
    rw [hsame.state, hsame.outputs]
  unfold Verdict.output?
  cases p.output with
  | node id =>
    refine bind_congr_of_sameEnd (h id) fun r r₂ hsame => ?_
    rw [hsame.state]
    split_ifs with hsucceeded
    · unfold PortValues.value
      rw [hsame.inputs hsucceeded]
    · rfl
  | sinks ids => rw [hsinks]

/-- The log only tells which failure to name. -/
theorem ofScope_congr {s s₂ : Scope} (hfault : s.fault = none) (hfault₂ : s₂.fault = none)
    (houtput : Verdict.output? p s = Verdict.output? p s₂) (log log₂ : List LogEntry) :
    (Verdict.ofScope p s false false log).status = (Verdict.ofScope p s₂ false false log₂).status ∧
      (Verdict.ofScope p s false false log).output =
        (Verdict.ofScope p s₂ false false log₂).output := by
  have hfailed : ∀ (s : Scope) (log : List LogEntry), s.fault = none →
      Verdict.output? p s = none → ∃ err, Verdict.ofScope p s false false log =
        Verdict.ofFailure err := by
    intro s log hfault hnone
    unfold Verdict.ofScope
    rw [hfault, hnone]
    simp only [Bool.false_eq_true, if_false]
    split
    · exact ⟨_, rfl⟩
    · exact ⟨_, rfl⟩
  cases hout : Verdict.output? p s with
  | some v =>
    unfold Verdict.ofScope
    rw [hfault, hfault₂, ← houtput, hout]
    exact ⟨rfl, rfl⟩
  | none =>
    obtain ⟨err, herr⟩ := hfailed s log hfault hout
    obtain ⟨err₂, herr₂⟩ := hfailed s₂ log₂ hfault₂ (houtput ▸ hout)
    rw [herr, herr₂]
    exact ⟨rfl, rfl⟩

/-- Two executions that have come to the same: their scopes are the same, each member has ended in
the same state with the same outputs, and status and output are the same. -/
structure SameResult (p : Plan) (e e₂ : Execution) : Prop where
  scopes : ∀ a, (e.site? a).isSome = (e₂.site? a).isSome
  members : ∀ a t t₂ n, e.site? a = some t → e₂.site? a = some t₂ → n ∈ p.membersIn a.owner →
    ∃ r r₂, t.scope.run? n = some r ∧ t₂.scope.run? n = some r₂ ∧ r.state.isTerminal = true ∧
      r₂.state = r.state ∧ r₂.outputs = r.outputs
  status : (Verdict.ofExecution p e false).status = (Verdict.ofExecution p e₂ false).status
  output : (Verdict.ofExecution p e false).output = (Verdict.ofExecution p e₂ false).output

section Results

variable (hp : p.Sound) (hu : p.Untangled) (hsighted : p.SeedsSighted)
  (h : Smooth p verbose work e) (hover : e.isOver = true)
  (h₂ : Smooth p verbose' work e₂) (hover₂ : e₂.isOver = true)
include hp hu hsighted h hover h₂ hover₂

theorem Smooth.same (ht : e.site? a = some t) (ht₂ : e₂.site? a = some t₂) (n : NodeId) :
    Option.Rel SameEnd (t.scope.run? n) (t₂.scope.run? n) := by
  have htracks := h.tracks hp hu hsighted h₂ hover₂
  obtain ⟨given, hroot, hcomplete⟩ := h.complete_of_over hp hu hsighted hover ht
  obtain ⟨given₂, hroot₂, hcomplete₂⟩ := h₂.complete_of_over hp hu hsighted hover₂ ht₂
  obtain ⟨t₃, ht₃, hmatches⟩ := htracks a t ht
  obtain rfl := Option.some.inj (ht₂.symm.trans ht₃)
  have hgiven := htracks.mem_given (h.run.orderly.reachable.grounded hp hu) hroot.bears
    hroot.proper hroot₂
  cases hr : t.scope.run? n with
  | none =>
    have hnone : t₂.scope.run? n = none := by
      rw [← Option.not_isSome_iff_eq_none, hcomplete₂.coherent.shape.member, hmatches.owner,
        ← hcomplete.coherent.shape.member, hr]
      simp
    rw [hnone]
    exact .none
  | some r =>
    obtain ⟨r₂, hr₂, hstate, houtputs⟩ := hmatches.same hp hu hcomplete hcomplete₂ hgiven hr
    rw [hr₂]
    refine .some ⟨hstate, houtputs, fun hsucceeded => ?_⟩
    obtain ⟨r₃, hr₃, -, hinputs, -⟩ :=
      hmatches.started n r hr (hroot.started_of_succeeded hr hsucceeded)
    obtain rfl := Option.some.inj (hr₂.symm.trans hr₃)
    exact hinputs

theorem Smooth.sameResult : SameResult p e e₂ := by
  have htracks := h.tracks hp hu hsighted h₂ hover₂
  have htracks₂ := h₂.tracks hp hu hsighted h hover
  obtain ⟨t, ht⟩ := h.run.orderly.reachable.top hp hu
  obtain ⟨t₂, ht₂, -⟩ := htracks [] t ht
  have hverdict : (Verdict.ofExecution p e false).status = (Verdict.ofExecution p e₂ false).status ∧
      (Verdict.ofExecution p e false).output = (Verdict.ofExecution p e₂ false).output := by
    have hfault : t.scope.fault = none := (h.run.orderly.calm hp hu h.aborted _ _ ht).fault
    have hfault₂ : t₂.scope.fault = none := (h₂.run.orderly.calm hp hu h₂.aborted _ _ ht₂).fault
    have houtput := output?_congr (p := p) (h.same hp hu hsighted hover h₂ hover₂ ht ht₂)
    unfold Verdict.ofExecution
    rw [ht, ht₂, h.aborted, h₂.aborted]
    exact ofScope_congr hfault hfault₂ houtput e.log e₂.log
  refine ⟨fun a => ?_, fun a u u₂ n hu' hu₂ hn => ?_, hverdict.1, hverdict.2⟩
  · rw [Bool.eq_iff_iff]
    constructor
    · intro hsome
      obtain ⟨u, hu'⟩ := Option.isSome_iff_exists.mp hsome
      obtain ⟨u₂, hu₂, -⟩ := htracks a u hu'
      rw [hu₂]
      rfl
    · intro hsome
      obtain ⟨u₂, hu₂⟩ := Option.isSome_iff_exists.mp hsome
      obtain ⟨u, hu', -⟩ := htracks₂ a u₂ hu₂
      rw [hu']
      rfl
  · obtain ⟨given, hroot, hcomplete⟩ := h.complete_of_over hp hu hsighted hover hu'
    have hmember := hcomplete.coherent.shape.member n
    rw [hroot.owner] at hmember
    obtain ⟨r, hr⟩ := Option.isSome_iff_exists.mp (hmember.mpr hn)
    have hsame := h.same hp hu hsighted hover h₂ hover₂ hu' hu₂ n
    rw [hr] at hsame
    cases hr₂ : u₂.scope.run? n with
    | none =>
      rw [hr₂] at hsame
      cases hsame
    | some r₂ =>
      rw [hr₂] at hsame
      cases hsame with
      | some hsame => exact ⟨r, r₂, hr, rfl, (hcomplete.done n r hr).1, hsame.state, hsame.outputs⟩

end Results

/-- What an execution comes to does not depend on the order in which things happen in it. Any two
executions of a plan by the same work that nobody calls off and in which no end hangs on who was first
come to the same once they are over. -/
theorem orderIndependent {p : Plan} (h : p.Accepted) (hu : p.Untangled) (hsighted : p.SeedsSighted)
    {work : Work} {verbose verbose' : Bool} {e e₂ : Execution} (he : Smooth p verbose work e)
    (hover : e.isOver = true) (he₂ : Smooth p verbose' work e₂) (hover₂ : e₂.isOver = true) :
    SameResult p e e₂ :=
  he.sameResult (Plan.sound_of_accepted h) hu hsighted hover he₂ hover₂

/-- A condition that decides between the draft that somebody is asked for and the input. -/
def race : Definition :=
  ⟨[⟨"in", "data-input", []⟩, ⟨"ask", "ai-text", [("prompt", .string "q")]⟩,
    ⟨"note", "data-transform", []⟩, ⟨"draft", "data-transform", []⟩,
    ⟨"if", "logic-condition", []⟩, ⟨"out", "data-output", []⟩],
   [⟨⟨"ask", "text"⟩, ⟨"note", "input"⟩⟩, ⟨⟨"ask", "text"⟩, ⟨"draft", "input"⟩⟩,
    ⟨⟨"in", "value"⟩, ⟨"if", "condition"⟩⟩, ⟨⟨"draft", "output"⟩, ⟨"if", "trueValue"⟩⟩,
    ⟨⟨"in", "value"⟩, ⟨"if", "falseValue"⟩⟩, ⟨⟨"if", "result"⟩, ⟨"out", "data"⟩⟩]⟩

/-- The work on it, where the input is false and this is the answer to the question. -/
def raceWork (answer : Outcome) : Work := fun n inputs =>
  if n = "in" then .succeeded [("value", .bool false)]
  else if n = "ask" then answer
  else if n = "if" then .succeeded [("result", .ofOption (inputs PortName.falseValue))]
  else if n = "out" then .succeeded []
  else .succeeded [("output", .ofOption (inputs "input"))]

/-- A worker takes a node, and the scope hears of it. -/
def turn (n : NodeId) (o : Outcome) : List Event :=
  [.report [] (.ended ⟨n, [], o⟩), .hear [] n]

def inTurn (n : NodeId) (o : Outcome) : List Event := .dispatch [] :: turn n o

/-- How the scope begins and ends does not change. -/
def atEpoch (events : List Event) : List (Timestamp × Event) :=
  (events ++ [Event.leave [], Event.close []]).map fun event => (.epoch, event)

/-- The answer comes before anything else happens. -/
def answerFirst (answer : Outcome) (rest : List Event) : List (Timestamp × Event) :=
  atEpoch (inTurn "ask" answer ++ inTurn "in" (.succeeded [("value", .bool false)]) ++ rest)

/-- The answer comes when the output has been produced. -/
def answerLast (answer : Outcome) (rest : List Event) : List (Timestamp × Event) :=
  atEpoch ([.dispatch []] ++ inTurn "in" (.succeeded [("value", .bool false)]) ++
    inTurn "if" (.succeeded [("result", .bool false)]) ++ inTurn "out" (.succeeded []) ++
    turn "ask" answer ++ rest)

/-- What is done with an answer. -/
def noteTurn : List Event := inTurn "note" (.succeeded [("output", .string "hi")])

def answered : Outcome := .succeeded [("text", .string "hi")]

theorem smooth_of_check {events : List (Timestamp × Event)} {permits : ℕ}
    (hafter : (begin p verbose now permits false).afterBy? p verbose work events = some e)
    (haborted : e.aborted = false) (hran : (e.sites.all fun x => x.2.scope.runs.all fun y =>
      y.2.state != .failed || y.2.startedAt.isSome) = true) : Smooth p verbose work e := by
  refine ⟨runBy_of_afterBy? (.begin now permits) hafter, haborted, fun a t ht => ?_⟩
  refine Scope.uncontested_of_started fun n r hr hfailed => ?_
  obtain ⟨pre, post, hsites, -⟩ := List.lookup_eq_some_iff.mp ht
  have hruns := List.all_eq_true.mp hran (a, t) (by rw [hsites]; simp)
  have hrun := List.all_eq_true.mp hruns (n, r) (Table.mem_of_find? hr)
  simpa [hfailed] using hrun

theorem race_orderIndependent : ∃ p e e₂, Plan.ofDefinition race = .ok p ∧
    Smooth p false (raceWork answered) e ∧ e.isOver = true ∧
    Smooth p false (raceWork answered) e₂ ∧ e₂.isOver = true ∧
    e.log.map LogEntry.node ≠ e₂.log.map LogEntry.node ∧ SameResult p e e₂ := by
  obtain ⟨p, hp, hloops, hreached, hruns⟩ := Plan.exists_of_check (d := race)
    (P := fun p =>
      (∀ a ∈ p.nesting.loops, ∀ b ∈ p.nesting.loops, ¬ (a.1 ∈ b.2.body ∧ b.1 ∈ a.2.body)) ∧
      p.unreachable = [] ∧
      ((begin p false .epoch 1 false).afterBy? p false (raceWork answered)
        (answerFirst answered (noteTurn ++ inTurn "if" (.succeeded [("result", .bool false)]) ++
          inTurn "out" (.succeeded [])))).any fun e =>
        ((begin p false .epoch 2 false).afterBy? p false (raceWork answered)
          (answerLast answered noteTurn)).any fun e₂ =>
            (!e.aborted && e.isOver && e.sites.all fun x => x.2.scope.runs.all fun y =>
              y.2.state != .failed || y.2.startedAt.isSome) &&
            (!e₂.aborted && e₂.isOver && e₂.sites.all fun x => x.2.scope.runs.all fun y =>
              y.2.state != .failed || y.2.startedAt.isSome) &&
            e.log.map LogEntry.node != e₂.log.map LogEntry.node)
    (by decide +kernel)
  obtain ⟨e, hafter, hrest⟩ := (Option.any_eq_true _ _).mp hruns
  obtain ⟨e₂, hafter₂, hchecks⟩ := (Option.any_eq_true _ _).mp hrest
  simp only [Bool.and_eq_true, Bool.not_eq_true', bne_iff_ne] at hchecks
  obtain ⟨⟨⟨⟨haborted, hover⟩, hran⟩, ⟨haborted₂, hover₂⟩, hran₂⟩, hlog⟩ := hchecks
  have haccepted : p.Accepted := ⟨race, hp⟩
  have hu := Plan.untangled_of_loops hloops
  have he := smooth_of_check hafter haborted hran
  have he₂ := smooth_of_check hafter₂ haborted₂ hran₂
  exact ⟨p, e, e₂, hp, he, hover, he₂, hover₂, hlog, orderIndependent haccepted hu
    (seedsSighted_of_reached (Plan.sound_of_accepted haccepted) hu hreached) he hover he₂ hover₂⟩

def refused : Outcome := .failed (.failed "no answer")

/-- If the question is refused before the condition has read its input, the condition fails with the
draft; if it has read it before, nobody needs the draft. -/
theorem race_not_orderIndependent : ∃ p, Plan.ofDefinition race = .ok p ∧ p.Untangled ∧
    p.SeedsSighted ∧ ∃ e e₂,
      RunBy p false (raceWork refused) e ∧ e.aborted = false ∧ e.isOver = true ∧
      RunBy p false (raceWork refused) e₂ ∧ e₂.aborted = false ∧ e₂.isOver = true ∧
      ((e.site? []).any fun t => t.scope.isIn .failed "if") = true ∧
      ((e₂.site? []).any fun t => t.scope.isIn .succeeded "if") = true ∧
      (Verdict.ofExecution p e false).status = .failed ∧
      (Verdict.ofExecution p e₂ false).status = .completed ∧
      (Verdict.ofExecution p e₂ false).output = .bool false := by
  obtain ⟨p, hp, hloops, hreached, hruns⟩ := Plan.exists_of_check (d := race)
    (P := fun p =>
      (∀ a ∈ p.nesting.loops, ∀ b ∈ p.nesting.loops, ¬ (a.1 ∈ b.2.body ∧ b.1 ∈ a.2.body)) ∧
      p.unreachable = [] ∧
      ((begin p false .epoch 1 false).afterBy? p false (raceWork refused)
        (answerFirst refused [])).any fun e =>
        ((begin p false .epoch 2 false).afterBy? p false (raceWork refused)
          (answerLast refused [])).any fun e₂ =>
            decide (e.aborted = false ∧ e.isOver = true ∧ e₂.aborted = false ∧ e₂.isOver = true ∧
              ((e.site? []).any fun t => t.scope.isIn .failed "if") = true ∧
              ((e₂.site? []).any fun t => t.scope.isIn .succeeded "if") = true ∧
              (Verdict.ofExecution p e false).status = .failed ∧
              (Verdict.ofExecution p e₂ false).status = .completed ∧
              (Verdict.ofExecution p e₂ false).output = .bool false))
    (by decide +kernel)
  obtain ⟨e, hafter, hrest⟩ := (Option.any_eq_true _ _).mp hruns
  obtain ⟨e₂, hafter₂, hchecks⟩ := (Option.any_eq_true _ _).mp hrest
  obtain ⟨haborted, hover, haborted₂, hover₂, hends⟩ := of_decide_eq_true hchecks
  have hu := Plan.untangled_of_loops hloops
  exact ⟨p, hp, hu, seedsSighted_of_reached (Plan.sound_of_accepted ⟨race, hp⟩) hu hreached, e, e₂,
    runBy_of_afterBy? (.begin .epoch 1) hafter, haborted, hover,
    runBy_of_afterBy? (.begin .epoch 2) hafter₂, haborted₂, hover₂, hends⟩

end Execution

end PortGraph
