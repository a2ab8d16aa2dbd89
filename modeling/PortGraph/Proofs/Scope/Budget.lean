import PortGraph.Proofs.Scope.Evolution

/-!
The budget of a scope covers everything that follows from its signals. Each node that has not started
pays once for telling its consumers, each condition without a value once for its branches; every
other signal is paid for by the one it follows from.
-/

namespace PortGraph.Scope

variable (p : Plan)

/-- What a signal may still lead to, apart from ending nodes and deciding conditions. -/
def weight : Signal → ℕ
  | .skip _ _ | .fail _ _ => 1
  | .promote _ | .resolve _ => 2
  | .forgo _ _ => 3
  | .write _ _ _ => 5
  | .route _ _ | .feederFailed _ _ _ => 6
  | .cascade _ _ => 6 * p.graph.edges.length + 1
  | .settle _ => 2 * p.graph.nodes.length + 1

def load (sigs : List Signal) : ℕ := (sigs.map (weight p)).sum

/-- What a node may still lead to. -/
def nodeCost (s : Scope) (n : NodeId) : ℕ :=
  match s.run? n with
  | none => 0
  | some r =>
      (if isUnstarted r then 6 * p.graph.edges.length + 2 * p.graph.nodes.length + 2 else 0) +
        (if s.resolved.find? n = none then 3 * p.graph.nodes.length + 3 else 0)

def level (s : Scope) : ℕ := ((p.membersIn s.owner).map (nodeCost p s)).sum

theorem load_append (a b : List Signal) : load p (a ++ b) = load p a + load p b := by
  simp [load]

private theorem sum_map_le {α : Type} {l : List α} {f : α → ℕ} {w : ℕ} (h : ∀ a ∈ l, f a ≤ w) :
    (l.map f).sum ≤ l.length * w := by
  have hle := List.sum_le_card_nsmul (l.map f) w (by
    intro k hk
    obtain ⟨a, ha, rfl⟩ := List.mem_map.mp hk
    exact h a ha)
  simpa using hle

theorem load_le {sigs : List Signal} {w : ℕ} (h : ∀ sig ∈ sigs, weight p sig ≤ w) :
    load p sigs ≤ sigs.length * w := sum_map_le h

private theorem sum_map_drop {l : List NodeId} {f g : NodeId → ℕ} (hle : ∀ n ∈ l, g n ≤ f n)
    {a : NodeId} (ha : a ∈ l) {d : ℕ} (hdrop : g a + d ≤ f a) :
    (l.map g).sum + d ≤ (l.map f).sum := by
  induction l with
  | nil => simp at ha
  | cons b rest ih =>
    have hb := hle b (by simp)
    have hrest : ∀ n ∈ rest, g n ≤ f n := fun n hn => hle n (List.mem_cons_of_mem _ hn)
    simp only [List.map_cons, List.sum_cons]
    rcases List.mem_cons.mp ha with rfl | ha
    · have hsum : (rest.map g).sum ≤ (rest.map f).sum := List.sum_le_sum hrest
      omega
    · have hsum := ih hrest ha
      omega

/-- Telling the consumers of a node takes no more than the edges there are. -/
theorem load_cascade_le (s : Scope) (source origin : NodeId) :
    load p (s.reactCascade p source origin).2 ≤ p.graph.edges.length * 6 := by
  have hweight : ∀ sig ∈ (s.reactCascade p source origin).2, weight p sig ≤ 6 := by
    intro sig hsig
    obtain ⟨c, -, ⟨id, -, rfl⟩ | ⟨l, -, rfl⟩⟩ := mem_reactCascade.mp hsig <;> simp [weight]
  have hlength : (s.reactCascade p source origin).2.length ≤ p.graph.edges.length := by
    refine (List.length_filterMap_le _ _).trans ((List.length_filter_le _ _).trans ?_)
    unfold Graph.successors
    rw [List.length_map]
    exact List.length_filter_le _ _
  exact (load_le p hweight).trans (Nat.mul_le_mul_right 6 hlength)

/-- A node that ends before it has started has paid for telling its consumers. -/
theorem nodeCost_putEnded {s : Scope} {id : NodeId} {r r' : NodeRun} (hr : s.run? id = some r)
    (hunstarted : isUnstarted r = true) (hnode : r'.node = id) (hended : isUnstarted r' = false) :
    nodeCost p ((s.dequeue id).putEnded r') id +
      (6 * p.graph.edges.length + 2 * p.graph.nodes.length + 2) ≤ nodeCost p s id := by
  unfold nodeCost
  rw [run?_putEnded, run?_dequeue, hr, if_pos hnode]
  by_cases hres : s.resolved.find? id = none
  · simp [hres, hended, hunstarted]
    omega
  · simp [hres, hended, hunstarted]

section Steps

variable {p} {now : Timestamp} {s s' : Scope} {sig : Signal} {more : List Signal}
variable (hp : p.Sound) (hs : Shape p s) (h : Reacts p now s sig s' more)
include hp hs h

theorem nodeCost_le (n : NodeId) : nodeCost p s' n ≤ nodeCost p s n := by
  unfold nodeCost
  cases hr' : s'.run? n with
  | none => simp
  | some r' =>
    obtain ⟨r, hr, hevolves⟩ := h.evolved hp hs hr'
    rw [hr]
    have hunstarted : isUnstarted r' = true → isUnstarted r = true := hevolves.isUnstarted
    have hresolved : s'.resolved.find? n = none → s.resolved.find? n = none := h.undecided
    by_cases h₁ : isUnstarted r' = true <;> by_cases h₂ : s'.resolved.find? n = none
    · simp [h₁, h₂, hunstarted h₁, hresolved h₂]
    · simp [h₁, h₂, hunstarted h₁]
    · simp [h₁, h₂, hresolved h₂]
    · simp [h₁, h₂]

theorem level_le : level p s' ≤ level p s := by
  unfold level
  rw [h.owner]
  exact List.sum_le_sum fun n _ => nodeCost_le hp hs h n

theorem level_drop {n : NodeId} {r : NodeRun} (hr : s.run? n = some r) {d : ℕ}
    (hdrop : nodeCost p s' n + d ≤ nodeCost p s n) : level p s' + d ≤ level p s := by
  unfold level
  rw [h.owner]
  exact sum_map_drop (fun n _ => nodeCost_le hp hs h n) ((hs.member n).mp (by simp [hr])) hdrop

variable (hu : p.Untangled)
include hu

/-- A signal pays for what follows from it. -/
theorem level_react : load p more + level p s' + 1 ≤ weight p sig + level p s := by
  have hlevel := level_le hp hs h
  have hreact := h
  cases h with
  | routeMember | routeNested | routeResult | routeNowhere | writeIdle | writeRejected
  | resolveIdle | resolveFails | forgoDrops | forgoKeeps | promoteIdle | promoteSkips
  | promoteAgain | promoteQueues | feederSkips | feederFails | feederCounts | feederDrops
  | feederIdle | skipIdle | failIdle | settleIdle =>
    simp only [load, List.map_cons, List.map_nil, List.sum_cons, List.sum_nil, weight]
    omega
  | writeTaken =>
    split_ifs <;> simp only [load, List.map_cons, List.map_nil, List.sum_cons, List.sum_nil, weight]
      <;> omega
  | @resolveDecides id r holds hnone hr =>
    have hdrop := level_drop hp hs hreact hr (d := 3 * p.graph.nodes.length + 3) (by
      unfold nodeCost
      rw [run?_decide s _ _ p _ (hp.nodup_exclusive _), hr, resolved_decide, hnone]
      split_ifs <;> simp_all [isUnstarted, NodeRun.openGate])
    have hrel := hp.length_exclusive_le hu ⟨id, Branch.taken holds⟩
    have hdead := hp.length_exclusive_le hu ⟨id, (Branch.taken holds).other⟩
    have hload : load p (decided p id holds) =
        (p.exclusive ⟨id, Branch.taken holds⟩).length * 2 +
          (p.exclusive ⟨id, (Branch.taken holds).other⟩).length + 3 := by
      simp [load, decided, weight, Function.comp_def, Nat.add_assoc]
    rw [hload]
    simp only [weight]
    omega
  | @cascade source origin =>
    have hload := load_cascade_le p s source origin
    simp only [weight]
    omega
  | @skips id reason r hr hunstarted =>
    have hended : isUnstarted (r.skip now reason) = false := rfl
    have hdrop := level_drop hp hs hreact hr
      (nodeCost_putEnded p hr hunstarted (hs.node id r hr) hended)
    have hload : load p ((reason.failedOrigin?.map fun origin => Signal.cascade id origin).toList ++
        [.settle id]) ≤ 6 * p.graph.edges.length + 2 * p.graph.nodes.length + 2 := by
      cases reason.failedOrigin? <;> simp [load, weight] <;> omega
    simp only [weight]
    omega
  | @fails id e r hr hunstarted =>
    have hended : isUnstarted (r.fail now e) = false := rfl
    have hdrop := level_drop hp hs hreact hr
      (nodeCost_putEnded p hr hunstarted (hs.node id r hr) hended)
    have hload : load p [.cascade id id, .settle id] =
        6 * p.graph.edges.length + 2 * p.graph.nodes.length + 2 := by
      simp [load, weight]
      omega
    rw [hload]
    simp only [weight]
    omega
  | @settles id =>
    have htrue := hp.length_exclusive_le hu ⟨id, .whenTrue⟩
    have hfalse := hp.length_exclusive_le hu ⟨id, .whenFalse⟩
    have hload : load p ((p.exclusive ⟨id, .whenTrue⟩ ++ p.exclusive ⟨id, .whenFalse⟩).map fun n =>
        Signal.skip n (.conditionUnresolved id)) =
          (p.exclusive ⟨id, .whenTrue⟩).length + (p.exclusive ⟨id, .whenFalse⟩).length := by
      simp [load, weight, Function.comp_def]
    rw [hload]
    simp only [weight]
    omega

end Steps

variable {p} (hp : p.Sound) (hu : p.Untangled) (now : Timestamp)
include hp hu

theorem drain_all (budget : ℕ) {s : Scope} (hs : Shape p s) (sigs : List Signal)
    (hbudget : load p sigs + level p s ≤ budget) : (s.drain p now budget sigs).2 = [] := by
  induction budget generalizing s sigs with
  | zero =>
    cases sigs with
    | nil => rfl
    | cons sig rest =>
      have hpos : 0 < weight p sig := by
        cases sig <;> simp [weight]
      simp only [load, List.map_cons, List.sum_cons] at hbudget
      omega
  | succ budget ih =>
    cases sigs with
    | nil => rfl
    | cons sig rest =>
      have hreact := reacts_react p now s sig
      have hpays := level_react hp hs hreact hu
      have hstep : s.drain p now (budget + 1) (sig :: rest) =
          (s.react p now sig).1.drain p now budget ((s.react p now sig).2 ++ rest) := rfl
      have hload : load p (sig :: rest) = weight p sig + load p rest := by simp [load]
      rw [hstep]
      refine ih (hs.react hp hreact) _ ?_
      rw [load_append]
      omega

omit hu in
theorem load_add_level_le_budget (s : Scope) (sigs : List Signal) :
    load p sigs + level p s ≤ budget p sigs := by
  have hweight : load p sigs ≤
      sigs.length * (5 * p.graph.nodes.length + 6 * p.graph.edges.length + 10) := by
    apply load_le
    intro sig _
    cases sig <;> simp only [weight] <;> omega
  have hlevel : level p s ≤
      p.graph.nodes.length * (5 * p.graph.nodes.length + 6 * p.graph.edges.length + 10) := by
    refine (sum_map_le (l := p.membersIn s.owner) ?_).trans
      (Nat.mul_le_mul_right _ (hp.length_membersIn_le s.owner))
    intro n _
    unfold nodeCost
    cases s.run? n with
    | none => simp
    | some r =>
      simp only
      split_ifs <;> omega
  unfold budget
  simp only [Nat.add_mul]
  omega

/-- The budget suffices. -/
theorem drain_budget {s : Scope} (hs : Shape p s) (sigs : List Signal) :
    s.drain p now (budget p sigs) sigs = (s.handle p now sigs, []) :=
  Prod.ext rfl (drain_all hp hu now _ hs sigs (load_add_level_le_budget hp s sigs))

theorem drains_handle {s : Scope} (hs : Shape p s) (sigs : List Signal) :
    Drains p now s sigs (s.handle p now sigs) [] := by
  have hdrains := drains_drain p now (budget p sigs) s sigs
  rw [drain_budget hp hu now hs] at hdrains
  exact hdrains

end PortGraph.Scope
