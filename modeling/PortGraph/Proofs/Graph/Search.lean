import Mathlib.Algebra.BigOperators.Group.List.Basic
import Mathlib.Algebra.GroupWithZero.Nat
import Mathlib.Data.List.Nodup
import PortGraph.Graph.Order

/-!
The depth-first search visits everything. Its stack empties within the fuel, so each node is
finished, and finished once: the order is a permutation of the nodes.
-/

namespace PortGraph.Order

variable {next : Successors} {nodes : List NodeId}

/-- What a search keeps: it stays among the nodes, finishes each at most once, and holds whatever
it has discovered and not finished on its stack. -/
structure Search.Good (next : Successors) (nodes : List NodeId) (s : Search) : Prop where
  stack_mem : ∀ n ∈ s.stack, n ∈ nodes
  finished_mem : ∀ n ∈ s.finished, n ∈ nodes
  finished_nodup : s.finished.Nodup
  open_on_stack : ∀ n ∈ s.discovered, n ∈ s.finished ∨ n ∈ s.stack

/-- The steps that a search can still take. -/
def Search.cost (next : Successors) (nodes : List NodeId) (s : Search) : ℕ :=
  s.stack.length +
    ((nodes.filter fun n => !s.discovered.contains n).map fun n => (next n).length + 1).sum

private def undiscovered (next : Successors) (nodes found : List NodeId) : ℕ :=
  ((nodes.filter fun n => !found.contains n).map fun n => (next n).length + 1).sum

private theorem undiscovered_cons_left (a : NodeId) (rest found : List NodeId) :
    undiscovered next (a :: rest) found =
      (if a ∈ found then 0 else (next a).length + 1) + undiscovered next rest found := by
  by_cases h : a ∈ found <;> simp [undiscovered, h]

private theorem undiscovered_cons_le (next : Successors) (rest found : List NodeId) (n : NodeId) :
    undiscovered next rest (n :: found) ≤ undiscovered next rest found := by
  induction rest with
  | nil => simp [undiscovered]
  | cons a rest ih =>
    simp only [undiscovered_cons_left, List.mem_cons]
    by_cases hn : a = n <;> by_cases ha : a ∈ found <;> simp [hn, ha] <;> omega

private theorem undiscovered_cons (next : Successors) (all found : List NodeId) (n : NodeId)
    (hn : n ∈ all) (hfound : n ∉ found) :
    undiscovered next all (n :: found) + (next n).length + 1 ≤ undiscovered next all found := by
  induction all with
  | nil => simp at hn
  | cons a rest ih =>
    simp only [undiscovered_cons_left, List.mem_cons]
    by_cases han : a = n
    · subst han
      have hle := undiscovered_cons_le next rest found a
      simp [hfound]
      omega
    · have hrest : n ∈ rest := (List.mem_cons.mp hn).resolve_left fun h => han h.symm
      have hih := ih hrest
      by_cases ha : a ∈ found <;> simp [ha, han] <;> omega

private theorem undiscovered_le (next : Successors) (all found : List NodeId) :
    undiscovered next all found ≤ (all.map fun n => (next n).length).sum + all.length := by
  induction all with
  | nil => simp [undiscovered]
  | cons a rest ih =>
    simp only [undiscovered_cons_left, List.map_cons, List.sum_cons, List.length_cons]
    by_cases ha : a ∈ found <;> simp [ha] <;> omega

namespace Search

theorem step_seen {n : NodeId} {rest discovered finished : List NodeId} (hd : n ∈ discovered) :
    step next ⟨n :: rest, discovered, finished⟩ =
      ⟨rest, discovered, if finished.contains n then finished else n :: finished⟩ := by
  simp [step, hd]

theorem step_new {n : NodeId} {rest discovered finished : List NodeId} (hd : n ∉ discovered) :
    step next ⟨n :: rest, discovered, finished⟩ =
      ⟨((next n).filter fun m => !(n :: discovered).contains m).reverse ++ n :: rest,
        n :: discovered, finished⟩ := by
  simp [step, hd]

theorem good_step (hnext : ∀ n ∈ nodes, ∀ m ∈ next n, m ∈ nodes) {s : Search}
    (h : s.Good next nodes) : (s.step next).Good next nodes := by
  obtain ⟨stack, discovered, finished⟩ := s
  cases stack with
  | nil => exact h
  | cons n rest =>
    have hn : n ∈ nodes := h.stack_mem n (by simp)
    by_cases hd : n ∈ discovered
    · rw [step_seen hd]
      refine ⟨fun m hm => h.stack_mem m (List.mem_cons_of_mem _ hm), ?_, ?_, ?_⟩
      · intro m hm
        by_cases hf : n ∈ finished
        · exact h.finished_mem m (by simpa [hf] using hm)
        · rcases (by simpa [hf] using hm : m = n ∨ m ∈ finished) with rfl | hm
          · exact hn
          · exact h.finished_mem m hm
      · by_cases hf : n ∈ finished
        · simpa [hf] using h.finished_nodup
        · simpa [hf] using h.finished_nodup
      · intro m hm
        rcases h.open_on_stack m hm with hfin | hstack
        · by_cases hf : n ∈ finished
          · exact Or.inl (by simpa [hf] using hfin)
          · exact Or.inl (by simp [hf, show m ∈ finished from hfin])
        · rcases List.mem_cons.mp hstack with rfl | hrest
          · by_cases hf : m ∈ finished <;> exact Or.inl (by simp [hf])
          · exact Or.inr hrest
    · rw [step_new hd]
      refine ⟨?_, h.finished_mem, h.finished_nodup, ?_⟩
      · intro m hm
        rcases List.mem_append.mp hm with hfresh | hold
        · exact hnext n hn m (List.mem_filter.mp (List.mem_reverse.mp hfresh)).1
        · exact h.stack_mem m hold
      · intro m hm
        rcases List.mem_cons.mp hm with rfl | hm
        · exact Or.inr (by simp)
        · rcases h.open_on_stack m hm with hfin | hstack
          · exact Or.inl hfin
          · exact Or.inr (List.mem_append_right _ hstack)

theorem cost_step {s : Search} (h : s.Good next nodes) (hstack : s.stack ≠ []) :
    (s.step next).cost next nodes < s.cost next nodes := by
  obtain ⟨stack, discovered, finished⟩ := s
  cases stack with
  | nil => exact absurd rfl hstack
  | cons n rest =>
    by_cases hd : n ∈ discovered
    · simp [step, hd, cost]
    · have hn : n ∈ nodes := h.stack_mem n (by simp)
      have hdrop := undiscovered_cons next nodes discovered n hn hd
      have hfresh : ((next n).filter fun m => !(n :: discovered).contains m).length ≤
          (next n).length := List.length_filter_le _ _
      rw [step_new hd]
      change (_ ++ n :: rest).length + undiscovered next nodes (n :: discovered) <
        (n :: rest).length + undiscovered next nodes discovered
      simp only [List.length_append, List.length_reverse, List.length_cons]
      omega

theorem finished_subset_step (s : Search) : ∀ n ∈ s.finished, n ∈ (s.step next).finished := by
  intro n hn
  obtain ⟨stack, discovered, finished⟩ := s
  cases stack with
  | nil => exact hn
  | cons a rest =>
    have hn' : n ∈ finished := hn
    by_cases hd : a ∈ discovered
    · by_cases hf : a ∈ finished <;> simp [step, hd, hf, hn']
    · simp [step, hd, hn']

theorem discovered_subset_step (s : Search) :
    ∀ n ∈ s.discovered, n ∈ (s.step next).discovered := by
  intro n hn
  obtain ⟨stack, discovered, finished⟩ := s
  cases stack with
  | nil => exact hn
  | cons a rest =>
    have hn' : n ∈ discovered := hn
    by_cases hd : a ∈ discovered <;> simp [step, hd, hn']

/-- A search with enough fuel empties its stack, and loses nothing on the way. -/
theorem run_spec (hnext : ∀ n ∈ nodes, ∀ m ∈ next n, m ∈ nodes) (fuel : ℕ) {s : Search}
    (h : s.Good next nodes) (hfuel : s.cost next nodes ≤ fuel) :
    (s.run next fuel).Good next nodes ∧ (s.run next fuel).stack = [] ∧
    (∀ n ∈ s.finished, n ∈ (s.run next fuel).finished) ∧
    ∀ n ∈ s.discovered, n ∈ (s.run next fuel).discovered := by
  induction fuel generalizing s with
  | zero =>
    have hlen : s.stack.length = 0 := by
      unfold cost at hfuel
      omega
    exact ⟨h, List.eq_nil_of_length_eq_zero hlen, fun _ hn => hn, fun _ hn => hn⟩
  | succ fuel ih =>
    by_cases hstack : s.stack = []
    · have hrun : s.run next (fuel + 1) = s := by simp [run, hstack]
      rw [hrun]
      exact ⟨h, hstack, fun _ hn => hn, fun _ hn => hn⟩
    · have hrun : s.run next (fuel + 1) = (s.step next).run next fuel := by
        simp [run, hstack]
      have hless := cost_step h hstack
      obtain ⟨hgood, hempty, hfin, hdisc⟩ := ih (good_step hnext h) (by omega)
      rw [hrun]
      exact ⟨hgood, hempty, fun n hn => hfin n (finished_subset_step s n hn),
        fun n hn => hdisc n (discovered_subset_step s n hn)⟩

/-- A node put on an empty stack is discovered by the first step of the search. -/
theorem mem_finished_run (hnext : ∀ n ∈ nodes, ∀ m ∈ next n, m ∈ nodes) (fuel : ℕ) {s : Search}
    {n : NodeId} (h : s.Good next nodes) (hstack : s.stack = [n]) (hn : n ∉ s.discovered)
    (hfuel : s.cost next nodes ≤ fuel) : n ∈ (s.run next fuel).finished := by
  cases fuel with
  | zero =>
    unfold cost at hfuel
    simp [hstack] at hfuel
  | succ fuel =>
    have hne : s.stack ≠ [] := by simp [hstack]
    have hrun : s.run next (fuel + 1) = (s.step next).run next fuel := by
      simp [run, hne]
    have hless := cost_step h hne
    obtain ⟨hgood, hempty, -, hdisc⟩ :=
      run_spec hnext fuel (good_step hnext h) (show (s.step next).cost next nodes ≤ fuel by omega)
    have hfound : n ∈ (s.step next).discovered := by simp [step, hstack, hn]
    rw [hrun]
    rcases hgood.open_on_stack n (hdisc n hfound) with hfin | hleft
    · exact hfin
    · simp [hempty] at hleft

/-- A search from one more node, unless the node is known. -/
def visit (next : Successors) (fuel : ℕ) (s : Search) (n : NodeId) : Search :=
  if s.discovered.contains n then s else Search.run next fuel { s with stack := [n] }

/-- Between two visits the stack is empty, so whatever was discovered is finished. -/
theorem Good.finished_of_discovered {s : Search} (h : s.Good next nodes) (hstack : s.stack = [])
    {n : NodeId} (hn : n ∈ s.discovered) : n ∈ s.finished := by
  rcases h.open_on_stack n hn with hfin | hs
  · exact hfin
  · simp [hstack] at hs

theorem Good.start {s : Search} (h : s.Good next nodes) (hstack : s.stack = []) {a : NodeId}
    (ha : a ∈ nodes) : Search.Good next nodes { s with stack := [a] } := by
  refine ⟨?_, h.finished_mem, h.finished_nodup,
    fun n hn => Or.inl (h.finished_of_discovered hstack hn)⟩
  intro n hn
  rw [List.mem_singleton.mp hn]
  exact ha

theorem cost_start_le (s : Search) (a : NodeId) :
    Search.cost next nodes { s with stack := [a] } ≤
      (nodes.map fun n => (next n).length).sum + nodes.length + 1 := by
  have hle := undiscovered_le next nodes s.discovered
  change 1 + undiscovered next nodes s.discovered ≤ _
  omega

theorem good_visit (hnext : ∀ n ∈ nodes, ∀ m ∈ next n, m ∈ nodes) {fuel : ℕ}
    (hfuel : (nodes.map fun n => (next n).length).sum + nodes.length + 1 ≤ fuel) {s : Search}
    (h : s.Good next nodes) (hstack : s.stack = []) {a : NodeId} (ha : a ∈ nodes) :
    (s.visit next fuel a).Good next nodes ∧ (s.visit next fuel a).stack = [] ∧
      (∀ n ∈ s.finished, n ∈ (s.visit next fuel a).finished) ∧
      a ∈ (s.visit next fuel a).finished := by
  by_cases hd : a ∈ s.discovered
  · have hvisit : s.visit next fuel a = s := if_pos (List.contains_iff_mem.mpr hd)
    rw [hvisit]
    exact ⟨h, hstack, fun _ hn => hn, h.finished_of_discovered hstack hd⟩
  · have hvisit : s.visit next fuel a = Search.run next fuel { s with stack := [a] } :=
      if_neg fun hc => hd (List.contains_iff_mem.mp hc)
    have hstart := h.start hstack ha
    have hcost := Nat.le_trans (cost_start_le s a) hfuel
    obtain ⟨hgood, hempty, hfin, -⟩ := run_spec hnext fuel hstart hcost
    rw [hvisit]
    exact ⟨hgood, hempty, hfin, mem_finished_run hnext fuel hstart rfl hd hcost⟩

end Search

private theorem foldl_visit (hnext : ∀ n ∈ nodes, ∀ m ∈ next n, m ∈ nodes) {fuel : ℕ}
    (hfuel : (nodes.map fun n => (next n).length).sum + nodes.length + 1 ≤ fuel)
    (todo : List NodeId) (htodo : ∀ n ∈ todo, n ∈ nodes) {s : Search} (h : s.Good next nodes)
    (hstack : s.stack = []) :
    (todo.foldl (Search.visit next fuel) s).Good next nodes ∧
      (∀ n ∈ s.finished, n ∈ (todo.foldl (Search.visit next fuel) s).finished) ∧
      ∀ n ∈ todo, n ∈ (todo.foldl (Search.visit next fuel) s).finished := by
  induction todo generalizing s with
  | nil => exact ⟨h, fun _ hn => hn, by simp⟩
  | cons a rest ih =>
    have hrest : ∀ n ∈ rest, n ∈ nodes := fun n hn => htodo n (List.mem_cons_of_mem _ hn)
    obtain ⟨hgood, hempty, hfin, hafin⟩ :=
      Search.good_visit hnext hfuel h hstack (htodo a (by simp))
    obtain ⟨hlast, hfin', hall⟩ := ih hrest hgood hempty
    refine ⟨hlast, fun n hn => hfin' n (hfin n hn), ?_⟩
    intro n hn
    rcases List.mem_cons.mp hn with rfl | hn
    · exact hfin' n hafin
    · exact hall n hn

theorem good_empty : Search.Good next nodes ⟨[], [], []⟩ :=
  ⟨by simp, by simp, List.nodup_nil, by simp⟩

theorem fuel_le (next : Successors) (nodes : List NodeId) :
    (nodes.map fun n => (next n).length).sum + nodes.length + 1 ≤
      2 * nodes.length + (nodes.flatMap next).length + 1 := by
  rw [List.length_flatMap]
  omega

/-- The search finishes each node once. -/
theorem reverseFinishing_perm (hnodup : nodes.Nodup)
    (hnext : ∀ n ∈ nodes, ∀ m ∈ next n, m ∈ nodes) :
    (reverseFinishing next nodes).Perm nodes := by
  obtain ⟨hgood, -, hall⟩ :=
    foldl_visit hnext (fuel_le next nodes) nodes (fun _ hn => hn) good_empty rfl
  exact (List.perm_ext_iff_of_nodup hgood.finished_nodup hnodup).mpr fun n =>
    ⟨hgood.finished_mem n, hall n⟩

/-- In an order that respects the edges, an edge leads to a later place. -/
theorem respects_split {pre post : List NodeId} {n : NodeId}
    (h : respects next (pre ++ n :: post) = true) : ∀ m ∈ next n, m ∈ post := by
  induction pre with
  | nil =>
    intro m hm
    have hall := (Bool.and_eq_true _ _ ▸ h : (next n).all post.contains = true ∧ _).1
    exact List.contains_iff_mem.mp (List.all_eq_true.mp hall m hm)
  | cons a rest ih =>
    exact ih (Bool.and_eq_true _ _ ▸ h : _ ∧ respects next (rest ++ n :: post) = true).2

end PortGraph.Order
