import PortGraph.Proofs.Plan.Ranks

/-!
The nodes behind a branch of a condition: those of its scope that feed something, and feed nothing
but the branch and one another. Ranks grow along the edges of a scope, so one pass over the members
from the last to the first finds them all.
-/

namespace PortGraph.Plan

open Nesting

/-! ### The pass over the members -/

/-- The connection goes into the branch or to one of the nodes. -/
def Into (gate : Gate) (found : List NodeId) (c : Connection) : Prop :=
  (c.node = gate.condition ∧ c.label.targetPort = gate.branch.port) ∨ c.node ∈ found

/-- The node feeds something, and nothing but the branch and the given nodes. -/
def FeedsOnly (g : Graph) (gate : Gate) (found : List NodeId) (n : NodeId) : Prop :=
  carried g n ≠ [] ∧ ∀ c ∈ carried g n, Into gate found c

/-- One step of the pass. -/
def visit (g : Graph) (gate : Gate) (found : List NodeId) (id : NodeId) : List NodeId :=
  if id = gate.condition then found
  else
    let out := carried g id
    let within := out.all fun c =>
      (c.node == gate.condition && c.label.targetPort == gate.branch.port) || found.contains c.node
    if !out.isEmpty && within then insertSorted found id else found

theorem visit_eq (g : Graph) (gate : Gate) (found : List NodeId) (id : NodeId) :
    (id ≠ gate.condition ∧ FeedsOnly g gate found id ∧
      visit g gate found id = insertSorted found id) ∨
    (¬ (id ≠ gate.condition ∧ FeedsOnly g gate found id) ∧ visit g gate found id = found) := by
  unfold visit
  by_cases hid : id = gate.condition
  · exact Or.inr ⟨fun h => h.1 hid, by rw [if_pos hid]⟩
  · rw [if_neg hid]
    extract_lets out within
    have hiff : (!out.isEmpty && within) = true ↔ FeedsOnly g gate found id := by
      unfold FeedsOnly Into
      simp only [within, out, Bool.and_eq_true, Bool.not_eq_true', List.isEmpty_eq_false_iff,
        List.all_eq_true, Bool.or_eq_true, beq_iff_eq, List.contains_iff_mem, ne_eq]
    by_cases hwithin : (!out.isEmpty && within) = true
    · exact Or.inl ⟨hid, hiff.mp hwithin, by rw [if_pos hwithin]⟩
    · exact Or.inr ⟨fun h => hwithin (hiff.mpr h.2), by rw [if_neg hwithin]⟩

private theorem FeedsOnly.mono {g : Graph} {gate : Gate} {found found' : List NodeId} {n : NodeId}
    (h : FeedsOnly g gate found n) (hsub : found ⊆ found') : FeedsOnly g gate found' n :=
  ⟨h.1, fun c hc => (h.2 c hc).imp_right fun hmem => hsub hmem⟩

theorem subset_foldl_visit (g : Graph) (gate : Gate) (l found : List NodeId) :
    found ⊆ l.foldl (visit g gate) found := by
  induction l generalizing found with
  | nil => exact fun _ h => h
  | cons a rest ih =>
    intro n hn
    apply ih
    rcases visit_eq g gate found a with ⟨-, -, heq⟩ | ⟨-, heq⟩
    · rw [heq]
      exact (mem_insertSorted _ _ _).mpr (Or.inr hn)
    · rw [heq]
      exact hn

theorem foldl_visit_sound (g : Graph) (gate : Gate) (l found : List NodeId) :
    ∀ n ∈ l.foldl (visit g gate) found,
      n ∈ found ∨ (n ∈ l ∧ n ≠ gate.condition ∧
        FeedsOnly g gate (l.foldl (visit g gate) found) n) := by
  induction l generalizing found with
  | nil => exact fun n hn => Or.inl hn
  | cons a rest ih =>
    intro n hn
    rw [List.foldl_cons] at hn ⊢
    rcases ih _ n hn with hfound | ⟨hmem, hrest⟩
    · rcases visit_eq g gate found a with ⟨hne, hfeeds, heq⟩ | ⟨-, heq⟩
      · rw [heq] at hfound
        rcases (mem_insertSorted _ _ _).mp hfound with rfl | hfound
        · refine Or.inr ⟨by simp, hne, hfeeds.mono ?_⟩
          intro m hm
          apply subset_foldl_visit
          rw [heq]
          exact (mem_insertSorted _ _ _).mpr (Or.inr hm)
        · exact Or.inl hfound
      · rw [heq] at hfound
        exact Or.inl hfound
    · exact Or.inr ⟨List.mem_cons_of_mem _ hmem, hrest⟩

/-- The pass misses nothing if a node comes after all that it feeds. -/
theorem foldl_visit_complete (g : Graph) (gate : Gate) (l found : List NodeId)
    (hnodup : l.Nodup) (hlater : l.Pairwise fun a b => ∀ c ∈ carried g a, c.node ≠ b)
    (hself : ∀ a ∈ l, ∀ c ∈ carried g a, c.node ≠ a) :
    ∀ n ∈ l, n ≠ gate.condition → FeedsOnly g gate (l.foldl (visit g gate) found) n →
      n ∈ l.foldl (visit g gate) found := by
  induction l generalizing found with
  | nil => simp
  | cons a rest ih =>
    obtain ⟨hhead, htail⟩ := List.pairwise_cons.mp hlater
    intro n hn hne hfeeds
    rw [List.foldl_cons] at hfeeds ⊢
    rcases List.mem_cons.mp hn with rfl | hn
    · -- what `n` feeds was found before it was visited
      have hbefore : FeedsOnly g gate found n := by
        refine ⟨hfeeds.1, ?_⟩
        intro c hc
        rcases hfeeds.2 c hc with hgate | hmem
        · exact Or.inl hgate
        · rcases foldl_visit_sound g gate rest _ c.node hmem with hfound | ⟨hrest, -⟩
          · rcases visit_eq g gate found n with ⟨-, -, heq⟩ | ⟨-, heq⟩
            · rw [heq] at hfound
              rcases (mem_insertSorted _ _ _).mp hfound with heq | hfound
              · exact absurd heq (hself n (by simp) c hc)
              · exact Or.inr hfound
            · rw [heq] at hfound
              exact Or.inr hfound
          · exact absurd rfl (hhead c.node hrest c hc)
      apply subset_foldl_visit
      rcases visit_eq g gate found n with ⟨-, -, heq⟩ | ⟨hnot, -⟩
      · rw [heq]
        exact (mem_insertSorted _ _ _).mpr (Or.inl rfl)
      · exact absurd ⟨hne, hbefore⟩ hnot
    · exact ih _ (List.nodup_cons.mp hnodup).2 htail
        (fun a ha => hself a (List.mem_cons_of_mem _ ha)) n hn hne hfeeds

theorem nodup_foldl_visit (g : Graph) (gate : Gate) (l : List NodeId) {found : List NodeId}
    (h : found.Pairwise (· < ·)) : (l.foldl (visit g gate) found).Pairwise (· < ·) := by
  induction l generalizing found with
  | nil => exact h
  | cons a rest ih =>
    apply ih
    rcases visit_eq g gate found a with ⟨-, -, heq⟩ | ⟨-, heq⟩
    · rw [heq]
      exact pairwise_insertSorted h a
    · rw [heq]
      exact h

end PortGraph.Plan
