import PortGraph.Proofs.Execution.Moves

/-!
The values of outputs, seen from the scopes of an execution. A scope sees what its own nodes have
sent, the element of the iteration that it is, and whatever the scopes around it see.
-/

namespace PortGraph.Execution

open Nesting

/-- What a node of a scope has sent from an output: null where it set none. -/
def outputAt? (e : Execution) (a : Address) (source : PortRef) : Option Json := do
  let t ← e.site? a
  let r ← t.scope.run? source.node
  if r.state = .succeeded then r.outputs.map fun o => (o.find? source.port).getD .null else none

/-- What an iteration of a loop that has started is about: an element of its collection, or the
position of it. -/
def elementAt? (e : Execution) (outer : Address) (loop : NodeId) (index : ℕ) (port : String) :
    Option Json := do
  let t ← e.site? outer
  let r ← t.scope.run? loop
  if r.startedAt.isSome then
    if port = PortName.index then some (.ofNat index)
    else
      match Looping.itemsOf r.inputs with
      | .ok items => items[index]?
      | .error _ => none
  else none

/-- The value of an output, seen from a scope. -/
def valueAt? (p : Plan) (e : Execution) : Address → PortRef → Option Json
  | [], source => e.outputAt? [] source
  | (loop, index) :: outer, source =>
      if p.scopeOf source.node = some loop then e.outputAt? ((loop, index) :: outer) source
      else if source.node = loop ∧ isIterationPort source.port = true then
        e.elementAt? outer loop index source.port
      else valueAt? p e outer source

/-- Every scope of the first execution is there in the second, with all that has started or ended
in it. -/
def Later (e e' : Execution) : Prop :=
  ∀ a t, e.site? a = some t → ∃ t', e'.site? a = some t' ∧ Scope.Later t.scope t'.scope

variable {p : Plan} {e e' e'' : Execution} {a : Address} {source : PortRef} {v : Json}

theorem Later.refl (e : Execution) : Later e e := fun _ t ht => ⟨t, ht, Scope.Later.refl _⟩

theorem Later.trans (h : Later e e') (h' : Later e' e'') : Later e e'' := by
  intro a t ht
  obtain ⟨t', ht', hlater⟩ := h a t ht
  obtain ⟨t'', ht'', hlater'⟩ := h' a t' ht'
  exact ⟨t'', ht'', hlater.trans hlater'⟩

theorem outputAt?_eq_some : e.outputAt? a source = some v ↔
    ∃ t r o, e.site? a = some t ∧ t.scope.run? source.node = some r ∧ r.state = .succeeded ∧
      r.outputs = some o ∧ (o.find? source.port).getD .null = v := by
  simp only [outputAt?, Option.bind_eq_bind, Option.bind_eq_some_iff]
  constructor
  · rintro ⟨t, ht, r, hr, h⟩
    split_ifs at h with hstate
    obtain ⟨o, ho, hv⟩ := Option.map_eq_some_iff.mp h
    exact ⟨t, r, o, ht, hr, hstate, ho, hv⟩
  · rintro ⟨t, r, o, ht, hr, hstate, ho, hv⟩
    exact ⟨t, ht, r, hr, by rw [if_pos hstate, ho, Option.map_some, hv]⟩

theorem valueAt?_member (h : p.scopeOf source.node = a.owner) :
    e.valueAt? p a source = e.outputAt? a source := by
  cases a with
  | nil => rfl
  | cons x outer =>
    unfold valueAt?
    rw [if_pos (show p.scopeOf source.node = some x.1 from h)]

theorem Later.outputAt? (h : Later e e') (hv : e.outputAt? a source = some v) :
    e'.outputAt? a source = some v := by
  obtain ⟨t, r, o, ht, hr, hstate, ho, hv⟩ := outputAt?_eq_some.mp hv
  obtain ⟨t', ht', hlater⟩ := h a t ht
  obtain ⟨r', hr', hstate', ho', -⟩ := hlater.ended _ r hr (by simp [hstate, RunState.isTerminal])
  exact outputAt?_eq_some.mpr ⟨t', r', o, ht', hr', hstate'.trans hstate, ho'.trans ho, hv⟩

theorem Later.elementAt? (h : Later e e') {outer : Address} {loop : NodeId} {index : ℕ}
    {port : String} (hv : e.elementAt? outer loop index port = some v) :
    e'.elementAt? outer loop index port = some v := by
  simp only [Execution.elementAt?, Option.bind_eq_bind, Option.bind_eq_some_iff] at hv ⊢
  obtain ⟨t, ht, r, hr, hv⟩ := hv
  by_cases hstart : r.startedAt.isSome = true
  · obtain ⟨t', ht', hlater⟩ := h outer t ht
    obtain ⟨r', hr', hstart', hinputs, -⟩ := hlater.started _ r hr hstart
    refine ⟨t', ht', r', hr', ?_⟩
    rw [hstart', hinputs]
    exact hv
  · rw [if_neg hstart] at hv
    simp at hv

theorem Later.valueAt? (h : Later e e') (hv : e.valueAt? p a source = some v) :
    e'.valueAt? p a source = some v := by
  induction a with
  | nil => exact h.outputAt? hv
  | cons x outer ih =>
    unfold Execution.valueAt? at hv ⊢
    split_ifs at hv ⊢
    · exact h.outputAt? hv
    · exact h.elementAt? hv
    · exact ih hv

end PortGraph.Execution
