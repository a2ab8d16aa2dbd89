import PortGraph.Proofs.Execution.Branches
import PortGraph.Proofs.Execution.Logged
import PortGraph.Proofs.Scope.Typed

/-!
Inputs that fit. In every execution of a plan, whatever its events and their order, each value at an
input of a node has the type of the input. So no worker that is built in, no condition and no loop ever
fails for a value of another type than it needs.
-/

namespace PortGraph

open Plan

namespace Execution

/-- A scope and its loops under way whose inputs are well typed. -/
structure Typed (p : Plan) (t : Site) : Prop where
  scope : Scope.Typed p t.scope []
  items : ∀ n l, t.loops.find? n = some l → Untroubled l.items
  handed : ∀ n l, t.loops.find? n = some l → ∀ x ∈ l.handed, p.HasInput x.1

variable {p : Plan} {verbose : Bool} {now : Timestamp} {e e' : Execution} {a : Address}
variable {t t' : Site} {event : Event} {s : Scope}

section Steps

variable (hp : p.Sound)
include hp

/-- An event keeps the inputs of a scope well typed. -/
theorem Moves.typed (hmoves : Moves p now e a t event t') (h : Typed p t) : Typed p t' := by
  cases hmoves with
  | @startLoop s r node settings _ _ hstart hnode hsettings =>
    obtain ⟨hscope, node₁, hnode₁, htyped⟩ := h.scope.startNext hstart
    obtain rfl := Option.some.inj (hnode.symm.trans hnode₁)
    have hport : node.input? PortName.collection = some ⟨PortName.collection, .array⟩ := by
      unfold Node.input?
      rw [hp.inputs_eq hnode, hsettings]
      rfl
    refine ⟨hscope, ?_, ?_⟩
    · intro n l hl
      rw [Table.find?_insert] at hl
      split_ifs at hl
      · rw [← Option.some.inj hl]
        exact Looping.untroubled_itemsOf (htyped.value hport)
      · exact h.items n l hl
    · intro n l hl
      rw [Table.find?_insert] at hl
      split_ifs at hl
      · rw [← Option.some.inj hl]
        exact h.scope.handed r.node
      · exact h.handed n l hl
  | startWork _ _ hstart => exact ⟨(h.scope.startNext hstart).1, h.items, h.handed⟩
  | report | leave => exact ⟨h.scope, h.items, h.handed⟩
  | hear => exact ⟨h.scope.hear hp now _, h.items, h.handed⟩
  | @iterate loop l hl =>
    refine ⟨h.scope, ?_, ?_⟩
    all_goals
      intro n l' hl'
      rw [Table.find?_insert] at hl'
      split_ifs at hl'
    · rw [← Option.some.inj hl']
      exact h.items loop l hl
    · exact h.items n l' hl'
    · rw [← Option.some.inj hl']
      exact h.handed loop l hl
    · exact h.handed n l' hl'
  | conclude =>
    refine ⟨h.scope, ?_, ?_⟩
    all_goals
      intro n l' hl'
      rw [Table.find?_erase] at hl'
      split_ifs at hl'
    · exact h.items n l' hl'
    · exact h.handed n l' hl'
  | close => exact ⟨h.scope.close now _, h.items, h.handed⟩

/-- An iteration is given values for inputs. -/
theorem Typed.deliveries (h : Typed p t) {loop : NodeId} {l : Looping}
    (hl : t.loops.find? loop = some l) (i : ℕ) : ∀ x ∈ l.deliveries p i, p.HasInput x.1 := by
  intro x hx
  rcases List.mem_append.mp hx with hitem | hhanded
  · exact hp.hasInput_iteration hitem
  · exact h.handed loop l hl x hhanded

theorem typed_seed (owner : ScopeId) {given : List (PortRef × Json)}
    (hgiven : ∀ x ∈ given, p.HasInput x.1) :
    Typed p ⟨Scope.seed p now owner given, .running, [], [], []⟩ :=
  ⟨Scope.typed_seed hp now owner hgiven, by simp, by simp⟩

/-- In every execution the inputs of all scopes are well typed. -/
theorem Reachable.typed (h : Reachable p verbose e) : ∀ a t, e.site? a = some t → Typed p t := by
  induction h with
  | begin now permits aborted =>
    intro a t ht
    obtain ⟨rfl, rfl⟩ := site?_begin_eq_some ht
    exact typed_seed hp none (by simp)
  | @step now e e' event _ hevent ih =>
    obtain ⟨-, rfl⟩ | ⟨a, t, t', ht, hmoves, hcases⟩ := perform?_eq_some hevent
    · exact ih
    have htyped := ih a t ht
    have hput : ∀ b u, (e.putSite p verbose a t').site? b = some u → Typed p u := by
      intro b u hu
      rw [site?_putSite] at hu
      split_ifs at hu
      · rw [← Option.some.inj hu]
        exact hmoves.typed hp htyped
      · exact ih b u hu
    rcases hcases with ⟨-, rfl⟩ | ⟨loop, l, rfl, hl, -, -, rfl⟩
    · exact hput
    · intro b u hu
      rw [site?_openSite] at hu
      split_ifs at hu
      · rw [← Option.some.inj hu]
        exact typed_seed hp _ (htyped.deliveries hp hl l.opened)
      · exact hput b u hu

/-- So they are in every state that a scope comes to, also between two signals. -/
theorem Reachable.passes_typed (h : Reachable p verbose e) (hpasses : Passes p e a s) :
    Scope.Typed p s [] := by
  cases hpasses with
  | rests ht => exact (h.typed hp _ _ ht).scope
  | hears ht _ _ hr _ => exact ((h.typed hp _ _ ht).scope.conclude hp hr _).drain hp _ _
  | begins => exact (Scope.typed_opening hp _ none (by simp)).drain hp _ _
  | iterates ht hl =>
    exact (Scope.typed_opening hp _ _ ((h.typed hp _ _ ht).deliveries hp hl _)).drain hp _ _

end Steps

/-- The inputs of a scope fit, and nothing that reads them finds a value of another type. -/
structure InputsFit (p : Plan) (s : Scope) : Prop where
  typed : ∀ {n r q v}, s.run? n = some r → r.inputs.find? q = some v →
    ∃ node port, p.node? n = some node ∧ node.input? q = some port ∧ Conversion.Conforms v port.type
  /-- No condition fails when its value is read. -/
  resolves : ∀ {c id e}, p.kind? c = some .condition → .fail id e ∉ (s.reactResolve p c).2
  /-- No loop finds anything but a list, or nothing. -/
  iterates : ∀ {l r}, p.kind? l = some .loop → s.run? l = some r →
    Untroubled (Looping.itemsOf r.inputs)
  /-- No worker that is built in finds a value of another type than it needs. -/
  begins : ∀ {n r node w}, s.run? n = some r → p.node? n = some node →
    Worker.builtin node.kind = some w → ∀ input, Untroubled (w.begin node r.inputs input)

theorem inputsFit_of_typed (hp : p.Sound) {sigs : List Signal} (h : Scope.Typed p s sigs) :
    InputsFit p s := by
  -- what a run of a node has at an input that the settings of the node have
  have hvalue : ∀ {n r node q t}, s.run? n = some r → p.node? n = some node →
      (node.settings.inputs.find? fun port => port.name == q) = some ⟨q, t⟩ →
      Conversion.Conforms (r.inputs.value q) t := by
    intro n r node q t hr hnode hport
    obtain ⟨-, node₁, hnode₁, htyped⟩ := h.runs n r hr
    obtain rfl := Option.some.inj (hnode.symm.trans hnode₁)
    rw [← hp.inputs_eq hnode] at hport
    exact htyped.value hport
  refine ⟨?_, ?_, ?_, ?_⟩
  · intro n r q v hr hv
    obtain ⟨-, node, hnode, htyped⟩ := h.runs n r hr
    obtain ⟨port, hport, hconforms⟩ := htyped q v hv
    exact ⟨node, port, hnode, hport, hconforms⟩
  · intro c id e hkind hfail
    obtain ⟨node, settings, hnode, hsettings⟩ := Scope.condition_of_kind hkind
    unfold Scope.reactResolve at hfail
    split at hfail
    · rename_i r _ hr
      have hport : (node.settings.inputs.find? fun q => q.name == PortName.condition) =
          some ⟨PortName.condition, .boolean⟩ := by
        rw [hsettings]
        rfl
      have hconforms := hvalue hr hnode hport
      obtain ⟨holds, htruth⟩ := PortValues.truth_ok hconforms
      split_ifs at hfail
      · simp at hfail
      · rw [htruth] at hfail
        simp at hfail
    · simp at hfail
  · intro l r hkind hr
    obtain ⟨node, settings, hnode, hsettings⟩ := Graph.loop_of_kind? hkind
    have hport : (node.settings.inputs.find? fun q => q.name == PortName.collection) =
        some ⟨PortName.collection, .array⟩ := by
      rw [hsettings]
      rfl
    exact Looping.untroubled_itemsOf (hvalue hr hnode hport)
  · intro n r node w hr hnode hw input
    obtain ⟨-, node₁, hnode₁, htyped⟩ := h.runs n r hr
    obtain rfl := Option.some.inj (hnode.symm.trans hnode₁)
    exact Worker.untroubled_begin (hp.inputs_eq hnode) htyped hw input

/-- Input values are always well typed. The properties that stand in for inputs are never rejected. In
every execution, and in every state that a scope comes to, each value at an input is null or has the
type of the input. So no condition, no loop and no worker that is built in ever fails for a value of
another type than it needs. -/
theorem inputsFit {p : Plan} (h : p.Accepted) :
    (∀ node ∈ p.graph.nodes, (Scope.freshRun p node).2 = []) ∧
    ∀ {verbose e}, Reachable p verbose e →
      (∀ a s, Passes p e a s → InputsFit p s) ∧
      ∀ a t l looping, e.site? a = some t → t.loops.find? l = some looping →
        Untroubled looping.items := by
  have hp := Plan.sound_of_accepted h
  refine ⟨fun node hnode => (Scope.freshRun_spec hp hnode).1, fun he => ⟨?_, ?_⟩⟩
  · exact fun a s hpasses => inputsFit_of_typed hp (he.passes_typed hp hpasses)
  · exact fun a t l looping ht hl => (he.typed hp a t ht).items l looping hl

/-- A loop that asks for a text on each item. -/
def askedItems : Definition :=
  ⟨[⟨"in", "data-input", []⟩, ⟨"items", "logic-loop", []⟩, ⟨"ask", "ai-text", []⟩],
   [⟨⟨"in", "value"⟩, ⟨"items", "collection"⟩⟩, ⟨⟨"items", "item"⟩, ⟨"ask", "prompt"⟩⟩,
    ⟨⟨"ask", "text"⟩, ⟨"items", "result"⟩⟩]⟩

/-- The input has made a number, and the loop has begun with it. -/
def askedEvents : List (Timestamp × Event) :=
  [.dispatch [], .report [] (.ended ⟨"in", [], .succeeded [("value", .ofNat 7)]⟩), .hear [] "in",
    .dispatch [], .iterate [] "items"].map fun event => (.epoch, event)

/-- One number in place of a list is a list of it, and its digits are the text that is asked with. -/
theorem askedItems_inputsFit : ∃ p e t r, ofDefinition askedItems = .ok p ∧ Reachable p false e ∧
    e.site? [("items", 0)] = some t ∧ t.scope.run? "ask" = some r ∧
    r.inputs.find? "prompt" = some (.string "7") ∧ InputsFit p t.scope := by
  obtain ⟨p, hp, hall⟩ := exists_of_check (d := askedItems)
    (P := fun p =>
      ((begin p false .epoch 1 false).after? p false askedEvents).any fun e =>
        (e.site? [("items", 0)]).any fun t =>
          (t.scope.run? "ask").any fun r => r.inputs.find? "prompt" == some (.string "7"))
    (by decide +kernel)
  obtain ⟨e, hafter, hsite⟩ := (Option.any_eq_true _ _).mp hall
  obtain ⟨t, ht, hrun⟩ := (Option.any_eq_true _ _).mp hsite
  obtain ⟨r, hr, hprompt⟩ := (Option.any_eq_true _ _).mp hrun
  have hreach := (Reachable.begin .epoch 1 false).leads (leads_of_after? hafter)
  exact ⟨p, e, t, r, hp, hreach, ht, hr, by simpa using hprompt,
    ((inputsFit ⟨askedItems, hp⟩).2 hreach).1 _ _ (.rests ht)⟩

end Execution

end PortGraph
