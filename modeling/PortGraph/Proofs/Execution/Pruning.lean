import PortGraph.Proofs.Execution.Branches
import PortGraph.Proofs.Plan.Serving

/-!
Pruning. A node that serves one branch only is held back until the branch is taken just if no value
on the way there is taken into the body of a loop. Where a body captures one, the node runs although
nothing comes of it.
-/

namespace PortGraph.Execution

open Plan Relation

/-- The node is queued only after the branch was taken, and never once the other one is. -/
structure HeldBack (p : Plan) (verbose : Bool) (e : Execution) (gate : Gate) (n : NodeId) : Prop where
  waits : ∀ a s r, Passes p e a s → s.run? n = some r → r.Released →
    ∃ holds, s.resolved.find? gate.condition = some holds ∧ gate.branch = Branch.taken holds
  never : ∀ a t holds, e.site? a = some t → t.scope.resolved.find? gate.condition = some holds →
    gate.branch = (Branch.taken holds).other → NeverQueued p verbose e a n

/-- A node that serves one branch only waits for it just if nothing on the way there is captured by
the body of a loop. If so, it is held back in every execution. -/
theorem servesOnly_waits_iff {p : Plan} (h : p.Accepted) (hu : p.Untangled) {gate : Gate} {n : NodeId}
    (hn : p.ServesOnly gate n) :
    (n ∈ p.exclusive gate ↔ p.Uncaptured gate n) ∧
      (p.Uncaptured gate n → ∀ verbose e, Reachable p verbose e → HeldBack p verbose e gate n) := by
  have hp := Plan.sound_of_accepted h
  have hiff := hp.mem_exclusive_iff_uncaptured hu hn
  refine ⟨hiff, ?_⟩
  intro huncaptured verbose e he
  have hin := hiff.mpr huncaptured
  have hg := he.grounded hp hu
  refine ⟨?_, ?_⟩
  · exact fun a s r hpasses hr hreleased => hg.gated hp hu a s n r gate hpasses hr hreleased hin
  · rintro a t holds ht hres hbranch
    refine (hg.pruned hp hu).other a t gate.condition holds n ht hres ?_
    rw [← hbranch]
    exact hin

/-- What is downstream stays among nodes that lead to each other and to the condition alone. -/
theorem mem_of_downstream {p : Plan} {c n m : NodeId} {nodes : List NodeId} (hn : n ∈ nodes)
    (hclosed : ∀ e ∈ p.graph.edges, e.source ∈ nodes → e.target = c ∨ e.target ∈ nodes)
    (h : p.Downstream c n m) : m ∈ nodes := by
  induction h with
  | refl => exact hn
  | tail _ hstep ih =>
    obtain ⟨⟨e, he, rfl, rfl⟩, hne⟩ := hstep
    exact (hclosed e he ih).resolve_left hne

theorem choice_waits : ∃ p, Plan.ofDefinition choice = .ok p ∧
    p.ServesOnly ⟨"if", .whenTrue⟩ "yes" ∧ p.Uncaptured ⟨"if", .whenTrue⟩ "yes" ∧
      ∀ e, Reachable p false e → HeldBack p false e ⟨"if", .whenTrue⟩ "yes" := by
  obtain ⟨p, hp, hloops, hkind, hmember, hedges, hflows, hin⟩ := Plan.exists_of_check (d := choice)
    (P := fun p =>
      (∀ a ∈ p.nesting.loops, ∀ b ∈ p.nesting.loops, ¬ (a.1 ∈ b.2.body ∧ b.1 ∈ a.2.body)) ∧
      p.kind? "if" = some .condition ∧ "yes" ∈ p.membersIn (p.scopeOf "if") ∧
      (∀ e ∈ p.graph.edges, e.source ∈ ["yes"] → e.target = "if" ∧
        e.label.targetPort = Branch.whenTrue.port ∧ p.scopeOf "if" ≠ some e.target) ∧
      (∃ e ∈ p.graph.edges, e.source = "yes" ∧ e.target = "if") ∧
      "yes" ∈ p.exclusive ⟨"if", .whenTrue⟩)
    (by decide +kernel)
  have hdown : ∀ {m}, p.Downstream "if" "yes" m → m ∈ ["yes"] :=
    mem_of_downstream (by simp) fun e he hsource => Or.inl (hedges e he hsource).1
  have hserves : p.ServesOnly ⟨"if", .whenTrue⟩ "yes" := by
    refine ⟨hkind, hmember, by decide, ?_, ?_, ?_⟩
    · intro m hm
      obtain rfl := List.mem_singleton.mp (hdown hm)
      exact .single hflows
    · exact fun e he hsource _ => (hedges e he (hdown hsource)).2.1
    · exact fun e he hsource => (hedges e he (hdown hsource)).2.2
  obtain ⟨hiff, hheld⟩ :=
    servesOnly_waits_iff ⟨choice, hp⟩ (Plan.untangled_of_loops hloops) hserves
  exact ⟨p, hp, hserves, hiff.mp hin, hheld (hiff.mp hin) false⟩

/-- A loop that serves one branch only, and takes a value into its body from a node that does. -/
def capturedBranch : Definition :=
  ⟨[⟨"in", "data-input", []⟩, ⟨"aside", "data-input", []⟩, ⟨"loop", "logic-loop", []⟩,
    ⟨"pair", "logic-merge", []⟩, ⟨"spare", "data-input", []⟩,
    ⟨"if", "logic-condition", [("condition", .bool false)]⟩, ⟨"out", "data-output", []⟩],
   [⟨⟨"in", "value"⟩, ⟨"loop", "collection"⟩⟩, ⟨⟨"loop", "item"⟩, ⟨"pair", "input1"⟩⟩,
    ⟨⟨"aside", "value"⟩, ⟨"pair", "input2"⟩⟩, ⟨⟨"pair", "merged"⟩, ⟨"loop", "result"⟩⟩,
    ⟨⟨"loop", "results"⟩, ⟨"if", "trueValue"⟩⟩, ⟨⟨"spare", "value"⟩, ⟨"if", "falseValue"⟩⟩,
    ⟨⟨"if", "result"⟩, ⟨"out", "data"⟩⟩]⟩

/-- The node serves the branch that is not taken, and is started. -/
theorem capturedBranch_not_waits : ∃ p, Plan.ofDefinition capturedBranch = .ok p ∧ p.Untangled ∧
    p.ServesOnly ⟨"if", .whenTrue⟩ "aside" ∧ "aside" ∉ p.exclusive ⟨"if", .whenTrue⟩ ∧
      ∃ e t, Reachable p false e ∧ e.site? [] = some t ∧
        t.scope.resolved.find? "if" = some false ∧ (t.scope.startOf? "aside").isSome = true := by
  obtain ⟨p, hp, hloops, hkind, hmember, hedges, ⟨hpair, hloop, hif⟩, hout, hall⟩ :=
    Plan.exists_of_check (d := capturedBranch)
    (P := fun p =>
      (∀ a ∈ p.nesting.loops, ∀ b ∈ p.nesting.loops, ¬ (a.1 ∈ b.2.body ∧ b.1 ∈ a.2.body)) ∧
      p.kind? "if" = some .condition ∧ "aside" ∈ p.membersIn (p.scopeOf "if") ∧
      (∀ e ∈ p.graph.edges, e.source ∈ ["aside", "pair", "loop"] →
        (e.target = "if" ∧ e.label.targetPort = Branch.whenTrue.port ∨
          e.target ∈ ["aside", "pair", "loop"]) ∧ p.scopeOf "if" ≠ some e.target) ∧
      ((∃ e ∈ p.graph.edges, e.source = "aside" ∧ e.target = "pair") ∧
        (∃ e ∈ p.graph.edges, e.source = "pair" ∧ e.target = "loop") ∧
        ∃ e ∈ p.graph.edges, e.source = "loop" ∧ e.target = "if") ∧
      "aside" ∉ p.exclusive ⟨"if", .whenTrue⟩ ∧
      ((begin p false .epoch 1 false).after? p false [(.epoch, .dispatch [])]).any fun e =>
        (e.site? []).any fun t => t.scope.resolved.find? "if" == some false &&
          (t.scope.startOf? "aside").isSome)
    (by decide +kernel)
  have hdown : ∀ {m}, p.Downstream "if" "aside" m → m ∈ ["aside", "pair", "loop"] :=
    mem_of_downstream (by simp) fun e he hsource => (hedges e he hsource).1.imp_left And.left
  have hleads : ReflTransGen p.Flows "loop" "if" := .single hif
  have hserves : p.ServesOnly ⟨"if", .whenTrue⟩ "aside" := by
    refine ⟨hkind, hmember, by decide, ?_, ?_, ?_⟩
    · intro m hm
      have hm := hdown hm
      simp only [List.mem_cons, List.not_mem_nil, or_false] at hm
      rcases hm with rfl | rfl | rfl
      · exact .head hpair (.head hloop hleads)
      · exact .head hloop hleads
      · exact hleads
    · intro e he hsource htarget
      rcases (hedges e he (hdown hsource)).1 with ⟨-, hport⟩ | hin
      · exact hport
      · rw [show e.target = "if" from htarget] at hin
        exact absurd hin (by decide)
    · exact fun e he hsource => (hedges e he (hdown hsource)).2
  obtain ⟨e, hafter, hsite⟩ := (Option.any_eq_true _ _).mp hall
  obtain ⟨t, ht, hscope⟩ := (Option.any_eq_true _ _).mp hsite
  obtain ⟨hres, hstart⟩ := (Bool.and_eq_true _ _).mp hscope
  refine ⟨p, hp, Plan.untangled_of_loops hloops, hserves, hout, e, t, ?_, ht, by simpa using hres,
    hstart⟩
  refine (orderly_of_after? (.begin .epoch 1) ?_ hafter).reachable
  intro x hx
  obtain rfl := List.mem_singleton.mp hx
  trivial

end PortGraph.Execution
