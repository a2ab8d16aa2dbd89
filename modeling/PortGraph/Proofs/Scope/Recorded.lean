import PortGraph.Proofs.Scope.States

/-!
The record that a scope keeps of its runs. A member that ends is recorded once, as it ended, and
nothing but what a run still waits for changes after that. Only the start of the first node in the
queue starts a node.
-/

namespace PortGraph

/-- A run apart from what it waits for. -/
def NodeRun.record (r : NodeRun) : NodeRun :=
  { r with pendingInputs := [], pendingCaptures := 0, pendingGates := 0 }

theorem NodeRun.state_of_record {r r' : NodeRun} (h : r'.record = r.record) :
    r'.state = r.state :=
  show r'.record.state = r.record.state from congrArg NodeRun.state h

theorem NodeRun.kept_of_record {r r' : NodeRun} (h : r'.record = r.record) :
    r'.inputs = r.inputs ∧ r'.outputs = r.outputs ∧ r'.startedAt = r.startedAt :=
  ⟨(congrArg NodeRun.inputs h :), (congrArg NodeRun.outputs h :), (congrArg NodeRun.startedAt h :)⟩

/-- The log reads nothing of a run but its record. -/
theorem LogEntry.ofRun_record {r r' : NodeRun} (h : r'.record = r.record) (node : Node)
    (iteration : List ℕ) (verbose : Bool) :
    LogEntry.ofRun node r' iteration verbose = LogEntry.ofRun node r iteration verbose := by
  change LogEntry.ofRun node r'.record iteration verbose = _
  rw [h]
  rfl

theorem NodeRun.Evolves.record {p : Plan} {now : Timestamp} {s : Scope} {sig : Signal}
    {r r' : NodeRun} (h : NodeRun.Evolves p now s sig r r') (hr : Scope.isUnstarted r = false) :
    r'.record = r.record := by
  have hpending : r.state ≠ .pending := by
    intro hstate
    rw [Scope.isUnstarted_of_pending hstate] at hr
    simp at hr
  cases h with
  | same | capture | gate | drop => rfl
  | deliver _ _ hstate | lose _ _ _ hstate => exact absurd hstate hpending
  | ready _ hsat => exact absurd (pending_of_isSatisfied hsat).1 hpending
  | skip _ hunstarted | fail _ hunstarted => simp [hr] at hunstarted

namespace Scope

/-- The list of ended runs shows each member that has ended once, as it ended. -/
structure Recorded (s : Scope) : Prop where
  once : (s.ended.map NodeRun.node).Nodup
  known : ∀ r ∈ s.ended, ∃ r', s.run? r.node = some r' ∧ r'.state.isTerminal = true ∧
    r'.record = r.record
  all : ∀ n r, s.run? n = some r → r.state.isTerminal = true → n ∈ s.ended.map NodeRun.node

/-- The second scope has on record all that the first one has. -/
structure Retains (s s' : Scope) : Prop where
  ended : s.ended <+: s'.ended
  runs : ∀ n r, s.run? n = some r → r.state.isTerminal = true →
    ∃ r', s'.run? n = some r' ∧ r'.record = r.record

/-- When a member was started. -/
def startOf? (s : Scope) (n : NodeId) : Option Timestamp := (s.run? n).bind NodeRun.startedAt

theorem Retains.refl (s : Scope) : Retains s s := ⟨List.prefix_rfl, fun _ r hr _ => ⟨r, hr, rfl⟩⟩

theorem Retains.trans {s s' s'' : Scope} (h : Retains s s') (h' : Retains s' s'') :
    Retains s s'' := by
  refine ⟨h.ended.trans h'.ended, ?_⟩
  intro n r hr hterm
  obtain ⟨r', hr', hrecord⟩ := h.runs n r hr hterm
  obtain ⟨r'', hr'', hrecord'⟩ :=
    h'.runs n r' hr' (by rw [NodeRun.state_of_record hrecord]; exact hterm)
  exact ⟨r'', hr'', hrecord'.trans hrecord⟩

/-! ### One run -/

section Step

variable {p : Plan} {now : Timestamp} {s s' t : Scope} {sig : Signal} {sigs more left : List Signal}
variable {n : NodeId} {r r' : NodeRun}

/-- No run ends, and those that have ended stay on record. -/
theorem Recorded.of_same (h : Recorded s) (hended : s'.ended = s.ended)
    (hkept : ∀ n r, s.run? n = some r → r.state.isTerminal = true →
      ∃ r', s'.run? n = some r' ∧ r'.record = r.record)
    (hold : ∀ n r', s'.run? n = some r' → r'.state.isTerminal = true →
      ∃ r, s.run? n = some r ∧ r.state.isTerminal = true) : Recorded s' ∧ Retains s s' := by
  refine ⟨⟨by rw [hended]; exact h.once, ?_, ?_⟩, hended ▸ List.prefix_rfl, hkept⟩
  · intro r hr
    rw [hended] at hr
    obtain ⟨r₁, hr₁, hterm, hrecord⟩ := h.known r hr
    obtain ⟨r', hr', hrecord'⟩ := hkept _ r₁ hr₁ hterm
    exact ⟨r', hr', by rw [NodeRun.state_of_record hrecord']; exact hterm, hrecord'.trans hrecord⟩
  · intro n r' hr' hterm
    obtain ⟨r, hr, hterm'⟩ := hold n r' hr' hterm
    rw [hended]
    exact h.all n r hr hterm'

/-- A run that had not ended ends and is put on record. -/
theorem Recorded.putEnded (h : Recorded s) (hr : s.run? n = some r)
    (hlive : r.state.isTerminal = false) (hnode : r'.node = n)
    (hterm : r'.state.isTerminal = true) :
    Recorded (s.putEnded r') ∧ Retains s (s.putEnded r') := by
  have hrun : ∀ k, (s.putEnded r').run? k = if n = k then some r' else s.run? k := by
    intro k
    rw [run?_putEnded, hnode]
  refine ⟨⟨?_, ?_, ?_⟩, ⟨[r'], rfl⟩, ?_⟩
  · rw [ended_putEnded, List.map_append]
    refine List.nodup_append.mpr ⟨h.once, by simp, ?_⟩
    rintro k hk _ hk' rfl
    obtain ⟨r₁, hr₁, rfl⟩ := List.mem_map.mp hk
    obtain ⟨r₂, hr₂, hterm₂, -⟩ := h.known r₁ hr₁
    exact ne_of_ended hr hlive hr₂ hterm₂ (hnode.symm.trans (List.mem_singleton.mp hk').symm)
  · intro r₁ hr₁
    rw [hrun]
    rcases List.mem_append.mp hr₁ with hr₁ | hr₁
    · obtain ⟨r₂, hr₂, hterm₂, hrecord⟩ := h.known r₁ hr₁
      exact ⟨r₂, by rw [if_neg (ne_of_ended hr hlive hr₂ hterm₂), hr₂], hterm₂, hrecord⟩
    · rw [List.mem_singleton.mp hr₁, if_pos hnode.symm]
      exact ⟨r', rfl, hterm, rfl⟩
  · intro k r₁ hr₁ hterm₁
    rw [hrun] at hr₁
    rw [ended_putEnded, List.map_append]
    split_ifs at hr₁ with heq
    · exact List.mem_append_right _ (by simp [hnode, heq])
    · exact List.mem_append_left _ (h.all k r₁ hr₁ hterm₁)
  · intro k r₁ hr₁ hterm₁
    exact ⟨r₁, by rw [hrun, if_neg (ne_of_ended hr hlive hr₁ hterm₁), hr₁], rfl⟩

/-! ### One signal -/

/-- A signal ends a run that had not started, or none at all. -/
theorem Reacts.ends (hp : p.Sound) (hs : Shape p s) (h : Reacts p now s sig s' more) :
    (∃ n r r', s.run? n = some r ∧ isUnstarted r = true ∧ r'.node = n ∧
      r'.state.isTerminal = true ∧ s' = (s.dequeue n).putEnded r') ∨
    (s'.ended = s.ended ∧ ∀ n r', s'.run? n = some r' → r'.state.isTerminal = true →
      ∃ r, s.run? n = some r ∧ r.state.isTerminal = true) := by
  have hreact := h
  cases h with
  | @skips n reason r hr hunstarted =>
    exact Or.inl ⟨n, r, r.skip now reason, hr, hunstarted, hs.node n r hr, rfl, rfl⟩
  | @fails n e r hr hunstarted =>
    exact Or.inl ⟨n, r, r.fail now e, hr, hunstarted, hs.node n r hr, rfl, rfl⟩
  | skipIdle | failIdle => exact Or.inr ⟨rfl, fun n r' hr' hterm => ⟨r', hr', hterm⟩⟩
  | _ =>
    refine Or.inr ⟨by simp [queue], ?_⟩
    intro n r' hr' hterm
    obtain ⟨r, hr, hevolves⟩ := hreact.evolved hp hs hr'
    refine ⟨r, hr, ?_⟩
    by_contra hlive
    rcases hevolves.ended (by simpa using hlive) hterm with ⟨_, hsig, -⟩ | ⟨_, hsig, -⟩ <;>
      simp at hsig

theorem Reacts.recorded (hp : p.Sound) (hs : Shape p s) (hreact : Reacts p now s sig s' more)
    (h : Recorded s) : Recorded s' ∧ Retains s s' := by
  rcases hreact.ends hp hs with ⟨n, r, r', hr, hunstarted, hnode, hterm, rfl⟩ | ⟨hended, hold⟩
  · have hqueue : Recorded (s.dequeue n) := ⟨h.once, h.known, h.all⟩
    obtain ⟨hrecorded, hretains⟩ :=
      hqueue.putEnded hr (live_of_isUnstarted hunstarted) hnode hterm
    exact ⟨hrecorded, hretains.ended, hretains.runs⟩
  · refine h.of_same hended ?_ hold
    intro n r hr hterm
    obtain ⟨r', hr', hevolves⟩ := hreact.evolves hp hs hr
    exact ⟨r', hr', hevolves.record (isUnstarted_of_isTerminal hterm)⟩

/-- No signal starts a node. -/
theorem Reacts.startOf? (hp : p.Sound) (hs : Shape p s) (h : Reacts p now s sig s' more)
    (n : NodeId) : s'.startOf? n = s.startOf? n := by
  unfold Scope.startOf?
  cases hr : s.run? n with
  | none => rw [h.run?_none hp hs hr]
  | some r =>
    obtain ⟨r', hr', hevolves⟩ := h.evolves hp hs hr
    rw [hr']
    exact hevolves.startedAt

theorem Drains.recorded (hp : p.Sound) (hs : Shape p s) (hdrains : Drains p now s sigs t left)
    (h : Recorded s) :
    Recorded t ∧ Retains s t ∧ ∀ n, t.startOf? n = s.startOf? n := by
  refine (hdrains.keeps (P := fun u _ => Shape p u ∧ Recorded u ∧ Retains s u ∧
    ∀ n, u.startOf? n = s.startOf? n) ?_ ⟨hs, h, .refl s, fun _ => rfl⟩).2
  rintro u sig rest u' more ⟨hshape, hrecorded, hretains, hstart⟩ hreact
  obtain ⟨hrecorded', hretains'⟩ := hreact.recorded hp hshape hrecorded
  exact ⟨hshape.react hp hreact, hrecorded', hretains.trans hretains',
    fun n => (hreact.startOf? hp hshape n).trans (hstart n)⟩

/-- A started member that has ended after some signals had ended before. -/
theorem Drains.ended (hp : p.Sound) (hs : Shape p s) (hdrains : Drains p now s sigs t left)
    (h : Recorded s) (hr' : t.run? n = some r') (hterm : r'.state.isTerminal = true)
    (hstart : r'.startedAt.isSome = true) :
    ∃ r, s.run? n = some r ∧ r.state.isTerminal = true ∧ r'.record = r.record := by
  obtain ⟨-, hretains, hsame⟩ := hdrains.recorded hp hs h
  obtain ⟨r, hr, hstart'⟩ : ∃ r, s.run? n = some r ∧ r.startedAt.isSome = true := by
    have hstarts : (s.startOf? n).isSome = true := by
      rw [← hsame n, startOf?, hr']
      exact hstart
    cases hr : s.run? n with
    | none => simp [startOf?, hr] at hstarts
    | some r => exact ⟨r, rfl, by simpa [startOf?, hr] using hstarts⟩
  have hended : r.state.isTerminal = true := by
    by_contra hlive
    have hrunning : r.state = .running := by
      by_contra hne
      rw [(hs.clear n r hr).idle (by simp [isUnstarted, hlive, hne])] at hstart'
      simp at hstart'
    have hin : t.isIn .running n = true := by
      rw [hdrains.isIn hp hs rfl]
      exact isIn_iff.mpr ⟨r, hr, hrunning⟩
    obtain ⟨r₁, hr₁, hstate⟩ := isIn_iff.mp hin
    rw [Option.some.inj (hr'.symm.trans hr₁), hstate] at hterm
    simp [RunState.isTerminal] at hterm
  obtain ⟨r₁, hr₁, hrecord⟩ := hretains.runs n r hr hended
  exact ⟨r, hr, hended, Option.some.inj (hr'.symm.trans hr₁) ▸ hrecord⟩

end Step

/-! ### The life of a scope -/

section Life

variable {p : Plan} {now : Timestamp} {given : List (PortRef × Json)} {s s' : Scope}
variable {r' : NodeRun}

theorem Recorded.violate (h : Recorded s) (f : Fault) : Recorded (s.violate f) :=
  ⟨h.once, h.known, h.all⟩

theorem startOf?_conclude (hs : Coherent p given s []) {n : NodeId} {r : NodeRun}
    (hr : s.run? n = some r) (hends : Concludes r r') (m : NodeId) :
    (s.putEnded r').startOf? m = s.startOf? m := by
  unfold startOf?
  rw [run?_conclude hs hr hends]
  split_ifs with heq
  · subst heq
    rw [hr]
    exact hends.startedAt
  · rfl

variable (now) in
theorem Recorded.hear (hp : p.Sound) (hu : p.Untangled) (hs : Coherent p given s [])
    (h : Recorded s) (report : Report) :
    Recorded (s.hear p now report) ∧ Retains s (s.hear p now report) ∧
      ∀ n, (s.hear p now report).startOf? n = s.startOf? n := by
  rcases hs.hear_cases now hp hu report with
    ⟨f, heq⟩ | ⟨c, r, t, -, hr, hrunning, hdrains, hcases⟩
  · rw [heq]
    exact ⟨h.violate f, ⟨List.prefix_rfl, (Retains.refl s).runs⟩, fun _ => rfl⟩
  · have hends := concludes_concluded now r c.attempts c.outcome
    have hshape := shape_conclude hs hr hrunning hends
    have hnode := hends.node.trans (hs.shape.node _ r hr)
    obtain ⟨hput, hretains⟩ := h.putEnded hr (by rw [hrunning]; rfl) hnode hends.terminal
    obtain ⟨ht, hretains', hstart⟩ := hdrains.recorded hp hshape hput
    have hstart' : ∀ n, t.startOf? n = s.startOf? n :=
      fun n => (hstart n).trans (startOf?_conclude hs hr hends n)
    rcases hcases with heq | ⟨f, heq⟩
    · rw [heq]
      exact ⟨ht, hretains.trans hretains', hstart'⟩
    · rw [heq]
      have hretains₂ := hretains.trans hretains'
      exact ⟨ht.violate f, ⟨hretains₂.ended, hretains₂.runs⟩, hstart'⟩

/-- A started node that has ended after a scope heard of some node had ended before, or this is the
node that was heard of. -/
theorem ended_of_hear (hp : p.Sound) (hu : p.Untangled) (hs : Coherent p given s [])
    (h : Recorded s) {report : Report} {n : NodeId} (hr' : (s.hear p now report).run? n = some r')
    (hterm : r'.state.isTerminal = true) (hstart : r'.startedAt.isSome = true) :
    (∃ r, s.run? n = some r ∧ r.state.isTerminal = true ∧ r'.record = r.record) ∨
      ∃ c r, report = .ended c ∧ c.node = n ∧ s.run? n = some r ∧ r.state = .running ∧
        r'.record = (concluded now { r with attempts := c.attempts } c.outcome).record := by
  rcases hs.hear_cases now hp hu report with
    ⟨f, heq⟩ | ⟨c, r, t, hreport, hr, hrunning, hdrains, hcases⟩
  · rw [heq] at hr'
    exact Or.inl ⟨r', hr', hterm, rfl⟩
  · have hends := concludes_concluded now r c.attempts c.outcome
    have hshape := shape_conclude hs hr hrunning hends
    obtain ⟨hput, -⟩ := h.putEnded hr (by rw [hrunning]; rfl)
      (hends.node.trans (hs.shape.node _ r hr)) hends.terminal
    have ht : t.run? n = some r' := by
      rcases hcases with heq | ⟨f, heq⟩ <;> rw [heq] at hr' <;> exact hr'
    obtain ⟨r₁, hr₁, hterm₁, hrecord⟩ := hdrains.ended hp hshape hput ht hterm hstart
    rcases run?_conclude_cases hs hr hends hr₁ with ⟨rfl, rfl⟩ | ⟨-, hold⟩
    · exact Or.inr ⟨c, r, hreport, rfl, hr, hrunning, hrecord⟩
    · exact Or.inl ⟨r₁, hold, hterm₁, hrecord⟩

theorem Recorded.startNext (hs : Coherent p given s []) (h : Recorded s)
    (hstart : s.startNext? now = some (s', r')) : Recorded s' ∧ Retains s s' := by
  obtain ⟨m, k, r, rest, -, hr, hready, rfl, rfl⟩ := startNext?_eq_some hs hstart
  have hlive : r.state.isTerminal = false := by rw [hready]; rfl
  refine h.of_same rfl ?_ ?_
  · intro n r₁ hr₁ hterm
    refine ⟨r₁, ?_, rfl⟩
    rw [run?_started hs hr, if_neg (ne_of_ended hr hlive hr₁ hterm), hr₁]
  · intro n r₁ hr₁ hterm
    rcases run?_started_cases hs hr hr₁ with ⟨rfl, rfl⟩ | ⟨-, hr₁⟩
    · simp [NodeRun.start, RunState.isTerminal] at hterm
    · exact ⟨r₁, hr₁, hterm⟩

/-- Ends the given members in their order. -/
def endEach (f : NodeRun → NodeRun) (s : Scope) (ids : List NodeId) : Scope :=
  ids.foldl (fun s id =>
    match s.run? id with
    | some r => s.putEnded (f r)
    | none => s) s

theorem Recorded.endEach {f : NodeRun → NodeRun}
    (hf : ∀ r, (f r).node = r.node ∧ (f r).state.isTerminal = true ∧
      (f r).startedAt = r.startedAt) {ids : List NodeId} (hids : ids.Nodup) (h : Recorded s)
    (hnode : ∀ n r, s.run? n = some r → r.node = n)
    (hlive : ∀ n ∈ ids, ∀ r, s.run? n = some r → r.state.isTerminal = false) :
    Recorded (s.endEach f ids) ∧ Retains s (s.endEach f ids) ∧
      ∀ n, (s.endEach f ids).startOf? n = s.startOf? n := by
  induction ids generalizing s with
  | nil => exact ⟨h, .refl s, fun _ => rfl⟩
  | cons a rest ih =>
    obtain ⟨ha, hrest⟩ := List.nodup_cons.mp hids
    cases hr : s.run? a with
    | none =>
      have hstep : s.endEach f (a :: rest) = s.endEach f rest := by simp [Scope.endEach, hr]
      rw [hstep]
      exact ih hrest h hnode fun n hn => hlive n (List.mem_cons_of_mem _ hn)
    | some r =>
      have hstep : s.endEach f (a :: rest) = (s.putEnded (f r)).endEach f rest := by
        simp [Scope.endEach, hr]
      obtain ⟨hsame, hterm, hstart⟩ := hf r
      have hid : (f r).node = a := hsame.trans (hnode a r hr)
      have hrun : ∀ k, (s.putEnded (f r)).run? k = if a = k then some (f r) else s.run? k := by
        intro k
        rw [run?_putEnded, hid]
      obtain ⟨hput, hretains⟩ := h.putEnded hr (hlive a (by simp) r hr) hid hterm
      obtain ⟨hrecorded, hretains', hstart'⟩ := ih hrest hput
        (by
          intro n r₁ hr₁
          rw [hrun] at hr₁
          split_ifs at hr₁ with heq
          · rw [← Option.some.inj hr₁, hid, heq]
          · exact hnode n r₁ hr₁)
        (by
          intro n hn r₁ hr₁
          rw [hrun, if_neg (by rintro rfl; exact ha hn)] at hr₁
          exact hlive n (List.mem_cons_of_mem _ hn) r₁ hr₁)
      rw [hstep]
      refine ⟨hrecorded, hretains.trans hretains', ?_⟩
      intro n
      rw [hstart' n]
      unfold startOf?
      rw [hrun]
      split_ifs with heq
      · rw [← heq, hr]
        exact hstart
      · rfl

variable (now) in
/-- Closing records whoever is left, and starts nobody. -/
theorem Recorded.close (hs : Shape p s) (h : Recorded s) (aborted : Bool) :
    Recorded (s.close now aborted) ∧ Retains s (s.close now aborted) ∧
      ∀ n, (s.close now aborted).startOf? n = s.startOf? n := by
  have hleft : ∀ r, (leftOver now r).node = r.node ∧ (leftOver now r).state.isTerminal = true ∧
      (leftOver now r).startedAt = r.startedAt := fun r =>
    ⟨(leftOver_kept now r).1, (leftOver_kept now r).2.2.2.2, (leftOver_kept now r).2.2.1⟩
  have hlive : ∀ n ∈ s.unfinished, ∀ r, s.run? n = some r → r.state.isTerminal = false := by
    intro n hn r hr
    obtain ⟨r₁, hr₁, hlive⟩ := (mem_unfinished hs).mp hn
    rwa [Option.some.inj (hr.symm.trans hr₁)]
  have hclose : s.close now aborted = Scope.endEach (leftOver now)
      (if aborted || s.unfinished.isEmpty then s else s.violate (.neverReady s.unfinished))
      s.unfinished := by
    rw [close_eq]
    unfold Scope.endEach
    congr 1
    funext u id
    unfold closeOne
    cases u.run? id <;> rfl
  rw [hclose]
  split_ifs
  · exact h.endEach hleft (nodup_unfinished hs) hs.node hlive
  · obtain ⟨hrecorded, hretains, hstart⟩ :=
      (h.violate (.neverReady s.unfinished)).endEach hleft (nodup_unfinished hs) hs.node hlive
    exact ⟨hrecorded, ⟨hretains.ended, hretains.runs⟩, hstart⟩

variable (now) in
/-- A scope has on record who is passed over when it begins. -/
theorem recorded_opening (hp : p.Sound) (owner : ScopeId) : Recorded (opening p now owner) := by
  have hfresh : ∀ n r, Scope.run? { new owner with runs := freshRuns p owner } n = some r →
      r.node = n ∧ r.state.isTerminal = false := by
    intro n r hr
    obtain ⟨-, node, hnode, rfl⟩ := (find?_freshRuns owner hp).mp hr
    obtain ⟨hmem, hid⟩ := Graph.node?_eq_some hnode
    have hspec := (freshRun_spec hp hmem).2
    exact ⟨hspec.id.trans hid, by rw [hspec.state]; rfl⟩
  have hnew : Recorded { new owner with runs := freshRuns p owner } := by
    refine ⟨List.nodup_nil, by simp [new], ?_⟩
    intro n r hr hterm
    rw [(hfresh n r hr).2] at hterm
    simp at hterm
  have hids : (unreached p owner).Nodup := by
    unfold unreached
    split_ifs
    · exact (hp.nodup_membersIn owner).filter _
    · exact List.nodup_nil
  exact (hnew.endEach (f := fun r => r.skip now .unreachable) (fun _ => ⟨rfl, rfl, rfl⟩) hids
    (fun n r hr => (hfresh n r hr).1) fun n _ r hr => (hfresh n r hr).2).1

variable (now) in
theorem recorded_seed (hp : p.Sound) (owner : ScopeId) (deliveries : List (PortRef × Json)) :
    Recorded (seed p now owner deliveries) := by
  rw [seed_eq now owner hp]
  have hdrains := drains_drain p now (budget p (openingSignals p owner deliveries))
    (opening p now owner) (openingSignals p owner deliveries)
  exact (hdrains.recorded hp (shape_opening now owner hp) (recorded_opening now hp owner)).1

/-! ### Conditions -/

/-- Every condition that was started has a value. -/
def Decided (p : Plan) (s : Scope) : Prop :=
  ∀ c, p.kind? c = some .condition → (s.startOf? c).isSome = true → s.resolved.find? c ≠ none

theorem Decided.later (h : Decided p s) (hlater : Later s s')
    (hstart : ∀ n, s'.startOf? n = s.startOf? n) : Decided p s' := by
  intro c hkind hstarted
  rw [hstart] at hstarted
  obtain ⟨b, hb⟩ := Option.ne_none_iff_exists'.mp (h c hkind hstarted)
  rw [hlater.resolved c b hb]
  simp

theorem startOf?_startNext (hs : Coherent p given s []) (hstart : s.startNext? now = some (s', r'))
    (n : NodeId) : s'.startOf? n = if r'.node = n then some now else s.startOf? n := by
  obtain ⟨m, k, r, rest, -, hr, -, rfl, rfl⟩ := startNext?_eq_some hs hstart
  have hid : (r.start now).node = m := hs.shape.node m r hr
  unfold startOf?
  rw [run?_started hs hr, hid]
  split_ifs <;> rfl

theorem Decided.startNext (hs : Coherent p given s []) (h : Decided p s)
    (hstart : s.startNext? now = some (s', r')) : Decided p s' := by
  have hlater := (hs.startNext hstart).2.1
  intro c hkind hstarted
  rw [startOf?_startNext hs hstart] at hstarted
  suffices hs : s.resolved.find? c ≠ none by
    obtain ⟨b, hb⟩ := Option.ne_none_iff_exists'.mp hs
    rw [hlater.resolved c b hb]
    simp
  split_ifs at hstarted with heq
  · obtain ⟨m, k, r, rest, -, hr, hready, rfl, -⟩ := startNext?_eq_some hs hstart
    obtain rfl : m = c := (hs.shape.node m r hr).symm.trans heq
    exact hs.resolved_of_ready hr hkind hready
  · exact h c hkind hstarted

end Life

end Scope

end PortGraph
