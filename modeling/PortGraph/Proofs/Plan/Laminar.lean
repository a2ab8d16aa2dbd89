import PortGraph.Proofs.Plan.Members

/-!
Loop bodies as a laminar family. The check of a plan compares neighbours in the list of the bodies
around one node; with the closure of every body this makes any two bodies disjoint or nested, and
the scopes are the tree of that nesting. Bodies that cross are always found.
-/

namespace PortGraph

open PortGraph.Order Relation

namespace Nesting

/-- A node lies in the bodies of two loops, and neither body holds the other loop. -/
structure Crossing (g : Graph) (a b n : NodeId) : Prop where
  left : Holds g a n
  right : Holds g b n
  distinct : a ≠ b
  outside : ¬ Holds g a b ∧ ¬ Holds g b a

/-- What the comparison of neighbours reports. -/
theorem unnested?_eq_some {bodies : List (NodeId × List NodeId)} {n : NodeId} {ls : List NodeId}
    {e : GraphError} (h : unnested? bodies n ls = some e) :
    ∃ outer ∈ ls, ∃ inner ∈ ls, inner ∉ body bodies outer ∧
      e = .invalidBody inner (.overlap n outer) := by
  induction ls with
  | nil => simp [unnested?] at h
  | cons outer rest ih =>
    cases rest with
    | nil => simp [unnested?] at h
    | cons inner rest =>
      unfold unnested? at h
      split_ifs at h with hin
      · obtain ⟨o, ho, i, hi, hnot, he⟩ := ih h
        exact ⟨o, List.mem_cons_of_mem _ ho, i, List.mem_cons_of_mem _ hi, hnot, he⟩
      · have hnot : inner ∉ body bodies outer := fun hmem => hin (List.contains_iff_mem.mpr hmem)
        exact ⟨outer, by simp, inner, by simp, hnot, (Option.some.inj h).symm⟩

variable {g : Graph} (hg : g.WellFormed)
include hg

/-- Bodies that cross are no chain, in whatever order they are listed. -/
theorem not_isChain_of_crossing (hclosed : ∀ l, g.kind? l = some .loop → Closed g l)
    (hu : Untangled g) {a b n : NodeId} (hc : Crossing g a b n) {ls : List NodeId}
    (ha : a ∈ ls) (hb : b ∈ ls) : ¬ ls.IsChain (Holds g) := by
  intro hchain
  have : Trans (Holds g) (Holds g) (Holds g) := ⟨fun h h' => holds_trans hg hclosed hu h h'⟩
  have hall : ls.Pairwise (Holds g) := List.isChain_iff_pairwise.mp hchain
  have hsome : ls.Pairwise fun x y => Holds g x y ∨ Holds g y x := hall.imp Or.inl
  have : Std.Symm fun x y => Holds g x y ∨ Holds g y x := ⟨fun _ _ h => h.symm⟩
  rcases hsome.forall ha hb hc.distinct with h | h
  · exact hc.outside.1 h
  · exact hc.outside.2 h

/-- Bodies that cross are refused, with two bodies that hold a node and do not nest. -/
theorem ofGraph_of_crossing
    (hfault : ∀ l, g.kind? l = some .loop → bodyFault? g l (bodyOf g l) = none)
    (hu : Untangled g) {a b n : NodeId} (hc : Crossing g a b n) :
    ∃ m outer inner, Nesting.ofGraph g = .error (.invalidBody inner (.overlap m outer)) ∧
      Holds g outer m ∧ Holds g inner m ∧ ¬ Holds g outer inner := by
  have hclosed : ∀ l, g.kind? l = some .loop → Closed g l :=
    fun l hl => (bodyFault?_eq_none_iff hg).mp (hfault l hl)
  have hloop : ∀ {m : NodeId}, ∀ l ∈ containing (bodies g) m, g.kind? l = some .loop :=
    fun l hl => ((mem_containing hg).mp hl).1
  have hbad : unnested? (bodies g) n (containing (bodies g) n) ≠ none := fun hnone =>
    not_isChain_of_crossing hg hclosed hu hc ((mem_containing hg).mpr hc.left)
      ((mem_containing hg).mpr hc.right) ((unnested?_eq_none_iff hg hloop).mp hnone)
  have hfound : (g.ids.findSome? fun id => unnested? (bodies g) id (containing (bodies g) id)) ≠
      none := fun hnone =>
    hbad (List.findSome?_eq_none_iff.mp hnone n (body_mem_ids hg hc.left.2))
  obtain ⟨e, he⟩ := Option.ne_none_iff_exists'.mp hfound
  obtain ⟨m, -, hm⟩ := List.exists_of_findSome?_eq_some he
  obtain ⟨outer, houter, inner, hinner, hnot, rfl⟩ := unnested?_eq_some hm
  have hout := (mem_containing hg).mp houter
  refine ⟨m, outer, inner, ?_, hout, (mem_containing hg).mp hinner, ?_⟩
  · unfold Nesting.ofGraph
    extract_lets loops bods scopes
    split
    · rename_i hfirst
      obtain ⟨⟨l, _⟩, hbody, hl⟩ := List.exists_of_findSome?_eq_some hfirst
      obtain ⟨k, hk, heq⟩ := List.mem_map.mp hbody
      obtain ⟨rfl, rfl⟩ := Prod.mk.inj heq
      simp [hfault k ((mem_loopIds hg).mp hk)] at hl
    · split
      · rename_i hsecond
        exact congrArg Except.error (Option.some.inj (hsecond.symm.trans he))
      · rename_i hnone
        exact absurd (hnone.symm.trans he) (by simp)
  · rw [body_bodies hg hout.1] at hnot
    exact fun h => hnot h.2

end Nesting

namespace Plan

open Nesting

/-- What runs in each iteration of a loop; empty for a node that is none. -/
def bodyIn (p : Plan) (id : NodeId) : List NodeId := ((p.loop? id).map LoopPlan.body).getD []

/-- A loop and all of its body lie in a body that holds more. -/
structure Within (m : NodeId) (inner outer : LoopPlan) : Prop where
  loop : m ∈ outer.body
  body : inner.body ⊆ outer.body
  proper : ¬ outer.body ⊆ inner.body

/-- How the scopes and the bodies of a plan fit together. -/
structure ScopeTree (p : Plan) : Prop where
  laminar : ∀ a b la lb, p.loop? a = some la → p.loop? b = some lb → a ≠ b →
    (la.body.Disjoint lb.body ∧ a ∉ lb.body ∧ b ∉ la.body) ∨ Within a la lb ∨ Within b lb la
  top : ∀ n, p.scopeOf n = none ↔ ∀ l lp, p.loop? l = some lp → n ∉ lp.body
  innermost : ∀ n s, p.scopeOf n = some s ↔ ∃ sp, p.loop? s = some sp ∧ n ∈ sp.body ∧
    ∀ l lp, p.loop? l = some lp → n ∈ lp.body → l ≠ s →
      sp.body.length < lp.body.length ∧ Within s sp lp
  /-- Each node of the graph is listed once, under its scope. -/
  members : (p.members.flatMap Prod.snd).Perm p.graph.ids ∧ p.graph.ids.Nodup ∧
    ∀ e ∈ p.members, ∀ n ∈ e.2, p.scopeOf n = e.1
  /-- A body is the members of its loop and what is nested in them, without repetition. -/
  body : ∀ l lp, p.loop? l = some lp → lp.body.Nodup ∧
    lp.body.Perm (p.membersIn (some l) ++ (p.membersIn (some l)).flatMap p.bodyIn)

namespace Sound

variable {p : Plan} (hp : p.Sound)
include hp

theorem holds_iff {l n : NodeId} :
    Holds p.graph l n ↔ ∃ lp, p.loop? l = some lp ∧ n ∈ lp.body := by
  constructor
  · rintro ⟨hl, hn⟩
    obtain ⟨lp, hlp⟩ := Option.isSome_iff_exists.mp (hp.isSome_loop?_iff.mpr hl)
    exact ⟨lp, hlp, (hp.loop?_eq_some hlp).1 ▸ hn⟩
  · rintro ⟨lp, hlp, hn⟩
    exact ⟨hp.kind?_of_loop? hlp, (hp.loop?_eq_some hlp).1 ▸ hn⟩

theorem mem_bodyIn {l n : NodeId} : n ∈ p.bodyIn l ↔ Holds p.graph l n := by
  rw [hp.holds_iff]
  unfold bodyIn
  cases p.loop? l with
  | none => simp
  | some lp => simp

theorem nodup_bodyIn (l : NodeId) : (p.bodyIn l).Nodup := by
  unfold bodyIn
  cases h : p.loop? l with
  | none => simp
  | some lp =>
    rw [Option.map_some, Option.getD_some, (hp.loop?_eq_some h).1]
    exact nodup_bodyOf _ _

theorem flatMap_members : p.members.flatMap Prod.snd = p.scopeIds.flatMap p.membersIn := by
  rw [hp.members_eq, List.flatMap_map]
  apply List.flatMap_congr
  intro s hs
  rw [hp.membersIn_eq, if_pos hs]

theorem members_perm : (p.members.flatMap Prod.snd).Perm p.graph.ids := by
  rw [hp.flatMap_members]
  have hnodup : (p.scopeIds.flatMap p.membersIn).Nodup := by
    refine List.nodup_flatMap.mpr ⟨fun s _ => hp.nodup_membersIn s, ?_⟩
    refine hp.nodup_scopeIds.imp fun hne n ha hb => hne ?_
    exact (hp.mem_membersIn.mp ha).2.symm.trans (hp.mem_membersIn.mp hb).2
  refine (List.perm_ext_iff_of_nodup hnodup hp.graph.ids_nodup).mpr fun n => ?_
  rw [List.mem_flatMap]
  constructor
  · rintro ⟨s, -, hn⟩
    exact (hp.mem_membersIn.mp hn).1
  · intro hn
    exact ⟨p.scopeOf n, hp.scopeOf_mem_scopeIds n, hp.mem_membersIn.mpr ⟨hn, rfl⟩⟩

variable (hu : p.Untangled)
include hu

theorem within_of_holds {m l : NodeId} {mp lp : LoopPlan} (hm : p.loop? m = some mp)
    (hl : p.loop? l = some lp) (h : Holds p.graph l m) : Within m mp lp := by
  have hmem : m ∈ lp.body := (hp.loop?_eq_some hl).1 ▸ h.2
  have hself : m ∉ mp.body := by
    rw [(hp.loop?_eq_some hm).1]
    exact loop_notMem_body hp.graph m
  refine ⟨hmem, ?_, fun hsub => hself (hsub hmem)⟩
  intro n hn
  have hmn : Holds p.graph m n := hp.holds_iff.mpr ⟨mp, hm, hn⟩
  exact (hp.loop?_eq_some hl).1 ▸ (hp.holds_trans hu h hmn).2

/-- Loops around one node lie in each other one way. -/
theorem holds_or_holds {a b n : NodeId} (ha : Holds p.graph a n) (hb : Holds p.graph b n)
    (hne : a ≠ b) : Holds p.graph a b ∨ Holds p.graph b a := by
  by_contra hno
  obtain ⟨hab, hba⟩ := not_or.mp hno
  have hcross : Crossing p.graph a b n := ⟨ha, hb, hne, hab, hba⟩
  exact not_isChain_of_crossing hp.graph hp.nesting.closed (hp.untangled_graph hu) hcross
    ((mem_containing hp.graph).mpr ha) ((mem_containing hp.graph).mpr hb)
    (hp.nesting.chain n (body_mem_ids hp.graph ha.2))

theorem apart_or_within {a b : NodeId} {la lb : LoopPlan} (ha : p.loop? a = some la)
    (hb : p.loop? b = some lb) (hne : a ≠ b) :
    (la.body.Disjoint lb.body ∧ a ∉ lb.body ∧ b ∉ la.body) ∨ Within a la lb ∨
      Within b lb la := by
  by_cases hba : Holds p.graph b a
  · exact Or.inr (Or.inl (hp.within_of_holds hu ha hb hba))
  by_cases hab : Holds p.graph a b
  · exact Or.inr (Or.inr (hp.within_of_holds hu hb ha hab))
  refine Or.inl ⟨?_, fun h => hba (hp.holds_iff.mpr ⟨lb, hb, h⟩),
    fun h => hab (hp.holds_iff.mpr ⟨la, ha, h⟩)⟩
  intro n hna hnb
  rcases hp.holds_or_holds hu (hp.holds_iff.mpr ⟨la, ha, hna⟩) (hp.holds_iff.mpr ⟨lb, hb, hnb⟩)
    hne with h | h
  · exact hab h
  · exact hba h

theorem length_lt_of_holds {m l : NodeId} {mp lp : LoopPlan} (hm : p.loop? m = some mp)
    (hl : p.loop? l = some lp) (h : Holds p.graph l m) : mp.body.length < lp.body.length := by
  rw [(hp.loop?_eq_some hm).1, (hp.loop?_eq_some hl).1]
  exact length_body_lt hp.graph (hp.nesting.closed l h.1) h.2
    fun hback => hp.not_holds_back hu h ⟨hp.kind?_of_loop? hm, hback⟩

/-- The scope of a node lies in every other body around the node. -/
theorem scopeOf_eq_some_iff {n s : NodeId} :
    p.scopeOf n = some s ↔ ∃ sp, p.loop? s = some sp ∧ n ∈ sp.body ∧
      ∀ l lp, p.loop? l = some lp → n ∈ lp.body → l ≠ s →
        sp.body.length < lp.body.length ∧ Within s sp lp := by
  constructor
  · intro hs
    obtain ⟨sp, hsp, hn⟩ := hp.holds_iff.mp (hp.holds_of_scopeOf hs)
    refine ⟨sp, hsp, hn, ?_⟩
    intro l lp hl hnl hne
    rcases hp.scopeOf_chain hs (hp.holds_iff.mpr ⟨lp, hl, hnl⟩) with heq | hchain
    · exact absurd heq hne
    · have hholds := hp.holds_of_chain hu hchain
      exact ⟨hp.length_lt_of_holds hu hsp hl hholds, hp.within_of_holds hu hsp hl hholds⟩
  · rintro ⟨sp, hsp, hn, hleast⟩
    have hsn : Holds p.graph s n := hp.holds_iff.mpr ⟨sp, hsp, hn⟩
    obtain ⟨t, ht⟩ := Option.ne_none_iff_exists'.mp
      fun hnone => hp.scopeOf_eq_none_iff.mp hnone s hsn
    obtain ⟨tp, htp, hnt⟩ := hp.holds_iff.mp (hp.holds_of_scopeOf ht)
    by_contra hne
    have hts : t ≠ s := fun heq => hne (heq ▸ ht)
    have hlt := (hleast t tp htp hnt hts).1
    have hle := hp.scopeOf_smallest ht hsn
    rw [← (hp.loop?_eq_some htp).1, ← (hp.loop?_eq_some hsp).1] at hle
    omega

/-- What a body holds runs in it, or in the body of one of its members. -/
theorem holds_iff_member_or_nested {l n : NodeId} :
    Holds p.graph l n ↔
      n ∈ p.membersIn (some l) ∨ ∃ m ∈ p.membersIn (some l), Holds p.graph m n := by
  constructor
  · intro h
    have hids := body_mem_ids hp.graph h.2
    rcases TransGen.head'_iff.mp ((hp.encloses_iff hu).mpr h) with ⟨m, hm, hrest⟩
    rcases reflTransGen_iff_eq_or_transGen.mp hrest with rfl | hrest
    · exact Or.inl (hp.mem_membersIn.mpr ⟨hids, hm⟩)
    · have hmn := (hp.encloses_iff hu).mp hrest
      have hmids := body_mem_ids hp.graph (hp.holds_of_scopeOf hm).2
      exact Or.inr ⟨m, hp.mem_membersIn.mpr ⟨hmids, hm⟩, hmn⟩
  · rintro (hn | ⟨m, hm, hmn⟩)
    · exact hp.holds_of_scopeOf (hp.mem_membersIn.mp hn).2
    · exact hp.holds_trans hu (hp.holds_of_scopeOf (hp.mem_membersIn.mp hm).2) hmn

theorem nodup_split (l : NodeId) :
    (p.membersIn (some l) ++ (p.membersIn (some l)).flatMap p.bodyIn).Nodup := by
  have hnested : ((p.membersIn (some l)).flatMap p.bodyIn).Nodup := by
    refine List.nodup_flatMap.mpr ⟨fun m _ => hp.nodup_bodyIn m, ?_⟩
    refine (hp.nodup_membersIn (some l)).imp_of_mem ?_
    intro a b ha hb hne n hna hnb
    -- two members around one node would be two loops at one level
    have hscope : p.scopeOf a = p.scopeOf b :=
      (hp.mem_membersIn.mp ha).2.trans (hp.mem_membersIn.mp hb).2.symm
    exact hne (hp.encloses_unique hu ((hp.encloses_iff hu).mpr (hp.mem_bodyIn.mp hna))
      ((hp.encloses_iff hu).mpr (hp.mem_bodyIn.mp hnb)) hscope)
  refine List.nodup_append.mpr ⟨hp.nodup_membersIn _, hnested, ?_⟩
  rintro n hn m hm rfl
  obtain ⟨k, hk, hkn⟩ := List.mem_flatMap.mp hm
  have hscope : p.scopeOf k = p.scopeOf n :=
    (hp.mem_membersIn.mp hk).2.trans (hp.mem_membersIn.mp hn).2.symm
  exact hp.scopeOf_ne_of_encloses hu ((hp.encloses_iff hu).mpr (hp.mem_bodyIn.mp hkn)) hscope

theorem body_perm {l : NodeId} {lp : LoopPlan} (hl : p.loop? l = some lp) :
    lp.body.Nodup ∧
      lp.body.Perm (p.membersIn (some l) ++ (p.membersIn (some l)).flatMap p.bodyIn) := by
  have hnodup : lp.body.Nodup := by
    rw [(hp.loop?_eq_some hl).1]
    exact nodup_bodyOf _ _
  refine ⟨hnodup, (List.perm_ext_iff_of_nodup hnodup (hp.nodup_split hu l)).mpr fun n => ?_⟩
  have hbody : n ∈ lp.body ↔ Holds p.graph l n := by
    rw [hp.holds_iff]
    simp [hl]
  rw [hbody, hp.holds_iff_member_or_nested hu, List.mem_append, List.mem_flatMap]
  simp only [hp.mem_bodyIn]

theorem scopeTree : p.ScopeTree where
  laminar _ _ _ _ ha hb hne := hp.apart_or_within hu ha hb hne
  top n := by
    rw [hp.scopeOf_eq_none_iff]
    simp only [hp.holds_iff, not_exists, not_and]
  innermost _ _ := hp.scopeOf_eq_some_iff hu
  members := by
    refine ⟨hp.members_perm, hp.graph.ids_nodup, ?_⟩
    rw [hp.members_eq]
    intro e he n hn
    obtain ⟨s, -, rfl⟩ := List.mem_map.mp he
    simpa [scopeOf] using (List.mem_filter.mp ((mem_sortBy _ _ _).mp hn)).2
  body _ _ hl := hp.body_perm hu hl

end Sound

/-- The scopes of an accepted plan are the tree of its bodies, and where bodies cross there is no
plan. -/
theorem scopesFollowBodies :
    (∀ p : Plan, p.Accepted → p.Untangled → p.ScopeTree) ∧
    ∀ d g, Graph.ofDefinition d = .ok g →
      (∀ l, g.kind? l = some .loop → bodyFault? g l (bodyOf g l) = none) →
      Nesting.Untangled g → (∃ a b n, Crossing g a b n) →
      (∃ ids, ofDefinition d = .error (.manyOutputs ids)) ∨
        ∃ m outer inner, ofDefinition d = .error (.invalidBody inner (.overlap m outer)) ∧
          Holds g outer m ∧ Holds g inner m ∧ ¬ Holds g outer inner := by
  refine ⟨fun p h hu => (sound_of_accepted h).scopeTree hu, ?_⟩
  rintro d g hd hfault hu ⟨a, b, n, hc⟩
  obtain ⟨m, outer, inner, hnesting, hfound⟩ :=
    ofGraph_of_crossing (Graph.wellFormed_of_definition hd) hfault hu hc
  have hplan : ofDefinition d = Plan.ofGraph g := by
    unfold ofDefinition
    rw [hd]
    rfl
  rw [hplan]
  unfold Plan.ofGraph
  extract_lets outputs ranks unreachable rest
  split_ifs with hmany
  · exact Or.inl ⟨ascending outputs, rfl⟩
  · refine Or.inr ⟨m, outer, inner, ?_, hfound⟩
    simp only [rest, hnesting]
    rfl

/-- Two loops that pass their items to one node. -/
def sharedBody : Definition :=
  ⟨[⟨"in", "data-input", []⟩, ⟨"a", "logic-loop", []⟩, ⟨"b", "logic-loop", []⟩,
    ⟨"pair", "logic-merge", []⟩],
   [⟨⟨"in", "value"⟩, ⟨"a", "collection"⟩⟩, ⟨⟨"in", "value"⟩, ⟨"b", "collection"⟩⟩,
    ⟨⟨"a", "item"⟩, ⟨"pair", "input1"⟩⟩, ⟨⟨"b", "item"⟩, ⟨"pair", "input2"⟩⟩]⟩

theorem loopInLoop_scopesFollowBodies :
    (∃ p, ofDefinition loopInLoop = .ok p ∧ p.bodyIn "rows" = ["cell", "cells"] ∧
      p.bodyIn "cells" = ["cell"] ∧ p.ScopeTree) ∧
    ∃ e, ofDefinition sharedBody = .error e := by
  constructor
  · obtain ⟨p, hp, hrows, hcells, hloops⟩ := exists_of_check (d := loopInLoop)
      (P := fun p => p.bodyIn "rows" = ["cell", "cells"] ∧ p.bodyIn "cells" = ["cell"] ∧
        ∀ a ∈ p.nesting.loops, ∀ b ∈ p.nesting.loops, ¬ (a.1 ∈ b.2.body ∧ b.1 ∈ a.2.body))
      (by decide +kernel)
    exact ⟨p, hp, hrows, hcells,
      scopesFollowBodies.1 p ⟨loopInLoop, hp⟩ (untangled_of_loops hloops)⟩
  · obtain ⟨g, hd, hloops, ha, hb, hpair⟩ := exists_ok_of_check (x := Graph.ofDefinition sharedBody)
      (P := fun g => (∀ l ∈ loopIds g, bodyFault? g l (bodyOf g l) = none ∧
          ∀ k ∈ loopIds g, ¬ k ∈ bodyOf g l) ∧
        g.kind? "a" = some .loop ∧ g.kind? "b" = some .loop ∧
        "pair" ∈ bodyOf g "a" ∧ "pair" ∈ bodyOf g "b") (by decide +kernel)
    have hg := Graph.wellFormed_of_definition hd
    have hapart : ∀ l k, g.kind? k = some .loop → ¬ Holds g l k := fun l k hk h =>
      (hloops l ((mem_loopIds hg).mpr h.1)).2 k ((mem_loopIds hg).mpr hk) h.2
    have hfault : ∀ l, g.kind? l = some .loop → bodyFault? g l (bodyOf g l) = none :=
      fun l hl => (hloops l ((mem_loopIds hg).mpr hl)).1
    have hu : Nesting.Untangled g := fun a b h => hapart a b h.2.1 h.1
    have hcross : Crossing g "a" "b" "pair" :=
      ⟨⟨ha, hpair.1⟩, ⟨hb, hpair.2⟩, by decide, hapart "a" "b" hb, hapart "b" "a" ha⟩
    rcases scopesFollowBodies.2 sharedBody g hd hfault hu ⟨"a", "b", "pair", hcross⟩ with
      ⟨ids, h⟩ | ⟨m, outer, inner, h, -⟩
    · exact ⟨_, h⟩
    · exact ⟨_, h⟩

end Plan

end PortGraph
