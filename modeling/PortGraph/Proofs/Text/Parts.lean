import Mathlib.Data.List.Infix
import Mathlib.Data.List.TakeWhile
import Mathlib.Tactic.Common
import PortGraph.Text.Blank
import PortGraph.Text.Parts

/-!
What the functions on parts of a text decide: a mark is taken off where it stands, a text is cut at
the first place where a mark stands, and trimming leaves a part with no blank at either end.
-/

namespace PortGraph.Text

variable {mark cs rest : List Char}

/-! ### Marks at the ends -/

theorem stripStart?_eq_some : stripStart? mark cs = some rest ↔ cs = mark ++ rest := by
  unfold stripStart?
  constructor
  · intro h
    split_ifs at h with hmark
    obtain ⟨after, rfl⟩ := List.isPrefixOf_iff_prefix.mp hmark
    simpa using h
  · rintro rfl
    simp

theorem stripEnd?_eq_some : stripEnd? mark cs = some rest ↔ cs = rest ++ mark := by
  unfold stripEnd?
  constructor
  · intro h
    split_ifs at h with hmark
    obtain ⟨before, rfl⟩ := List.isSuffixOf_iff_suffix.mp hmark
    simpa using h
  · rintro rfl
    simp

/-! ### Runs of characters -/

section Runs

variable {p : Char → Bool}

/-- What is left of a text does not go on with the run that was taken from it. -/
def Stopped (p : Char → Bool) (cs : List Char) : Prop := ∀ c, cs.head? = some c → p c = false

theorem stopped_dropWhile (p : Char → Bool) (cs : List Char) : Stopped p (cs.dropWhile p) := by
  intro c hc
  have hstop := List.head?_dropWhile_not p cs
  simpa [hc] using hstop

theorem dropWhile_of_stopped (h : Stopped p cs) : cs.dropWhile p = cs := by
  cases cs with
  | nil => rfl
  | cons c cs => simp [h c rfl]

theorem takeWhile_of_stopped (h : Stopped p cs) : cs.takeWhile p = [] := by
  cases cs with
  | nil => rfl
  | cons c cs => simp [h c rfl]

theorem takeWhile_append_stopped (hall : ∀ c ∈ cs, p c = true) (hrest : Stopped p rest) :
    (cs ++ rest).takeWhile p = cs := by
  rw [List.takeWhile_append_of_pos hall, takeWhile_of_stopped hrest, List.append_nil]

theorem dropWhile_append_stopped (hall : ∀ c ∈ cs, p c = true) (hrest : Stopped p rest) :
    (cs ++ rest).dropWhile p = rest := by
  rw [List.dropWhile_append_of_pos hall, dropWhile_of_stopped hrest]

theorem Stopped.take {ds : List Char} (h : Stopped p cs) (hds : ds <+: cs) :
    Stopped p ds := by
  intro c hc
  obtain ⟨after, rfl⟩ := hds
  exact h c (by simp [List.head?_append, hc])

theorem Stopped.append (h : Stopped p cs) (hrest : cs = [] → Stopped p rest) :
    Stopped p (cs ++ rest) := by
  cases cs with
  | nil => exact hrest rfl
  | cons c cs => exact h

/-- Two texts are the same when they go up to the first of a character in one text. -/
theorem eq_of_append_cons {c : Char} {as bs xs ys : List Char} (ha : c ∉ as) (hb : c ∉ bs)
    (h : as ++ c :: xs = bs ++ c :: ys) : as = bs ∧ xs = ys := by
  have hstop : ∀ zs, Stopped (· != c) (c :: zs) := by
    rintro zs d ⟨⟩
    simp
  have hrun : ∀ {ds : List Char}, c ∉ ds → ∀ d ∈ ds, (d != c) = true := by
    intro ds hds d hd
    simp only [bne_iff_ne, ne_eq]
    rintro rfl
    exact hds hd
  have hfirst := congrArg (List.takeWhile (· != c)) h
  have hrest := congrArg (List.dropWhile (· != c)) h
  rw [takeWhile_append_stopped (hrun ha) (hstop xs),
    takeWhile_append_stopped (hrun hb) (hstop ys)] at hfirst
  rw [dropWhile_append_stopped (hrun ha) (hstop xs),
    dropWhile_append_stopped (hrun hb) (hstop ys)] at hrest
  exact ⟨hfirst, (List.cons.inj hrest).2⟩

end Runs

/-! ### Cutting at a doubled character -/

/-- The text does not hold the character twice in a row, and does not end in it. -/
structure Plain (c : Char) (cs : List Char) : Prop where
  apart : ¬ [c, c] <:+: cs
  last : cs.getLast? ≠ some c

section Cutting

variable {c d : Char} {before after : List Char}

instance : Decidable (Plain c cs) :=
  decidable_of_iff (¬ [c, c] <:+: cs ∧ cs.getLast? ≠ some c)
    ⟨fun h => ⟨h.1, h.2⟩, fun h => ⟨h.apart, h.last⟩⟩

/-- Not even with one more of the character does it stand there twice in a row. -/
theorem plain_iff : Plain c cs ↔ ¬ [c, c] <:+: cs ++ [c] := by
  have hend : [c, c] <:+ cs ++ [c] ↔ cs.getLast? = some c := by
    rw [show [c, c] = [c] ++ [c] from rfl, List.suffix_append_inj_of_length_eq rfl,
      List.getLast?_eq_some_iff]
    simp [List.IsSuffix, eq_comm]
  rw [List.infix_concat_iff, hend, not_or]
  exact ⟨fun h => ⟨h.last, h.apart⟩, fun h => ⟨h.2, h.1⟩⟩

theorem plain_nil : Plain c [] := ⟨by simp, by simp⟩

theorem plain_cons : Plain c (d :: cs) ↔ ¬ [c, c] <+: d :: (cs ++ [c]) ∧ Plain c cs := by
  rw [plain_iff, plain_iff, List.cons_append, List.infix_cons_iff, not_or]

/-- A text with the mark after it begins with the mark whatever follows. -/
theorem double_prefix_append :
    [c, c] <+: d :: (cs ++ c :: c :: rest) ↔ [c, c] <+: d :: (cs ++ [c]) := by
  cases cs <;> simp [List.cons_prefix_cons]

/-- The cut is at the first place: the part before it stays plain. -/
theorem splitAt?_double : splitAt? [c, c] cs = some (before, after) ↔
    cs = before ++ c :: c :: after ∧ Plain c before := by
  induction cs generalizing before with
  | nil => simp [splitAt?]
  | cons d ds ih =>
    unfold splitAt?
    split_ifs with hmark
    · rw [List.isPrefixOf_iff_prefix] at hmark
      obtain ⟨rest, hrest⟩ := hmark
      obtain ⟨rfl, rfl⟩ : d = c ∧ ds = c :: rest := by simpa using hrest.symm
      constructor
      · intro h
        obtain ⟨rfl, rfl⟩ : before = [] ∧ after = rest := by simpa [eq_comm] using h
        exact ⟨rfl, plain_nil⟩
      · rintro ⟨h, hplain⟩
        cases before with
        | nil => simpa using h
        | cons e es =>
          have hmark : [d, d] <+: e :: (es ++ d :: d :: after) := ⟨rest, hrest.trans h⟩
          exact absurd (double_prefix_append.mp hmark) (plain_cons.mp hplain).1
    · rw [List.isPrefixOf_iff_prefix] at hmark
      rw [Option.map_eq_some_iff]
      constructor
      · rintro ⟨⟨front, back⟩, hfront, heq⟩
        obtain ⟨rfl, rfl⟩ := Prod.mk.inj heq
        obtain ⟨rfl, hplain⟩ := ih.mp hfront
        exact ⟨rfl, plain_cons.mpr ⟨fun h => hmark (double_prefix_append.mpr h), hplain⟩⟩
      · rintro ⟨h, hplain⟩
        cases before with
        | nil =>
          rw [h] at hmark
          simp at hmark
        | cons e es =>
          obtain ⟨rfl, htail⟩ := List.cons.inj h
          exact ⟨(es, after), ih.mpr ⟨htail, (plain_cons.mp hplain).2⟩, rfl⟩

end Cutting

theorem splitAt?_eq_none (hmark : mark ≠ []) : splitAt? mark cs = none ↔ ¬ mark <:+: cs := by
  induction cs with
  | nil => simp [splitAt?, hmark]
  | cons c cs ih =>
    rw [List.infix_cons_iff, ← List.isPrefixOf_iff_prefix]
    unfold splitAt?
    split_ifs with hhead
    · simp [hhead]
    · simp [hhead, ih]

/-- The cut at a single character is where it first stands. -/
theorem splitAt?_single {c : Char} {before : List Char} (h : c ∉ before) (after : List Char) :
    splitAt? [c] (before ++ c :: after) = some (before, after) := by
  induction before with
  | nil => simp [splitAt?]
  | cons d before ih =>
    obtain ⟨hne, hbefore⟩ : c ≠ d ∧ c ∉ before := by simpa using h
    simp [splitAt?, hne, ih hbefore]

theorem splitAt?_single_eq_some {c : Char} {before after : List Char} :
    splitAt? [c] cs = some (before, after) ↔ cs = before ++ c :: after ∧ c ∉ before := by
  constructor
  · intro h
    have hmem : c ∈ cs := by
      by_contra hnot
      rw [(splitAt?_eq_none (by simp)).mpr (mt (List.singleton_infix_iff c cs).mp hnot)] at h
      cases h
    obtain ⟨front, back, rfl, hfront⟩ := List.eq_append_cons_of_mem hmem
    rw [splitAt?_single hfront] at h
    obtain ⟨rfl, rfl⟩ := Prod.mk.inj (Option.some.inj h)
    exact ⟨rfl, hfront⟩
  · rintro ⟨rfl, hbefore⟩
    exact splitAt?_single hbefore after

/-! ### Blanks at the ends -/

/-- There is no blank at either end. -/
structure Tight (cs : List Char) : Prop where
  head : Stopped isBlank cs
  last : Stopped isBlank cs.reverse

theorem trimEnd_isPrefix (cs : List Char) : trimEnd cs <+: cs := by
  simpa [trimEnd] using (List.dropWhile_suffix (l := cs.reverse) isBlank).reverse

theorem trim_infix (cs : List Char) : trim cs <:+: cs :=
  (trimEnd_isPrefix _).isInfix.trans (List.dropWhile_suffix isBlank).isInfix

theorem tight_trim (cs : List Char) : Tight (trim cs) := by
  constructor
  · intro c hc
    refine stopped_dropWhile isBlank cs c ?_
    obtain ⟨after, hafter⟩ := trimEnd_isPrefix (trimStart cs)
    change (trimStart cs).head? = some c
    rw [← hafter, List.head?_append, show (trimEnd (trimStart cs)).head? = some c from hc]
    rfl
  · rw [trim, trimEnd, List.reverse_reverse]
    exact stopped_dropWhile _ _

theorem trim_of_tight (h : Tight cs) : trim cs = cs := by
  rw [trim, trimStart, dropWhile_of_stopped h.head, trimEnd, dropWhile_of_stopped h.last,
    List.reverse_reverse]

theorem trim_of_forall (h : ∀ c ∈ cs, isBlank c = false) : trim cs = cs := by
  refine trim_of_tight ⟨fun c hc => h c (List.mem_of_head? hc), fun c hc => h c ?_⟩
  simpa using List.mem_of_head? hc

end PortGraph.Text
