/-!
Parts of a text: cutting at a mark, taking a mark off either end, and joining with one.
-/

namespace PortGraph.Text

/-- The part before the first occurrence of `mark` and the part after it. -/
def splitAt? (mark : List Char) : List Char → Option (List Char × List Char)
  | [] => if mark.isEmpty then some ([], []) else none
  | c :: cs =>
      if mark.isPrefixOf (c :: cs) then some ([], (c :: cs).drop mark.length)
      else (splitAt? mark cs).map fun (before, after) => (c :: before, after)

/-- The text without `mark` in front, when it stands there. -/
def stripStart? (mark : List Char) (cs : List Char) : Option (List Char) :=
  if mark.isPrefixOf cs then some (cs.drop mark.length) else none

/-- The text without `mark` at its end, when it stands there. -/
def stripEnd? (mark : List Char) (cs : List Char) : Option (List Char) :=
  if mark.isSuffixOf cs then some (cs.take (cs.length - mark.length)) else none

/-- The texts in order with `mark` between neighbours. -/
def joined (mark : String) : List String → String
  | [] => ""
  | [s] => s
  | s :: t :: rest => s ++ mark ++ joined mark (t :: rest)

theorem length_of_splitAt? {mark cs before after : List Char} (hm : mark ≠ [])
    (h : splitAt? mark cs = some (before, after)) : after.length < cs.length := by
  induction cs generalizing before after with
  | nil => simp [splitAt?, hm] at h
  | cons c cs ih =>
    simp only [splitAt?] at h
    split at h
    · injection h with h
      injection h with _ h
      subst h
      have : 0 < mark.length := List.length_pos_iff.2 hm
      simp only [List.length_drop, List.length_cons]
      omega
    · obtain ⟨⟨x, y⟩, hxy, he⟩ := Option.map_eq_some_iff.1 h
      injection he with _ he
      subst he
      exact Nat.lt_succ_of_lt (ih hxy)

end PortGraph.Text
