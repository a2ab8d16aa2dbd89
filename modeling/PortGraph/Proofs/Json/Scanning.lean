import PortGraph.Json.Written
import PortGraph.Proofs.Json.Numerals

/-!
Written values and what is scanned. A text spells a tree when it is scanned as that tree whatever
follows it; lists and objects of such texts are such texts, and so is every written value. Its tree
differs from the value only in the numbers, which stand for what their texts are read as.
-/

namespace PortGraph

open Text.Decimal

namespace Source

/-! ### Strings -/

theorem scanUnits_simple {c e : Char} (h : simpleEscape? c = some e) (cs : List Char) :
    scanUnits ('\\' :: c :: cs) = (scanUnits cs).map fun (us, after) => (.char e :: us, after) := by
  have hu : c ≠ 'u' := by
    rintro rfl
    simp [simpleEscape?] at h
  simp [scanUnits, hu, h]

theorem hexValue?_hexDigit {n : ℕ} (h : n < 16) : hexValue? (Json.hexDigit n) = some n := by
  have hall : ∀ k < 16, hexValue? (Json.hexDigit k) = some k := by decide
  exact hall n h

theorem scanUnits_control {c : Char} (h : c.val.toNat < 0x20) (cs : List Char) :
    scanUnits ('\\' :: 'u' :: '0' :: '0' :: Json.hexDigit (c.val.toNat / 16) ::
      Json.hexDigit (c.val.toNat % 16) :: cs) =
        (scanUnits cs).map fun (us, after) => (.char c :: us, after) := by
  have hchar : Char.ofNat c.val.toNat = c := c.ofNat_toNat
  generalize c.val.toNat = n at h hchar
  have hzero : hexValue? '0' = some 0 := by decide
  have hhigh := hexValue?_hexDigit (n := n / 16) (by omega)
  have hlow := hexValue?_hexDigit (n := n % 16) (by omega)
  have hcode : n / 16 * 16 + n % 16 = n := by omega
  have hhalf : isHalf n = false := by
    simp only [isHalf, Bool.and_eq_false_iff, decide_eq_false_iff_not]
    omega
  simp [scanUnits, hex4?, hzero, hhigh, hlow, hcode, hhalf, hchar]

theorem scanUnits_escaped (c : Char) (cs : List Char) :
    scanUnits (Json.escaped c ++ cs) =
      (scanUnits cs).map fun (us, after) => (.char c :: us, after) := by
  unfold Json.escaped
  split_ifs with hquote hslash h h h h h hcontrol
  any_goals
    subst_vars
    exact scanUnits_simple rfl cs
  · exact scanUnits_control hcontrol cs
  · have hplain : ¬ c.toNat < 0x20 := hcontrol
    simp [scanUnits, hslash, hplain]

theorem scanUnits_flatMap (cs rest : List Char) :
    scanUnits (cs.flatMap Json.escaped ++ '"' :: rest) = some (cs.map .char, rest) := by
  induction cs with
  | nil => simp [scanUnits]
  | cons c cs ih =>
    rw [List.flatMap_cons, List.append_assoc, scanUnits_escaped, ih]
    rfl

theorem characters?_map_char (cs : List Char) : characters? (cs.map .char) = some cs := by
  induction cs with
  | nil => rfl
  | cons c cs ih => simp [characters?, ih]

theorem scanString_quoted (s : String) (rest : List Char) :
    scanString (s.toList.flatMap Json.escaped ++ '"' :: rest) = some (some s, rest) := by
  unfold scanString
  rw [scanUnits_flatMap]
  simp [characters?_map_char]

/-! ### Texts that spell trees -/

/-- The text is scanned as the tree, whatever follows it, when there is fuel for each character. -/
structure Spells (text : List Char) (source : Source) : Prop where
  head : ∃ c cs, text = c :: cs ∧ isSpace c = false ∧ c ≠ ']'
  scan : ∀ fuel rest, text.length ≤ fuel → Numeral.Stops rest →
    scanValue fuel (text ++ rest) = (source, some rest)

theorem stops_cons {c : Char} (h : c = ',' ∨ c = ']' ∨ c = '}') (cs : List Char) :
    Numeral.Stops (c :: cs) := by
  rintro _ _ ⟨⟩
  rcases h with rfl | rfl | rfl <;> decide

theorem skipSpace_cons {c : Char} (h : isSpace c = false) (cs : List Char) :
    skipSpace (c :: cs) = c :: cs := by
  simp [skipSpace, h]

theorem spells_word {text : List Char} {source : Source}
    (hhead : ∃ c cs, text = c :: cs ∧ isSpace c = false ∧ c ≠ ']')
    (h : ∀ fuel rest, scanValue (fuel + 1) (text ++ rest) = (source, some rest)) :
    Spells text source := by
  refine ⟨hhead, fun fuel rest hfuel _ => ?_⟩
  obtain ⟨c, cs, rfl, -⟩ := hhead
  obtain ⟨fuel, rfl⟩ : ∃ k, fuel = k + 1 := ⟨fuel - 1, by simp at hfuel; omega⟩
  exact h fuel rest

theorem spells_null : Spells ['n', 'u', 'l', 'l'] .null :=
  spells_word ⟨_, _, rfl, by decide, by decide⟩ fun fuel rest => by
    simp [scanValue, skipSpace, isSpace, scanWord, Text.stripStart?]

theorem spells_bool (b : Bool) : Spells (Json.write (.bool b)) (.bool b) := by
  cases b
  · exact spells_word ⟨_, _, rfl, by decide, by decide⟩ fun fuel rest => by
      simp [Json.write, scanValue, skipSpace, isSpace, scanWord, Text.stripStart?]
  · exact spells_word ⟨_, _, rfl, by decide, by decide⟩ fun fuel rest => by
      simp [Json.write, scanValue, skipSpace, isSpace, scanWord, Text.stripStart?]

theorem spells_quoted (s : String) : Spells (Json.quoted s) (.string (some s)) :=
  spells_word ⟨_, _, rfl, by decide, by decide⟩ fun fuel rest => by
    simp [Json.quoted, scanValue, skipSpace, isSpace, scanString_quoted]

/-- No other value starts like a number. -/
theorem scanValue_number {c : Char} (h : c = '-' ∨ isDigit c = true) (fuel : ℕ) (cs : List Char) :
    isSpace c = false ∧ c ≠ ']' ∧ scanValue (fuel + 1) (c :: cs) = scanNumber (c :: cs) := by
  have hother : ∀ d ∈ ['[', '{', '"', 'n', 't', 'f', ']', ' ', '\n', '\t', '\r'], c ≠ d := by
    have hall : ∀ d ∈ ['[', '{', '"', 'n', 't', 'f', ']', ' ', '\n', '\t', '\r'],
        ¬ (d = '-' ∨ isDigit d = true) := by simp [isDigit]
    rintro d hd rfl
    exact hall c hd h
  simp only [List.forall_mem_cons] at hother
  obtain ⟨h₁, h₂, h₃, h₄, h₅, h₆, h₇, h₈, h₉, h₁₀, h₁₁, -⟩ := hother
  have hspace : isSpace c = false := by simp [isSpace, h₈, h₉, h₁₀, h₁₁]
  refine ⟨hspace, h₇, ?_⟩
  have hstart : (c == '-' || isDigit c) = true := by simpa using h
  unfold scanValue
  simp [skipSpace_cons hspace, hstart]

theorem spells_number (n : Number) : Spells n.toText (.number n.reread?) := by
  obtain ⟨c, cs, hc, hstart⟩ := n.head_toText
  obtain ⟨hspace, hclose, -⟩ := scanValue_number hstart 0 cs
  refine ⟨⟨c, cs, hc, hspace, hclose⟩, fun fuel rest hfuel hrest => ?_⟩
  have hscan := n.scanNumber_toText hrest
  rw [hc] at hfuel hscan ⊢
  obtain ⟨fuel, rfl⟩ : ∃ k, fuel = k + 1 := ⟨fuel - 1, by simp at hfuel; omega⟩
  exact (scanValue_number hstart fuel (cs ++ rest)).2.2.trans hscan

/-- The elements of a list, up to the bracket. -/
theorem scanItems_spelled {texts : List (List Char)} {items : List Source}
    (h : List.Forall₂ Spells texts items) (hne : texts ≠ []) (fuel : ℕ) (rest : List Char)
    (hfuel : (List.intercalate [','] texts).length < fuel) :
    scanItems fuel (List.intercalate [','] texts ++ ']' :: rest) = (items, some rest) := by
  induction h generalizing fuel with
  | nil => exact absurd rfl hne
  | cons hv hvs ih =>
    obtain ⟨fuel, rfl⟩ : ∃ k, fuel = k + 1 := ⟨fuel - 1, by omega⟩
    unfold scanItems
    cases hvs with
    | nil =>
      rw [List.intercalate_singleton] at hfuel ⊢
      rw [hv.scan fuel _ (by omega) (stops_cons (by simp) _)]
      simp [skipSpace, isSpace]
    | cons hw hws =>
      rw [List.intercalate_cons_cons] at hfuel ⊢
      simp only [List.length_append, List.length_singleton] at hfuel
      rw [List.append_assoc, List.append_assoc, List.singleton_append,
        hv.scan fuel _ (by omega) (stops_cons (by simp) _)]
      simp [skipSpace, isSpace, ih (by simp) fuel (by omega)]

theorem head_intercalate {text : List Char} {source : Source} (h : Spells text source)
    (texts : List (List Char)) : ∃ c cs, List.intercalate [','] (text :: texts) = c :: cs ∧
      isSpace c = false ∧ c ≠ ']' := by
  obtain ⟨c, cs, rfl, hspace, hclose⟩ := h.head
  cases texts with
  | nil => exact ⟨c, cs, List.intercalate_singleton, hspace, hclose⟩
  | cons text texts => exact ⟨c, _, List.intercalate_cons_cons, hspace, hclose⟩

theorem spells_list {texts : List (List Char)} {items : List Source}
    (h : List.Forall₂ Spells texts items) :
    Spells ('[' :: (List.intercalate [','] texts ++ [']'])) (.array items) := by
  refine ⟨⟨_, _, rfl, by decide, by decide⟩, fun fuel rest hfuel _ => ?_⟩
  obtain ⟨fuel, rfl⟩ : ∃ k, fuel = k + 1 := ⟨fuel - 1, by simp at hfuel; omega⟩
  simp only [List.length_cons, List.length_append, List.length_nil] at hfuel
  rw [List.cons_append, List.append_assoc, List.singleton_append]
  unfold scanValue
  cases h with
  | nil => simp [skipSpace, isSpace]
  | cons hv hvs =>
    have hitems := scanItems_spelled (.cons hv hvs) (by simp) fuel rest (by omega)
    obtain ⟨c, cs, hc, hspace, hclose⟩ := head_intercalate hv _
    rw [hc] at hitems ⊢
    simp only [skipSpace_cons (show isSpace '[' = false by decide), List.cons_append,
      skipSpace_cons hspace] at hitems ⊢
    simp [hclose, hitems]

/-- The text of a field, given its key and the text of its value. -/
def fieldText (m : String × List Char) : List Char := Json.quoted m.1 ++ ':' :: m.2

/-- A field whose value is spelled. -/
def SpellsField (m : String × List Char) (f : Option String × Source) : Prop :=
  f.1 = some m.1 ∧ Spells m.2 f.2

theorem fieldText_append (m : String × List Char) (rest : List Char) :
    fieldText m ++ rest =
      '"' :: (m.1.toList.flatMap Json.escaped ++ '"' :: ':' :: (m.2 ++ rest)) := by
  simp [fieldText, Json.quoted]

/-- The fields of an object, up to the brace. -/
theorem scanFields_spelled {members : List (String × List Char)}
    {fields : List (Option String × Source)} (h : List.Forall₂ SpellsField members fields)
    (hne : members ≠ []) (fuel : ℕ) (rest : List Char)
    (hfuel : (List.intercalate [','] (members.map fieldText)).length < fuel) :
    scanFields fuel (List.intercalate [','] (members.map fieldText) ++ '}' :: rest) =
      (fields, some rest) := by
  induction h generalizing fuel with
  | nil => exact absurd rfl hne
  | @cons m f _ _ hf hfs ih =>
    obtain ⟨fuel, rfl⟩ : ∃ k, fuel = k + 1 := ⟨fuel - 1, by omega⟩
    obtain ⟨_, source⟩ := f
    obtain ⟨rfl, hv⟩ := hf
    have hlength : m.2.length < (fieldText m).length := by
      simp [fieldText, Json.quoted]
      omega
    have hquote : ∀ cs, skipSpace ('"' :: cs) = '"' :: cs := skipSpace_cons (by decide)
    have hcolon : ∀ cs, skipSpace (':' :: cs) = ':' :: cs := skipSpace_cons (by decide)
    unfold scanFields
    cases hfs with
    | nil =>
      rw [List.map_singleton, List.intercalate_singleton] at hfuel ⊢
      rw [fieldText_append, hquote]
      simp only [scanString_quoted, hcolon]
      rw [hv.scan fuel _ (by omega) (stops_cons (by simp) _)]
      simp [skipSpace, isSpace]
    | cons hg hgs =>
      simp only [List.map_cons, List.intercalate_cons_cons, List.length_append,
        List.length_singleton] at hfuel ih ⊢
      rw [List.append_assoc, List.append_assoc, List.singleton_append, fieldText_append, hquote]
      simp only [scanString_quoted, hcolon]
      rw [hv.scan fuel _ (by omega) (stops_cons (by simp) _)]
      simp [skipSpace, isSpace, ih (by simp) fuel (by omega)]

theorem spells_object {members : List (String × List Char)}
    {fields : List (Option String × Source)} (h : List.Forall₂ SpellsField members fields) :
    Spells ('{' :: (List.intercalate [','] (members.map fieldText) ++ ['}'])) (.object fields) := by
  refine ⟨⟨_, _, rfl, by decide, by decide⟩, fun fuel rest hfuel _ => ?_⟩
  obtain ⟨fuel, rfl⟩ : ∃ k, fuel = k + 1 := ⟨fuel - 1, by simp at hfuel; omega⟩
  simp only [List.length_cons, List.length_append, List.length_nil] at hfuel
  rw [List.cons_append, List.append_assoc, List.singleton_append]
  unfold scanValue
  cases h with
  | nil => simp [skipSpace, isSpace]
  | @cons m f members _ hf hfs =>
    have hfields := scanFields_spelled (.cons hf hfs) (by simp) fuel rest (by omega)
    obtain ⟨cs, hcs⟩ : ∃ cs, List.intercalate [','] ((m :: members).map fieldText) = '"' :: cs := by
      cases members with
      | nil => exact ⟨_, List.intercalate_singleton⟩
      | cons => exact ⟨_, List.intercalate_cons_cons⟩
    rw [hcs] at hfields ⊢
    simp only [skipSpace_cons (show isSpace '{' = false by decide), List.cons_append,
      skipSpace_cons (show isSpace '"' = false by decide)] at hfields ⊢
    simp [hfields]

/-! ### Written values -/

end Source

namespace Json

theorem writeItems_eq : ∀ items : List Json,
    writeItems items = List.intercalate [','] (items.map write)
  | [] => rfl
  | [v] => by rw [List.map_singleton, List.intercalate_singleton, writeItems]
  | v :: w :: rest => by
    rw [writeItems, writeItems_eq (w :: rest)]
    · simp [List.intercalate_cons_cons]
    · simp

theorem writeFields_eq : ∀ fields : List (String × Json),
    writeFields fields =
      List.intercalate [','] (fields.map fun e => Source.fieldText (e.1, write e.2))
  | [] => rfl
  | [(k, v)] => by
    rw [List.map_singleton, List.intercalate_singleton, writeFields, Source.fieldText]
  | (k, v) :: f :: rest => by
    rw [writeFields, writeFields_eq (f :: rest)]
    · simp [List.intercalate_cons_cons, Source.fieldText]
    · simp

end Json

namespace Source

mutual

/-- The tree of a written value: like the value itself, but for the numbers, which are what their
texts are read as. -/
def written : Json → Source
  | .null => .null
  | .bool b => .bool b
  | .number n => .number n.reread?
  | .string s => .string (some s)
  | .array items => .array (writtenItems items)
  | .object fields => .object (writtenFields fields)

def writtenItems : List Json → List Source
  | [] => []
  | v :: rest => written v :: writtenItems rest

def writtenFields : List (String × Json) → List (Option String × Source)
  | [] => []
  | (k, v) :: rest => (some k, written v) :: writtenFields rest

end

mutual

theorem spells_write : ∀ v : Json, Spells (Json.write v) (written v)
  | .null => spells_null
  | .bool b => spells_bool b
  | .number n => spells_number n
  | .string s => spells_quoted s
  | .array items => by
      rw [Json.write, Json.writeItems_eq]
      exact spells_list (spells_items items)
  | .object fields => by
      rw [Json.write, Json.writeFields_eq]
      have h := spells_object (spells_fields fields)
      rwa [List.map_map] at h

theorem spells_items : ∀ items : List Json,
    List.Forall₂ Spells (items.map Json.write) (writtenItems items)
  | [] => .nil
  | v :: rest => .cons (spells_write v) (spells_items rest)

theorem spells_fields : ∀ fields : List (String × Json),
    List.Forall₂ SpellsField (fields.map fun e => (e.1, Json.write e.2)) (writtenFields fields)
  | [] => .nil
  | (_, v) :: rest => .cons ⟨rfl, spells_write v⟩ (spells_fields rest)

end

/-- A text of its own is read to its end. -/
theorem Spells.ofText {text : List Char} {source : Source} (h : Spells text source) :
    ofText (String.ofList text) = (source, true) := by
  have hscan := h.scan (2 * text.length + 1) [] (by omega) Numeral.stops_nil
  rw [List.append_nil] at hscan
  unfold Source.ofText
  rw [String.toList_ofList]
  simp [hscan, skipSpace]

end Source

end PortGraph
