import PortGraph.Proofs.Results
import PortGraph.Proofs.Text.Parts
import PortGraph.Work.Template

/-!
Templates in one pass. Every template is a row of literals and tokens, and rendering puts the
selected texts where the tokens stand. What is put in is text and nothing more, braces included.
-/

namespace PortGraph.Template

/-- Literals and tokens in turn: each token with the literal before it, and the last literal. -/
structure Layout where
  parts : List (String × String)
  last : String

/-- What a token gives way to when it selects this: a text as it is, nothing for null or for nothing
at all, and the compact text of any other value. -/
inductive Shows : Option Json → String → Prop
  | text (s : String) : Shows (some (.string s)) s
  | null : Shows (some .null) ""
  | nothing : Shows none ""
  | other {v : Json} (htext : ∀ s, v ≠ .string s) (hnull : v ≠ .null) : Shows (some v) v.compact

def Inserts (v : Json) (token text : String) : Prop :=
  ∃ path, Path.parse token = .ok path ∧ Shows (path.select? v) text

namespace Layout

/-- The literals in their places, with a text in the place of each token. -/
def fill (t : Layout) (f : String → String) : String :=
  t.parts.foldr (fun part rest => part.1 ++ f part.2 ++ rest) t.last

/-- The template itself: its tokens stand in double braces. -/
def text (t : Layout) : String := t.fill fun token => "\x7b\x7b" ++ token ++ "\x7d\x7d"

/-- No other braces can be taken for those of a token. -/
structure Separate (t : Layout) : Prop where
  literals : ∀ part ∈ t.parts, Text.Plain '{' part.1.toList
  tokens : ∀ part ∈ t.parts, Text.Plain '}' part.2.toList
  /-- After its first opening braces the last literal has no closing ones. -/
  last : ∀ before after, t.last.toList = before ++ '{' :: '{' :: after → Text.Plain '{' before →
    ¬ ['}', '}'] <:+: after

end Layout

/-! ### Pieces -/

theorem pieces_token {before token rest : List Char} (hbefore : Text.Plain '{' before)
    (htoken : Text.Plain '}' token) :
    pieces (before ++ '{' :: '{' :: (token ++ '}' :: '}' :: rest)) =
      .literal before :: .token token :: pieces rest := by
  have hopen : Text.splitAt? ['{', '{'] (before ++ '{' :: '{' :: (token ++ '}' :: '}' :: rest)) =
      some (before, token ++ '}' :: '}' :: rest) := Text.splitAt?_double.mpr ⟨rfl, hbefore⟩
  have hclose : Text.splitAt? ['}', '}'] (token ++ '}' :: '}' :: rest) = some (token, rest) :=
    Text.splitAt?_double.mpr ⟨rfl, htoken⟩
  rw [pieces]
  split
  · rename_i h
    simp [hopen] at h
  · rename_i h
    obtain ⟨rfl, rfl⟩ := Prod.mk.inj (Option.some.inj (hopen.symm.trans h))
    split
    · rename_i h'
      simp [hclose] at h'
    · rename_i h'
      obtain ⟨rfl, rfl⟩ := Prod.mk.inj (Option.some.inj (hclose.symm.trans h'))
      rfl

theorem pieces_last {cs : List Char} (h : ∀ before after, cs = before ++ '{' :: '{' :: after →
    Text.Plain '{' before → ¬ ['}', '}'] <:+: after) : pieces cs = [.literal cs] := by
  rw [pieces]
  split
  · rfl
  · rename_i before after hopen
    obtain ⟨hcs, hbefore⟩ := Text.splitAt?_double.mp hopen
    split
    · rfl
    · rename_i token rest hclose
      have hno := (Text.splitAt?_eq_none (by simp)).mpr (h before after hcs hbefore)
      simp [hno] at hclose

namespace Layout

variable {t : Layout} {v : Json} {part : String × String}

theorem text_cons (part : String × String) (parts : List (String × String)) (last : String) :
    text ⟨part :: parts, last⟩ =
      part.1 ++ ("\x7b\x7b" ++ part.2 ++ "\x7d\x7d") ++ text ⟨parts, last⟩ := rfl

theorem toList_text_cons (part : String × String) (parts : List (String × String)) (last : String) :
    (text ⟨part :: parts, last⟩).toList = part.1.toList ++
      '{' :: '{' :: (part.2.toList ++ '}' :: '}' :: (text ⟨parts, last⟩).toList) := by
  simp [text_cons]

theorem fill_congr {f g : String → String} (h : ∀ part ∈ t.parts, f part.2 = g part.2) :
    t.fill f = t.fill g := by
  obtain ⟨parts, last⟩ := t
  induction parts with
  | nil => rfl
  | cons part parts ih =>
    have hrest : fill ⟨parts, last⟩ f = fill ⟨parts, last⟩ g :=
      ih fun q hq => h q (List.mem_cons_of_mem _ hq)
    change part.1 ++ f part.2 ++ fill ⟨parts, last⟩ f = part.1 ++ g part.2 ++ fill ⟨parts, last⟩ g
    rw [h part (by simp), hrest]

theorem Separate.tail {parts : List (String × String)} {last : String}
    (h : Separate ⟨part :: parts, last⟩) : Separate ⟨parts, last⟩ where
  literals := fun q hq => h.literals q (List.mem_cons_of_mem _ hq)
  tokens := fun q hq => h.tokens q (List.mem_cons_of_mem _ hq)
  last := h.last

/-- The pieces of a template are its literals and tokens. -/
theorem Separate.pieces (h : t.Separate) : Template.pieces t.text.toList =
    t.parts.flatMap (fun part => [.literal part.1.toList, .token part.2.toList]) ++
      [.literal t.last.toList] := by
  obtain ⟨parts, last⟩ := t
  induction parts with
  | nil => exact pieces_last h.last
  | cons part parts ih =>
    rw [toList_text_cons, pieces_token (h.literals part (by simp)) (h.tokens part (by simp)),
      ih h.tail]
    rfl

/-! ### Every template is laid out -/

theorem separate_literal {cs : List Char} (h : ∀ before after,
    Text.splitAt? ['{', '{'] cs = some (before, after) → ¬ ['}', '}'] <:+: after) :
    Separate ⟨[], String.ofList cs⟩ where
  literals := by simp
  tokens := by simp
  last := fun before after hcs hbefore =>
    h before after (Text.splitAt?_double.mpr ⟨by simpa using hcs, hbefore⟩)

theorem exists_of_toList (cs : List Char) : ∃ t : Layout, t.Separate ∧ t.text.toList = cs := by
  fun_induction Template.pieces cs with
  | case1 cs hopen =>
    refine ⟨⟨[], String.ofList cs⟩, separate_literal fun before after h => ?_, by simp [text, fill]⟩
    simp [hopen] at h
  | case2 cs before after hopen hclose =>
    refine ⟨⟨[], String.ofList cs⟩, separate_literal fun before' after' h => ?_,
      by simp [text, fill]⟩
    obtain ⟨rfl, rfl⟩ := Prod.mk.inj (Option.some.inj (hopen.symm.trans h))
    exact (Text.splitAt?_eq_none (by simp)).mp hclose
  | case3 cs before after hopen token rest hclose _ ih =>
    obtain ⟨⟨parts, last⟩, hseparate, htext⟩ := ih
    obtain ⟨hcs, hbefore⟩ := Text.splitAt?_double.mp hopen
    obtain ⟨hafter, htoken⟩ := Text.splitAt?_double.mp hclose
    refine ⟨⟨(String.ofList before, String.ofList token) :: parts, last⟩, ?_, ?_⟩
    · exact {
        literals := List.forall_mem_cons.mpr ⟨by simpa using hbefore, hseparate.literals⟩
        tokens := List.forall_mem_cons.mpr ⟨by simpa using htoken, hseparate.tokens⟩
        last := hseparate.last }
    · rw [text_cons, hcs, hafter]
      simp [htext]

/-- What holds of layouts holds of all templates. -/
theorem exists_layout (template : String) : ∃ t : Layout, t.Separate ∧ t.text = template := by
  obtain ⟨t, hseparate, htext⟩ := exists_of_toList template.toList
  exact ⟨t, hseparate, String.toList_injective htext⟩

end Layout

/-! ### Rendering -/

/-- The text that a token gives way to; nothing for one that is no path. -/
def shown (v : Json) (token : String) : String :=
  match Path.parse token with
  | .ok path => String.ofList (inserted (path.select? v))
  | .error _ => ""

def Piece.shown (v : Json) : Piece → List Char
  | .literal cs => cs
  | .token expression => (Template.shown v (String.ofList expression)).toList

/-- A token that is a path. -/
def Piece.Readable : Piece → Prop
  | .literal _ => True
  | .token expression => ∃ path, Path.parse (String.ofList expression) = .ok path

theorem inserted_other {v : Json} (htext : ∀ s, v ≠ .string s) (hnull : v ≠ .null) :
    inserted (some v) = v.write := by
  cases v with
  | null => exact absurd rfl hnull
  | string s => exact absurd rfl (htext s)
  | _ => rfl

theorem Shows.eq {v? : Option Json} {s : String} (h : Shows v? s) :
    s = String.ofList (inserted v?) := by
  cases h with
  | text s => simp [inserted]
  | null => rfl
  | nothing => rfl
  | other htext hnull => rw [inserted_other htext hnull, Json.compact]

theorem shows_inserted (v? : Option Json) : Shows v? (String.ofList (inserted v?)) := by
  cases v? with
  | none => exact .nothing
  | some v =>
    by_cases hnull : v = .null
    · exact hnull ▸ .null
    by_cases htext : ∃ s, v = .string s
    · obtain ⟨s, rfl⟩ := htext
      simpa [inserted] using Shows.text s
    · have hother : ∀ s, v ≠ .string s := fun s hs => htext ⟨s, hs⟩
      rw [inserted_other hother hnull]
      exact .other hother hnull

theorem inserts_iff {v : Json} {token text : String} :
    Inserts v token text ↔ (∃ path, Path.parse token = .ok path) ∧ text = shown v token := by
  constructor
  · rintro ⟨path, hparse, hshows⟩
    refine ⟨⟨path, hparse⟩, ?_⟩
    rw [shown, hparse]
    exact hshows.eq
  · rintro ⟨⟨path, hparse⟩, rfl⟩
    refine ⟨path, hparse, ?_⟩
    rw [shown, hparse]
    exact shows_inserted _

theorem Piece.Readable.render {v : Json} {piece : Piece} (h : piece.Readable) :
    piece.render v = .ok (piece.shown v) := by
  cases piece with
  | literal cs => rfl
  | token expression =>
    obtain ⟨path, hparse⟩ := h
    simp [Piece.render, Piece.shown, Template.shown, hparse, Except.map]

theorem Piece.readable_of_render {v : Json} {piece : Piece} {cs : List Char}
    (h : piece.render v = .ok cs) : piece.Readable := by
  cases piece with
  | literal _ => trivial
  | token expression =>
    cases hparse : Path.parse (String.ofList expression) with
    | error e => simp [Piece.render, hparse, Except.map] at h
    | ok path => exact ⟨path, hparse⟩

theorem render_of_readable {template : String} {v : Json}
    (h : ∀ piece ∈ pieces template.toList, piece.Readable) :
    render template v = .ok (String.ofList ((pieces template.toList).flatMap (Piece.shown v))) := by
  rw [render, mapM_eq_ok_map fun piece hpiece => (h piece hpiece).render]
  rfl

theorem readable_of_render {template out : String} {v : Json} (h : render template v = .ok out) :
    ∀ piece ∈ pieces template.toList, piece.Readable := by
  unfold render at h
  cases hparts : (pieces template.toList).mapM (Piece.render v) with
  | error e => simp [hparts, Except.map] at h
  | ok parts =>
    intro piece hpiece
    obtain ⟨cs, hcs⟩ := ok_of_mapM hparts piece hpiece
    exact Piece.readable_of_render hcs

namespace Layout

theorem Separate.readable_iff {t : Layout} (h : t.Separate) :
    (∀ piece ∈ Template.pieces t.text.toList, piece.Readable) ↔
      ∀ part ∈ t.parts, ∃ path, Path.parse part.2 = .ok path := by
  rw [h.pieces, List.forall_mem_append, List.forall_mem_flatMap]
  simp [Piece.Readable]

theorem toList_fill (t : Layout) (f : String → String) : (t.fill f).toList =
    t.parts.flatMap (fun part => part.1.toList ++ (f part.2).toList) ++ t.last.toList := by
  obtain ⟨parts, last⟩ := t
  induction parts with
  | nil => rfl
  | cons part parts ih =>
    change (part.1 ++ f part.2 ++ fill ⟨parts, last⟩ f).toList = _
    simp [ih]

theorem Separate.flatMap_shown {t : Layout} (h : t.Separate) (v : Json) :
    String.ofList ((Template.pieces t.text.toList).flatMap (Piece.shown v)) =
      t.fill (shown v) := by
  rw [h.pieces, ← String.ofList_toList (s := t.fill (shown v)), toList_fill]
  simp [Piece.shown, List.flatMap_append, List.flatMap_assoc]

theorem Separate.render {t : Layout} (h : t.Separate) {v : Json} {out : String} :
    Template.render t.text v = .ok out ↔
      (∀ part ∈ t.parts, ∃ path, Path.parse part.2 = .ok path) ∧ out = t.fill (shown v) := by
  rw [← h.readable_iff]
  constructor
  · intro hrender
    have hreadable := readable_of_render hrender
    rw [render_of_readable hreadable, h.flatMap_shown] at hrender
    exact ⟨hreadable, (Except.ok.inj hrender).symm⟩
  · rintro ⟨hreadable, rfl⟩
    rw [render_of_readable hreadable, h.flatMap_shown]

end Layout

/-- A template is rendered when each of its tokens is a path, and then once: its literals stay, each
token gives way to what it selects, and braces that come in this way open no token. -/
theorem renderedOnce {t : Layout} (h : t.Separate) (v : Json) :
    ((∃ out, render t.text v = .ok out) ↔
        ∀ part ∈ t.parts, ∃ path, Path.parse part.2 = .ok path) ∧
      ∀ out, render t.text v = .ok out ↔
        ∃ f, (∀ part ∈ t.parts, Inserts v part.2 (f part.2)) ∧ out = t.fill f := by
  refine ⟨by simp [h.render], fun out => ?_⟩
  rw [h.render]
  constructor
  · rintro ⟨hparse, rfl⟩
    exact ⟨shown v, fun part hpart => inserts_iff.mpr ⟨hparse part hpart, rfl⟩, rfl⟩
  · rintro ⟨f, hf, rfl⟩
    refine ⟨fun part hpart => (inserts_iff.mp (hf part hpart)).1, Layout.fill_congr ?_⟩
    exact fun part hpart => (inserts_iff.mp (hf part hpart)).2

/-- A token with a brace of its own, before braces that stay open. -/
def relayed : Layout := ⟨[("\x7d", "\x7bx")], "\x7b\x7b\x7b"⟩

theorem separate_relayed : relayed.Separate where
  literals := by decide +kernel
  tokens := by decide +kernel
  last := by
    intro before after hlast hbefore
    have hcut : Text.splitAt? ['{', '{'] relayed.last.toList = some ([], ['{']) := by
      decide +kernel
    have hfound := Text.splitAt?_double.mpr ⟨hlast, hbefore⟩
    obtain ⟨-, rfl⟩ := Prod.mk.inj (Option.some.inj (hcut.symm.trans hfound))
    decide

/-- What the token selects is the text of a token, and stays. -/
theorem relayed_renderedOnce : relayed.Separate ∧
    relayed.text = "\x7d\x7b\x7b\x7bx\x7d\x7d\x7b\x7b\x7b" ∧
    render relayed.text (.object [("\x7bx", .string "\x7b\x7b$\x7d\x7d")]) =
      .ok "\x7d\x7b\x7b$\x7d\x7d\x7b\x7b\x7b" := by
  refine ⟨separate_relayed, by decide +kernel, ((renderedOnce separate_relayed _).2 _).mpr ?_⟩
  have hparse : Path.parse "\x7bx" = .ok [.key "\x7bx"] := by decide +kernel
  refine ⟨fun _ => "\x7b\x7b$\x7d\x7d", ?_, by decide +kernel⟩
  exact List.forall_mem_singleton.mpr ⟨_, hparse, .text _⟩

end PortGraph.Template
